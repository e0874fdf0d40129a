import Virtkv.Command.Defs

/-!
# Offset deletes during garbage collection

A delete of a part of a pair is recorded and carried out when the pair is
collected: the bytes behind it move down, and a trailer at the end of the pair
memory remembers what was removed, so that later offsets can be translated. A
shift is an offset and a length in one 64-bit word, as in the log.

The shift arrays of the source are emptied after every pair; they are lists
here.
-/

namespace Virtkv

open Outcome

namespace Shift

variable (d : Device)

/-- The trailer's marks. -/
def startMarker : ℕ := uintMax
def endMarker : ℕ := 0xABABABAB

/-- The capacity of the shift arrays. -/
def maxShifts : ℕ := 1024

/-- Offset and length of a shift. -/
def off (x : ℕ) : ℕ := x / 2 ^ 32
def len (x : ℕ) : ℕ := x % 2 ^ 32
def pack (off len : ℕ) : ℕ := off * 2 ^ 32 + len

/-- `*(uint32_t*) (mem + i)` and `*(uint64_t*) (mem + i)`. -/
def word (mem : List UInt8) (i : ℕ) : Except Fault ℕ := do
  let b ← PairMem.read mem i 4
  return ofLe32 b
def dword (mem : List UInt8) (i : ℕ) : Except Fault ℕ := do
  let lo ← word mem i
  let hi ← word mem (i + 4)
  return hi * 2 ^ 32 + lo

def le64 (n : ℕ) : List UInt8 := le32 (n % 2 ^ 32) ++ le32 (n / 2 ^ 32)

/-- Arithmetic of `uint64_t`. -/
def add64 (a b : ℕ) : ℕ := (a + b) % 2 ^ 64
def sub64 (a b : ℕ) : ℕ := if b ≤ a then a - b else a + 2 ^ 64 - b

/-! ### The trailer of a pair -/

/-- `__has_marker`. -/
def hasMarker (mem : List UInt8) (glen : ℕ) : Except Fault Bool := do
  ensure (4 ≤ glen * d.gu) .badAccess
  let w ← word mem (glen * d.gu - 4)
  return w = endMarker

/-- The search of `__get_existing_shifts` for the start mark from byte `4 * n` down:
where it is, and how many words on the way are zero. -/
def findStart (mem : List UInt8) : ℕ → ℕ → Except Fault (ℕ × ℕ)
  | 0, empty => do
    let w ← word mem 0
    ensure (w = startMarker) .bug
    return (0, empty)
  | n + 1, empty => do
    let w ← word mem (4 * (n + 1))
    if w = startMarker then return (4 * (n + 1), empty)
    findStart mem n (if w = 0 then empty + 1 else empty)

/-- The read loop of `__get_existing_shifts`. -/
def readShifts (mem : List UInt8) (glen : ℕ) : ℕ → ℕ → Except Fault (List ℕ)
  | 0, _ => .ok []
  | n + 1, i => do
    let x ← dword mem i
    if off x = endMarker then return [x]
    ensure (i + 8 ≤ glen * d.gu) .bug
    let xs ← readShifts mem glen n (i + 8)
    return x :: xs

/-- `__get_existing_shifts`. -/
def getExistingShifts (mem : List UInt8) (glen : ℕ) : Except Fault (List ℕ) := do
  let e := glen * d.gu - 4
  let (i, empty) ← findStart mem (e / 4) 0
  let xs ← readShifts d mem glen ((e - i - 4) / 8 - empty / 2) (i + 4)
  ensure (xs.length ≤ maxShifts) .badAccess
  return xs

/-- A failure while the trailer is read. -/
def asTrailerScan {α : Type} : Except Fault α → Except Fault α
  | .ok a => .ok a
  | .error _ => .error .trailerScan

/-- The shifts in the trailer of a pair, if it has one. -/
def existing (mem : List UInt8) (glen : ℕ) : Except Fault (List ℕ) := do
  let marked ← hasMarker d mem glen
  if marked then asTrailerScan (getExistingShifts d mem glen) else return []

/-! ### Collecting and combining the recorded deletes -/

/-- `__collect_shifts`. -/
def collectLoop (lpa grain : ℕ) : ℕ → InvLog → List ℕ × InvLog
  | 0, log => ([], log)
  | n + 1, log =>
    match log.offDel lpa grain with
    | (none, log) => ([], log)
    | (some x, log) =>
      let (xs, log) := collectLoop lpa grain n log
      (x :: xs, log)

/-- `__collect_shifts`; ORIGINAL records no offset deletes. -/
def collect (log : InvLog) (lpa grain : ℕ) : List ℕ × InvLog :=
  match d.build with
  | .original => ([], log)
  | .plus => collectLoop lpa grain log.offDelHash.length log

/-- The loop of `__combine_shifts` with the range that is being built. -/
def combineLoop : List ℕ → ℕ → ℕ → ℕ → Except Fault (List ℕ)
  | [], o, l, _ => .ok [pack o l]
  | x :: xs, o, l, range =>
    if o = off x ∧ l = len x then combineLoop xs o l range
    else if range < off x ∨ off x + len x < o then do
      let ys ← combineLoop xs (off x) (len x) (off x + len x)
      return pack o l :: ys
    else if off x + len x ≤ o then combineLoop xs (off x) (l + len x) (off x + (l + len x))
    else if range ≤ off x then combineLoop xs o (l + len x) (o + (l + len x))
    else do
      ensure (o ≤ off x ∧ off x + len x ≤ range) .bug
      combineLoop xs o l (o + l)

/-- `__combine_shifts`. -/
def combine (xs : List ℕ) : Except Fault (List ℕ) :=
  match d.sort xs with
  | [] => .ok []
  | x :: ys => do
    ensure (xs.length ≤ maxShifts) .bug
    combineLoop ys (off x) (len x) (off x + len x)

/-! ### Carrying the deletes out -/

/-- The loop over the existing shifts before a delete: whether one of them is hit, the
shifts not looked at, and what was removed before the delete. -/
def seek (o l : ℕ) : List ℕ → ℕ → Bool × List ℕ × ℕ
  | [], running => (false, [], running)
  | e :: es, running =>
    if (off e < o ∧ o < off e + len e) ∨ (o < off e ∧ off e < o + l) then (true, es, running)
    else if off e < o then seek o l es (running + len e)
    else (false, es, running)

/-- What the deletes make of a pair. -/
structure Result where
  mem : List UInt8
  vlen : ℕ
  changed : Bool
  deleted : ℕ

/-- The loop over the deletes of a pair with `glen` grains and a key of `klen` bytes. -/
def applyLoop (glen klen : ℕ) : List ℕ → List ℕ → ℕ → Result → Except Fault Result
  | [], _, _, r => .ok r
  | x :: xs, es, running, r =>
    let (hit, es, running) := seek (off x) (len x) es running
    -- a delete that hits an existing one is dropped
    if hit then applyLoop glen klen xs es running r
    else
      let o := sub64 (off x) running
      if add64 (sub64 o (PairMem.metaSz klen)) (len x) = r.vlen then
        .ok { r with vlen := 0, changed := true }
      else do
        let l := if glen * d.gu < add64 o (len x) then sub64 (glen * d.gu) o else len x
        ensure (add64 o l ≤ glen * d.gu) .bug
        let moved ← PairMem.read r.mem (o + l) l
        let mem ← PairMem.write r.mem o moved
        applyLoop glen klen xs es (running + l)
          { mem := mem, vlen := r.vlen - l, changed := true, deleted := r.deleted + l }

/-- Write the words of the trailer. -/
def writeShifts : List ℕ → ℕ → List UInt8 → Except Fault (List UInt8)
  | [], _, mem => .ok mem
  | x :: xs, i, mem => do
    let mem ← PairMem.write mem i (le64 x)
    writeShifts xs (i + 8) mem

/-- Round up to words. -/
def roundUp4 (n : ℕ) : ℕ := (n + 3) / 4 * 4

/-- The new trailer of a pair that was changed, and the new number of grains. -/
def writeTrailer (klen : ℕ) (es ps : List ℕ) (r : Result) : Except Fault (ℕ × List UInt8) := do
  let space := (es.length + ps.length) * 8 + 4 + 4 + (4 - klen % 4)
  let start := roundUp4 (PairMem.metaSz klen + r.vlen)
  ensure (space ≤ r.deleted) .bug
  let n := (start + space) / d.gu
  let newLen := if r.vlen % d.gu ≠ 0 then n + 1 else n
  ensure (start + 4 ≤ newLen * d.gu) .badAccess
  let mem ← PairMem.write r.mem start (le32 startMarker)
  let mem ← PairMem.write mem (start + 4) (List.replicate (newLen * d.gu - (start + 4)) 0)
  let mem ← writeShifts (d.sort (es ++ ps)) (start + 4) mem
  let mem ← PairMem.write mem (newLen * d.gu - 4) (le32 endMarker)
  return (newLen, mem)

/-- What becomes of a pair of `glen` grains with the recorded deletes `pre`: nothing,
or its new number of grains and its memory. -/
def shiftPair (glen : ℕ) (mem : List UInt8) (pre : List ℕ) :
    Except Fault (Option (ℕ × List UInt8)) := do
  let vlen ← PairMem.vlenFromValue mem
  let klen ← PairMem.klenFromValue mem
  let es ← existing d mem glen
  let ps ← combine d pre
  let r ← applyLoop d glen klen ps es 0 { mem := mem, vlen := vlen, changed := false, deleted := 0 }
  if r.vlen = 0 then return none
  if r.changed then do
    ensure (d.grainsOf r.vlen ≤ 100000) .bug
    let mem ← PairMem.write r.mem (klenMarkerSz + klen) (le32 r.vlen)
    let (newLen, mem) ← writeTrailer d klen es ps { r with mem := mem }
    return some (newLen, mem)
  else do
    ensure (glen ≤ 100000) .bug
    return some (glen, r.mem)

end Shift

end Virtkv
