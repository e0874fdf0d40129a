import Mathlib.Data.List.Sort
import Virtkv.Geometry
import Virtkv.Lib.PQueue

/-!
# Flash bookkeeping

Lines, write pointers, page states and out-of-band words: the part of
`demand_ftl.c` that hands out pages and counts valid and invalid grains. Page
states and block counters are keyed by page index and block number, out-of-band
words and the grain bitmap by grain.

The fields `ipc` and `vpc` of lines and blocks are never changed by the code, and the
counters that only feed statistics are left out.
-/

namespace Virtkv

open Outcome

/-- What a build runs on: the variant, the geometry, the cache size in grains, the hash of
a key, and the kernel's `sort` of 64-bit words by their upper halves (`comp`), which is not
stable. -/
structure Device where
  build : Build
  geo : Geometry
  maxCached : ℕ
  hash : List UInt8 → ℕ
  sort : List ℕ → List ℕ := fun xs => xs.insertionSort fun a b => a / 2 ^ 32 ≤ b / 2 ^ 32

namespace Device

variable (d : Device)

/-- `GRAIN_PER_PAGE`, `GRAINED_UNIT` and `EPP` of the build. -/
def gpp : ℕ := d.build.grainPerPage
def gu : ℕ := d.build.grainedUnit
def epp : ℕ := d.build.epp

/-- `nr_valid_tentries` and `nr_valid_tpages`, as `init_cache` computes them. -/
def nrValidTentries : ℕ :=
  match d.build with
  | .original => d.geo.ttPgs * d.gpp
  | .plus => d.geo.ttPgs * d.gpp + d.gpp
def nrValidTpages : ℕ :=
  match d.build with
  | .original => d.geo.ttPgs * d.gpp / d.epp
  | .plus => d.geo.ttPgs * d.gpp / d.epp + 1

/-- `PPA_TO_PGA`, `G_IDX`, `G_OFFSET`. -/
def ppaToPga (pgidx off : ℕ) : ℕ := pgidx * d.gpp + off
def gIdx (grain : ℕ) : ℕ := grain / d.gpp
def gOffset (grain : ℕ) : ℕ := grain % d.gpp

/-- The grains of a block and of a line. -/
def grainsPerBlk : ℕ := d.geo.pgsPerBlk * d.gpp
def grainsPerLine : ℕ := d.geo.pgsPerLine * d.gpp

end Device

/-- `PG_FREE`, `PG_VALID`, `PG_INVALID`. -/
inductive PageStatus where
  | free
  | valid
  | invalid
  deriving DecidableEq

/-- `USER_IO`, `MAP_IO`, `GC_IO`, `GC_MAP_IO`. -/
inductive IoType where
  | user
  | map
  | gc
  | gcMap
  deriving DecidableEq

/-- Mapping pages go to lines of their own. -/
def IoType.isMap : IoType → Bool
  | .map | .gcMap => true
  | .user | .gc => false

/-- `struct line`; its queue position is kept by the queue. -/
structure Line where
  vgc : ℕ
  igc : ℕ
  map : Bool

/-- Flash state of a shard. A write pointer is the page address it stands on; its
current line is the line of its block. -/
structure Flash where
  lines : ℕ → Line
  wp : IoType → Ppa
  freeLines : List ℕ
  fullLines : List ℕ
  victimPq : PQueue ℕ
  freeLineCnt : ℕ
  fullLineCnt : ℕ
  victimLineCnt : ℕ
  status : ℕ → PageStatus
  blkVgc : ℕ → ℕ
  blkIgc : ℕ → ℕ
  oob : ℕ → ℕ
  grainBitmap : ℕ → Bool
  pgInvCnt : ℕ → ℕ

/-- `n--` and `n++` on an unsigned 32-bit counter. -/
def dec32 (n : ℕ) : ℕ := if n = 0 then uintMax else n - 1
def inc32 (n : ℕ) : ℕ := if n = uintMax then 0 else n + 1

namespace Flash

variable (d : Device)

/-! ### Single updates -/

def setLine (f : Flash) (l : ℕ) (li : Line) : Flash :=
  { f with lines := Function.update f.lines l li }

def setWp (f : Flash) (io : IoType) (p : Ppa) : Flash :=
  { f with wp := Function.update f.wp io p }

def setStatus (f : Flash) (pgidx : ℕ) (st : PageStatus) : Flash :=
  { f with status := Function.update f.status pgidx st }

def addBlkVgc (f : Flash) (b len : ℕ) : Flash :=
  { f with blkVgc := Function.update f.blkVgc b (f.blkVgc b + len) }

def addBlkIgc (f : Flash) (b len : ℕ) : Flash :=
  { f with blkIgc := Function.update f.blkIgc b (f.blkIgc b + len) }

def setGrain (f : Flash) (grain : ℕ) (b : Bool) : Flash :=
  { f with grainBitmap := Function.update f.grainBitmap grain b }

def addInvCnt (f : Flash) (pgidx len : ℕ) : Flash :=
  { f with pgInvCnt := Function.update f.pgInvCnt pgidx (f.pgInvCnt pgidx + len) }

def setPq (f : Flash) (q : PQueue ℕ) : Flash := { f with victimPq := q }

/-- `list_add_tail(&line->entry, &lm->full_line_list); lm->full_line_cnt++`. -/
def addFull (f : Flash) (l : ℕ) : Flash :=
  { f with fullLines := f.fullLines ++ [l], fullLineCnt := inc32 f.fullLineCnt }

/-- `list_del_init(&line->entry); lm->full_line_cnt--`. -/
def delFull (f : Flash) (l : ℕ) : Flash :=
  { f with fullLines := f.fullLines.erase l, fullLineCnt := dec32 f.fullLineCnt }

/-- `list_add_tail(&line->entry, &lm->free_line_list); lm->free_line_cnt++`. -/
def addFree (f : Flash) (l : ℕ) : Flash :=
  { f with freeLines := f.freeLines ++ [l], freeLineCnt := inc32 f.freeLineCnt }

def setVictimCnt (f : Flash) (n : ℕ) : Flash := { f with victimLineCnt := n }

/-- `oob[pgidx][i]`. -/
def oobAt (f : Flash) (pgidx i : ℕ) : ℕ := f.oob (d.ppaToPga pgidx i)

def setOob (f : Flash) (pgidx i v : ℕ) : Flash :=
  { f with oob := Function.update f.oob (d.ppaToPga pgidx i) v }

/-- `for(int i = start; i < GRAIN_PER_PAGE; i++) oob[pgidx][i] = v`. -/
def fillOob (f : Flash) (pgidx start v : ℕ) : Flash :=
  { f with oob := fun x =>
      if d.ppaToPga pgidx start ≤ x ∧ x < d.ppaToPga pgidx d.gpp then v else f.oob x }

/-! ### Lines -/

/-- The priority of a line in the victim queue. -/
def pri (f : Flash) (l : ℕ) : ℕ := (f.lines l).vgc

/-- `pqueue_insert(lm->victim_line_pq, line)`; the array has `tt_lines + 1` slots. -/
def pqInsert (f : Flash) (l : ℕ) : Except Fault Flash := do
  ensure (f.victimPq.size < d.geo.ttLines + 1) .badAccess
  return f.setPq (f.victimPq.insert f.pri l)

/-- `pqueue_insert` and `lm->victim_line_cnt++`. -/
def addVictim (f : Flash) (l : ℕ) : Except Fault Flash := do
  let f ← f.pqInsert d l
  return f.setVictimCnt (inc32 f.victimLineCnt)

/-- `get_next_free_line`. -/
def getNextFreeLine (f : Flash) : Except Fault (ℕ × Flash) :=
  match f.freeLines with
  | [] => .error .noFreeLine
  | l :: ls => .ok (l, { f with freeLines := ls, freeLineCnt := dec32 f.freeLineCnt })

/-- Point a write pointer at the first page of a line and record the line's kind. -/
def openLine (f : Flash) (io : IoType) (l : ℕ) : Flash :=
  (f.setLine l { f.lines l with map := io.isMap }).setWp io { ch := 0, lun := 0, blk := l, pg := 0 }

/-- `prepare_write_pointer`. -/
def prepareWritePointer (f : Flash) (io : IoType) : Except Fault Flash := do
  let (l, f) ← f.getNextFreeLine
  return f.openLine io l

/-- The part of `advance_write_pointer` that puts a used-up line on the full list or
into the victim queue. -/
def retireLine (f : Flash) (l : ℕ) : Except Fault Flash :=
  if (f.lines l).igc = 0 then .ok (f.addFull l)
  else do
    ensure ((f.lines l).vgc < d.grainsPerLine) .bug
    f.addVictim d l

/-- The part of `advance_write_pointer` for the last page of a line: retire it and take
the next free one. -/
def nextLine (f : Flash) (io : IoType) : Except Fault Flash := do
  let f' ← f.retireLine d (f.wp io).blk
  ensure ((f.wp io).blk < d.geo.blksPerPl) .bug
  let (l, f') ← f'.getNextFreeLine
  ensure (l < d.geo.blksPerPl) .bug
  return f'.openLine io l

/-- `advance_write_pointer`. -/
def advanceWritePointer (f : Flash) (io : IoType) : Except Fault Flash := do
  let g := d.geo
  let p := f.wp io
  ensure (p.pg < g.pgsPerBlk) .bug
  let pg := p.pg + 1
  if pg % g.pgsPerOneshotpg ≠ 0 then return f.setWp io { p with pg := pg }
  let pg := pg - g.pgsPerOneshotpg
  ensure (p.ch < g.nchs) .bug
  if p.ch + 1 ≠ g.nchs then return f.setWp io { p with pg := pg, ch := p.ch + 1 }
  ensure (p.lun < g.lunsPerCh) .bug
  if p.lun + 1 ≠ g.lunsPerCh then
    return f.setWp io { p with pg := pg, ch := 0, lun := p.lun + 1 }
  let pg := pg + g.pgsPerOneshotpg
  if pg ≠ g.pgsPerBlk then return f.setWp io { p with pg := pg, ch := 0, lun := 0 }
  f.nextLine d io

/-- `get_new_page`. -/
def getNewPage (f : Flash) (io : IoType) : Ppa := f.wp io

/-! ### Pages and grains -/

/-- `mark_page_valid`. -/
def markPageValid (f : Flash) (p : Ppa) : Except Fault Flash := do
  let pgidx ← d.geo.ppa2pgidx p
  ensure (f.status pgidx = .free) .bug
  return f.setStatus pgidx .valid

/-- `mark_page_invalid`. -/
def markPageInvalid (f : Flash) (pgidx : ℕ) : Except Fault Flash := do
  ensure (f.status pgidx = .valid) .bug
  ensure (d.build = .plus → f.pgInvCnt pgidx = d.gpp) .bug
  return f.setStatus pgidx .invalid

/-- The block of a page, as `get_blk` finds it. -/
def blkOf (pgidx : ℕ) : ℕ := pgidx / d.geo.pgsPerBlk

/-- The grain bitmap's part of `mark_grain_valid`: set the first grain of the range. -/
def bitmapSet (f : Flash) (grain : ℕ) : Except Fault Flash :=
  match d.build with
  | .original => do
    ensure (f.grainBitmap grain = false) .bug
    return f.setGrain grain true
  | .plus => .ok f

/-- `mark_grain_valid`. -/
def markGrainValid (f : Flash) (grain len : ℕ) : Except Fault Flash := do
  let page := d.gIdx grain
  let p ← d.geo.ppaToStruct page
  ensure (f.status page = .valid) .bug
  ensure (f.blkVgc (blkOf d page) ≤ d.grainsPerBlk) .bug
  ensure ((f.lines p.blk).vgc ≤ d.grainsPerLine) .bug
  let f := f.addBlkVgc (blkOf d page) len
  let f := f.setLine p.blk { f.lines p.blk with vgc := (f.lines p.blk).vgc + len }
  f.bitmapSet d grain

/-- `page_grains_invalid` (ORIGINAL). -/
def pageGrainsInvalid (f : Flash) (pgidx : ℕ) : Bool :=
  (List.range d.gpp).all fun i => f.grainBitmap (d.ppaToPga pgidx i) = false

/-- `vgc -= len; igc += len` of a line, with the queue following if it is queued. -/
def lowerVgc (f : Flash) (l len : ℕ) : Flash :=
  let f' := f.setLine l
    { f.lines l with vgc := (f.lines l).vgc - len, igc := (f.lines l).igc + len }
  if f'.victimPq.pos l ≠ 0 then
    f'.setPq (f'.victimPq.changePriority f'.pri (0 < len) l)
  else f'

/-- Move a line that was full from the full list to the victim queue. -/
def fullToVictim (f : Flash) (l : ℕ) : Except Fault Flash := (f.delFull l).addVictim d l

/-- `if (was_full_line)` of `mark_grain_invalid`. -/
def demote (f : Flash) (l : ℕ) (wasFull : Bool) : Except Fault Flash :=
  if wasFull then f.fullToVictim d l else .ok f

/-- The grain and page state of one round of `mark_grain_invalid`. -/
def killGrain (f : Flash) (grain page len : ℕ) : Except Fault Flash :=
  match d.build with
  | .original => do
    ensure (f.grainBitmap grain = true) .bug
    return f.setGrain grain false
  | .plus => do
    ensure (f.pgInvCnt page + len ≤ d.gpp) .bug
    let f := f.addInvCnt page len
    if f.pgInvCnt page = d.gpp then f.markPageInvalid d page else return f

/-- One round of `mark_grain_invalid` on page `page` of line `l`, for `len` grains from
`grain` on. The flag `wasFull` is carried from round to round. -/
def markGrainInvalidPage (f : Flash) (l grain page len : ℕ) (wasFull : Bool) :
    Except Fault (Bool × Flash) := do
  ensure (0 < len) .bug
  ensure (f.status page = .valid) .bug
  ensure (f.blkIgc (blkOf d page) < d.grainsPerBlk) .bug
  ensure (0 < f.blkVgc (blkOf d page) ∧ f.blkVgc (blkOf d page) ≤ d.grainsPerBlk) .bug
  ensure ((f.lines l).igc < d.grainsPerLine) .bug
  ensure (d.grainsPerLine ≤ (f.lines l).vgc → (f.lines l).igc = 0) .bug
  let wasFull := wasFull || decide (d.grainsPerLine ≤ (f.lines l).vgc)
  ensure (len ≤ (f.lines l).vgc) .bug
  let f := (f.addBlkIgc (blkOf d page) len).lowerVgc l len
  let f ← f.demote d l wasFull
  ensure ((f.lines l).vgc ≤ d.grainsPerLine) .bug
  let f ← f.killGrain d grain page len
  return (wasFull, f)

/-- The `again` loop of `mark_grain_invalid`. -/
def markGrainInvalidLoop : ℕ → Flash → Ppa → ℕ → ℕ → ℕ → Bool → Except Fault Flash
  | 0, _, _, _, _, _, _ => .error .hang
  | fuel + 1, f, p, grain, page, rem, wasFull => do
    let len := min rem (d.gpp - d.gOffset grain)
    let (wasFull, f) ← f.markGrainInvalidPage d p.blk grain page len wasFull
    if rem - len = 0 then return f
    let q ← d.geo.peekNextPage p
    ensure (q.blk = p.blk) .bug
    let page ← d.geo.ppa2pgidx q
    markGrainInvalidLoop fuel f q (d.ppaToPga page 0) page (rem - len) wasFull

/-- `mark_grain_invalid`. Every round takes at least one grain, so `len` rounds are
enough; with `len` 0 the first round fails. -/
def markGrainInvalid (f : Flash) (grain len : ℕ) : Except Fault Flash := do
  let page := d.gIdx grain
  let p ← d.geo.ppaToStruct page
  ensure (d.gpp < len → d.geo.lastPgInLine p = false) .bug
  markGrainInvalidLoop d (len + 1) f p grain page len false

/-- The loop of `enough_space_in_line` from page `p`, with `rem` grains left. -/
def enoughSpaceLoop (line lun : ℕ) : ℕ → Ppa → ℕ → ℕ → Except Fault Bool
  | 0, p, _, _ => .ok (p.blk = line)
  | fuel + 1, p, grain, rem =>
    if rem = 0 then .ok (p.blk = line)
    else do
      let q ← d.geo.peekNextPage p
      if q.lun ≠ lun then return false
      enoughSpaceLoop line lun fuel q 0 (rem - min rem (d.gpp - grain % d.gpp))

/-- `enough_space_in_line`. -/
def enoughSpaceInLine (p : Ppa) (grain len : ℕ) : Except Fault Bool :=
  enoughSpaceLoop d p.blk p.lun len p grain len

/-- The loop of `clear_rest_of_line`, with `rem` grains of the LUN left. Returns the
credits. -/
def clearRestLoop (io : IoType) (lun : ℕ) :
    ℕ → Flash → Ppa → ℕ → ℕ → ℕ → Except Fault (ℕ × Flash)
  | 0, _, _, _, _, _ => .error .hang
  | fuel + 1, f, p, gOff, rem, credits =>
    if p.lun ≠ lun then .ok (credits, f)
    else do
      let pgidx ← d.geo.ppa2pgidx p
      let len := min rem (d.gpp - gOff % d.gpp)
      let f ← f.markGrainValid d (d.ppaToPga pgidx gOff) len
      let f ← f.markGrainInvalid d (d.ppaToPga pgidx gOff) len
      let f := f.fillOob d pgidx gOff uintMax
      let q ← d.geo.peekNextPage p
      let _ ← d.geo.ppa2pgidx q
      let f ←
        if q.lun = lun then do
          let f ← f.advanceWritePointer d io
          f.markPageValid d q
        else pure f
      clearRestLoop io lun fuel f q 0 (rem - len) (credits + len)

/-- `clear_rest_of_line`. The loop ends with the stripe, so the pages of a line are
enough rounds. -/
def clearRestOfLine (f : Flash) (p : Ppa) (gOff : ℕ) (io : IoType) : Except Fault (ℕ × Flash) :=
  clearRestLoop d io p.lun (d.geo.pgsPerLine + 1) f p gOff (d.geo.pgsPerLun * d.gpp) 0

/-- `get_new_page`, `advance_write_pointer` and `mark_page_valid` in the order every
writer calls them. -/
def takePage (f : Flash) (io : IoType) : Except Fault (Ppa × ℕ × Flash) := do
  let p := f.getNewPage io
  let pgidx ← d.geo.ppa2pgidx p
  let f ← f.advanceWritePointer d io
  let f ← f.markPageValid d p
  return (p, pgidx, f)

/-- `mark_grain_valid` and `mark_grain_invalid` of the rest of a page. -/
def discardFrom (f : Flash) (pgidx off : ℕ) : Except Fault Flash := do
  let f ← f.markGrainValid d (d.ppaToPga pgidx off) (d.gpp - off)
  f.markGrainInvalid d (d.ppaToPga pgidx off) (d.gpp - off)

/-- The `skip` and `again` loops around a page allocation: page 0 is marked and given
up, any other page is taken. -/
def takePageLoop (io : IoType) : ℕ → Flash → Except Fault (Ppa × ℕ × Flash)
  | 0, _ => .error .hang
  | fuel + 1, f => do
    let (p, pgidx, f) ← f.takePage d io
    if pgidx = 0 then do
      let f ← f.discardFrom d 0 0
      takePageLoop io fuel f
    else return (p, pgidx, f)

/-- A page other than page 0. -/
def newPage (f : Flash) (io : IoType) : Except Fault (Ppa × ℕ × Flash) :=
  takePageLoop d io (d.geo.ttPgs + 1) f

/-! ### Initialisation -/

/-- `init_lines` and the arrays of `demand_init`. -/
def blank : Flash where
  lines := fun _ => { vgc := 0, igc := 0, map := false }
  wp := fun _ => { ch := 0, lun := 0, blk := 0, pg := 0 }
  freeLines := List.range d.geo.ttLines
  fullLines := []
  victimPq := { d := fun _ => 0, size := 1, pos := fun _ => 0 }
  freeLineCnt := d.geo.ttLines
  fullLineCnt := 0
  victimLineCnt := 0
  status := fun _ => .free
  blkVgc := fun _ => 0
  blkIgc := fun _ => 0
  oob := fun _ => 2
  grainBitmap := fun _ => false
  pgInvCnt := fun _ => 0

/-- `conv_init_ftl`: the write pointers, and page 0 is given up. -/
def init : Except Fault Flash := do
  let f ← (blank d).prepareWritePointer .user
  let f ← f.prepareWritePointer .map
  let f ← f.prepareWritePointer .gcMap
  let f ← f.prepareWritePointer .gc
  let (_, pgidx, f) ← f.takePage d .user
  ensure (pgidx = 0) .bug
  f.discardFrom d 0 0

end Flash

end Virtkv
