import Virtkv.Gc.Erase
import Virtkv.Flash.Init

/-!
# The calls of the flash bookkeeping

The writers and the collector share the lines, pages and counters of a shard through six
calls: take the next page of a write pointer, mark grains valid, give up grains, choose a
victim, erase a block, and put a line back on the free list. `Accounts` is a flash state with
what its clients know of it: the grains they marked, the portions they hold, the lines the
collector has taken. `Allowed` is what a client may ask for in that state.

A portion is what one call of `mark_grain_valid` marked. A pair or a section is held as the
portions of the pages it reaches, and is given up at once.
-/

namespace Virtkv

open Outcome

/-- A flash state with the records of its clients. -/
structure Accounts where
  flash : Flash
  marked : Finset ℕ
  held : Finset (ℕ × ℕ)
  hand : Finset ℕ
  erased : Finset ℕ

/-- The portions of `n` grains from number `x` of line `l` on. -/
def Device.portions (d : Device) (l x n : ℕ) : Finset (ℕ × ℕ) :=
  ((Finset.Ico x (x + n)).filter fun y => y = x ∨ y % d.gpp = 0).image
    fun y => (d.grainAt l y, min (x + n - y) (d.gpp - y % d.gpp))

namespace Accounts

variable (d : Device)

/-- The calls. -/
inductive Call where
  | take (io : IoType)
  | mark (grain len : ℕ)
  | giveUp (l x n : ℕ)
  | collect (offset : ℕ)
  | erase (p : Ppa)
  | release (l : ℕ)

/-- The flash function behind a call, and what the clients write down. -/
def run (s : Accounts) : Call → Except Fault Accounts
  | .take io => do
    let (_, _, f) ← s.flash.takePage d io
    return { s with flash := f }
  | .mark grain len => do
    let f ← s.flash.markGrainValid d grain len
    return { s with
      flash := f
      marked := s.marked ∪ Device.span grain len
      held := insert (grain, len) s.held }
  | .giveUp l x n => do
    let f ← s.flash.markGrainInvalid d (d.grainAt l x) n
    return { s with flash := f, held := s.held \ d.portions l x n }
  | .collect offset => do
    let (v, f) ← s.flash.selectVictimLine d offset
    return { s with flash := f, hand := v.elim s.hand fun l => insert l s.hand }
  | .erase p => do
    let f ← s.flash.markBlockFree d p
    return { s with flash := f, erased := insert (d.geo.blkNo p) s.erased }
  | .release l =>
    .ok { s with
      flash := s.flash.markLineFree l
      marked := s.marked.filter fun g => ¬d.OnLine l g
      held := s.held.filter fun a => ¬d.OnLine l a.1
      hand := s.hand.erase l
      erased := s.erased.filter fun b => b % d.geo.blksPerPl ≠ l }

/-- What a client may ask for. Grains are marked once, on pages that were handed out; what is
given up is held, and nothing is written to or given up on a line that the collector has
taken. A range over several pages is only given up on a line that is not on the full list.
The collector erases blocks of its lines and gives a line back when all of them are erased. -/
def Allowed (s : Accounts) : Call → Prop
  | .take _ => True
  | .mark grain len => 0 < len ∧ d.gOffset grain + len ≤ d.gpp ∧ d.gIdx grain < d.geo.ttPgs ∧
      s.flash.status (d.gIdx grain) ≠ .free ∧ d.geo.lineOf (d.gIdx grain) ∉ s.hand ∧
      Disjoint s.marked (Device.span grain len)
  | .giveUp l x n => l < d.geo.ttLines ∧ l ∉ s.hand ∧ 0 < n ∧ x + n ≤ d.grainsPerLine ∧
      d.portions l x n ⊆ s.held ∧ (d.gpp < x % d.gpp + n → l ∉ s.flash.fullLines)
  | .collect offset => d.gIdx (offset / d.gu) < d.geo.ttPgs
  | .erase p => d.geo.Valid p ∧ p.blk ∈ s.hand
  | .release l => l ∈ s.hand ∧
      ∀ q < d.geo.ttPgs, d.geo.lineOf q = l → Flash.blkOf d q ∈ s.erased

instance (s : Accounts) (c : Call) : Decidable (Allowed d s c) :=
  match c with
  | .take _ => inferInstanceAs (Decidable True)
  | .mark _ _ => inferInstanceAs (Decidable (_ ∧ _))
  | .giveUp _ _ _ => inferInstanceAs (Decidable (_ ∧ _))
  | .collect _ => inferInstanceAs (Decidable (_ < _))
  | .erase _ => inferInstanceAs (Decidable (_ ∧ _))
  | .release _ => inferInstanceAs (Decidable (_ ∧ _))

/-- The four calls of `prepare_write_pointer` in `conv_init_ftl`. -/
def opened : Except Fault Accounts := do
  let f ← (Flash.blank d).prepareWritePointer .user
  let f ← f.prepareWritePointer .map
  let f ← f.prepareWritePointer .gcMap
  let f ← f.prepareWritePointer .gc
  return { flash := f, marked := ∅, held := ∅, hand := ∅, erased := ∅ }

/-- The runs of allowed calls that satisfy `P`. -/
inductive Runs (P : Accounts → Call → Prop) : Accounts → Prop where
  | init (s : Accounts) (h : opened d = .ok s) : Runs P s
  | call {s s' : Accounts} (c : Call) (h : Runs P s) (hc : Allowed d s c) (hp : P s c)
      (hrun : s.run d c = .ok s') : Runs P s'

/-- Calls one after the other, as long as they are allowed and satisfy `P`. -/
def calls (P : Accounts → Call → Prop) [∀ s c, Decidable (P s c)] :
    Accounts → List Call → Except Fault Accounts
  | s, [] => .ok s
  | s, c :: cs => do
    ensure (Allowed d s c ∧ P s c) .bug
    let s ← s.run d c
    calls P s cs

end Accounts

end Virtkv
