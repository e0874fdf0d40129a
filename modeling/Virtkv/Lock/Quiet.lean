import Virtkv.Run.Defs

/-!
# Code that takes no section lock

The parts of the commands and of the collector below the section locks: flash bookkeeping,
the invalid-mapping log, two-level tables and pair memory. Whatever stops them, it is not a
lock.
-/

namespace Virtkv

open Outcome

/-- The fault is not one of a lock: no lock that is held was waited for, none that is free was
released. -/
def Fault.OffLock (e : Fault) : Prop := e ≠ .deadlock ∧ e ≠ .underflow

instance : DecidablePred Fault.OffLock := fun _ => inferInstanceAs (Decidable (_ ∧ _))

/-- Code that does not stop because of a lock. -/
def Quiet {α : Type} (x : Except Fault α) : Prop := Yields x Fault.OffLock fun _ => True

/-! A project simp set takes programs apart: bindings, conditionals and checks. -/

section

variable {α β : Type} {x : Except Fault α}

@[simp] theorem quiet_ok (a : α) : Quiet (.ok a : Except Fault α) := trivial

@[simp] theorem quiet_pure (a : α) : Quiet (pure a : Except Fault α) := trivial

@[simp] theorem quiet_error {e : Fault} : Quiet (.error e : Except Fault α) ↔ e.OffLock := Iff.rfl

@[simp] theorem quiet_ensure {p : Prop} [Decidable p] {e : Fault} :
    Quiet (ensure p e) ↔ (¬p → e.OffLock) := by
  unfold ensure
  by_cases hp : p
  · simp [hp]
  · simp [hp]

@[simp] theorem quiet_bind {f : α → Except Fault β} :
    Quiet (x >>= f) ↔ Quiet x ∧ ∀ a, x = .ok a → Quiet (f a) := by
  cases x with
  | ok a => simp
  | error e => simp

@[simp] theorem quiet_map {f : α → β} : Quiet (f <$> x) ↔ Quiet x := by
  cases x with
  | ok a => exact Iff.rfl
  | error e => exact Iff.rfl

@[simp] theorem quiet_ite {p : Prop} [Decidable p] {y : Except Fault α} :
    Quiet (if p then x else y) ↔ (p → Quiet x) ∧ (¬p → Quiet y) := by
  by_cases hp : p
  · simp [hp]
  · simp [hp]

end

@[simp] theorem offLock_bug : Fault.OffLock .bug := by decide
@[simp] theorem offLock_noFreeLine : Fault.OffLock .noFreeLine := by decide
@[simp] theorem offLock_pageWalk : Fault.OffLock .pageWalk := by decide
@[simp] theorem offLock_trailerScan : Fault.OffLock .trailerScan := by decide
@[simp] theorem offLock_badAccess : Fault.OffLock .badAccess := by decide
@[simp] theorem offLock_blocked : Fault.OffLock .blocked := by decide
@[simp] theorem offLock_hang : Fault.OffLock .hang := by decide

/-! ### Flash -/

namespace Geometry

variable (g : Geometry)

@[simp] theorem quiet_ppa2pgidx (p : Ppa) : Quiet (g.ppa2pgidx p) := by simp [ppa2pgidx]

@[simp] theorem quiet_ppaToStruct (pgidx : ℕ) : Quiet (g.ppaToStruct pgidx) := by simp [ppaToStruct]

@[simp] theorem quiet_peekNextPage (p : Ppa) : Quiet (g.peekNextPage p) := by simp [peekNextPage]

end Geometry

namespace Flash

variable (d : Device) (f : Flash) (io : IoType)

@[simp] theorem quiet_addVictim (l : ℕ) : Quiet (f.addVictim d l) := by simp [addVictim, pqInsert]

@[simp] theorem quiet_getNextFreeLine : Quiet f.getNextFreeLine := by
  unfold getNextFreeLine
  split <;> simp

@[simp] theorem quiet_nextLine : Quiet (f.nextLine d io) := by simp [nextLine, retireLine]

@[simp] theorem quiet_advanceWritePointer : Quiet (f.advanceWritePointer d io) := by
  simp [advanceWritePointer]

@[simp] theorem quiet_markPageValid (p : Ppa) : Quiet (f.markPageValid d p) := by
  simp [markPageValid]

@[simp] theorem quiet_markPageInvalid (q : ℕ) : Quiet (f.markPageInvalid d q) := by
  simp [markPageInvalid]

@[simp] theorem quiet_markGrainValid (grain len : ℕ) : Quiet (f.markGrainValid d grain len) := by
  unfold markGrainValid bitmapSet
  cases d.build <;> simp

@[simp] theorem quiet_killGrain (grain page len : ℕ) : Quiet (f.killGrain d grain page len) := by
  unfold killGrain
  cases d.build <;> simp

@[simp] theorem quiet_markGrainInvalidPage (l grain page len : ℕ) (w : Bool) :
    Quiet (f.markGrainInvalidPage d l grain page len w) := by
  simp [markGrainInvalidPage, demote, fullToVictim]

theorem quiet_markGrainInvalidLoop (fuel : ℕ) (p : Ppa) (grain page rem : ℕ) (w : Bool) :
    Quiet (markGrainInvalidLoop d fuel f p grain page rem w) := by
  induction fuel generalizing f p grain page rem w with
  | zero => simp [markGrainInvalidLoop]
  | succ fuel ih => simp [markGrainInvalidLoop, ih]

@[simp] theorem quiet_markGrainInvalid (grain len : ℕ) : Quiet (f.markGrainInvalid d grain len) := by
  simp [markGrainInvalid, quiet_markGrainInvalidLoop]

@[simp] theorem quiet_takePage : Quiet (f.takePage d io) := by simp [takePage]

@[simp] theorem quiet_discardFrom (pgidx off : ℕ) : Quiet (f.discardFrom d pgidx off) := by
  simp [discardFrom]

@[simp] theorem quiet_newPage : Quiet (f.newPage d io) := by
  unfold newPage
  generalize d.geo.ttPgs + 1 = fuel
  induction fuel generalizing f with
  | zero => simp [takePageLoop]
  | succ fuel ih => simp [takePageLoop, ih]

@[simp] theorem quiet_enoughSpaceInLine (p : Ppa) (grain len : ℕ) :
    Quiet (enoughSpaceInLine d p grain len) := by
  have hloop : ∀ fuel q grain rem, Quiet (enoughSpaceLoop d p.blk p.lun fuel q grain rem) := by
    intro fuel
    induction fuel with
    | zero => simp [enoughSpaceLoop]
    | succ fuel ih => simp [enoughSpaceLoop, ih]
  exact hloop _ _ _ _

@[simp] theorem quiet_clearRestOfLine (p : Ppa) (gOff : ℕ) :
    Quiet (f.clearRestOfLine d p gOff io) := by
  unfold clearRestOfLine
  generalize d.geo.pgsPerLine + 1 = fuel, d.geo.pgsPerLun * d.gpp = rem, 0 = credits
  have hloop : ∀ lun, Quiet (clearRestLoop d io lun fuel f p gOff rem credits) := by
    intro lun
    induction fuel generalizing f p gOff rem credits with
    | zero => simp [clearRestLoop]
    | succ fuel ih => simp [clearRestLoop, ih]
  exact hloop _

@[simp] theorem quiet_newUserPage : Quiet (f.newUserPage d) := by simp [newUserPage]

@[simp] theorem quiet_skipUnlessFits (u : UserPos) (glen : ℕ) :
    Quiet (f.skipUnlessFits d u glen) := by
  simp [skipUnlessFits, skipStripe]

theorem quiet_writeLoop (fuel : ℕ) (u : UserPos) (rem : ℕ) : Quiet (writeLoop d fuel f u rem) := by
  induction fuel generalizing f u rem with
  | zero => simp [writeLoop]
  | succ fuel ih => simp [writeLoop, ih]

theorem quiet_spillLoop (blk fuel : ℕ) (p : Ppa) (rem : ℕ) :
    Quiet (spillLoop d blk fuel f p rem) := by
  induction fuel generalizing f p rem with
  | zero => simp [spillLoop]
  | succ fuel ih => simp [spillLoop, ih]

@[simp] theorem quiet_tagPair (grain lpa glen : ℕ) : Quiet (f.tagPair d grain lpa glen) := by
  simp [tagPair, quiet_spillLoop]

@[simp] theorem quiet_placePair (u : UserPos) (lpa bytes : ℕ) :
    Quiet (f.placePair d u lpa bytes) := by
  simp [placePair, firstUserPage, quiet_writeLoop]

@[simp] theorem quiet_putBack (o : Option ℕ) : Quiet (f.putBack d o) := by
  cases o <;> simp [putBack, pqInsert]

end Flash

/-! ### The invalid-mapping log -/

namespace InvLog

variable (d : Device) (f : Flash) (log : InvLog)

@[simp] theorem quiet_grain2lineid (grain : ℕ) : Quiet (grain2lineid d grain) := by
  simp [grain2lineid]

theorem quiet_flushPageLoop (fuel : ℕ) : Quiet (flushPageLoop d fuel f) := by
  induction fuel generalizing f with
  | zero => simp [flushPageLoop]
  | succ fuel ih => simp [flushPageLoop, ih]

@[simp] theorem quiet_recordInvMapping (lpa ppa off len : ℕ) :
    Quiet (recordInvMapping d f log lpa ppa off len) := by
  simp [recordInvMapping, recordAt, makeRoom, flush, quiet_flushPageLoop]

@[simp] theorem quiet_getInvMappings (line : ℕ) : Quiet (getInvMappings d f log line) := by
  have hdrain : ∀ es f log, Quiet (drainPages d es f log) := by
    intro es
    induction es with
    | nil => simp [drainPages]
    | cons e es ih => simp [drainPages, ih]
  simp [getInvMappings, hdrain]

end InvLog

@[simp] theorem Flash.quiet_selectVictimLine (d : Device) (f : Flash) (offset : ℕ) :
    Quiet (f.selectVictimLine d offset) := by
  have hloop : ∀ fuel dummy f, Quiet (selectLoop d offset fuel dummy f) := by
    intro fuel
    induction fuel with
    | zero => simp [selectLoop]
    | succ fuel ih =>
      intro dummy f
      unfold selectLoop
      split <;> simp [ih]
  exact hloop _ _ _

/-! ### Two-level tables -/

namespace TwoLevel

theorem quiet_newRootsLoop (leaves : List LeafE) (r k n i : ℕ) (x : ℤ) (extra : ℕ) :
    Quiet (newRootsLoop leaves r k n i x extra) := by
  have hkey : ∀ y, Quiet (keyAt leaves y) := by
    intro y
    unfold keyAt
    split
    · simp
    · split <;> simp
  induction n generalizing i x extra with
  | zero => simp [newRootsLoop]
  | succ n ih => simp [newRootsLoop, hkey, ih]

@[simp] theorem quiet_twolevelReload (t : Table) (h p : ℕ) : Quiet (twolevelReload t h p) := by
  have hfold : ∀ (es : List LeafE) t, Quiet (es.foldlM insertReloading t) := by
    intro es
    induction es with
    | nil => simp
    | cons e es ih => simp [insertReloading, ih]
  simp [twolevelReload, newRoots, quiet_newRootsLoop, hfold]

@[simp] theorem quiet_twolevelInsert (t : Table) (h p pos : ℕ) :
    Quiet (twolevelInsert t h p pos) := by
  unfold twolevelInsert
  split
  · split
    · exact quiet_ok _
    · exact quiet_ok _
  · dsimp only
    split
    · exact quiet_twolevelReload _ h p
    · exact quiet_ok _

end TwoLevel

/-! ### Pair memory -/

namespace PairMem

variable (mem : List UInt8)

@[simp] theorem quiet_write (off : ℕ) (src : List UInt8) : Quiet (write mem off src) := by
  simp [write]

@[simp] theorem quiet_read (off len : ℕ) : Quiet (read mem off len) := by simp [read]

@[simp] theorem quiet_klenFromValue : Quiet (klenFromValue mem) := by simp [klenFromValue]

@[simp] theorem quiet_vlenFromValue : Quiet (vlenFromValue mem) := by simp [vlenFromValue]

end PairMem

@[simp] theorem Device.quiet_getHashIdx (d : Device) (hash cnt : ℕ) :
    Quiet (d.getHashIdx hash cnt) := by
  have hloop : ∀ fuel cnt, Quiet (d.getHashIdxLoop hash fuel cnt) := by
    intro fuel
    induction fuel with
    | zero => simp [getHashIdxLoop]
    | succ fuel ih => simp [getHashIdxLoop, ih]
  exact hloop _ _

@[simp] theorem Compare.quiet_retrieveAndCompare (d : Device) (grain : ℕ) (mem key : List UInt8)
    (readLen readOffset : ℕ) (forDel : Bool) :
    Quiet (retrieveAndCompare d grain mem key readLen readOffset forDel) := by
  have hwalk : ∀ x : Except Fault Unit, Quiet (asPageWalk x) := by
    intro x
    cases x <;> simp [asPageWalk]
  simp [retrieveAndCompare, keyMatches, hwalk]

namespace Shift

variable (d : Device) (mem : List UInt8)

@[simp] theorem quiet_word (i : ℕ) : Quiet (word mem i) := by simp [word]

@[simp] theorem quiet_existing (glen : ℕ) : Quiet (existing d mem glen) := by
  have hscan : ∀ {α : Type} (x : Except Fault α), Quiet (asTrailerScan x) := by
    intro α x
    cases x <;> simp [asTrailerScan]
  simp [existing, hasMarker, hscan]

@[simp] theorem quiet_combine (xs : List ℕ) : Quiet (combine d xs) := by
  have hloop : ∀ xs o l range, Quiet (combineLoop xs o l range) := by
    intro xs
    induction xs with
    | nil => simp [combineLoop]
    | cons x xs ih => simp [combineLoop, ih]
  unfold combine
  split <;> simp [hloop]

theorem quiet_applyLoop (glen klen : ℕ) (xs es : List ℕ) (running : ℕ) (r : Result) :
    Quiet (applyLoop d glen klen xs es running r) := by
  induction xs generalizing es running r with
  | nil => simp [applyLoop]
  | cons x xs ih => simp [applyLoop, ih]

theorem quiet_writeShifts (xs : List ℕ) (i : ℕ) (mem : List UInt8) : Quiet (writeShifts xs i mem) := by
  induction xs generalizing i mem with
  | nil => simp [writeShifts]
  | cons x xs ih => simp [writeShifts, ih]

@[simp] theorem quiet_shiftPair (glen : ℕ) (pre : List ℕ) : Quiet (shiftPair d glen mem pre) := by
  simp [shiftPair, writeTrailer, quiet_applyLoop, quiet_writeShifts]

end Shift

namespace Lru

variable (l : List ℕ) (id : ℕ)

@[simp] theorem quiet_get : Quiet (get l id) := by simp [get]

@[simp] theorem quiet_remove : Quiet (remove l id) := by simp [remove]

end Lru

end Virtkv
