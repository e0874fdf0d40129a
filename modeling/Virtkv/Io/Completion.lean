import Mathlib.Data.BitVec
import Mathlib.Tactic.Ring
import Mathlib.Logic.Function.Basic
import Virtkv.Io.Admin

/-!
# Doorbells of the completion queues

`nvmev_proc_io_cq` walks from the old doorbell value of a completion queue to the new one
and takes every completion it passes off the in-flight count of its submission queue. The
index goes back to 0 inside the body of the loop, after the completion has been read.

## Main results

- `procIoCq_returns` — the walk ends, and takes off one request for every slot from one
  doorbell value to the other
- `procIoCq_inRing_iff` — it stays in the ring exactly if the range does not wrap around
-/

namespace Virtkv.Doorbell

/-- `struct nvme_completion`, the field the walk reads. -/
structure Entry where
  sqId : ℕ
  deriving DecidableEq

/-- `NR_CQE_PER_PAGE`. -/
def nrCqePerPage : ℕ := pageSize / 16

/-- `CQ_ENTRY_TO_PAGE_NUM` and `CQ_ENTRY_TO_PAGE_OFFSET`. -/
def cqEntryToPageNum (entryId : ℕ) : ℕ := entryId / nrCqePerPage
def cqEntryToPageOffset (entryId : ℕ) : ℕ := entryId % nrCqePerPage

/-- `struct nvmev_completion_queue`; `cq` is the memory behind the table of pages. -/
structure CompletionQueue where
  queueSize : ℕ
  cqTail : ℤ
  cq : ℕ → ℕ → Entry

/-- `cq_entry`. -/
def CompletionQueue.cqEntry (q : CompletionQueue) (entryId : ℕ) : Entry :=
  q.cq (cqEntryToPageNum entryId) (cqEntryToPageOffset entryId)

/-- `stat.nr_in_flight` of the submission queues there are, an unsigned int, and the
indices of the completions read so far. -/
structure Walk where
  nrInFlight : ℕ → Option (BitVec 32)
  reads : List ℕ

/-- The body of the loop for an index in the ring: a completion of a deleted submission
queue is passed over. -/
def Walk.complete (w : Walk) (sqid : ℕ) : Walk :=
  match w.nrInFlight sqid with
  | none => w
  | some n => { w with nrInFlight := Function.update w.nrInFlight sqid (some (n - 1)) }

variable (q : CompletionQueue)

/-- The loop of `nvmev_proc_io_cq`. `fuel` bounds the tests of the loop's condition. -/
def procLoop (newDb : ℤ) : ℕ → ℤ → Walk → Option Walk
  | 0, _, _ => none
  | fuel + 1, i, w =>
    if i = newDb then some w
    else
      -- the completion is read before the index is compared with the size of the ring
      let sqid := (q.cqEntry i.toNat).sqId
      let w := { w with reads := w.reads ++ [i.toNat] }
      if i ≥ q.queueSize then
        let i : ℤ := -1
        procLoop newDb fuel (i + 1) w
      else procLoop newDb fuel (i + 1) (w.complete sqid)

/-- `nvmev_proc_io_cq`. -/
def procIoCq (fuel : ℕ) (newDb oldDb : ℤ) (nrInFlight : ℕ → Option (BitVec 32)) :
    Option (CompletionQueue × Walk) := do
  let w ← procLoop q newDb fuel oldDb ⟨nrInFlight, []⟩
  let tail := if newDb = -1 then (q.queueSize : ℤ) - 1 else newDb - 1
  some ({ q with cqTail := tail }, w)

/-! ### What the doorbells say -/

/-- The completions of a submission queue among some slots. -/
def completions (slots : List ℕ) (sqid : ℕ) : ℕ :=
  slots.countP fun e => (q.cqEntry e).sqId = sqid

/-- The in-flight counts less the completions in some slots. -/
def takenOff (slots : List ℕ) (nrInFlight : ℕ → Option (BitVec 32)) (sqid : ℕ) :
    Option (BitVec 32) :=
  (nrInFlight sqid).map fun n => n - BitVec.ofNat 32 (completions q slots sqid)

/-- The walk ends, reads slots of the ring only, and takes every slot of the circular range
`[oldDb, newDb)` off the count of its submission queue once. -/
def InRing (newDb oldDb : ℕ) (nrInFlight : ℕ → Option (BitVec 32)) : Prop :=
  ∃ q' w, (∀ fuel, q.queueSize < fuel → procIoCq q fuel newDb oldDb nrInFlight = some (q', w)) ∧
    (∀ i ∈ w.reads, i < q.queueSize) ∧
    w.nrInFlight = takenOff q (Admin.ring q.queueSize oldDb newDb) nrInFlight

/-! ### The walk -/

variable {q} {newDb oldDb : ℕ} {nrInFlight : ℕ → Option (BitVec 32)} {w : Walk}

/-- The walk over some slots, one after the other. -/
def Walk.pass (q : CompletionQueue) (w : Walk) (slots : List ℕ) : Walk where
  nrInFlight := takenOff q slots w.nrInFlight
  reads := w.reads ++ slots

theorem Walk.pass_nil : w.pass q [] = w := by
  have h : takenOff q [] w.nrInFlight = w.nrInFlight := by
    funext sqid
    simp [takenOff, completions]
  rw [Walk.pass, h, List.append_nil]

theorem takenOff_append (s t : List ℕ) :
    takenOff q t (takenOff q s nrInFlight) = takenOff q (s ++ t) nrInFlight := by
  funext sqid
  rw [takenOff, takenOff, takenOff, Option.map_map]
  apply congrArg fun f => Option.map f (nrInFlight sqid)
  funext n
  simp only [Function.comp_apply, completions, List.countP_append, BitVec.ofNat_add]
  ring

theorem Walk.pass_pass (s t : List ℕ) : (w.pass q s).pass q t = w.pass q (s ++ t) := by
  simp only [Walk.pass, takenOff_append, List.append_assoc]

/-- The body of the loop passes one slot. -/
theorem complete_eq_pass (e : ℕ) :
    ({ w with reads := w.reads ++ [e] } : Walk).complete (q.cqEntry e).sqId = w.pass q [e] := by
  have hflight : takenOff q [e] w.nrInFlight =
      Function.update w.nrInFlight (q.cqEntry e).sqId
        ((w.nrInFlight (q.cqEntry e).sqId).map (· - 1)) := by
    funext sqid
    by_cases h : sqid = (q.cqEntry e).sqId
    · subst h
      rw [Function.update_self]
      simp [takenOff, completions]
    · rw [Function.update_of_ne h]
      have hne : (q.cqEntry e).sqId ≠ sqid := fun he => h he.symm
      simp [takenOff, completions, hne]
  rw [Walk.pass, hflight]
  simp only [Walk.complete]
  cases hsq : w.nrInFlight (q.cqEntry e).sqId with
  | none =>
    have hsame : Function.update w.nrInFlight (q.cqEntry e).sqId none = w.nrInFlight := by
      rw [← hsq, Function.update_eq_self]
    rw [Option.map_none, hsame]
  | some n => rfl

/-- Up to the end of the ring, and as long as it does not meet the new doorbell value, the
walk passes slot after slot. -/
theorem procLoop_segment {a : ℕ} (n fuel : ℕ) (hend : a + n ≤ q.queueSize)
    (hdb : newDb < a ∨ a + n ≤ newDb) :
    procLoop q newDb (fuel + n) a w =
      procLoop q newDb fuel (a + n : ℕ) (w.pass q (List.range' a n)) := by
  induction n generalizing a w with
  | zero => rw [List.range'_zero, Walk.pass_nil, Nat.add_zero, Nat.add_zero]
  | succ n ih =>
    have hne : ¬ (a : ℤ) = newDb := by omega
    have hlt : ¬ (a : ℤ) ≥ q.queueSize := by omega
    rw [← Nat.add_assoc, procLoop, if_neg hne]
    dsimp only
    rw [if_neg hlt, Int.toNat_natCast, complete_eq_pass,
      show (a : ℤ) + 1 = (a + 1 : ℕ) by push_cast; rfl, ih (by omega) (by omega), Walk.pass_pass,
      List.singleton_append, ← List.range'_succ, show a + 1 + n = a + (n + 1) by omega]

/-- Behind the end of the ring the walk reads one completion more, and starts again at 0. -/
theorem procLoop_wrap (fuel : ℕ) (hnew : newDb < q.queueSize) :
    procLoop q newDb (fuel + 1) q.queueSize w =
      procLoop q newDb fuel (0 : ℕ) { w with reads := w.reads ++ [q.queueSize] } := by
  have hne : ¬ (q.queueSize : ℤ) = newDb := by omega
  rw [procLoop, if_neg hne]
  dsimp only
  rw [if_pos (le_refl _), Int.toNat_natCast]
  rfl

theorem procLoop_stop (fuel : ℕ) : procLoop q newDb (fuel + 1) newDb w = some w := by
  rw [procLoop, if_pos rfl]

/-! ### The slots of the ring -/

theorem ring_of_le (hle : oldDb ≤ newDb) (hnew : newDb < q.queueSize) :
    Admin.ring q.queueSize oldDb newDb = List.range' oldDb (newDb - oldDb) := by
  have hlen : (newDb + q.queueSize - oldDb) % q.queueSize = newDb - oldDb := by
    rw [show newDb + q.queueSize - oldDb = newDb - oldDb + q.queueSize by omega,
      Nat.add_mod_right, Nat.mod_eq_of_lt (by omega)]
  rw [Admin.ring, hlen, List.range'_eq_map_range]
  apply List.map_congr_left
  intro i hi
  rw [List.mem_range] at hi
  exact Nat.mod_eq_of_lt (by omega)

theorem ring_of_gt (hgt : newDb < oldDb) (hold : oldDb < q.queueSize) :
    Admin.ring q.queueSize oldDb newDb =
      List.range' oldDb (q.queueSize - oldDb) ++ List.range' 0 newDb := by
  have hlen : (newDb + q.queueSize - oldDb) % q.queueSize = q.queueSize - oldDb + newDb := by
    rw [Nat.mod_eq_of_lt (by omega)]
    omega
  rw [Admin.ring, hlen, List.range_add, List.map_append, List.map_map, List.range'_eq_map_range,
    List.range'_eq_map_range]
  congr 1
  · apply List.map_congr_left
    intro i hi
    rw [List.mem_range] at hi
    exact Nat.mod_eq_of_lt (by omega)
  · apply List.map_congr_left
    intro i hi
    rw [List.mem_range] at hi
    rw [Function.comp_apply, show oldDb + (q.queueSize - oldDb + i) = i + q.queueSize by omega,
      Nat.add_mod_right, Nat.mod_eq_of_lt (by omega), Nat.zero_add]

/-! ### Doorbell updates -/

/-- The indices the walk reads. -/
def readsOf (q : CompletionQueue) (newDb oldDb : ℕ) : List ℕ :=
  if oldDb ≤ newDb then List.range' oldDb (newDb - oldDb)
  else List.range' oldDb (q.queueSize - oldDb) ++ [q.queueSize] ++ List.range' 0 newDb

/-- The walk ends after at most one turn, and takes off one request for every slot from one
doorbell value to the other. -/
theorem procIoCq_returns (hnew : newDb < q.queueSize) (hold : oldDb < q.queueSize)
    {fuel : ℕ} (hfuel : q.queueSize < fuel) :
    procIoCq q fuel newDb oldDb nrInFlight =
      some ({ q with cqTail := newDb - 1 },
        { nrInFlight := takenOff q (Admin.ring q.queueSize oldDb newDb) nrInFlight
          reads := readsOf q newDb oldDb }) := by
  have htail : ¬ (newDb : ℤ) = -1 := by omega
  suffices hloop : procLoop q newDb fuel oldDb ⟨nrInFlight, []⟩ =
      some { nrInFlight := takenOff q (Admin.ring q.queueSize oldDb newDb) nrInFlight
             reads := readsOf q newDb oldDb } by
    rw [procIoCq, hloop, if_neg htail]
    rfl
  by_cases hle : oldDb ≤ newDb
  · obtain ⟨k, rfl⟩ : ∃ k, fuel = k + 1 + (newDb - oldDb) :=
      ⟨fuel - 1 - (newDb - oldDb), by omega⟩
    rw [procLoop_segment _ _ (by omega) (by omega), show oldDb + (newDb - oldDb) = newDb by omega,
      procLoop_stop, ring_of_le hle hnew, readsOf, if_pos hle]
    rfl
  · -- to the end of the ring, over it, and on to the new value
    obtain ⟨k, rfl⟩ : ∃ k, fuel = k + 1 + newDb + 1 + (q.queueSize - oldDb) :=
      ⟨fuel - 2 - newDb - (q.queueSize - oldDb), by omega⟩
    rw [procLoop_segment _ _ (by omega) (by omega),
      show oldDb + (q.queueSize - oldDb) = q.queueSize by omega, procLoop_wrap _ hnew,
      procLoop_segment _ _ (by omega) (by omega), Nat.zero_add, procLoop_stop,
      ring_of_gt (by omega) hold, readsOf, if_neg hle]
    simp only [Walk.pass, takenOff_append, List.nil_append]

theorem reads_lt_iff (hnew : newDb < q.queueSize) :
    (∀ i ∈ readsOf q newDb oldDb, i < q.queueSize) ↔ oldDb ≤ newDb := by
  by_cases hle : oldDb ≤ newDb
  · refine ⟨fun _ => hle, fun _ i hi => ?_⟩
    rw [readsOf, if_pos hle, List.mem_range'_1] at hi
    omega
  · refine ⟨fun h => ?_, fun h => absurd h hle⟩
    have hmem : q.queueSize ∈ readsOf q newDb oldDb := by
      rw [readsOf, if_neg hle]
      simp
    exact absurd (h _ hmem) (lt_irrefl _)

/-- The walk stays in the ring exactly if the range does not wrap around. -/
theorem procIoCq_inRing_iff (q : CompletionQueue) (newDb oldDb : ℕ)
    (nrInFlight : ℕ → Option (BitVec 32)) (hnew : newDb < q.queueSize)
    (hold : oldDb < q.queueSize) : InRing q newDb oldDb nrInFlight ↔ oldDb ≤ newDb := by
  have hreturns := fun fuel => @procIoCq_returns q newDb oldDb nrInFlight hnew hold fuel
  rw [← reads_lt_iff hnew]
  constructor
  · rintro ⟨q', w, hrun, hreads, -⟩
    have hsome := hrun (q.queueSize + 1) (Nat.lt_succ_self _)
    rw [hreturns _ (Nat.lt_succ_self _), Option.some.injEq, Prod.mk.injEq] at hsome
    rw [← hsome.2] at hreads
    exact hreads
  · intro hreads
    exact ⟨_, _, hreturns, hreads, rfl⟩

/-- A ring of four slots, all of the first submission queue. -/
def ringOfFour : CompletionQueue where
  queueSize := 4
  cqTail := -1
  cq := fun _ _ => ⟨1⟩

theorem procIoCq_inRing_iff_forward :
    InRing ringOfFour 3 1 (fun _ => some 5) :=
  (procIoCq_inRing_iff ringOfFour 3 1 (fun _ => some 5) (by decide) (by decide)).mpr (by decide)

/-- From slot 3 over the end to slot 1, the walk reads slot 4 of a ring of four. -/
theorem procIoCq_not_inRing :
    ¬ ∀ (q : CompletionQueue) (newDb oldDb : ℕ) (nrInFlight : ℕ → Option (BitVec 32)),
      newDb < q.queueSize → oldDb < q.queueSize → InRing q newDb oldDb nrInFlight := by
  intro h
  obtain ⟨q', w, hrun, hreads, -⟩ := h ringOfFour 1 3 (fun _ => some 5) (by decide) (by decide)
  have hsome := hrun 5 (by decide)
  have hwalk : some w.reads = some [3, 4, 0] :=
    calc some w.reads
        = (procIoCq ringOfFour 5 (1 : ℕ) (3 : ℕ) fun _ => some 5).map (fun r => r.2.reads) := by
          rw [hsome]
          rfl
      _ = some [3, 4, 0] := by decide
  rw [Option.some.injEq] at hwalk
  rw [hwalk] at hreads
  exact absurd (hreads 4 (by simp)) (by decide)

end Virtkv.Doorbell
