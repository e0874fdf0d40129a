import Virtkv.Lib.PhaseRing
import Virtkv.Protocol.Defs

/-!
# The two rings of a queue pair

The submission ring is a ring buffer that the driver writes and the device reads; the doorbell
and the copy the device keeps of it are counts of commands modulo the length of the ring. The
completion ring is a ring with lap bits. Both invariants are kept by every step, as long as
there is room when the driver submits and when the device posts.

## Main results

- `SqInv.step` — the submission ring, under a step
- `CqInv.step` — the completion ring, under a step
-/

namespace Virtkv.Protocol

variable {κ : Type} {c : Config} {s t : State κ}

theorem Config.qDepth_pos (c : Config) : 0 < c.qDepth := lt_of_lt_of_le Nat.zero_lt_two c.two_le

/-- An index that goes back to 0 at the end of the ring. -/
theorem wrap_eq {n i : ℕ} (hn : 0 < n) :
    (if i % n + 1 = n then 0 else i % n + 1) = (i + 1) % n := (PhaseRing.mod_succ hn i).symm

/-- The distance of two counts, from what is left of them modulo the length of the ring. -/
theorem mod_distance {n a b : ℕ} (hab : a ≤ b) (hlt : b - a < n) :
    (if b % n < a % n then b % n + n - a % n else b % n - a % n) = b - a := by
  have hn : 0 < n := Nat.zero_lt_of_lt hlt
  have hring : Ring.Holds n (fun _ => ()) (b % n) (a % n) (List.replicate b ()) a := by
    refine ⟨?_, rfl, ?_, ?_, fun _ _ _ => rfl⟩
    · rw [List.length_replicate]
    · rwa [List.length_replicate]
    · rwa [List.length_replicate]
  rw [hring.distance hn, List.length_replicate]

/-! ### The submission ring -/

namespace State

/-- The slot the device reads next. -/
def nextSlot (s : State κ) : ℕ :=
  match s.dispatcher with
  | .idle => s.oldDb
  | .inSq _ _ _ sqEntry => sqEntry

/-- The loop of the device does not go beyond the first `rung` commands. -/
def Within (c : Config) (s : State κ) (rung : ℕ) : Prop :=
  match s.dispatcher with
  | .idle => True
  | .inSq oldDb numProc seq _ =>
    ∃ start, oldDb = start % c.qDepth ∧ s.consumed.length = start + seq ∧ start + numProc ≤ rung

/-- The doorbell is written or left. -/
theorem writeSqDb_cases (c : Config) (s : State κ) (writeSq : Bool) :
    s.writeSqDb c writeSq = s ∨ s.writeSqDb c writeSq =
      { s with sqDb := s.queue.sqTail, queue := { s.queue with lastSqTail := s.queue.sqTail } } := by
  unfold writeSqDb
  dsimp only
  generalize (if s.queue.sqTail + 1 = c.qDepth then 0 else s.queue.sqTail + 1) = nextTail
  split
  · exact .inl rfl
  · exact .inr rfl

end State

/-- The ring holds the commands that the device has not taken, and the doorbell is a count of
commands. -/
structure SqInv (c : Config) (s : State κ) : Prop where
  ring : Ring.Holds c.qDepth s.sq s.queue.sqTail s.nextSlot s.submitted s.consumed.length
  taken : s.consumed.map Work.command = s.submitted.take s.consumed.length
  bell : ∃ rung, s.consumed.length ≤ rung ∧ rung ≤ s.submitted.length ∧
    s.sqDb = rung % c.qDepth ∧ s.Within c rung

namespace SqInv

theorem init (c : Config) (junk : ℕ → Command κ) : SqInv c (State.init junk) where
  ring := Ring.holds_empty c.qDepth_pos junk
  taken := rfl
  bell := ⟨0, le_rfl, le_rfl, (Nat.zero_mod _).symm, trivial⟩

/-- A command is copied to the tail. -/
theorem submitCmd (h : SqInv c s) {cmd : Command κ} {writeSq : Bool}
    (hroom : s.submitted.length - s.consumed.length + 1 < c.qDepth)
    (hs : s.submitCmd c cmd writeSq = some t) : SqInv c t := by
  unfold State.submitCmd at hs
  split at hs
  · cases hs
    have hring := h.ring.push cmd hroom
    have hle := h.ring.taken_le
    refine ⟨?_, ?_, ?_⟩
    · rw [h.ring.head_eq, Nat.mod_add_mod, ← wrap_eq c.qDepth_pos, ← h.ring.head_eq] at hring
      exact hring
    · show s.consumed.map Work.command = (s.submitted ++ [cmd]).take s.consumed.length
      rw [List.take_append_of_le_length hle, h.taken]
    · obtain ⟨rung, hcr, hrs, hdb, hin⟩ := h.bell
      refine ⟨rung, hcr, ?_, hdb, hin⟩
      show rung ≤ (s.submitted ++ [cmd]).length
      rw [List.length_append]
      exact hrs.trans (Nat.le_add_right _ _)
  · cases hs

/-- The doorbell shows the tail, or what it showed before. -/
theorem writeSqDb (h : SqInv c s) (writeSq : Bool) : SqInv c (s.writeSqDb c writeSq) := by
  rcases s.writeSqDb_cases c writeSq with he | he
  · rw [he]
    exact h
  · rw [he]
    obtain ⟨rung, hcr, hrs, -, hin⟩ := h.bell
    refine ⟨h.ring, h.taken, s.submitted.length, h.ring.taken_le, le_rfl, h.ring.head_eq, ?_⟩
    revert hin
    show s.Within c rung → s.Within c s.submitted.length
    unfold State.Within
    split
    · exact id
    · rintro ⟨start, hold, hlen, hle⟩
      exact ⟨start, hold, hlen, hle.trans hrs⟩

/-- The device looks at the doorbell. -/
theorem procDbs (h : SqInv c s) (hs : s.procDbs c = some t) : SqInv c t := by
  unfold State.procDbs at hs
  split at hs
  · rename_i hidle
    obtain ⟨rung, hcr, hrs, hdb, -⟩ := h.bell
    have hslot : s.nextSlot = s.oldDb := by rw [State.nextSlot, hidle]
    have hold : s.oldDb = s.consumed.length % c.qDepth := by rw [← hslot, h.ring.tail_eq]
    dsimp only at hs
    split at hs
    · cases hs
      exact h
    · cases hs
      have hlt := h.ring.unread_lt
      refine ⟨?_, h.taken, rung, hcr, hrs, hdb, s.consumed.length, hold, rfl, ?_⟩
      · have hring := h.ring
        rwa [hslot] at hring
      · rw [hdb, hold, mod_distance hcr (by omega)]
        omega
  · cases hs

/-- The device takes the command of a slot, or leaves its loop. -/
theorem procIoSq (h : SqInv c s) {accept entry : Bool}
    (hs : s.procIoSq c accept entry = some t) : SqInv c t := by
  unfold State.procIoSq at hs
  split at hs
  · rename_i oldDb numProc seq sqEntry hin
    obtain ⟨rung, hcr, hrs, hdb, hwithin⟩ := h.bell
    rw [State.Within, hin] at hwithin
    obtain ⟨start, hold, hlen, hle⟩ := hwithin
    have hslot : s.nextSlot = sqEntry := by rw [State.nextSlot, hin]
    have hring := h.ring
    rw [hslot] at hring
    split at hs
    · rename_i hcond
      have hlt : s.consumed.length < s.submitted.length := by omega
      have hat := hring.at_tail hlt
      have hpop := hring.pop hlt
      rw [hring.tail_eq, Nat.mod_add_mod, ← wrap_eq c.qDepth_pos, ← hring.tail_eq] at hpop
      cases hs
      refine ⟨?_, ?_, rung, ?_, hrs, hdb, start, hold, ?_, hle⟩
      · show Ring.Holds _ _ _ _ _ (s.consumed ++ [_]).length
        rw [List.length_append, List.length_singleton]
        exact hpop
      · show (s.consumed ++ [_]).map Work.command = s.submitted.take (s.consumed ++ [_]).length
        rw [List.map_append, List.length_append, List.length_singleton, h.taken,
          List.take_succ_eq_append_getElem hlt, ← hat]
        rfl
      · show (s.consumed ++ [_]).length ≤ rung
        rw [List.length_append, List.length_singleton]
        omega
      · show (s.consumed ++ [_]).length = start + (seq + 1)
        rw [List.length_append, List.length_singleton]
        omega
    · cases hs
      refine ⟨?_, h.taken, rung, hcr, hrs, hdb, trivial⟩
      have hnext : (oldDb + seq) % c.qDepth = sqEntry := by
        rw [hold, Nat.mod_add_mod, ← hlen, hring.tail_eq]
      show Ring.Holds _ _ _ ((oldDb + seq) % c.qDepth) _ _
      rw [hnext]
      exact hring
  · cases hs

end SqInv

/-! ### The completion ring -/

namespace State

/-- The command whose completion the device is writing and has not posted yet. -/
def opened (s : State κ) : List (Work κ) :=
  match s.fill with
  | some f => if .status ∈ f.rest then [f.work] else []
  | none => []

/-- The number of completions the device is done with. -/
def filled (s : State κ) : ℕ :=
  match s.fill with
  | some f => if .status ∈ f.rest then s.posted.length else s.posted.length - 1
  | none => s.posted.length

end State

theorem Field.mem_fields (x : Field) : x ∈ State.fields := by
  cases x <;> decide

/-- Only the results are stored behind the status. -/
theorem Field.status_notMem {fs : List Field} (h : .status :: fs <:+ State.fields) :
    .status ∉ fs := by
  have hnodup : (Field.status :: fs).Nodup := h.sublist.nodup (by decide)
  exact (List.nodup_cons.mp hnodup).1

theorem Cqe.store_store (e x : Cqe) (f : Field) : (e.store x f).store x f = e.store x f := by
  cases f <;> rfl

theorem Cqe.store_comm (e x : Cqe) (f g : Field) :
    (e.store x f).store x g = (e.store x g).store x f := by
  cases f <;> cases g <;> rfl

theorem Cqe.status_store (e x : Cqe) {f : Field} (h : f ≠ .status) :
    (e.store x f).status = e.status := by
  cases f <;> first | rfl | exact absurd rfl h

/-- All fields are stored. -/
theorem Cqe.eq_of_store {e x : Cqe} (h : ∀ f, e.store x f = e) : e = x := by
  have h1 := h .commandId
  have h2 := h .sqId
  have h3 := h .sqHead
  have h4 := h .status
  have h5 := h .result0
  have h6 := h .result1
  cases e
  cases x
  simp only [Cqe.store, Cqe.mk.injEq] at h1 h2 h3 h4 h5 h6
  simp only [Cqe.mk.injEq]
  tauto

/-- The completion that the device is writing: the stores made so far are in its slot. -/
structure Filling (slot : Cqe) (phase : Bool) (posted : List (Work κ × Cqe)) (f : Fill κ) :
    Prop where
  rest : f.rest <:+ State.fields
  tag : f.entry.commandId = f.work.command.commandId
  bit : f.entry.status % 2 = phase.toNat
  stored : ∀ x ∉ f.rest, slot.store f.entry x = slot
  last : .status ∉ f.rest → posted.getLast? = some (f.work, f.entry)

/-- The bits of the ring say how many completions were posted, the posted ones that the driver
has not read are in their slots, and indices and bits of both sides are counts. -/
structure CqInv (c : Config) (s : State κ) : Prop where
  bits : PhaseRing.Holds c.qDepth (fun i => decide ((s.cq i).status % 2 = 1)) s.posted.length
    s.reaped.length
  room : s.posted.length - s.reaped.length < c.qDepth
  head : s.cqHead = s.filled % c.qDepth
  phase : s.phase = PhaseRing.lap c.qDepth s.filled
  filling : ∀ f, s.fill = some f → Filling (s.cq s.cqHead) s.phase s.posted f
  whole : ∀ i, s.reaped.length ≤ i → i < s.filled → (hi : i < s.posted.length) →
    s.cq (i % c.qDepth) = s.posted[i].2
  hostHead : s.queue.cqHead = s.reaped.length % c.qDepth
  hostPhase : s.queue.cqPhase = PhaseRing.lap c.qDepth s.reaped.length
  handling : s.reaper = .handling → s.reaped.length < s.posted.length
  tags : ∀ p ∈ s.posted, p.2.commandId = p.1.command.commandId

/-- The tag is stored before the status. -/
theorem Filling.commandId_notMem {slot : Cqe} {phase : Bool} {posted : List (Work κ × Cqe)}
    {f : Fill κ} (h : Filling slot phase posted f) (hs : .status ∉ f.rest) :
    .commandId ∉ f.rest := by
  obtain ⟨done, hdone⟩ := h.rest
  intro hmem
  cases done with
  | nil =>
    -- nothing is stored yet, the status neither
    rw [List.nil_append] at hdone
    rw [hdone] at hs
    exact hs (by decide)
  | cons x done =>
    have htail : done ++ f.rest = [.sqId, .sqHead, .status, .result0, .result1] :=
      (List.cons.inj hdone).2
    have hm : Field.commandId ∈ done ++ f.rest := List.mem_append_right _ hmem
    rw [htail] at hm
    exact absurd hm (by decide)

/-- The head of the driver moves on. -/
theorem State.updateCqHead_eq (c : Config) (s : State κ) :
    s.updateCqHead c = { s with queue := { s.queue with
      cqHead := if s.queue.cqHead + 1 = c.qDepth then 0 else s.queue.cqHead + 1
      cqPhase := if s.queue.cqHead + 1 = c.qDepth then !s.queue.cqPhase else s.queue.cqPhase } } := by
  unfold State.updateCqHead
  dsimp only
  split <;> rfl

namespace CqInv

theorem init (c : Config) (junk : ℕ → Command κ) : CqInv c (State.init junk) where
  bits := PhaseRing.holds_clear fun _ => rfl
  room := c.qDepth_pos
  head := (Nat.zero_mod _).symm
  phase := (PhaseRing.lap_zero _).symm
  filling f hf := by cases hf
  whole i _ _ hi := absurd hi (Nat.not_lt_zero i)
  hostHead := (Nat.zero_mod _).symm
  hostPhase := (PhaseRing.lap_zero _).symm
  handling h := by cases h
  tags p hp := by cases hp

theorem filled_le (s : State κ) : s.filled ≤ s.posted.length := by
  unfold State.filled
  split
  · split
    · exact le_rfl
    · exact Nat.sub_le _ _
  · exact le_rfl

/-- The test of the driver's loop finds what was posted. -/
theorem cqePending_iff (h : CqInv c s) :
    s.cqePending = true ↔ s.reaped.length < s.posted.length := by
  rw [← h.bits.pending_iff c.qDepth_pos, State.cqePending, h.hostHead, h.hostPhase,
    decide_eq_true_iff]
  cases PhaseRing.lap c.qDepth s.reaped.length
  · rw [decide_eq_false_iff_not, Bool.toNat_false]
    omega
  · rw [decide_eq_true_iff, Bool.toNat_true]

theorem testCqe (h : CqInv c s) (hs : s.testCqe = some t) : CqInv c t := by
  unfold State.testCqe at hs
  split at hs
  · split at hs
    · rename_i hp
      cases hs
      exact { h with handling := fun _ => h.cqePending_iff.mp hp }
    · split at hs
      · cases hs
        exact { h with handling := by rintro ⟨⟩ }
      · cases hs
        exact { h with handling := by rintro ⟨⟩ }
  · cases hs

/-- A posted completion that the device has not finished is the last one. -/
theorem unfinished (h : CqInv c s) {i : ℕ} (hge : s.filled ≤ i) (hi : i < s.posted.length) :
    ∃ f, s.fill = some f ∧ .status ∉ f.rest ∧ i = s.filled ∧ s.posted[i] = (f.work, f.entry) := by
  unfold State.filled at hge ⊢
  cases hf : s.fill with
  | none =>
    rw [hf] at hge
    dsimp only at hge
    omega
  | some f =>
    rw [hf] at hge
    dsimp only at hge ⊢
    split at hge
    · omega
    · rename_i hrest
      have hlast := (h.filling f hf).last hrest
      have hi' : i = s.posted.length - 1 := by omega
      refine ⟨f, rfl, hrest, ?_, ?_⟩
      · rw [if_neg hrest, hi']
      · rw [List.getLast?_eq_getElem?] at hlast
        subst hi'
        exact Option.some.inj ((List.getElem?_eq_getElem hi).symm.trans hlast)

/-- What the driver reads of the oldest completion it has not read: its tag and its status, and
everything if the device is done with it. -/
theorem read (h : CqInv c s) (hlt : s.reaped.length < s.posted.length) :
    (s.cq s.queue.cqHead).commandId = s.posted[s.reaped.length].1.command.commandId ∧
    (s.cq s.queue.cqHead).status = s.posted[s.reaped.length].2.status ∧
    (s.early = false → s.cq s.queue.cqHead = s.posted[s.reaped.length].2) := by
  have htag := h.tags _ (List.getElem_mem hlt)
  rcases Nat.lt_or_ge s.reaped.length s.filled with hdone | hopen
  · have hw := h.whole _ le_rfl hdone hlt
    rw [h.hostHead, hw]
    exact ⟨htag, rfl, fun _ => rfl⟩
  · obtain ⟨f, hf, hrest, hi, hp⟩ := h.unfinished hopen hlt
    have hfill := h.filling f hf
    -- the driver stands where the device is writing
    have hsame : s.cqHead = s.queue.cqHead := by rw [h.head, h.hostHead, ← hi]
    rw [hp] at htag ⊢
    rw [← hsame]
    refine ⟨?_, ?_, fun he => ?_⟩
    · rw [← htag, ← hfill.stored .commandId (hfill.commandId_notMem hrest)]
      rfl
    · rw [← hfill.stored .status hrest]
      rfl
    · rw [State.early, hf, hsame, decide_eq_true rfl] at he
      cases he

/-- The driver reads a completion and goes on to the next slot. -/
theorem handleCqe (h : CqInv c s) (hs : s.handleCqe c = some t) : CqInv c t := by
  unfold State.handleCqe at hs
  split at hs
  · rename_i hreap
    have hlt := h.handling hreap
    have hroom := h.room
    have hn := c.qDepth_pos
    cases hs
    rw [State.updateCqHead_eq]
    refine ⟨?_, ?_, h.head, h.phase, h.filling, ?_, ?_, ?_, by rintro ⟨⟩, h.tags⟩
    · show PhaseRing.Holds _ _ _ (s.reaped ++ [_]).length
      rw [List.length_append]
      exact h.bits.take hlt
    · show s.posted.length - (s.reaped ++ [_]).length < c.qDepth
      rw [List.length_append, List.length_singleton]
      omega
    · intro i hi hif hip
      have hi : (s.reaped ++ [_]).length ≤ i := hi
      rw [List.length_append] at hi
      exact h.whole i (by omega) hif hip
    · show _ = (s.reaped ++ [_]).length % c.qDepth
      rw [List.length_append, List.length_singleton, PhaseRing.mod_succ hn, ← h.hostHead]
    · show _ = PhaseRing.lap c.qDepth (s.reaped ++ [_]).length
      rw [List.length_append, List.length_singleton, PhaseRing.lap_succ hn, ← h.hostHead,
        ← h.hostPhase]
  · cases hs

/-- A completion is begun. -/
theorem beginFill (h : CqInv c s) {i status result0 result1 : ℕ}
    (hs : s.beginFill c i status result0 result1 = some t) : CqInv c t := by
  unfold State.beginFill at hs
  split at hs
  · rename_i w hfill hw
    cases hs
    have hfilled : s.filled = s.posted.length := by rw [State.filled, hfill]
    have hhead := h.head
    have hphase := h.phase
    have hwhole := h.whole
    rw [hfilled] at hhead hphase hwhole
    refine ⟨h.bits, h.room, hhead, hphase, ?_, hwhole, h.hostHead, h.hostPhase, h.handling, h.tags⟩
    rintro f ⟨⟩
    refine ⟨List.suffix_rfl, rfl, ?_, ?_, ?_⟩
    · show (s.phase.toNat + 2 * status) % 2 = s.phase.toNat
      rw [Nat.add_mul_mod_self_left]
      cases s.phase <;> rfl
    · intro x hx
      exact absurd (Field.mem_fields x) hx
    · intro hx
      exact absurd (Field.mem_fields .status) hx
  · cases hs

/-- A store does not undo the stores before it. -/
theorem stored_store {e x : Cqe} {f : Field} {fs : List Field}
    (h : ∀ y ∉ f :: fs, e.store x y = e) :
    ∀ y ∉ fs, (e.store x f).store x y = e.store x f := by
  intro y hy
  by_cases hyf : y = f
  · rw [hyf, Cqe.store_store]
  · rw [Cqe.store_comm, h y (List.not_mem_cons_of_ne_of_not_mem hyf hy)]

/-- The slot that is written is none of those that the driver still has to read. -/
theorem slot_ne (h : CqInv c s) {i : ℕ} (hi : s.reaped.length ≤ i) (hlt : i < s.filled) :
    i % c.qDepth ≠ s.cqHead := by
  have hle := filled_le s
  have hroom := h.room
  rw [h.head]
  exact Ring.mod_ne hlt (by omega)

/-- A store of the device, other than that of the status. -/
theorem store (h : CqInv c s) {w : Work κ} {x : Cqe} {f : Field} {fs : List Field}
    (hfill : s.fill = some ⟨w, x, f :: fs⟩) (hf : f ≠ .status) :
    CqInv c { s with
      cq := Function.update s.cq s.cqHead ((s.cq s.cqHead).store x f)
      fill := some ⟨w, x, fs⟩ } := by
  have hold := h.filling _ hfill
  have hmem : .status ∈ f :: fs ↔ .status ∈ fs := by
    rw [List.mem_cons]
    exact or_iff_right hf.symm
  set t : State κ := { s with
    cq := Function.update s.cq s.cqHead ((s.cq s.cqHead).store x f)
    fill := some ⟨w, x, fs⟩ } with ht
  have hfilled : t.filled = s.filled := by
    have hs : s.filled = if .status ∈ f :: fs then s.posted.length else s.posted.length - 1 := by
      rw [State.filled, hfill]
    rw [hs]
    exact (if_congr hmem rfl rfl).symm
  refine ⟨?_, h.room, ?_, ?_, ?_, ?_, h.hostHead, h.hostPhase, h.handling, h.tags⟩
  · refine h.bits.congr fun i => ?_
    show decide ((Function.update s.cq s.cqHead ((s.cq s.cqHead).store x f) i).status % 2 = 1) = _
    by_cases hi : i = s.cqHead
    · rw [hi, Function.update_self, Cqe.status_store _ _ hf]
    · rw [Function.update_of_ne hi]
  · rw [hfilled]
    exact h.head
  · rw [hfilled]
    exact h.phase
  · rintro f' ⟨⟩
    show Filling (Function.update s.cq s.cqHead _ s.cqHead) s.phase s.posted _
    rw [Function.update_self]
    refine ⟨(List.suffix_cons f fs).trans hold.rest, hold.tag, hold.bit,
      stored_store hold.stored, fun hs => hold.last ?_⟩
    rwa [hmem]
  · intro i hi hlt hip
    rw [hfilled] at hlt
    show Function.update s.cq s.cqHead _ (i % c.qDepth) = _
    rw [Function.update_of_ne (h.slot_ne hi hlt)]
    exact h.whole i hi hlt hip

/-- The store of the status posts the completion. -/
theorem post (h : CqInv c s) {w : Work κ} {x : Cqe} {fs : List Field}
    (hfill : s.fill = some ⟨w, x, .status :: fs⟩)
    (hroom : s.posted.length - s.reaped.length + 1 < c.qDepth) :
    CqInv c { s with
      cq := Function.update s.cq s.cqHead ((s.cq s.cqHead).store x .status)
      fill := some ⟨w, x, fs⟩
      posted := s.posted ++ [(w, x)] } := by
  have hold := h.filling _ hfill
  have hnot : .status ∉ fs := Field.status_notMem hold.rest
  have hlen : (s.posted ++ [(w, x)]).length = s.posted.length + 1 := List.length_append
  have hfilled : s.filled = s.posted.length := by
    rw [State.filled, hfill]
    exact if_pos List.mem_cons_self
  set t : State κ := { s with
    cq := Function.update s.cq s.cqHead ((s.cq s.cqHead).store x .status)
    fill := some ⟨w, x, fs⟩
    posted := s.posted ++ [(w, x)] } with ht
  have hfilled' : t.filled = s.filled := by
    have hs : t.filled = (s.posted ++ [(w, x)]).length - 1 := if_neg hnot
    rw [hs, hlen, hfilled, Nat.add_sub_cancel]
  refine ⟨?_, ?_, ?_, ?_, ?_, ?_, h.hostHead, h.hostPhase, ?_, ?_⟩
  · show PhaseRing.Holds _ _ (s.posted ++ [(w, x)]).length _
    rw [hlen]
    refine (h.bits.post (by omega)).congr fun i => ?_
    show decide ((Function.update s.cq s.cqHead _ i).status % 2 = 1) = _
    rw [← hfilled, ← h.head, ← h.phase]
    by_cases hi : i = s.cqHead
    · rw [hi, Function.update_self, Function.update_self]
      show decide (x.status % 2 = 1) = s.phase
      rw [hold.bit]
      cases s.phase <;> rfl
    · rw [Function.update_of_ne hi, Function.update_of_ne hi]
  · show (s.posted ++ [(w, x)]).length - s.reaped.length < c.qDepth
    omega
  · rw [hfilled']
    exact h.head
  · rw [hfilled']
    exact h.phase
  · rintro f' ⟨⟩
    show Filling (Function.update s.cq s.cqHead _ s.cqHead) s.phase (s.posted ++ [(w, x)]) _
    rw [Function.update_self]
    exact ⟨(List.suffix_cons _ fs).trans hold.rest, hold.tag, hold.bit,
      stored_store hold.stored, fun _ => List.getLast?_concat⟩
  · intro i hi hlt hip
    rw [hfilled'] at hlt
    have hip' : i < s.posted.length := hfilled ▸ hlt
    show Function.update s.cq s.cqHead _ (i % c.qDepth) = (s.posted ++ [(w, x)])[i].2
    rw [Function.update_of_ne (h.slot_ne hi hlt), List.getElem_append_left hip']
    exact h.whole i hi hlt hip'
  · intro hr
    show s.reaped.length < (s.posted ++ [(w, x)]).length
    have hlt := h.handling hr
    omega
  · intro p hp
    rcases List.mem_append.mp hp with hp | hp
    · exact h.tags p hp
    · cases List.mem_singleton.mp hp
      exact hold.tag

/-- The device is done with a completion and moves its head on. -/
theorem finish (h : CqInv c s) {w : Work κ} {x : Cqe} (hfill : s.fill = some ⟨w, x, []⟩) :
    CqInv c { s with
      fill := none
      cqHead := if s.cqHead + 1 = c.qDepth then 0 else s.cqHead + 1
      phase := if s.cqHead + 1 = c.qDepth then !s.phase else s.phase } := by
  have hold := h.filling _ hfill
  have hn := c.qDepth_pos
  have hlast := hold.last List.not_mem_nil
  have hslot : s.cq s.cqHead = x := Cqe.eq_of_store fun y => hold.stored y List.not_mem_nil
  have hfilled : s.posted.length = s.filled + 1 := by
    have hs : s.filled = s.posted.length - 1 := by
      rw [State.filled, hfill]
      exact if_neg List.not_mem_nil
    have hpos : s.posted ≠ [] := by
      rintro hnil
      rw [hnil] at hlast
      cases hlast
    have := List.length_pos_iff.mpr hpos
    omega
  refine ⟨h.bits, h.room, ?_, ?_, by rintro f ⟨⟩, ?_, h.hostHead, h.hostPhase, h.handling, h.tags⟩
  · show _ = s.posted.length % c.qDepth
    rw [hfilled, PhaseRing.mod_succ hn, ← h.head]
  · show _ = PhaseRing.lap c.qDepth s.posted.length
    rw [hfilled, PhaseRing.lap_succ hn, ← h.head, ← h.phase]
  · intro i hi _ hip
    rcases Nat.lt_or_ge i s.filled with hlt | hge
    · exact h.whole i hi hlt hip
    · obtain ⟨f, hf, -, rfl, hp⟩ := h.unfinished hge hip
      rw [hfill] at hf
      cases hf
      show s.cq (s.filled % c.qDepth) = s.posted[s.filled].2
      rw [hp, ← h.head, hslot]

end CqInv

end Virtkv.Protocol
