import Mathlib.Data.Finset.Card
import Virtkv.Evict.Fifo
import Virtkv.Evict.Occupancy

/-!
# No cached section is lost

A section that is dropped by a full FIFO would stay cached and never become a victim. The ring
has room for one section less than its slots, and no section is in two places: with fewer
sections than slots it is never full when a section comes to it. In any order of the steps of
the dispatcher, the collector, the garbage collector and the callbacks, every cached section
is in exactly one place then.

## Main results

- `Kept.step` — no step loses a section
- `RunOn.keepsCached` — runs on the ring buffer lose no section
-/

namespace Virtkv.Evict

variable {p : Params} {s s' t : State} {N i j : ℕ} {e : Event}

/-- The event names sections below `N` only. -/
def Within (N : ℕ) : Event → Prop
  | .begin (.acquire i) | .begin (.pass i) | .begin (.release i) | .begin (.load i)
  | .begin (.dirty i) | .begin (.expand i) | .gc (.acquire i) | .callback i => i < N
  | _ => True

/-- Cached sections are in some place, and there are no more than `N` of them. -/
structure Kept (N : ℕ) (s : State) : Prop where
  known : ∀ j, (s.secs j).cached = true → j ∈ s.known
  below : ∀ j, (s.secs j).cached = true → j < N
  held : ∀ j, s.gc = .held j → j < N

theorem State.mem_known : j ∈ s.known ↔ j ∈ s.fifo ∨ j ∈ s.hand ∨ j ∈ s.unread ∨ j ∈ s.taken ∨
    j ∈ s.entering ∨ j ∈ s.pending := by
  simp only [State.known, List.mem_append, or_assoc]

/-- No section becomes cached. -/
theorem Kept.mono (h : Kept N s)
    (hc : ∀ j, (s'.secs j).cached = true → (s.secs j).cached = true ∧ (j ∈ s.known → j ∈ s'.known))
    (hg : ∀ j, s'.gc = .held j → s.gc = .held j ∨ j < N) : Kept N s' where
  known := fun j hj => (hc j hj).2 (h.known j (hc j hj).1)
  below := fun j hj => h.below j (hc j hj).1
  held := fun j hj => (hg j hj).elim (h.held j) id

theorem cached_setSec {x : Sec} (hx : x.cached = (s.secs i).cached) (j : ℕ) :
    ((s.setSec i x).secs j).cached = (s.secs j).cached := by
  by_cases hj : j = i
  · rw [hj, State.setSec_self, hx]
  · rw [State.setSec_of_ne _ _ hj]

/-- The collector and the dispatcher change a section without taking it from the cache. -/
theorem Kept.same (h : Kept N s) (hc : ∀ j, (s'.secs j).cached = (s.secs j).cached)
    (hk : ∀ j, j ∈ s.known → j ∈ s'.known) (hg : s'.gc = s.gc) : Kept N s' :=
  h.mono (fun j hj => ⟨hc j ▸ hj, hk j⟩) fun _ hj => .inl (hg ▸ hj)

/-- The FIFO has room for a section that is somewhere else. -/
theorem Kept.room (h : Kept N s) (hp : Placed s) (hN : N < ringBufferSize) (hi : i ∈ s.known)
    (hni : i ∉ s.fifo) : s.fifo.length + 1 < ringBufferSize := by
  have hnd : s.fifo.Nodup := by
    refine List.Sublist.nodup ?_ hp.nodup
    simp only [State.known, List.append_assoc]
    exact List.sublist_append_left _ _
  have hsub : (i :: s.fifo).toFinset ⊆ Finset.range N := by
    intro j hj
    rw [List.mem_toFinset] at hj
    have hk : j ∈ s.known := by
      rcases List.mem_cons.mp hj with rfl | hj
      · exact hi
      · exact State.mem_known.mpr (.inl hj)
    exact Finset.mem_range.mpr (h.below j (hp.cached j hk).1)
  have hcard := Finset.card_le_card hsub
  rw [List.toFinset_card_of_nodup (List.nodup_cons.mpr ⟨hni, hnd⟩), Finset.card_range,
    List.length_cons] at hcard
  omega

theorem pending_of_enqueue (h : Placed s) {k : ℕ} (hpc : s.gc = .enqueue k i) :
    s.pending = i :: s.shadow.drop (k + 1) := by
  have hfl := h.gc
  rw [hpc] at hfl
  obtain ⟨hk, hi⟩ := List.getElem?_eq_some_iff.mp hfl
  rw [State.pending, hpc]
  change s.shadow.drop k = _
  rw [List.drop_eq_getElem_cons hk, hi]

/-- A section that comes to the FIFO is known and not there yet. -/
theorem Placed.comes (h : Placed s) (hcall : s.fifoCall e = some (.enqueue i)) :
    i ∈ s.known ∧ i ∉ s.fifo := by
  have hnd := h.nodup
  have hmem : i ∈ s.entering ∨ i ∈ s.pending := by
    cases e with
    | collector =>
      rw [State.fifoCall] at hcall
      split at hcall <;> cases hcall
    | dispatcher =>
      rw [State.fifoCall] at hcall
      split at hcall
      · rename_i hpc
        cases hcall
        rw [State.entering, hpc]
        exact .inl (List.mem_singleton_self i)
      · cases hcall
    | gc a =>
      cases a with
      | next =>
        rw [State.fifoCall] at hcall
        split at hcall
        · rename_i hpc
          cases hcall
          rw [pending_of_enqueue h hpc]
          exact .inr (List.mem_cons_self ..)
        · cases hcall
      | _ => cases hcall
    | _ => cases hcall
  rw [State.mem_known]
  rw [State.known] at hnd
  refine ⟨by tauto, fun hi => ?_⟩
  rcases hmem with he | hp
  · exact List.disjoint_of_nodup_append (List.Nodup.of_append_left hnd) (by simp [hi]) he
  · exact List.disjoint_of_nodup_append hnd (by simp [hi]) hp

/-! ### Steps -/

theorem Kept.collect (h : Kept N s) (hi : Inv p s) (hs : Evict.collect p s = some s') :
    Kept N s' := by
  have hmove : ∀ pc, (s.setCollector pc).hand = s.hand → Kept N (s.setCollector pc) := by
    intro pc hh
    refine h.same (fun _ => rfl) (fun j hj => ?_) rfl
    rw [State.mem_known] at hj ⊢
    rw [hh]
    exact hj
  have hc := hi.counted
  unfold Evict.collect at hs
  rw [Counted] at hc
  cases hpc : s.collector with
  | poll =>
    rw [hpc] at hs
    cases hs
    apply hmove
    rw [State.hand, State.hand, hpc]
    split_ifs <;> rfl
  | measure =>
    rw [hpc] at hs
    cases hs
    apply hmove
    rw [State.hand, State.hand, hpc]
    split_ifs <;> rfl
  | recheck =>
    rw [hpc] at hs
    cases hs
    apply hmove
    rw [State.hand, State.hand, hpc]
    split_ifs <;> rfl
  | check n i =>
    rw [hpc] at hs
    cases hs
    apply hmove
    rw [State.hand, State.hand, hpc]
    rfl
  | reset =>
    rw [hpc] at hs
    cases hs
    refine h.same (fun _ => rfl) (fun j hj => ?_) rfl
    rw [State.mem_known, State.hand, hpc] at hj
    rw [State.mem_known]
    exact hj
  | dequeue n =>
    rw [hpc] at hs hc
    cases hf : s.fifo with
    | nil =>
      rw [hf] at hs
      cases hs
      apply hmove
      rw [State.hand, State.hand, hpc]
      rfl
    | cons i fifo =>
      have hn : n < maxSearch := by
        have : p.build.grainPerPage ≤ maxSearch :=
          Nat.le_trans (grainPerPage_bounds p.build).2 (by decide)
        omega
      rw [hf] at hs
      dsimp only at hs
      rw [if_pos hn] at hs
      cases hs
      refine h.same (fun _ => rfl) (fun j hj => ?_) rfl
      rw [State.mem_known, State.hand, hpc, hf, List.mem_cons] at hj
      rw [State.mem_known]
      change j ∈ fifo ∨ j ∈ [i] ∨ j ∈ s.unread ∨ j ∈ s.taken ∨ j ∈ s.entering ∨ j ∈ s.pending
      rw [List.mem_singleton]
      simp only [List.not_mem_nil, false_or] at hj
      tauto
  | lock n i =>
    rw [hpc] at hs
    dsimp only at hs
    split_ifs at hs
    cases hs
    refine h.same (cached_setSec rfl) (fun j hj => ?_) rfl
    rw [State.mem_known, State.hand, hpc] at hj
    rw [State.mem_known]
    exact hj
  | mark n i =>
    rw [hpc] at hs
    dsimp only at hs
    split_ifs at hs
    cases hs
    refine h.same (cached_setSec rfl) (fun j hj => ?_) rfl
    rw [State.mem_known, State.hand, hpc] at hj
    rw [State.mem_known]
    exact hj
  | push n i =>
    rw [hpc] at hs
    cases hs
    have hu : ((s.pushRing i).setCollector (.count n i)).unread = s.unread ++ [i] := hi.unread_push
    refine h.same (fun _ => rfl) (fun j hj => ?_) rfl
    rw [State.mem_known, State.hand, hpc] at hj
    rw [State.mem_known, hu, List.mem_append]
    change j ∈ s.fifo ∨ j ∈ [] ∨ (j ∈ s.unread ∨ j ∈ [i]) ∨ j ∈ s.taken ∨ j ∈ s.entering ∨
      j ∈ s.pending
    tauto
  | count n i =>
    rw [hpc] at hs
    cases hs
    refine h.same (fun _ => rfl) (fun j hj => ?_) rfl
    rw [State.mem_known, State.hand, hpc] at hj
    rw [State.mem_known]
    exact hj
  | unlock n i stop =>
    rw [hpc] at hs
    cases hs
    refine h.same (cached_setSec rfl) (fun j hj => ?_) rfl
    rw [State.mem_known, State.hand, hpc] at hj
    rw [State.mem_known]
    cases stop <;> exact hj
  | publish =>
    rw [hpc] at hs
    cases hs
    refine h.same (fun _ => rfl) (fun j hj => ?_) rfl
    rw [State.mem_known, State.hand, hpc] at hj
    rw [State.mem_known]
    exact hj

theorem Kept.begin (h : Kept N s) (hpc : s.dispatcher = .idle) {b : Begin}
    (hw : Within N (.begin b)) (hs : Evict.begin p s b = some s') : Kept N s' := by
  unfold Evict.begin at hs
  cases b with
  | load i =>
    dsimp only at hs
    split_ifs at hs
    cases hs
    have hother : ∀ j, j ≠ i → ((s.setSec i (loaded p (s.secs i))).setDispatcher
        (.enqueue i)).secs j = s.secs j := fun j hj => State.setSec_of_ne _ _ hj
    refine ⟨fun j hj => ?_, fun j hj => ?_, h.held⟩
    · rw [State.mem_known]
      by_cases hji : j = i
      · exact .inr (.inr (.inr (.inr (.inl (List.mem_singleton.mpr hji)))))
      · rw [hother j hji] at hj
        have hk := h.known j hj
        rw [State.mem_known, State.taken, State.entering, hpc] at hk
        change j ∈ s.fifo ∨ j ∈ s.hand ∨ j ∈ s.unread ∨ j ∈ [] ∨ j ∈ [i] ∨ j ∈ s.pending
        tauto
    · by_cases hji : j = i
      · rw [hji]
        exact hw
      · rw [hother j hji] at hj
        exact h.below j hj
  | expand i =>
    dsimp only at hs
    split_ifs at hs
    cases hs
    refine h.same (cached_setSec rfl) (fun j hj => ?_) rfl
    rw [State.mem_known, State.taken, State.entering, hpc] at hj
    rw [State.mem_known]
    exact hj
  | evict =>
    dsimp only at hs
    split_ifs at hs
    cases hs
    refine h.same (fun _ => rfl) (fun j hj => ?_) rfl
    rw [State.mem_known, State.taken, State.entering, hpc] at hj
    rw [State.mem_known]
    exact hj
  | _ =>
    dsimp only at hs
    split_ifs at hs
    cases hs
    exact h.same (cached_setSec rfl) (fun _ hj => hj) rfl

/-- The dispatcher moves on with the same section in hand. -/
theorem Kept.setDispatcher (h : Kept N s) {pc : Dispatcher} (ht : (s.setDispatcher pc).taken = s.taken)
    (he : (s.setDispatcher pc).entering = s.entering) : Kept N (s.setDispatcher pc) := by
  refine h.same (fun _ => rfl) (fun j hj => ?_) rfl
  rw [State.mem_known] at hj ⊢
  rw [ht, he]
  exact hj

/-- The section that comes to the FIFO is put there. -/
theorem Kept.dispatch_enqueue (h : Kept N s) (hp : Placed s) (hN : N < ringBufferSize)
    (hpc : s.dispatcher = .enqueue i) : Kept N ((s.fifoEnqueue i).setDispatcher (.charge i)) := by
  have hent : s.entering = [i] := by rw [State.entering, hpc]
  obtain ⟨hk, hni⟩ := hp.comes (e := .dispatcher) (by rw [State.fifoCall, hpc])
  rw [fifoEnqueue_of_room (h.room hp hN hk hni)]
  refine h.same (fun _ => rfl) (fun j hj => ?_) rfl
  rw [State.mem_known, State.taken, hent, hpc] at hj
  rw [State.mem_known]
  change j ∈ s.fifo ++ [i] ∨ j ∈ s.hand ∨ j ∈ s.unread ∨ j ∈ [] ∨ j ∈ [] ∨ j ∈ s.pending
  rw [List.mem_append]
  tauto

/-- The victim at the tail of the ring is taken. -/
theorem Kept.dispatch_evPop (h : Kept N s) (hi : Inv p s) {evicted grain : ℕ}
    (hpc : s.dispatcher = .evPop evicted grain i) : Kept N (evPop p s evicted grain i) := by
  have hev := hi.evicting
  rw [Evicting, hpc] at hev
  obtain ⟨-, -, -, hhead⟩ := hev
  have hread : ∀ j, j ∈ s.unread → j = i ∨ j ∈ s.popRing.unread := by
    intro j hj
    have htail : s.popRing.unread = s.unread.tail := List.tail_drop.symm
    rw [htail]
    cases hu : s.unread with
    | nil =>
      rw [hu] at hj
      cases hj
    | cons k l =>
      rw [hu] at hj hhead
      cases hhead
      exact List.mem_cons.mp hj
  have hk : ∀ j, j ∈ s.known → j ∈ s.fifo ∨ j ∈ s.hand ∨ j ∈ s.popRing.unread ∨ j ∈ [i] ∨ j ∈ [] ∨
      j ∈ s.pending := by
    intro j hj
    rw [State.mem_known, State.taken, State.entering, hpc] at hj
    rw [List.mem_singleton]
    have := hread j
    tauto
  rw [evPop]
  split_ifs
  · exact h.same (cached_setSec (s := s.popRing) rfl) (fun j hj => State.mem_known.mpr (hk j hj)) rfl
  · exact h.same (fun _ => rfl) (fun j hj => State.mem_known.mpr (hk j hj)) rfl

/-- A victim leaves the cache. -/
theorem Kept.dispatch_evClean (h : Kept N s) {evicted grain : ℕ}
    (hpc : s.dispatcher = .evClean evicted grain i) (pc : Dispatcher)
    (he : pc = .evEnd ∨ pc = .evLoop evicted grain) : Kept N ((s.dropVictim i).setDispatcher pc) := by
  have hself : ((s.dropVictim i).secs i).cached = false := by
    rw [State.dropVictim, State.setSec_self]
  refine h.mono (fun j hj => ?_) fun _ hj => .inl hj
  change ((s.dropVictim i).secs j).cached = true at hj
  have hji : j ≠ i := by
    rintro rfl
    rw [hself] at hj
    cases hj
  have hget : (s.dropVictim i).secs j = s.secs j := State.setSec_of_ne _ _ hji
  rw [hget] at hj
  refine ⟨hj, fun hk => ?_⟩
  rw [State.mem_known, State.taken, State.entering, hpc, List.mem_singleton] at hk
  rw [State.mem_known]
  have hk' : j ∈ s.fifo ∨ j ∈ s.hand ∨ j ∈ s.unread ∨ j ∈ [] ∨ j ∈ [] ∨ j ∈ s.pending := by tauto
  rcases he with rfl | rfl <;> exact hk'

theorem Kept.dispatch (h : Kept N s) (hi : Inv p s) (hN : N < ringBufferSize)
    (hs : Evict.dispatch p s = some s') : Kept N s' := by
  unfold Evict.dispatch at hs
  cases hpc : s.dispatcher with
  | idle =>
    rw [hpc] at hs
    cases hs
  | enqueue i =>
    rw [hpc] at hs
    cases hs
    exact h.dispatch_enqueue hi.placed hN hpc
  | count i =>
    rw [hpc] at hs
    cases hs
    refine h.same (cached_setSec rfl) (fun j hj => ?_) rfl
    rw [State.mem_known, State.taken, State.entering, hpc] at hj
    rw [State.mem_known]
    exact hj
  | expand i counted =>
    rw [hpc] at hs
    cases hs
    refine h.same (cached_setSec rfl) (fun j hj => ?_) rfl
    rw [State.mem_known, State.taken, State.entering, hpc] at hj
    rw [State.mem_known]
    exact hj
  | evLoop evicted grain =>
    rw [hpc] at hs
    cases hs
    split_ifs
    · exact h.setDispatcher (by rw [State.taken, State.taken, hpc]; rfl)
        (by rw [State.entering, State.entering, hpc]; rfl)
    · exact h.setDispatcher (by rw [State.taken, State.taken, hpc]; rfl)
        (by rw [State.entering, State.entering, hpc]; rfl)
  | evRead evicted grain locked =>
    rw [hpc] at hs
    dsimp only at hs
    split at hs
    · cases hs
      cases locked
      · exact h.setDispatcher (by rw [State.taken, State.taken, hpc]; rfl)
          (by rw [State.entering, State.entering, hpc]; rfl)
      · exact h.setDispatcher (by rw [State.taken, State.taken, hpc]; rfl)
          (by rw [State.entering, State.entering, hpc]; rfl)
    · cases hs
  | evLock evicted grain i =>
    rw [hpc] at hs
    dsimp only at hs
    split_ifs at hs
    cases hs
    refine h.same (cached_setSec rfl) (fun j hj => ?_) rfl
    rw [State.mem_known, State.taken, State.entering, hpc] at hj
    rw [State.mem_known]
    exact hj
  | evFit evicted grain i =>
    rw [hpc] at hs
    dsimp only [evFit] at hs
    split_ifs at hs
    · cases hs
      exact h.setDispatcher (by rw [State.taken, State.taken, hpc]; rfl)
        (by rw [State.entering, State.entering, hpc]; rfl)
    · cases hs
      exact h.setDispatcher (by rw [State.taken, State.taken, hpc]; rfl)
        (by rw [State.entering, State.entering, hpc]; rfl)
  | evPop evicted grain i =>
    rw [hpc] at hs
    cases hs
    exact h.dispatch_evPop hi hpc
  | evClean evicted grain i =>
    rw [hpc] at hs
    cases hs
    refine h.dispatch_evClean hpc _ ?_
    split_ifs
    · exact .inl rfl
    · exact .inr rfl
  | _ =>
    rw [hpc] at hs
    cases hs
    refine h.same (fun _ => rfl) (fun j hj => ?_) rfl
    rw [State.mem_known, State.taken, State.entering, hpc] at hj
    rw [State.mem_known]
    exact hj

/-- The garbage collector moves on with the same sections to put on the FIFO. -/
theorem Kept.setGc (h : Kept N s) {pc : Gc} (hp : (s.setGc pc).pending = s.pending)
    (hpc : ∀ j, pc = .held j → j < N) : Kept N (s.setGc pc) := by
  refine h.mono (fun j hj => ⟨hj, fun hk => ?_⟩) fun j hj => .inr (hpc j hj)
  rw [State.mem_known] at hk ⊢
  rw [hp]
  exact hk

theorem Kept.setLock (h : Kept N s) (i : ℕ) (o : Option Holder) :
    Kept N (s.setSec i { s.secs i with outgoing := o }) :=
  h.same (cached_setSec rfl) (fun _ hj => hj) rfl

/-- A section of the shadow list is put on the FIFO. -/
theorem Kept.gc_enqueue (h : Kept N s) (hp : Placed s) (hN : N < ringBufferSize) {k : ℕ}
    (hpc : s.gc = .enqueue k i) : Kept N ((s.fifoEnqueue i).setGc (.charge k i)) := by
  have hpend := pending_of_enqueue hp hpc
  obtain ⟨hk, hni⟩ := hp.comes (e := .gc .next) (by rw [State.fifoCall, hpc])
  rw [fifoEnqueue_of_room (h.room hp hN hk hni)]
  refine h.mono (fun j hj => ⟨hj, fun hk => ?_⟩) fun j hj => by cases hj
  rw [State.mem_known, hpend, List.mem_cons] at hk
  rw [State.mem_known]
  change j ∈ s.fifo ++ [i] ∨ j ∈ s.hand ∨ j ∈ s.unread ∨ j ∈ s.taken ∨ j ∈ s.entering ∨
    j ∈ s.shadow.drop (k + 1)
  rw [List.mem_append, List.mem_singleton]
  tauto

theorem Kept.collectGarbage (h : Kept N s) (hi : Inv p s) (hN : N < ringBufferSize) {a : GcAct}
    (hw : Within N (.gc a)) (hs : Evict.collectGarbage s a = some s') : Kept N s' := by
  unfold Evict.collectGarbage at hs
  cases a with
  | acquire i =>
    dsimp only at hs
    split_ifs at hs with hok
    cases hs
    refine (h.setLock i (some .gc)).setGc ?_ fun j hj => ?_
    · change s.shadow = s.pending
      rw [State.pending, hok.1]
    · cases hj
      exact hw
  | shadow =>
    cases hpc : s.gc with
    | held i =>
      rw [hpc] at hs
      dsimp only at hs
      split_ifs at hs
      cases hs
      have hpend : (s.shadowRead i).pending = s.shadow ++ [i] := by
        rw [State.pending, show (s.shadowRead i).gc = _ from hpc]
        rfl
      have hget : ∀ j, j ≠ i → (s.shadowRead i).secs j = s.secs j := fun j hj =>
        State.setSec_of_ne _ _ hj
      refine ⟨fun j hj => ?_, fun j hj => ?_, fun j hj => h.held j hj⟩
      · rw [State.mem_known, hpend, List.mem_append, List.mem_singleton]
        by_cases hji : j = i
        · exact .inr (.inr (.inr (.inr (.inr (.inr hji)))))
        · rw [hget j hji] at hj
          have hk := h.known j hj
          rw [State.mem_known, show s.pending = s.shadow by rw [State.pending, hpc]] at hk
          change j ∈ s.fifo ∨ j ∈ s.hand ∨ j ∈ s.unread ∨ j ∈ s.taken ∨ j ∈ s.entering ∨ _
          tauto
      · by_cases hji : j = i
        · rw [hji]
          exact h.held i hpc
        · rw [hget j hji] at hj
          exact h.below j hj
    | _ =>
      rw [hpc] at hs
      cases hs
  | dirty =>
    cases hpc : s.gc with
    | held i =>
      rw [hpc] at hs
      dsimp only at hs
      split_ifs at hs
      cases hs
      exact h.same (cached_setSec rfl) (fun _ hj => hj) rfl
    | _ =>
      rw [hpc] at hs
      cases hs
  | release =>
    cases hpc : s.gc with
    | held i =>
      rw [hpc] at hs
      cases hs
      refine (h.setLock i none).setGc ?_ fun j hj => by cases hj
      change s.shadow = s.pending
      rw [State.pending, hpc]
    | _ =>
      rw [hpc] at hs
      cases hs
  | flush =>
    dsimp only at hs
    split_ifs at hs with hok
    cases hs
    refine h.setGc ?_ fun j hj => by cases hj
    change s.shadow.drop 0 = s.pending
    rw [State.pending, hok]
    rfl
  | next =>
    cases hpc : s.gc with
    | idle =>
      rw [hpc] at hs
      cases hs
    | held i =>
      rw [hpc] at hs
      cases hs
    | flush k =>
      rw [hpc] at hs
      dsimp only at hs
      cases hk : s.shadow[k]? with
      | none =>
        rw [hk] at hs
        cases hs
        refine h.mono (fun j hj => ⟨hj, fun hkn => ?_⟩) fun j hj => by cases hj
        have hpend : s.pending = [] := by
          rw [State.pending, hpc]
          exact List.drop_eq_nil_of_le (List.getElem?_eq_none_iff.mp hk)
        rw [State.mem_known, hpend] at hkn
        rw [State.mem_known]
        exact hkn
      | some i =>
        rw [hk] at hs
        dsimp only at hs
        split_ifs at hs
        cases hs
        refine (h.setLock i (some .gc)).setGc ?_ fun j hj => by cases hj
        change s.shadow.drop k = s.pending
        rw [State.pending, hpc]
    | enqueue k i =>
      rw [hpc] at hs
      cases hs
      exact h.gc_enqueue hi.placed hN hpc
    | charge k i =>
      rw [hpc] at hs
      cases hs
      refine Kept.setGc (s := s.addCached _) (h.same (fun _ => rfl) (fun _ hj => hj) rfl) ?_
        fun j hj => by cases hj
      change s.shadow.drop (k + 1) = s.pending
      rw [State.pending, hpc]
    | unlock k i =>
      rw [hpc] at hs
      cases hs
      refine (h.setLock i none).setGc ?_ fun j hj => by cases hj
      change s.shadow.drop (k + 1) = s.pending
      rw [State.pending, hpc]

/-- No step loses a section. -/
theorem Kept.step (h : Kept N s) (hi : Inv p s) (hN : N < ringBufferSize) (hw : Within N e)
    (hs : Evict.step p s e = some s') : Kept N s' := by
  cases e with
  | collector => exact h.collect hi hs
  | begin b =>
    rw [Evict.step] at hs
    split_ifs at hs with hpc
    exact h.begin hpc hw hs
  | dispatcher => exact h.dispatch hi hN hs
  | gc a => exact h.collectGarbage hi hN hw hs
  | callback i =>
    rw [Evict.step] at hs
    split_ifs at hs
    cases hs
    exact h.setLock i none

/-! ### Runs on the ring buffer -/

/-- The states a run on a ring buffer can reach if no section from `N` on is named. -/
inductive RunOn (p : Params) (N : ℕ) (c : State × RingBuffer ℕ) : State × RingBuffer ℕ → Prop where
  | start : RunOn p N c c
  | step {d d' : State × RingBuffer ℕ} {e : Event} :
    RunOn p N c d → Within N e → stepOn p d.1 d.2 e = some d' → RunOn p N c d'

/-- The cached sections are those on the FIFO, and nothing is under way. -/
structure Begins (N : ℕ) (s : State) (c : State × RingBuffer ℕ) : Prop where
  start : Start s
  follows : Follows s c
  cached : ∀ i, (s.secs i).cached = true → i ∈ s.fifo ∧ i < N

theorem Begins.kept {c : State × RingBuffer ℕ} (h : Begins N s c) : Kept N s where
  known := fun j hj => by
    rw [h.start.known]
    exact (h.cached j hj).1
  below := fun j hj => (h.cached j hj).2
  held := fun j hj => by
    rw [h.start.gc] at hj
    cases hj

theorem RunOn.follows {c c' : State × RingBuffer ℕ} (hb : Begins N s c) (hN : N < ringBufferSize)
    (hr : RunOn p N c c') : ∃ t, Reaches p s t ∧ Follows t c' ∧ Kept N t ∧ Inv p t := by
  induction hr with
  | start => exact ⟨s, .start, hb.follows, hb.kept, hb.start.inv⟩
  | @step d d' e _ hw hs ih =>
    obtain ⟨t, hreach, hfol, hkept, hinv⟩ := ih
    obtain ⟨rb, hon, hcont⟩ := hfol.stepOn (p := p) e
    rw [hon, Option.map_eq_some_iff] at hs
    obtain ⟨t', hstep, hd⟩ := hs
    subst hd
    exact ⟨t', hreach.step hstep, ⟨rfl, hcont t' hstep⟩, hkept.step hinv hN hw hstep,
      hinv.step hstep⟩

/-- With fewer sections than slots in the ring buffer, in every run of the threads on it:
every section that comes to the FIFO is taken, and a section is cached if and only if it is in
exactly one of the ring buffer, the victim ring, the shadow list and the hands of the threads
that move it. -/
theorem RunOn.keepsCached {c c' : State × RingBuffer ℕ} (hb : Begins N s c)
    (hN : N < ringBufferSize) (hr : RunOn p N c c') :
    (∀ e i, c'.1.fifoCall e = some (.enqueue i) → (c'.2.push i).1 = 0) ∧
      ∃ l, c'.2.Contains l ∧ (c'.1.relist l).known.Nodup ∧
        ∀ i, (c'.1.secs i).cached = true ↔ i ∈ (c'.1.relist l).known := by
  obtain ⟨t, -, hfol, hkept, hinv⟩ := hr.follows hb hN
  have ht : c'.1.relist t.fifo = t := by
    rw [hfol.same]
    rfl
  refine ⟨fun e i hcall => ?_, t.fifo, hfol.contains, ?_, fun i => ?_⟩
  · rw [hfol.same] at hcall
    obtain ⟨hk, hni⟩ := hinv.placed.comes ((fifoCall_relist t [] e).symm.trans hcall)
    rw [hfol.contains.push_eq_zero_iff]
    have := hkept.room hinv.placed hN hk hni
    omega
  · rw [ht]
    exact hinv.placed.nodup
  · rw [ht, show (c'.1.secs i).cached = (t.secs i).cached by rw [hfol.same]; rfl]
    exact ⟨hkept.known i, fun hi => (hinv.placed.cached i hi).1⟩

/-- A ring buffer that was initialised, with no section cached. -/
def freshRing : RingBuffer ℕ := RingBuffer.init { buffer := fun _ => 0, head := 0, tail := 0 }

theorem begins_longSections : Begins 3 longSections (longSections, freshRing) where
  start := charged_longSections.start
  follows := ⟨rfl, RingBuffer.contains_init⟩
  cached := fun i hi => by cases hi

/-- A run of events on a ring buffer. -/
def runEventsOn (p : Params) : State × RingBuffer ℕ → List Event → Option (State × RingBuffer ℕ)
  | c, [] => some c
  | c, e :: es => (stepOn p c.1 c.2 e).bind fun c => runEventsOn p c es

theorem RunOn.runEvents {c d d' : State × RingBuffer ℕ} {es : List Event} (hr : RunOn p N c d)
    (hw : ∀ e ∈ es, Within N e) (h : runEventsOn p d es = some d') : RunOn p N c d' := by
  induction es generalizing d with
  | nil =>
    cases h
    exact hr
  | cons e es ih =>
    obtain ⟨d₁, hd₁, h⟩ := Option.bind_eq_some_iff.mp h
    exact ih (hr.step (hw e (List.mem_cons_self ..)) hd₁)
      (fun e' he' => hw e' (List.mem_cons_of_mem _ he')) h

/-- Of two cached sections one is evicted; the other stays on the ring buffer. -/
theorem RunOn.keepsCached_shadowed : ∃ c,
    runEventsOn twoPages (longSections, freshRing) evictWhileShadowed = some c ∧
    RunOn twoPages 3 (longSections, freshRing) c ∧ (c.1.secs 1).cached = false ∧
    (c.1.secs 2).cached = true ∧
    (∀ e i, c.1.fifoCall e = some (.enqueue i) → (c.2.push i).1 = 0) ∧
      ∃ l, c.2.Contains l ∧ (c.1.relist l).known.Nodup ∧
        ∀ i, (c.1.secs i).cached = true ↔ i ∈ (c.1.relist l).known := by
  have hw : ∀ e ∈ evictWhileShadowed, Within 3 e := by
    unfold evictWhileShadowed
    simp [Within]
  refine ⟨_, rfl, ?_⟩
  have hr := @RunOn.runEvents twoPages 3 (longSections, freshRing) _ _ evictWhileShadowed .start
    hw rfl
  exact ⟨hr, rfl, rfl, RunOn.keepsCached begins_longSections (by decide) hr⟩

end Virtkv.Evict
