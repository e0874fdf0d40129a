import Virtkv.Evict.Invariant

/-!
# The steps of the collector

The collector works while `have_victims` is zero, so no eviction runs then: the
ring only grows. A round begins with at most ten pages of leftovers and pushes
fewer sections than a page has grains, so the ring stays far from full.

## Main results

- `Inv.collect` — a step of the collector keeps the invariant
-/

namespace Virtkv.Evict

variable {p : Params} {s s' : State}

/-- A change of locks that keeps the sections as they are. -/
theorem Inv.of_locks (h : Inv p s) (hs : s' = { s with secs := s'.secs })
    (hsec : ∀ i, (s'.secs i).state = (s.secs i).state ∧ (s'.secs i).cached = (s.secs i).cached ∧
      (s'.secs i).hasMem = (s.secs i).hasMem ∧ (s'.secs i).cnt = (s.secs i).cnt)
    (hl : Locks s') : Inv p s' := by
  have hg : ∀ i, grains p (s'.secs i) = grains p (s.secs i) := by
    intro i
    rw [grains, grains, (hsec i).2.2.2]
  have hch : ∀ i, Chosen (s'.secs i) ↔ Chosen (s.secs i) := by
    intro i
    rw [Chosen, Chosen, (hsec i).1]
  have hu : s'.unread = s.unread := by rw [hs]; rfl
  have hk : s'.known = s.known := by rw [hs]; rfl
  have hring : s'.ringGrains p = s.ringGrains p := by
    rw [State.ringGrains, State.ringGrains, hu]
    exact total_congr fun i _ => hg i
  refine ⟨?_, ?_, hl, ?_, ?_, ?_, ?_, ?_, ?_⟩
  · rw [hs]
    exact h.ring
  · rw [hu]
    exact h.short
  · refine h.placed.of_perm (.of_eq hk) (fun i _ => ⟨(hsec i).2.1, (hsec i).2.2.1⟩) ?_ ?_
    · intro i
      rw [hch i, hs]
      exact h.placed.chosen i
    · rw [hs]
      exact h.placed.gc
  · refine h.counted.mono ?_ ?_ hu ?_ ?_ fun _ i _ => hg i
    · rw [hs]
    · rw [hs]
    · rw [hs]
    · rw [hring, show s'.owed = s.owed by rw [hs]; rfl, show s'.candidates = s.candidates by rw [hs]]
  · refine h.evicting.mono ?_ ?_ (Nat.le_of_eq hring.symm) fun i hi => hu ▸ hi
    · rw [hs]
    · rw [hs]
  · exact h.growing.mono (by rw [hs]) fun i hi => hu ▸ hi
  · rw [hs]
    exact h.flag
  · rw [hs]
    exact h.reset

/-- Only the lock of a section changes. -/
theorem Inv.setOutgoing (h : Inv p s) (i : ℕ) (o : Option Holder)
    (hl : Locks (s.setSec i { s.secs i with outgoing := o })) :
    Inv p (s.setSec i { s.secs i with outgoing := o }) := by
  refine h.of_locks rfl (fun j => ?_) hl
  by_cases hj : j = i
  · subst hj
    rw [State.setSec_self]
    exact ⟨rfl, rfl, rfl, rfl⟩
  · rw [State.setSec_of_ne _ _ hj]
    exact ⟨rfl, rfl, rfl, rfl⟩

/-- Taking a free lock. -/
theorem Inv.acquire (h : Inv p s) {i : ℕ} (o : Holder) (hfree : (s.secs i).outgoing = none) :
    Inv p (s.acquire i o) :=
  h.setOutgoing i _ ⟨h.locks.collector.mono (keeps_of_free hfree),
    h.locks.dispatcher.mono (keeps_of_free hfree), h.locks.gc.mono (keeps_of_free hfree)⟩

/-- The collector moves on without touching a section. -/
theorem Inv.setCollector (h : Inv p s) {pc : Collector}
    (hhand : (s.setCollector pc).hand = s.hand) (hmark : (s.setCollector pc).marked = s.marked)
    (hl : pc.Locked s.secs) (hc : Counted p (s.setCollector pc))
    (hr : pc = .reset → s.haveVictims = 0) : Inv p (s.setCollector pc) where
  ring := h.ring
  short := h.short
  locks := ⟨hl, h.locks.dispatcher, h.locks.gc⟩
  placed := by
    refine h.placed.of_perm (.of_eq ?_) (fun _ _ => ⟨rfl, rfl⟩) ?_ h.placed.gc
    · change s.fifo ++ (s.setCollector pc).hand ++ _ ++ _ ++ _ ++ _ = _
      rw [hhand]
      rfl
    · intro i
      rw [hmark]
      exact h.placed.chosen i
  counted := hc
  evicting := h.evicting
  growing := h.growing
  flag := h.flag
  reset := hr

section Steps

variable {n i : ℕ}

theorem Inv.collect_measure (h : Inv p s) (hpc : s.collector = .measure) :
    Inv p (s.setCollector
      (if p.build.grainPerPage * 10 < s.dist then .publish else .dequeue 0)) := by
  have hc := h.counted
  have hb := grainPerPage_bounds p.build
  rw [Counted, hpc] at hc
  have hdist : s.dist = s.unread.length := by
    rw [State.dist, h.ring.distance (by decide), State.unread, List.length_drop]
  have hlen : s.unread.length ≤ s.ringGrains p := length_le_total fun _ _ => one_le_grains _
  have hhand : s.hand = [] := by rw [State.hand, hpc]
  have hmark : s.marked = [] := by rw [State.marked, hpc]
  split_ifs with hfar
  · refine h.setCollector ?_ ?_ trivial ?_ nofun
    · rw [hhand]
      rfl
    · rw [hmark]
      rfl
    · refine And.intro hc.1 ?_
      change p.build.grainPerPage ≤ s.ringGrains p + s.owed
      omega
  · refine h.setCollector ?_ ?_ trivial ?_ nofun
    · rw [hhand]
      rfl
    · rw [hmark]
      rfl
    · refine And.intro hc.1 (And.intro hc.2 ?_)
      change 0 ≤ s.candidates ∧ 0 < p.build.grainPerPage ∧
        s.unread.length ≤ p.build.grainPerPage * 10 + s.candidates ∧
        s.unread.length < p.build.grainPerPage * 11
      omega

theorem Inv.collect_dequeue (h : Inv p s) (hpc : s.collector = .dequeue n) {fifo : List ℕ}
    (hf : s.fifo = i :: fifo) : Inv p { s with fifo := fifo, collector := .lock n i } := by
  have hc := h.counted
  rw [Counted, hpc] at hc
  have hhand : s.hand = [] := by rw [State.hand, hpc]
  have hmark : s.marked = [] := by rw [State.marked, hpc]
  refine ⟨h.ring, h.short, ⟨trivial, h.locks.dispatcher, h.locks.gc⟩, ?_, hc, h.evicting,
    h.growing, h.flag, nofun⟩
  refine h.placed.of_perm ?_ (fun _ _ => ⟨rfl, rfl⟩) ?_ h.placed.gc
  · change (fifo ++ [i] ++ s.unread ++ s.taken ++ s.entering ++ s.pending).Perm s.known
    rw [State.known, hf, hhand, List.append_nil]
    refine List.Perm.append_right _ (List.Perm.append_right _ (List.Perm.append_right _
      (List.Perm.append_right _ ?_)))
    exact List.perm_append_comm
  · intro j
    rw [h.placed.chosen j, hmark]
    rfl

theorem Inv.collect_lock (h : Inv p s) (hpc : s.collector = .lock n i)
    (hfree : (s.secs i).outgoing = none) :
    Inv p ((s.acquire i .collector).setCollector (.mark n i)) := by
  have hc := h.counted
  rw [Counted, hpc] at hc
  have hlock : Inv p (s.acquire i .collector) := h.acquire .collector hfree
  have hl := hlock.counted
  rw [Counted, show (s.acquire i .collector).collector = _ from hpc] at hl
  refine hlock.setCollector ?_ ?_ ?_ hl nofun
  · change [i] = s.hand
    rw [State.hand, hpc]
  · change [] = s.marked
    rw [State.marked, hpc]
  · change ((Function.update s.secs i _) i).outgoing = _
    rw [Function.update_self]

theorem chosen_chosenState (x : Sec) : Chosen { x with state := chosenState x } := by
  unfold Chosen chosenState
  dsimp only
  split_ifs
  · exact .inr rfl
  · exact .inl rfl

theorem Inv.collect_mark (h : Inv p s) (hpc : s.collector = .mark n i) :
    Inv p ((s.setSec i { s.secs i with state := chosenState (s.secs i) }).setCollector
      (.push n i)) := by
  have hlocked : (s.secs i).outgoing = some .collector := by
    have := h.locks.collector
    rw [hpc] at this
    exact this
  have hmark : s.marked = [] := by rw [State.marked, hpc]
  have hg : ∀ j, grains p ((s.setSec i { s.secs i with state := chosenState (s.secs i) }).secs j) =
      grains p (s.secs j) := by
    intro j
    by_cases hj : j = i
    · subst hj
      rw [State.setSec_self]
      rfl
    · rw [State.setSec_of_ne _ _ hj]
  have hring : (s.setSec i { s.secs i with state := chosenState (s.secs i) }).ringGrains p =
      s.ringGrains p := total_congr fun j _ => hg j
  have hc := h.counted
  rw [Counted, hpc] at hc
  refine ⟨h.ring, h.short, ⟨?_, ?_, ?_⟩, ?_, ?_, ?_, h.growing, h.flag, nofun⟩
  · change ((s.setSec i _).secs i).outgoing = _
    rw [State.setSec_self]
    exact hlocked
  · exact h.locks.dispatcher.mono (keeps_of_eq rfl)
  · exact h.locks.gc.mono (keeps_of_eq rfl)
  · refine h.placed.of_perm (.of_eq ?_) ?_ ?_ h.placed.gc
    · change s.fifo ++ [i] ++ _ ++ _ ++ _ ++ _ = s.fifo ++ s.hand ++ _ ++ _ ++ _ ++ _
      rw [show s.hand = [i] by rw [State.hand, hpc]]
      rfl
    · intro j _
      change ((s.setSec i _).secs j).cached = _ ∧ ((s.setSec i _).secs j).hasMem = _
      by_cases hj : j = i
      · subst hj
        rw [State.setSec_self]
        exact ⟨rfl, rfl⟩
      · rw [State.setSec_of_ne _ _ hj]
        exact ⟨rfl, rfl⟩
    · intro j
      change Chosen ((s.setSec i _).secs j) ↔ j ∈ s.unread ∨ j ∈ s.taken ∨ j ∈ [i]
      by_cases hj : j = i
      · subst hj
        rw [State.setSec_self]
        exact ⟨fun _ => .inr (.inr (List.mem_singleton.mpr rfl)), fun _ => chosen_chosenState _⟩
      · rw [State.setSec_of_ne _ _ hj, h.placed.chosen j, hmark]
        simp [hj]
  · have hcr : Counted p (s.setSec i { s.secs i with state := chosenState (s.secs i) }) := by
      refine h.counted.mono rfl rfl rfl (Nat.le_refl _) ?_ fun _ j _ => hg j
      rw [hring]
      exact Nat.le_refl _
    rw [Counted, show (s.setSec i { s.secs i with state := chosenState (s.secs i) }).collector =
      _ from hpc] at hcr
    exact hcr
  · exact h.evicting.mono rfl rfl (Nat.le_of_eq hring.symm) fun _ hj => hj

/-- Unread sections after one more is pushed. -/
theorem Inv.unread_push (h : Inv p s) : (s.pushRing i).unread = s.unread ++ [i] := by
  change (s.filled ++ [i]).drop s.consumed = _
  rw [List.drop_append_of_le_length h.ring.taken_le]
  rfl

theorem Inv.collect_push (h : Inv p s) (hpc : s.collector = .push n i) :
    Inv p ((s.pushRing i).setCollector (.count n i)) := by
  have hc := h.counted
  have hb := grainPerPage_bounds p.build
  rw [Counted, hpc] at hc
  obtain ⟨hv, hsum, hn, -, hten, helev⟩ := hc
  have hhand : s.hand = [i] := by rw [State.hand, hpc]
  have hmark : s.marked = [i] := by rw [State.marked, hpc]
  have hu : (s.pushRing i).unread = s.unread ++ [i] := h.unread_push
  have hlen : (s.pushRing i).unread.length = s.unread.length + 1 := by
    rw [hu, List.length_append, List.length_singleton]
  have hring : (s.pushRing i).ringGrains p = s.ringGrains p + grains p (s.secs i) := by
    rw [State.ringGrains, hu, total_append, total_cons]
    rfl
  refine ⟨?_, ?_, ⟨?_, ?_, h.locks.gc⟩, ?_, ?_, ?_, ?_, h.flag, nofun⟩
  · refine h.ring.push i ?_
    have : s.filled.length - s.consumed = s.unread.length := by rw [State.unread, List.length_drop]
    rw [this]
    change s.unread.length + 1 < 131072
    omega
  · change (s.pushRing i).unread.length ≤ _
    omega
  · have := h.locks.collector
    rw [hpc] at this
    exact this
  · -- no eviction runs, so the tail of the ring is not looked at
    have hev := h.evicting
    have hd := h.locks.dispatcher
    change s.dispatcher.Locked s.secs _
    unfold Evicting at hev
    cases hdp : s.dispatcher with
    | evRead e g locked =>
      rw [hdp] at hev
      exact absurd (hv.symm.trans hev.1) (by decide)
    | idle | evLoop | evLock | evEnd => trivial
    | _ =>
      rw [hdp] at hd
      exact hd
  · refine h.placed.of_perm ?_ (fun _ _ => ⟨rfl, rfl⟩) ?_ h.placed.gc
    · change (s.fifo ++ [] ++ (s.pushRing i).unread ++ s.taken ++ s.entering ++ s.pending).Perm
        (s.fifo ++ s.hand ++ s.unread ++ s.taken ++ s.entering ++ s.pending)
      rw [hu, hhand, List.append_nil]
      refine List.Perm.append_right _ (List.Perm.append_right _ (List.Perm.append_right _ ?_))
      rw [List.append_assoc]
      exact List.perm_append_comm.append_left _
    · intro j
      change Chosen (s.secs j) ↔ j ∈ (s.pushRing i).unread ∨ j ∈ s.taken ∨ j ∈ []
      rw [hu, h.placed.chosen j, hmark]
      simp only [List.mem_append, List.mem_singleton, List.not_mem_nil, or_false]
      tauto
  · change s.haveVictims = 0 ∧
      s.candidates + grains p (s.secs i) ≤ (s.pushRing i).ringGrains p + s.owed ∧
      n ≤ s.candidates ∧ i ∈ (s.pushRing i).unread ∧
      (s.pushRing i).unread.length ≤ p.build.grainPerPage * 10 + s.candidates + 1
    refine ⟨hv, by omega, hn, ?_, by omega⟩
    rw [hu]
    simp
  · refine h.evicting.mono rfl rfl ?_ ?_
    · change s.ringGrains p ≤ (s.pushRing i).ringGrains p
      omega
    · intro j hj
      change (s.pushRing i).unread.head? = some j
      rw [hu, List.head?_append, hj]
      rfl
  · refine h.growing.mono rfl fun j hj => ?_
    change j ∈ (s.pushRing i).unread
    rw [hu]
    exact List.mem_append_left _ hj

theorem Inv.collect_publish (h : Inv p s) (hpc : s.collector = .publish) :
    Inv p { s with haveVictims := 1, collector := .poll } := by
  have hc := h.counted
  rw [Counted, hpc] at hc
  have hhand : s.hand = [] := by rw [State.hand, hpc]
  have hmark : s.marked = [] := by rw [State.marked, hpc]
  refine ⟨h.ring, h.short, ⟨trivial, h.locks.dispatcher, h.locks.gc⟩, ?_, trivial, ?_,
    h.growing, Nat.le_succ 1, (by rintro ⟨⟩)⟩
  · refine h.placed.of_perm (.of_eq ?_) (fun _ _ => ⟨rfl, rfl⟩) ?_ h.placed.gc
    · rw [State.known, State.known, hhand]
      rfl
    · intro j
      rw [h.placed.chosen j, hmark]
      rfl
  · have hev := h.evicting
    have hfull : p.build.grainPerPage ≤
        State.ringGrains p { s with haveVictims := 1, collector := .poll } +
          State.owed { s with haveVictims := 1, collector := .poll } := hc.2
    rw [Evicting] at hev ⊢
    dsimp only
    generalize State.ringGrains p _ + State.owed _ = n at hfull ⊢
    cases hdp : s.dispatcher with
    | idle | enqueue | charge | grow | count | expand => exact ⟨by decide, fun _ => hfull⟩
    | evEnd =>
      rw [hdp] at hev
      exact absurd (hc.1.symm.trans hev) (by decide)
    | _ =>
      rw [hdp] at hev
      exact absurd (hc.1.symm.trans hev.1) (by decide)

/-- A step of the collector keeps the invariant. -/
theorem Inv.collect (h : Inv p s) (hs : Evict.collect p s = some s') : Inv p s' := by
  have hb := grainPerPage_bounds p.build
  have hc := h.counted
  unfold Evict.collect at hs
  cases hpc : s.collector with
  | poll =>
    rw [hpc] at hs
    cases hs
    have hhand : s.hand = [] := by rw [State.hand, hpc]
    have hmark : s.marked = [] := by rw [State.marked, hpc]
    split_ifs with hv
    · exact h.setCollector (by rw [hhand]; rfl) (by rw [hmark]; rfl) trivial trivial fun _ => hv
    · exact h.setCollector (by rw [hhand]; rfl) (by rw [hmark]; rfl) trivial trivial nofun
  | reset =>
    rw [hpc] at hs
    cases hs
    have hv := h.reset hpc
    refine ⟨h.ring, h.short, ⟨trivial, h.locks.dispatcher, h.locks.gc⟩, ?_, ⟨hv, Nat.zero_le _⟩,
      h.evicting, h.growing, h.flag, nofun⟩
    refine h.placed.of_perm (.of_eq ?_) (fun _ _ => ⟨rfl, rfl⟩) ?_ h.placed.gc
    · rw [State.known, State.known, show s.hand = [] by rw [State.hand, hpc]]
      rfl
    · intro j
      rw [h.placed.chosen j, show s.marked = [] by rw [State.marked, hpc]]
      rfl
  | measure =>
    rw [hpc] at hs
    cases hs
    exact h.collect_measure hpc
  | dequeue n =>
    rw [hpc] at hs
    rw [Counted, hpc] at hc
    cases hf : s.fifo with
    | nil =>
      rw [hf] at hs
      cases hs
      refine h.setCollector ?_ ?_ trivial ?_ nofun
      · rw [show s.hand = [] by rw [State.hand, hpc]]
        rfl
      · rw [show s.marked = [] by rw [State.marked, hpc]]
        rfl
      · exact And.intro hc.1 (And.intro hc.2.1 hc.2.2.2.2.1)
    | cons i fifo =>
      have hn : n < maxSearch := by
        have : p.build.grainPerPage ≤ maxSearch := Nat.le_trans hb.2 (by decide)
        omega
      rw [hf] at hs
      dsimp only at hs
      rw [if_pos hn] at hs
      cases hs
      exact h.collect_dequeue hpc hf
  | lock n i =>
    rw [hpc] at hs
    dsimp only at hs
    split_ifs at hs with hfree
    cases hs
    exact h.collect_lock hpc hfree
  | mark n i =>
    rw [hpc] at hs
    dsimp only at hs
    split_ifs at hs
    cases hs
    exact h.collect_mark hpc
  | push n i =>
    rw [hpc] at hs
    cases hs
    exact h.collect_push hpc
  | count n i =>
    rw [hpc] at hs
    cases hs
    rw [Counted, hpc] at hc
    have hlocked := h.locks.collector
    rw [hpc] at hlocked
    have hg := one_le_grains (p := p) (s.secs i)
    refine ⟨h.ring, h.short, ⟨hlocked, h.locks.dispatcher, h.locks.gc⟩, ?_, ?_, h.evicting,
      h.growing, h.flag, nofun⟩
    · refine h.placed.of_perm (.of_eq ?_) (fun _ _ => ⟨rfl, rfl⟩) ?_ h.placed.gc
      · rw [State.known, State.known, show s.hand = [] by rw [State.hand, hpc]]
        rfl
      · intro j
        rw [h.placed.chosen j, show s.marked = [] by rw [State.marked, hpc]]
        rfl
    · change s.haveVictims = 0 ∧ s.candidates + grains p (s.secs i) ≤ s.ringGrains p + s.owed ∧
        n + 1 ≤ s.candidates + grains p (s.secs i) ∧
        s.unread.length ≤ p.build.grainPerPage * 10 + (s.candidates + grains p (s.secs i))
      exact ⟨hc.1, hc.2.1, by omega, by omega⟩
  | check n i =>
    rw [hpc] at hs
    cases hs
    rw [Counted, hpc] at hc
    have hlocked := h.locks.collector
    rw [hpc] at hlocked
    refine h.setCollector ?_ ?_ hlocked ?_ nofun
    · rw [show s.hand = [] by rw [State.hand, hpc]]
      rfl
    · rw [show s.marked = [] by rw [State.marked, hpc]]
      rfl
    · refine And.intro hc.1 (And.intro hc.2.1 (And.intro hc.2.2.1 (And.intro hc.2.2.2 ?_)))
      intro hstop
      change n + 1 < p.build.grainPerPage ∧ s.unread.length < p.build.grainPerPage * 11
      have hlt := of_decide_eq_false hstop
      omega
  | unlock n i stop =>
    rw [hpc] at hs
    cases hs
    rw [Counted, hpc] at hc
    have hlocked : (s.secs i).outgoing = some .collector := by
      have := h.locks.collector
      rw [hpc] at this
      exact this
    have hhand : s.hand = [] := by rw [State.hand, hpc]
    have hmark : s.marked = [] := by rw [State.marked, hpc]
    -- first to a place without a lock, then the lock goes
    have hmove : Inv p (s.setCollector (if stop then .recheck else .dequeue (n + 1))) := by
      cases stop with
      | true =>
        exact h.setCollector (by rw [hhand]; rfl) (by rw [hmark]; rfl) trivial
          (And.intro hc.1 (And.intro hc.2.1 hc.2.2.2.1)) nofun
      | false =>
        obtain ⟨hn, hlen⟩ := hc.2.2.2.2 rfl
        exact h.setCollector (by rw [hhand]; rfl) (by rw [hmark]; rfl) trivial
          (And.intro hc.1 (And.intro hc.2.1 (And.intro hc.2.2.1 (And.intro hn
            (And.intro hc.2.2.2.1 hlen))))) nofun
    refine hmove.setOutgoing i none ⟨?_, ?_, ?_⟩
    · cases stop <;> trivial
    · exact hmove.locks.dispatcher.mono (keeps_of_held hlocked nofun)
    · exact hmove.locks.gc.mono (keeps_of_held hlocked nofun)
  | recheck =>
    rw [hpc] at hs
    cases hs
    rw [Counted, hpc] at hc
    have hhand : s.hand = [] := by rw [State.hand, hpc]
    have hmark : s.marked = [] := by rw [State.marked, hpc]
    split_ifs with hlt
    · refine h.setCollector (by rw [hhand]; rfl) (by rw [hmark]; rfl) trivial ?_ nofun
      refine And.intro hc.1 (And.intro hc.2.1 ?_)
      change 0 ≤ s.candidates ∧ 0 < p.build.grainPerPage ∧
        s.unread.length ≤ p.build.grainPerPage * 10 + s.candidates ∧
        s.unread.length < p.build.grainPerPage * 11
      omega
    · refine h.setCollector (by rw [hhand]; rfl) (by rw [hmark]; rfl) trivial ?_ nofun
      refine And.intro hc.1 ?_
      change p.build.grainPerPage ≤ s.ringGrains p + s.owed
      omega
  | publish =>
    rw [hpc] at hs
    cases hs
    exact h.collect_publish hpc

end Steps

end Virtkv.Evict
