import Virtkv.Evict.Collect

/-!
# The steps of the dispatcher and of the garbage collector

The dispatcher is one thread, so an eviction never runs while a section is
being expanded: a grain that was counted for the collector is in its table
before the ring is read.

## Main results

- `Inv.begin`, `Inv.dispatch` — the dispatcher keeps the invariant
- `Inv.collectGarbage` — the garbage collector keeps the invariant
- `Inv.step` — every step keeps the invariant
-/

namespace Virtkv.Evict

variable {p : Params} {s s' : State} {i : ℕ}

/-- While victims are offered or evicted the collector polls. -/
theorem Inv.collector_poll (h : Inv p s) (hv : s.haveVictims ≠ 0) : s.collector = .poll := by
  have hc := h.counted
  unfold Counted at hc
  cases hpc : s.collector with
  | poll => rfl
  | reset => exact absurd (h.reset hpc) hv
  | _ =>
    rw [hpc] at hc
    exact absurd hc.1 hv

/-- A section changes, but not its place, its lock or its grains. -/
theorem Inv.setSec_same (h : Inv p s) {x : Sec} (hcached : x.cached = (s.secs i).cached)
    (hmem : x.hasMem = (s.secs i).hasMem) (hlock : x.outgoing = (s.secs i).outgoing)
    (hch : Chosen x ↔ Chosen (s.secs i)) (hg : grains p x = grains p (s.secs i)) :
    Inv p (s.setSec i x) := by
  have hgr : ∀ j, grains p ((s.setSec i x).secs j) = grains p (s.secs j) := by
    intro j
    by_cases hj : j = i
    · subst hj
      rw [State.setSec_self, hg]
    · rw [State.setSec_of_ne _ _ hj]
  have hring : (s.setSec i x).ringGrains p = s.ringGrains p := total_congr fun j _ => hgr j
  refine ⟨h.ring, h.short, ⟨h.locks.collector.mono (keeps_of_eq hlock),
    h.locks.dispatcher.mono (keeps_of_eq hlock), h.locks.gc.mono (keeps_of_eq hlock)⟩, ?_, ?_, ?_,
    h.growing, h.flag, h.reset⟩
  · refine h.placed.of_perm (.refl _) ?_ ?_ h.placed.gc
    · intro j _
      by_cases hj : j = i
      · subst hj
        rw [State.setSec_self]
        exact ⟨hcached, hmem⟩
      · rw [State.setSec_of_ne _ _ hj]
        exact ⟨rfl, rfl⟩
    · intro j
      by_cases hj : j = i
      · subst hj
        rw [State.setSec_self, hch]
        exact h.placed.chosen j
      · rw [State.setSec_of_ne _ _ hj]
        exact h.placed.chosen j
  · refine h.counted.mono rfl rfl rfl (Nat.le_refl _) ?_ fun _ j _ => hgr j
    rw [hring]
    exact Nat.le_refl _
  · exact h.evicting.mono rfl rfl (Nat.le_of_eq hring.symm) fun _ hj => hj

/-- The dispatcher moves on without touching a section. -/
theorem Inv.setDispatcher (h : Inv p s) {pc : Dispatcher}
    (htaken : (s.setDispatcher pc).taken = s.taken)
    (hent : (s.setDispatcher pc).entering = s.entering)
    (howed : s.owed ≤ (s.setDispatcher pc).owed) (hl : pc.Locked s.secs (s.hts s.tail))
    (he : Evicting p (s.setDispatcher pc)) (hg : Growing p (s.setDispatcher pc)) :
    Inv p (s.setDispatcher pc) where
  ring := h.ring
  short := h.short
  locks := ⟨h.locks.collector, hl, h.locks.gc⟩
  placed := by
    refine h.placed.of_perm (.of_eq ?_) (fun _ _ => ⟨rfl, rfl⟩) ?_ h.placed.gc
    · change s.fifo ++ s.hand ++ s.unread ++ (s.setDispatcher pc).taken ++
        (s.setDispatcher pc).entering ++ _ = _
      rw [htaken, hent]
      rfl
    · intro i
      rw [htaken]
      exact h.placed.chosen i
  counted := by
    refine h.counted.mono rfl rfl rfl (Nat.le_refl _) ?_ fun _ _ _ => rfl
    exact Nat.add_le_add_left (Nat.add_le_add_left howed _) _
  evicting := he
  growing := hg
  flag := h.flag
  reset := h.reset

/-- The dispatcher moves on with no section in its hands, before or after. -/
theorem Inv.moveOn (h : Inv p s) {pc : Dispatcher} (htaken : s.taken = []) (hent : s.entering = [])
    (howed : s.owed = 0) (htaken' : (s.setDispatcher pc).taken = [])
    (hent' : (s.setDispatcher pc).entering = []) (hl : pc.Locked s.secs (s.hts s.tail))
    (he : Evicting p (s.setDispatcher pc)) (hg : Growing p (s.setDispatcher pc)) :
    Inv p (s.setDispatcher pc) :=
  h.setDispatcher (htaken'.trans htaken.symm) (hent'.trans hent.symm) (howed ▸ Nat.zero_le _) hl he hg

/-- The same with the flag of the victims. -/
theorem Placed.setVictims (h : Placed s) (v : ℕ) {pc : Dispatcher} (htaken : s.taken = [])
    (hent : s.entering = []) (htaken' : (s.setDispatcher pc).taken = [])
    (hent' : (s.setDispatcher pc).entering = []) :
    Placed { s with haveVictims := v, dispatcher := pc } := by
  refine h.of_perm (.of_eq ?_) (fun _ _ => ⟨rfl, rfl⟩) (fun j => ?_) h.gc
  · change s.fifo ++ s.hand ++ s.unread ++ (s.setDispatcher pc).taken ++
      (s.setDispatcher pc).entering ++ s.pending = _
    rw [State.known, htaken, hent, htaken', hent']
  · change _ ↔ j ∈ s.unread ∨ j ∈ (s.setDispatcher pc).taken ∨ j ∈ s.marked
    rw [htaken', ← htaken]
    exact h.chosen j

/-- The counters that only the accounting looks at. -/
theorem Inv.setCached (h : Inv p s) (n : ℤ) (g : ℕ) :
    Inv p { s with nrCached := n, growth := g } where
  ring := h.ring
  short := h.short
  locks := ⟨h.locks.collector, h.locks.dispatcher, h.locks.gc⟩
  placed := ⟨h.placed.nodup, h.placed.cached, h.placed.chosen, h.placed.gc⟩
  counted := h.counted
  evicting := h.evicting
  growing := h.growing
  flag := h.flag
  reset := h.reset

/-! ### Loading a section -/

theorem State.mem_hand_of_marked (s : State) (hm : i ∈ s.marked) : i ∈ s.hand := by
  unfold State.marked at hm
  unfold State.hand
  cases hc : s.collector with
  | push n j =>
    rw [hc] at hm
    exact hm
  | _ =>
    rw [hc] at hm
    cases hm

theorem Placed.notMem_of_uncached (h : Placed s) (hi : (s.secs i).cached = false) :
    i ∉ s.known := by
  intro hm
  rw [(h.cached i hm).1] at hi
  cases hi

theorem Placed.not_chosen_of_uncached (h : Placed s) (hi : (s.secs i).cached = false) :
    ¬Chosen (s.secs i) := by
  intro hch
  have hmem : i ∈ s.known := by
    rcases (h.chosen i).mp hch with hm | hm | hm
    · simp [State.known, hm]
    · simp [State.known, hm]
    · simp [State.known, s.mem_hand_of_marked hm]
  exact h.notMem_of_uncached hi hmem

/-- A section that no thread knows of is read into the cache. -/
theorem Inv.enter (h : Inv p s) {t : State} {x : Sec} (hi : (s.secs i).cached = false)
    (hcached : x.cached = true) (hmem : x.hasMem = true)
    (hlock : x.outgoing = (s.secs i).outgoing) (hch : ¬Chosen x)
    (hk : t.known.Perm (i :: s.known)) (hst : t.secs = (s.setSec i x).secs)
    (hu : t.unread = s.unread) (hta : t.taken = s.taken) (hm : t.marked = s.marked)
    (hgc : t.gc.Flushes t.shadow) : Placed t ∧ t.ringGrains p = s.ringGrains p := by
  have hni := h.placed.notMem_of_uncached hi
  have hget : ∀ j, j ≠ i → t.secs j = s.secs j := by
    intro j hj
    rw [hst, State.setSec_of_ne _ _ hj]
  have hself : t.secs i = x := by rw [hst, State.setSec_self]
  refine ⟨⟨?_, ?_, ?_, hgc⟩, ?_⟩
  · exact hk.nodup_iff.mpr (List.nodup_cons.mpr ⟨hni, h.placed.nodup⟩)
  · intro j hj
    by_cases hji : j = i
    · rw [hji, hself]
      exact ⟨hcached, hmem⟩
    · rw [hget j hji]
      exact h.placed.cached j ((List.mem_cons.mp (hk.mem_iff.mp hj)).resolve_left hji)
  · intro j
    rw [hu, hta, hm]
    by_cases hji : j = i
    · subst hji
      rw [hself, ← h.placed.chosen j]
      exact ⟨fun hx => absurd hx hch, fun hx => absurd hx (h.placed.not_chosen_of_uncached hi)⟩
    · rw [hget j hji]
      exact h.placed.chosen j
  · rw [State.ringGrains, hu]
    refine total_congr fun j hj => ?_
    have hji : j ≠ i := by
      rintro rfl
      exact hni (by simp [State.known, hj])
    rw [hget j hji]

theorem Inv.load (h : Inv p s) (hpc : s.dispatcher = .idle) (hd : Holds s i)
    (hi : (s.secs i).cached = false) :
    Inv p ((s.setSec i (loaded p (s.secs i))).setDispatcher (.enqueue i)) := by
  have hnot := h.placed.not_chosen_of_uncached hi
  have hx : (loaded p (s.secs i)).cached = true ∧ (loaded p (s.secs i)).hasMem = true ∧
      (loaded p (s.secs i)).outgoing = (s.secs i).outgoing ∧ ¬Chosen (loaded p (s.secs i)) := by
    unfold loaded
    split_ifs with hm
    · exact ⟨rfl, hm, rfl, hnot⟩
    · exact ⟨rfl, rfl, rfl, by rintro (h | h) <;> cases h⟩
  obtain ⟨hx1, hx2, hx3, hx4⟩ := hx
  have htaken : s.taken = [] := by rw [State.taken, hpc]
  have hent : s.entering = [] := by rw [State.entering, hpc]
  have howed : s.owed = 0 := by rw [State.owed, hpc]
  have hperm : ((s.setSec i (loaded p (s.secs i))).setDispatcher (.enqueue i)).known.Perm
      (i :: s.known) := by
    change (s.fifo ++ s.hand ++ s.unread ++ [] ++ [i] ++ s.pending).Perm
      (i :: (s.fifo ++ s.hand ++ s.unread ++ s.taken ++ s.entering ++ s.pending))
    rw [htaken, hent, List.append_nil, List.append_nil, List.append_assoc, List.singleton_append]
    exact List.perm_middle
  obtain ⟨hplaced, hring⟩ := h.enter
    (t := (s.setSec i (loaded p (s.secs i))).setDispatcher (.enqueue i)) hi hx1 hx2 hx3 hx4 hperm
    rfl rfl htaken.symm rfl h.placed.gc
  refine ⟨h.ring, h.short, ⟨h.locks.collector.mono (keeps_of_eq hx3), ?_,
    h.locks.gc.mono (keeps_of_eq hx3)⟩, hplaced, ?_, ?_, trivial, h.flag, h.reset⟩
  · change ((s.setSec i _).secs i).outgoing = _
    rw [State.setSec_self, hx3]
    exact hd
  · refine h.counted.mono rfl rfl rfl (Nat.le_refl _) ?_ ?_
    · rw [hring, howed]
      exact Nat.le_refl _
    · intro n j hj
      have hc := h.counted
      rw [Counted, hj] at hc
      have hji : j ≠ i := by
        rintro rfl
        exact h.placed.notMem_of_uncached hi (by simp [State.known, hc.2.2.2.1])
      change grains p ((s.setSec i _).secs j) = _
      rw [State.setSec_of_ne _ _ hji]
  · have hev := h.evicting
    rw [Evicting, hpc] at hev
    refine And.intro hev.1 fun hv => ?_
    rw [hring]
    exact Nat.le_trans (hev.2 hv) (by rw [howed]; exact Nat.le_add_right _ _)

/-! ### Beginning an access -/

theorem chosen_dirtied (x : Sec) : Chosen { x with state := Cache.dirtied x.state } ↔ Chosen x := by
  unfold Chosen
  cases x.state <;> simp [Cache.dirtied]

theorem Inv.beginEvict (h : Inv p s) (hpc : s.dispatcher = .idle) (hv : s.haveVictims = 1) :
    Inv p { s with haveVictims := 2, dispatcher := .evLoop 0 0 } := by
  have hb := grainPerPage_bounds p.build
  have hcol := h.collector_poll (by rw [hv]; decide)
  have hev := h.evicting
  rw [Evicting, hpc] at hev
  have howed : s.owed = 0 := by rw [State.owed, hpc]
  refine ⟨h.ring, h.short, ⟨h.locks.collector, trivial, h.locks.gc⟩, ?_, ?_, ?_, trivial,
    Nat.le_refl _, ?_⟩
  · exact h.placed.setVictims 2 (by rw [State.taken, hpc]) (by rw [State.entering, hpc]) rfl rfl
  · rw [Counted, hcol]
    trivial
  · change (2 : ℕ) = 2 ∧ 0 < p.build.grainPerPage ∧ p.build.grainPerPage ≤ 0 + s.ringGrains p
    have := hev.2 hv
    omega
  · intro hr
    rw [show s.collector = .reset from hr] at hcol
    cases hcol

/-- Beginning an access keeps the invariant. -/
theorem Inv.begin (h : Inv p s) (hpc : s.dispatcher = .idle) {b : Begin}
    (hs : Evict.begin p s b = some s') : Inv p s' := by
  have hev := h.evicting
  rw [Evicting, hpc] at hev
  unfold Evict.begin at hs
  cases b with
  | acquire i =>
    dsimp only at hs
    split_ifs at hs with hfree
    cases hs
    exact h.acquire .dispatcher hfree
  | pass i =>
    dsimp only at hs
    split_ifs at hs with hd
    cases hs
    refine h.setOutgoing i _ ⟨h.locks.collector.mono (keeps_of_held hd (by rintro ⟨⟩)), ?_,
      h.locks.gc.mono (keeps_of_held hd (by rintro ⟨⟩))⟩
    change s.dispatcher.Locked _ _
    rw [hpc]
    trivial
  | release i =>
    dsimp only at hs
    split_ifs at hs with hd
    cases hs
    refine h.setOutgoing i _ ⟨h.locks.collector.mono (keeps_of_held hd (by rintro ⟨⟩)), ?_,
      h.locks.gc.mono (keeps_of_held hd (by rintro ⟨⟩))⟩
    change s.dispatcher.Locked _ _
    rw [hpc]
    trivial
  | load i =>
    dsimp only at hs
    split_ifs at hs with hd
    cases hs
    exact h.load hpc hd.1 hd.2
  | dirty i =>
    dsimp only at hs
    split_ifs at hs
    cases hs
    exact h.setSec_same rfl rfl rfl (chosen_dirtied _) rfl
  | expand i =>
    dsimp only at hs
    split_ifs at hs with hd
    cases hs
    have hlen : Inv p (s.setSec i { s.secs i with lenOnDisk := (s.secs i).lenOnDisk + 1 }) :=
      h.setSec_same rfl rfl rfl Iff.rfl rfl
    have hevl := hlen.evicting
    rw [Evicting, show (s.setSec i { s.secs i with
      lenOnDisk := (s.secs i).lenOnDisk + 1 }).dispatcher = _ from hpc] at hevl
    refine hlen.setDispatcher ?_ ?_ ?_ ?_ ?_ hd.2.2.1
    · change [] = s.taken
      rw [State.taken, hpc]
    · change [] = s.entering
      rw [State.entering, hpc]
    · change s.owed ≤ 0
      rw [State.owed, hpc]
    · change ((s.setSec i _).secs i).outgoing = _
      rw [State.setSec_self]
      exact hd.1
    · refine And.intro hevl.1 fun hv => ?_
      have h0 : (s.setSec i { s.secs i with lenOnDisk := (s.secs i).lenOnDisk + 1 }).owed = 0 := by
        rw [State.owed, show (s.setSec i { s.secs i with
          lenOnDisk := (s.secs i).lenOnDisk + 1 }).dispatcher = _ from hpc]
      have := hevl.2 hv
      rw [h0] at this
      exact this
  | evict =>
    dsimp only at hs
    split_ifs at hs with hv
    cases hs
    exact h.beginEvict hpc hv

/-! ### The dispatcher -/

/-- Sections that are neither on the way to the FIFO nor taken: the dispatcher
does not evict, and counts nothing. -/
theorem Inv.calm (h : Inv p s) {pc : Dispatcher} (hpc : s.dispatcher = pc)
    (hcalm : match pc with
      | .idle | .enqueue _ | .charge _ | .grow _ | .count _ | .expand _ _ => True
      | _ => False) :
    s.haveVictims ≠ 2 ∧ (s.haveVictims = 1 → p.build.grainPerPage ≤ s.ringGrains p + s.owed) := by
  have hev := h.evicting
  rw [Evicting, hpc] at hev
  cases pc with
  | idle | enqueue | charge | grow | count | expand => exact hev
  | _ => exact hcalm.elim

/-- The FIFO takes a section or drops it. -/
theorem State.fifoEnqueue_eq (s : State) (i : ℕ) :
    ∃ fifo, (fifo = s.fifo ∨ fifo = s.fifo ++ [i]) ∧ s.fifoEnqueue i = { s with fifo := fifo } := by
  unfold State.fifoEnqueue
  split_ifs
  · exact ⟨_, .inl rfl, rfl⟩
  · exact ⟨_, .inr rfl, rfl⟩

/-- A section goes to the FIFO from the place it was in, or nowhere. -/
theorem Placed.of_enqueue (h : Placed s) {l : List ℕ}
    (hfifo : s'.fifo = s.fifo ∨ s'.fifo = s.fifo ++ [i])
    (hk : s.known.Perm (s.fifo ++ [i] ++ l)) (hk' : s'.known.Perm (s'.fifo ++ l))
    (hsecs : s'.secs = s.secs)
    (hch : ∀ j, Chosen (s.secs j) ↔ j ∈ s'.unread ∨ j ∈ s'.taken ∨ j ∈ s'.marked)
    (hgc : s'.gc.Flushes s'.shadow) : Placed s' := by
  have hsub : (s'.fifo ++ l).Sublist (s.fifo ++ [i] ++ l) := by
    refine List.Sublist.append_right ?_ _
    rcases hfifo with hf | hf <;> rw [hf]
    exact List.sublist_append_left _ _
  refine ⟨?_, ?_, ?_, hgc⟩
  · exact hk'.nodup_iff.mpr (hsub.nodup (hk.nodup_iff.mp h.nodup))
  · intro j hj
    rw [hsecs]
    exact h.cached j (hk.mem_iff.mpr (hsub.subset (hk'.mem_iff.mp hj)))
  · intro j
    rw [hsecs]
    exact hch j

theorem Placed.unread_nodup (h : Placed s) : s.unread.Nodup := by
  refine List.Sublist.nodup ?_ h.nodup
  rw [State.known]
  simp only [List.append_assoc]
  refine List.Sublist.trans ?_ (List.sublist_append_right _ _)
  exact List.Sublist.trans (List.sublist_append_left _ _) (List.sublist_append_right _ _)

theorem Inv.dispatch_enqueue (h : Inv p s) (hpc : s.dispatcher = .enqueue i) :
    Inv p ((s.fifoEnqueue i).setDispatcher (.charge i)) := by
  have hcalm := h.calm hpc trivial
  have howed : s.owed = 0 := by rw [State.owed, hpc]
  have htaken : s.taken = [] := by rw [State.taken, hpc]
  have hent : s.entering = [i] := by rw [State.entering, hpc]
  have hlock := h.locks.dispatcher
  rw [hpc] at hlock
  rw [howed] at hcalm
  obtain ⟨fifo, hfifo, hf⟩ := s.fifoEnqueue_eq i
  rw [hf]
  refine ⟨h.ring, h.short, ⟨h.locks.collector, hlock, h.locks.gc⟩, ?_, ?_, hcalm, trivial, h.flag,
    h.reset⟩
  · refine h.placed.of_enqueue (l := s.hand ++ s.unread ++ s.pending) hfifo ?_ (.of_eq ?_) rfl ?_
      h.placed.gc
    · rw [State.known, htaken, hent, List.perm_iff_count]
      intro j
      simp only [List.count_append, List.count_nil]
      omega
    · change fifo ++ s.hand ++ s.unread ++ [] ++ [] ++ s.pending = fifo ++ _
      simp only [List.append_assoc, List.nil_append]
    · intro j
      rw [h.placed.chosen j, htaken]
      rfl
  · refine h.counted.mono rfl rfl rfl (Nat.le_refl _) ?_ fun _ _ _ => rfl
    rw [howed]
    exact Nat.le_refl _

theorem Inv.dispatch_count (h : Inv p s) (hpc : s.dispatcher = .count i) :
    Inv p ((s.countGrowth i).setDispatcher (.expand i (decide (Chosen (s.secs i))))) := by
  have hcalm := h.calm hpc trivial
  have howed : s.owed = 0 := by rw [State.owed, hpc]
  have htaken : s.taken = [] := by rw [State.taken, hpc]
  have hlock : (s.secs i).outgoing = some .dispatcher := by
    have := h.locks.dispatcher
    rw [hpc] at this
    exact this
  have hplus : p.build = .plus := by
    have := h.growing
    rw [Growing, hpc] at this
    exact this
  have hsec : Inv p (s.setSec i { s.secs i with state := Cache.dirtied (s.secs i).state }) :=
    h.setSec_same rfl rfl rfl (chosen_dirtied _) rfl
  have hring : (s.setSec i { s.secs i with state := Cache.dirtied (s.secs i).state }).ringGrains p =
      s.ringGrains p := by
    refine total_congr fun j _ => ?_
    by_cases hj : j = i
    · subst hj
      rw [State.setSec_self]
      rfl
    · rw [State.setSec_of_ne _ _ hj]
  have hplaced : Placed ((s.countGrowth i).setDispatcher
      (.expand i (decide (Chosen (s.secs i))))) := by
    refine hsec.placed.of_perm (.of_eq ?_) (fun _ _ => ⟨rfl, rfl⟩) ?_ h.placed.gc
    · change s.fifo ++ s.hand ++ s.unread ++ [] ++ [] ++ s.pending =
        s.fifo ++ s.hand ++ s.unread ++ s.taken ++ s.entering ++ s.pending
      rw [htaken, show s.entering = [] by rw [State.entering, hpc]]
    · intro j
      refine (hsec.placed.chosen j).trans ?_
      change j ∈ s.unread ∨ j ∈ s.taken ∨ j ∈ s.marked ↔ j ∈ s.unread ∨ j ∈ [] ∨ j ∈ s.marked
      rw [htaken]
  have hgrow : ∀ b, b = decide (Chosen (s.secs i)) →
      Growing p ((s.countGrowth i).setDispatcher (.expand i b)) := by
    intro b hb
    cases b with
    | false => exact hplus
    | true =>
      refine And.intro hplus ?_
      -- the section is locked for the dispatcher, so it is not in the collector's hand
      rcases (h.placed.chosen i).mp (of_decide_eq_true hb.symm) with hm | hm | hm
      · exact hm
      · rw [htaken] at hm
        cases hm
      · have hcl := h.locks.collector
        unfold State.marked at hm
        cases hcp : s.collector with
        | push n j =>
          rw [hcp] at hm hcl
          rw [List.mem_singleton.mp hm] at hlock
          exact absurd (hlock.symm.trans hcl) (by decide)
        | _ =>
          rw [hcp] at hm
          cases hm
  have howed' : ((s.countGrowth i).setDispatcher (.expand i (decide (Chosen (s.secs i))))).owed =
      if Chosen (s.secs i) then 1 else 0 := by
    by_cases hch : Chosen (s.secs i)
    · rw [if_pos hch, decide_eq_true hch]
      rfl
    · rw [if_neg hch, decide_eq_false hch]
      rfl
  refine ⟨h.ring, h.short, ⟨hsec.locks.collector, ?_, hsec.locks.gc⟩, hplaced, ?_, ?_,
    hgrow _ rfl, h.flag, h.reset⟩
  · change ((s.setSec i _).secs i).outgoing = _
    rw [State.setSec_self]
    exact hlock
  · refine hsec.counted.mono rfl rfl rfl ?_ ?_ fun _ _ _ => rfl
    · change s.candidates ≤ if Chosen (s.secs i) then s.candidates + 1 else s.candidates
      split_ifs <;> omega
    · rw [howed', hring, show (s.setSec i _).owed = s.owed from rfl, howed]
      change (if Chosen (s.secs i) then s.candidates + 1 else s.candidates) + (s.ringGrains p + 0) ≤
        s.candidates +
          ((s.setSec i { s.secs i with state := Cache.dirtied (s.secs i).state }).ringGrains p + _)
      rw [hring]
      split_ifs <;> omega
  · refine And.intro hcalm.1 fun hv => ?_
    have := hcalm.2 hv
    change p.build.grainPerPage ≤
      (s.setSec i { s.secs i with state := Cache.dirtied (s.secs i).state }).ringGrains p + _
    rw [hring]
    omega

theorem Inv.dispatch_expand (h : Inv p s) {b : Bool} (hpc : s.dispatcher = .expand i b) :
    Inv p ((s.addLeaf i).setDispatcher .idle) := by
  have hcalm := h.calm hpc trivial
  have htaken : s.taken = [] := by rw [State.taken, hpc]
  have hlock : (s.secs i).outgoing = some .dispatcher := by
    have := h.locks.dispatcher
    rw [hpc] at this
    exact this
  have hgrow := h.growing
  rw [Growing, hpc] at hgrow
  have hplus : p.build = .plus := by
    cases b with
    | false => exact hgrow
    | true => exact hgrow.1
  have hself : grains p ((s.addLeaf i).secs i) = grains p (s.secs i) + 1 := by
    rw [State.addLeaf, State.setSec_self, grains, grains, hplus]
    rfl
  have hother : ∀ j, j ≠ i → grains p ((s.addLeaf i).secs j) = grains p (s.secs j) := by
    intro j hj
    rw [State.addLeaf, State.setSec_of_ne _ _ hj]
  have hnd := h.placed.unread_nodup
  have hring : s.ringGrains p + s.owed ≤ (s.addLeaf i).ringGrains p := by
    by_cases hm : i ∈ s.unread
    · have : (s.addLeaf i).ringGrains p = s.ringGrains p + 1 := total_succ hnd hm hself hother
      have howed : s.owed ≤ 1 := by
        rw [State.owed, hpc]
        cases b
        · exact Nat.zero_le _
        · exact Nat.le_refl _
      omega
    · have : (s.addLeaf i).ringGrains p = s.ringGrains p :=
        total_congr fun j hj => hother j fun hji => hm (hji ▸ hj)
      have howed : s.owed = 0 := by
        rw [State.owed, hpc]
        cases b with
        | false => rfl
        | true => exact absurd hgrow.2 hm
      omega
  have hsecs : ∀ j, ((s.addLeaf i).secs j).cached = (s.secs j).cached ∧
      ((s.addLeaf i).secs j).hasMem = (s.secs j).hasMem ∧
      (Chosen ((s.addLeaf i).secs j) ↔ Chosen (s.secs j)) := by
    intro j
    by_cases hj : j = i
    · subst hj
      rw [State.addLeaf, State.setSec_self]
      exact ⟨rfl, rfl, Iff.rfl⟩
    · rw [State.addLeaf, State.setSec_of_ne _ _ hj]
      exact ⟨rfl, rfl, Iff.rfl⟩
  refine ⟨h.ring, h.short, ⟨h.locks.collector.mono (keeps_of_eq rfl), trivial,
    h.locks.gc.mono (keeps_of_eq rfl)⟩, ?_, ?_, ?_, trivial, h.flag, h.reset⟩
  · refine h.placed.of_perm (.of_eq ?_) (fun j _ => ⟨(hsecs j).1, (hsecs j).2.1⟩) ?_ h.placed.gc
    · change s.fifo ++ s.hand ++ s.unread ++ [] ++ [] ++ s.pending =
        s.fifo ++ s.hand ++ s.unread ++ s.taken ++ s.entering ++ s.pending
      rw [htaken, show s.entering = [] by rw [State.entering, hpc]]
    · intro j
      refine ((hsecs j).2.2.trans (h.placed.chosen j)).trans ?_
      rw [htaken]
      rfl
  · refine h.counted.mono rfl rfl rfl (Nat.le_refl _) ?_ ?_
    · exact Nat.add_le_add_left hring _
    · -- the collector counts a section it has locked
      intro n j hj
      refine hother j ?_
      rintro rfl
      have hcl := h.locks.collector
      rw [hj] at hcl
      exact absurd (hlock.symm.trans hcl) (by decide)
  · exact And.intro hcalm.1 fun hv => Nat.le_trans (hcalm.2 hv) hring

/-! ### Evicting -/

section Evict

variable {evicted grain : ℕ}

/-- A ring with grains has a section to read: the one at its tail. -/
theorem Inv.head_unread (h : Inv p s) (hpos : 0 < s.ringGrains p) :
    s.consumed < s.filled.length ∧ s.unread.head? = some (s.hts s.tail) := by
  have hne : s.unread ≠ [] := by
    intro hn
    rw [State.ringGrains, hn] at hpos
    cases hpos
  have hlt : s.consumed < s.filled.length := by
    rw [State.unread, Ne, List.drop_eq_nil_iff] at hne
    omega
  refine ⟨hlt, ?_⟩
  rw [State.unread, h.ring.at_tail hlt, List.head?_drop, List.getElem?_eq_getElem hlt]

theorem Inv.dispatch_evLoop (h : Inv p s) (hpc : s.dispatcher = .evLoop evicted grain) :
    Inv p (s.setDispatcher
      (if p.maxCached - p.build.grainPerPage < s.nrCached then .evRead evicted grain false
      else .evEnd)) := by
  have hev := h.evicting
  rw [Evicting, hpc] at hev
  have htaken : s.taken = [] := by rw [State.taken, hpc]
  have hent : s.entering = [] := by rw [State.entering, hpc]
  have howed : s.owed = 0 := by rw [State.owed, hpc]
  split_ifs
  · exact h.moveOn htaken hent howed rfl rfl trivial hev trivial
  · exact h.moveOn htaken hent howed rfl rfl trivial hev.1 trivial

theorem Inv.dispatch_evRead (h : Inv p s) {locked : Bool}
    (hpc : s.dispatcher = .evRead evicted grain locked) (grain' : ℕ) :
    Inv p (s.setDispatcher (if locked then .evFit evicted grain' (s.hts s.tail)
      else .evLock evicted grain' (s.hts s.tail))) := by
  have hev := h.evicting
  rw [Evicting, hpc] at hev
  have htaken : s.taken = [] := by rw [State.taken, hpc]
  have hent : s.entering = [] := by rw [State.entering, hpc]
  have howed : s.owed = 0 := by rw [State.owed, hpc]
  have hlock := h.locks.dispatcher
  rw [hpc] at hlock
  obtain ⟨-, hhead⟩ := h.head_unread (by omega)
  have hev' := And.intro hev.1 (And.intro hev.2.1 (And.intro hev.2.2 hhead))
  cases locked with
  | true =>
    exact h.moveOn htaken hent howed rfl rfl hlock hev' trivial
  | false =>
    exact h.moveOn htaken hent howed rfl rfl trivial hev' trivial

theorem Inv.dispatch_evLock (h : Inv p s) (hpc : s.dispatcher = .evLock evicted grain i)
    (hfree : (s.secs i).outgoing = none) :
    Inv p ((s.acquire i .dispatcher).setDispatcher (.evFit evicted grain i)) := by
  have hacq := h.acquire .dispatcher hfree
  have hev := hacq.evicting
  rw [Evicting, show (s.acquire i .dispatcher).dispatcher = _ from hpc] at hev
  refine hacq.setDispatcher ?_ ?_ ?_ ?_ hev trivial
  · change [] = s.taken
    rw [State.taken, hpc]
  · change [] = s.entering
    rw [State.entering, hpc]
  · change s.owed ≤ 0
    rw [State.owed, hpc]
  · change ((s.setSec i _).secs i).outgoing = _
    rw [State.setSec_self]

theorem Inv.dispatch_evFit (h : Inv p s) (hpc : s.dispatcher = .evFit evicted grain i)
    (hs : evFit p s evicted grain i = some s') : Inv p s' := by
  have hev := h.evicting
  rw [Evicting, hpc] at hev
  have htaken : s.taken = [] := by rw [State.taken, hpc]
  have hent : s.entering = [] := by rw [State.entering, hpc]
  have howed : s.owed = 0 := by rw [State.owed, hpc]
  have hlock := h.locks.dispatcher
  rw [hpc] at hlock
  have hb := grainPerPage_bounds p.build
  obtain ⟨-, hhead⟩ := h.head_unread (by omega)
  unfold evFit at hs
  dsimp only at hs
  split_ifs at hs
  · cases hs
    refine h.moveOn htaken hent howed rfl rfl ?_ (And.intro hev.1 (And.intro hev.2.1 hev.2.2.1))
      trivial
    have heq : s.hts s.tail = i := Option.some.inj (hhead.symm.trans hev.2.2.2)
    change (s.secs (s.hts s.tail)).outgoing = _
    rw [heq]
    exact hlock
  · cases hs
    exact h.moveOn htaken hent howed rfl rfl hlock hev trivial

/-- Reading the victim at the tail of the ring. -/
theorem Inv.pop (h : Inv p s) {grain' : ℕ} (hpc : s.dispatcher = .evPop evicted grain i) :
    Inv p (s.popRing.setDispatcher (.evDrop evicted grain' i (grains p (s.secs i)))) := by
  have hev := h.evicting
  rw [Evicting, hpc] at hev
  obtain ⟨hv, hlt, hsum, hhead⟩ := hev
  have htaken : s.taken = [] := by rw [State.taken, hpc]
  have hent : s.entering = [] := by rw [State.entering, hpc]
  have hlock := h.locks.dispatcher
  rw [hpc] at hlock
  obtain ⟨hcons, -⟩ := h.head_unread (by omega)
  have hcol := h.collector_poll (by rw [hv]; decide)
  have hu : s.unread = i :: s.popRing.unread := by
    have hdrop := List.drop_eq_getElem_cons hcons
    have hi : s.filled[s.consumed] = i := by
      have := hhead
      rw [State.unread, hdrop] at this
      exact Option.some.inj this
    rw [hi] at hdrop
    exact hdrop
  have hring : s.ringGrains p = grains p (s.secs i) + s.popRing.ringGrains p := by
    rw [State.ringGrains, hu, total_cons]
    rfl
  refine ⟨h.ring.pop hcons, ?_, ⟨h.locks.collector, hlock, h.locks.gc⟩, ?_, ?_, ?_, trivial, h.flag,
    h.reset⟩
  · have := h.short
    rw [hu, List.length_cons] at this
    change s.popRing.unread.length ≤ _
    omega
  · refine h.placed.of_perm ?_ (fun _ _ => ⟨rfl, rfl⟩) ?_ h.placed.gc
    · change (s.fifo ++ s.hand ++ s.popRing.unread ++ [i] ++ [] ++ s.pending).Perm
        (s.fifo ++ s.hand ++ s.unread ++ s.taken ++ s.entering ++ s.pending)
      rw [hu, htaken, hent, List.perm_iff_count]
      intro j
      simp only [List.count_append, List.count_cons, List.count_nil]
      omega
    · intro j
      refine (h.placed.chosen j).trans ?_
      change j ∈ s.unread ∨ j ∈ s.taken ∨ j ∈ s.marked ↔
        j ∈ s.popRing.unread ∨ j ∈ [i] ∨ j ∈ s.marked
      rw [hu, htaken]
      simp only [List.mem_cons, List.not_mem_nil, false_or, or_false]
      tauto
  · rw [Counted, show (s.popRing.setDispatcher _).collector = _ from hcol]
    trivial
  · refine And.intro hv ?_
    change p.build.grainPerPage ≤ evicted + grains p (s.secs i) + s.popRing.ringGrains p
    omega

theorem Inv.dispatch_evPop (h : Inv p s) (hpc : s.dispatcher = .evPop evicted grain i) :
    Inv p (evPop p s evicted grain i) := by
  unfold evPop
  dsimp only
  split_ifs
  · have hpop : Inv p (s.popRing.setDispatcher
        (.evDrop evicted (grain + grains p (s.secs i)) i (grains p (s.secs i)))) := h.pop hpc
    exact hpop.setSec_same rfl rfl rfl Iff.rfl rfl
  · exact h.pop hpc

theorem Inv.dispatch_evClean (h : Inv p s) (hpc : s.dispatcher = .evClean evicted grain i) :
    Inv p ((s.dropVictim i).setDispatcher
      (if p.build.grainPerPage ≤ evicted then .evEnd else .evLoop evicted grain)) := by
  have hev := h.evicting
  rw [Evicting, hpc] at hev
  obtain ⟨hv, hsum⟩ := hev
  have htaken : s.taken = [i] := by rw [State.taken, hpc]
  have hent : s.entering = [] := by rw [State.entering, hpc]
  have hlock : (s.secs i).outgoing = some .dispatcher := by
    have := h.locks.dispatcher
    rw [hpc] at this
    exact this
  have hcol := h.collector_poll (by rw [hv]; decide)
  have hperm : s.known.Perm (i :: (s.fifo ++ s.hand ++ s.unread ++ [] ++ [] ++ s.pending)) := by
    rw [State.known, htaken, hent, List.perm_iff_count]
    intro j
    simp only [List.count_append, List.count_cons, List.count_nil]
    omega
  have hnd := hperm.nodup_iff.mp h.placed.nodup
  have hni := (List.nodup_cons.mp hnd).1
  have hu : i ∉ s.unread := fun hm => hni (by simp [hm])
  have hget : ∀ j, j ≠ i → (s.dropVictim i).secs j = s.secs j := fun j hj =>
    State.setSec_of_ne _ _ hj
  have hring : (s.dropVictim i).ringGrains p = s.ringGrains p := by
    refine total_congr fun j hj => ?_
    rw [hget j fun hji => hu (hji ▸ hj)]
  set pc := if p.build.grainPerPage ≤ evicted then Dispatcher.evEnd
    else Dispatcher.evLoop evicted grain with hpc'
  have hpcs : pc = .evEnd ∨ (pc = .evLoop evicted grain ∧ evicted < p.build.grainPerPage) := by
    rw [hpc']
    split_ifs with hle
    · exact .inl rfl
    · exact .inr ⟨rfl, by omega⟩
  have htaken' : ((s.dropVictim i).setDispatcher pc).taken = [] := by
    rcases hpcs with hp | ⟨hp, -⟩ <;> rw [hp] <;> rfl
  have hent' : ((s.dropVictim i).setDispatcher pc).entering = [] := by
    rcases hpcs with hp | ⟨hp, -⟩ <;> rw [hp] <;> rfl
  have hknown : ((s.dropVictim i).setDispatcher pc).known =
      s.fifo ++ s.hand ++ s.unread ++ [] ++ [] ++ s.pending := by
    rw [State.known, htaken', hent']
    rfl
  refine ⟨h.ring, h.short, ⟨h.locks.collector.mono (keeps_of_held hlock (by rintro ⟨⟩)), ?_,
    h.locks.gc.mono (keeps_of_held hlock (by rintro ⟨⟩))⟩, ⟨?_, ?_, ?_, h.placed.gc⟩, ?_, ?_, ?_,
    h.flag,
    h.reset⟩
  · rcases hpcs with hp | ⟨hp, -⟩ <;> rw [hp] <;> trivial
  · rw [hknown]
    exact (List.nodup_cons.mp hnd).2
  · intro j hj
    rw [hknown] at hj
    have hji : j ≠ i := fun hji => hni (hji ▸ hj)
    change ((s.dropVictim i).secs j).cached = true ∧ ((s.dropVictim i).secs j).hasMem = true
    rw [hget j hji]
    exact h.placed.cached j (hperm.mem_iff.mpr (List.mem_cons_of_mem _ hj))
  · intro j
    rw [htaken']
    change Chosen ((s.dropVictim i).secs j) ↔ j ∈ s.unread ∨ j ∈ [] ∨ j ∈ s.marked
    have hmark : s.marked = [] := by rw [State.marked, hcol]
    by_cases hji : j = i
    · subst hji
      rw [State.dropVictim, State.setSec_self, hmark]
      constructor
      · rintro (hx | hx) <;> cases hx
      · rintro (hx | hx | hx)
        · exact absurd hx hu
        · cases hx
        · cases hx
    · rw [hget j hji, h.placed.chosen j, htaken]
      simp [hji]
  · rw [Counted, show ((s.dropVictim i).setDispatcher pc).collector = _ from hcol]
    trivial
  · rcases hpcs with hp | ⟨hp, hlt⟩ <;> rw [hp]
    · exact hv
    · refine And.intro hv (And.intro hlt ?_)
      change _ ≤ evicted + (s.dropVictim i).ringGrains p
      rw [hring]
      exact hsum
  · rcases hpcs with hp | ⟨hp, -⟩ <;> rw [hp] <;> trivial

theorem Inv.dispatch_evEnd (h : Inv p s) (hpc : s.dispatcher = .evEnd) :
    Inv p { s with haveVictims := 0, dispatcher := .idle } := by
  have hv : s.haveVictims = 2 := by
    have := h.evicting
    rw [Evicting, hpc] at this
    exact this
  have hcol := h.collector_poll (by rw [hv]; decide)
  refine ⟨h.ring, h.short, ⟨h.locks.collector, trivial, h.locks.gc⟩, ?_, ?_, ?_, trivial,
    Nat.zero_le _, fun _ => rfl⟩
  · exact h.placed.setVictims 0 (by rw [State.taken, hpc]) (by rw [State.entering, hpc]) rfl rfl
  · rw [Counted, hcol]
    trivial
  · exact And.intro (show (0 : ℕ) ≠ 2 by decide) fun hx =>
      absurd (show (0 : ℕ) = 1 from hx) (by decide)

end Evict

/-- A step of the dispatcher keeps the invariant. -/
theorem Inv.dispatch (h : Inv p s) (hs : Evict.dispatch p s = some s') : Inv p s' := by
  unfold Evict.dispatch at hs
  cases hpc : s.dispatcher with
  | idle =>
    rw [hpc] at hs
    cases hs
  | enqueue i =>
    rw [hpc] at hs
    cases hs
    exact h.dispatch_enqueue hpc
  | charge i =>
    rw [hpc] at hs
    cases hs
    have hcalm := h.calm hpc trivial
    rw [show s.owed = 0 by rw [State.owed, hpc]] at hcalm
    refine (h.setCached (s.nrCached + (s.secs i).lenOnDisk) s.growth).setDispatcher ?_ ?_ ?_ trivial
      hcalm trivial
    · change [] = s.taken
      rw [State.taken, hpc]
    · change [] = s.entering
      rw [State.entering, hpc]
    · change s.owed ≤ 0
      rw [State.owed, hpc]
  | grow i =>
    rw [hpc] at hs
    cases hs
    have hcalm := h.calm hpc trivial
    rw [show s.owed = 0 by rw [State.owed, hpc]] at hcalm
    have hlock := h.locks.dispatcher
    have hgrow := h.growing
    rw [hpc] at hlock
    rw [Growing, hpc] at hgrow
    refine (h.setCached (s.nrCached + 1)
      (if i ∈ s.pending then s.growth + 1 else s.growth)).setDispatcher ?_ ?_ ?_ hlock hcalm hgrow
    · change [] = s.taken
      rw [State.taken, hpc]
    · change [] = s.entering
      rw [State.entering, hpc]
    · change s.owed ≤ 0
      rw [State.owed, hpc]
  | count i =>
    rw [hpc] at hs
    cases hs
    exact h.dispatch_count hpc
  | expand i b =>
    rw [hpc] at hs
    cases hs
    exact h.dispatch_expand hpc
  | evLoop evicted grain =>
    rw [hpc] at hs
    cases hs
    exact h.dispatch_evLoop hpc
  | evRead evicted grain locked =>
    rw [hpc] at hs
    dsimp only at hs
    by_cases hok : (s.secs (s.hts s.tail)).hasMem = true ∧ Chosen (s.secs (s.hts s.tail))
    · rw [if_pos hok] at hs
      cases hs
      exact h.dispatch_evRead hpc _
    · rw [if_neg hok] at hs
      cases hs
  | evLock evicted grain i =>
    rw [hpc] at hs
    dsimp only at hs
    split_ifs at hs with hfree
    cases hs
    exact h.dispatch_evLock hpc hfree
  | evFit evicted grain i =>
    rw [hpc] at hs
    exact h.dispatch_evFit hpc hs
  | evPop evicted grain i =>
    rw [hpc] at hs
    cases hs
    exact h.dispatch_evPop hpc
  | evDrop evicted grain i gLen =>
    rw [hpc] at hs
    cases hs
    have hev := h.evicting
    rw [Evicting, hpc] at hev
    have hlock := h.locks.dispatcher
    rw [hpc] at hlock
    refine (h.setCached (s.nrCached + -(gLen : ℤ)) s.growth).setDispatcher ?_ ?_ ?_ hlock hev trivial
    · change [i] = s.taken
      rw [State.taken, hpc]
    · change [] = s.entering
      rw [State.entering, hpc]
    · change s.owed ≤ 0
      rw [State.owed, hpc]
  | evClean evicted grain i =>
    rw [hpc] at hs
    cases hs
    exact h.dispatch_evClean hpc
  | evEnd =>
    rw [hpc] at hs
    cases hs
    exact h.dispatch_evEnd hpc

/-! ### The garbage collector -/

/-- The garbage collector moves on without touching a section. -/
theorem Inv.setGc (h : Inv p s) {pc : Gc} (hpend : (s.setGc pc).pending = s.pending)
    (hl : pc.Locked s.secs) (hf : pc.Flushes s.shadow) : Inv p (s.setGc pc) where
  ring := h.ring
  short := h.short
  locks := ⟨h.locks.collector, h.locks.dispatcher, hl⟩
  placed := by
    refine h.placed.of_perm (.of_eq ?_) (fun _ _ => ⟨rfl, rfl⟩) h.placed.chosen hf
    change s.fifo ++ s.hand ++ s.unread ++ s.taken ++ s.entering ++ (s.setGc pc).pending = _
    rw [hpend]
    rfl
  counted := h.counted
  evicting := h.evicting
  growing := h.growing
  flag := h.flag
  reset := h.reset

theorem Inv.gc_shadow (h : Inv p s) (hpc : s.gc = .held i) (hi : (s.secs i).cached = false)
    (hm : (s.secs i).hasMem = true) : Inv p (s.shadowRead i) := by
  have hperm : (s.shadowRead i).known.Perm (i :: s.known) := by
    rw [State.known, State.known, show (s.shadowRead i).pending = s.shadow ++ [i] by
      rw [State.pending, show (s.shadowRead i).gc = _ from hpc]; rfl,
      show s.pending = s.shadow by rw [State.pending, hpc]]
    change (s.fifo ++ s.hand ++ s.unread ++ s.taken ++ s.entering ++ (s.shadow ++ [i])).Perm _
    rw [← List.append_assoc]
    exact List.perm_append_comm
  obtain ⟨hplaced, hring⟩ := h.enter (t := s.shadowRead i)
    (x := { s.secs i with cached := true }) hi rfl hm rfl (h.placed.not_chosen_of_uncached hi) hperm
    rfl rfl rfl rfl (by rw [show (s.shadowRead i).gc = _ from hpc]; trivial)
  refine ⟨h.ring, h.short, ⟨h.locks.collector.mono (keeps_of_eq rfl),
    h.locks.dispatcher.mono (keeps_of_eq rfl), h.locks.gc.mono (keeps_of_eq rfl)⟩, hplaced, ?_, ?_,
    h.growing, h.flag, h.reset⟩
  · refine h.counted.mono rfl rfl rfl (Nat.le_refl _) ?_ ?_
    · rw [hring]
      exact Nat.le_refl _
    · intro n j _
      change grains p ((s.setSec i _).secs j) = _
      by_cases hj : j = i
      · subst hj
        rw [State.setSec_self]
        rfl
      · rw [State.setSec_of_ne _ _ hj]
  · exact h.evicting.mono rfl rfl (Nat.le_of_eq hring.symm) fun _ hj => hj

theorem Inv.gc_enqueue (h : Inv p s) {k : ℕ} (hpc : s.gc = .enqueue k i) :
    Inv p ((s.fifoEnqueue i).setGc (.charge k i)) := by
  have hlock := h.locks.gc
  have hfl := h.placed.gc
  rw [hpc] at hlock hfl
  have hget : s.shadow[k]? = some i := hfl
  have hpend : s.pending = i :: s.shadow.drop (k + 1) := by
    obtain ⟨hk, hi⟩ := List.getElem?_eq_some_iff.mp hget
    rw [State.pending, hpc]
    change s.shadow.drop k = _
    rw [List.drop_eq_getElem_cons hk, hi]
  obtain ⟨fifo, hfifo, hf⟩ := s.fifoEnqueue_eq i
  rw [hf]
  refine ⟨h.ring, h.short, ⟨h.locks.collector, h.locks.dispatcher, hlock⟩, ?_, h.counted, h.evicting,
    h.growing, h.flag, h.reset⟩
  refine h.placed.of_enqueue
    (l := s.hand ++ s.unread ++ s.taken ++ s.entering ++ s.shadow.drop (k + 1)) hfifo ?_
    (.of_eq ?_) rfl h.placed.chosen hget
  · rw [State.known, hpend, List.perm_iff_count]
    intro j
    simp only [List.count_append, List.count_cons, List.count_nil]
    omega
  · change fifo ++ s.hand ++ s.unread ++ s.taken ++ s.entering ++ s.shadow.drop (k + 1) = fifo ++ _
    simp only [List.append_assoc]

theorem Inv.gc_done (h : Inv p s) {k : ℕ} (hpc : s.gc = .flush k) (hk : s.shadow[k]? = none) :
    Inv p { s with shadow := [], growth := 0, gc := .idle } := by
  have hpend : s.pending = [] := by
    rw [State.pending, hpc]
    exact List.drop_eq_nil_of_le (List.getElem?_eq_none_iff.mp hk)
  refine ⟨h.ring, h.short, ⟨h.locks.collector, h.locks.dispatcher, trivial⟩, ?_, h.counted, h.evicting,
    h.growing, h.flag, h.reset⟩
  refine h.placed.of_perm (.of_eq ?_) (fun _ _ => ⟨rfl, rfl⟩) h.placed.chosen trivial
  rw [State.known, State.known, hpend]
  rfl

/-- A step of the garbage collector keeps the invariant. -/
theorem Inv.collectGarbage (h : Inv p s) {a : GcAct}
    (hs : Evict.collectGarbage s a = some s') : Inv p s' := by
  have hlock := h.locks.gc
  have hfl := h.placed.gc
  unfold Evict.collectGarbage at hs
  cases a with
  | acquire i =>
    dsimp only at hs
    split_ifs at hs with hok
    cases hs
    refine (h.acquire .gc hok.2).setGc ?_ ?_ trivial
    · change s.shadow = s.pending
      rw [State.pending, hok.1]
    · change ((s.setSec i _).secs i).outgoing = _
      rw [State.setSec_self]
  | shadow =>
    cases hpc : s.gc with
    | held i =>
      rw [hpc] at hs
      dsimp only at hs
      split_ifs at hs with hok
      cases hs
      exact h.gc_shadow hpc hok.1 hok.2
    | _ =>
      rw [hpc] at hs
      cases hs
  | dirty =>
    cases hpc : s.gc with
    | held i =>
      rw [hpc] at hs
      dsimp only at hs
      split_ifs at hs
      cases hs
      exact h.setSec_same rfl rfl rfl (chosen_dirtied _) rfl
    | _ =>
      rw [hpc] at hs
      cases hs
  | release =>
    cases hpc : s.gc with
    | held i =>
      rw [hpc] at hs hlock
      cases hs
      have hmove : Inv p (s.setGc .idle) := by
        refine h.setGc ?_ trivial trivial
        change s.shadow = s.pending
        rw [State.pending, hpc]
      exact hmove.setOutgoing i none ⟨hmove.locks.collector.mono (keeps_of_held hlock nofun),
        hmove.locks.dispatcher.mono (keeps_of_held hlock nofun), trivial⟩
    | _ =>
      rw [hpc] at hs
      cases hs
  | flush =>
    dsimp only at hs
    split_ifs at hs with hok
    cases hs
    refine h.setGc ?_ trivial trivial
    change s.shadow.drop 0 = s.pending
    rw [State.pending, hok]
    rfl
  | next =>
    cases hpc : s.gc with
    | idle =>
      rw [hpc] at hs
      cases hs
    | held i =>
      rw [hpc] at hs
      cases hs
    | flush k =>
      rw [hpc] at hs
      dsimp only at hs
      cases hk : s.shadow[k]? with
      | none =>
        rw [hk] at hs
        cases hs
        exact h.gc_done hpc hk
      | some i =>
        rw [hk] at hs
        dsimp only at hs
        split_ifs at hs with hfree
        cases hs
        refine (h.acquire .gc hfree).setGc ?_ ?_ hk
        · change s.shadow.drop k = s.pending
          rw [State.pending, hpc]
        · change ((s.setSec i _).secs i).outgoing = _
          rw [State.setSec_self]
    | enqueue k i =>
      rw [hpc] at hs
      cases hs
      exact h.gc_enqueue hpc
    | charge k i =>
      rw [hpc] at hs hlock hfl
      cases hs
      refine (h.setCached (s.nrCached + (s.secs i).lenOnDisk) s.growth).setGc ?_ hlock hfl
      change s.shadow.drop (k + 1) = s.pending
      rw [State.pending, hpc]
    | unlock k i =>
      rw [hpc] at hs hlock
      cases hs
      have hmove : Inv p (s.setGc (.flush (k + 1))) := by
        refine h.setGc ?_ trivial trivial
        change s.shadow.drop (k + 1) = s.pending
        rw [State.pending, hpc]
      exact hmove.setOutgoing i none ⟨hmove.locks.collector.mono (keeps_of_held hlock nofun),
        hmove.locks.dispatcher.mono (keeps_of_held hlock nofun), trivial⟩

/-! ### The system -/

/-- Every step keeps the invariant. -/
theorem Inv.step (h : Inv p s) {e : Event} (hs : Evict.step p s e = some s') : Inv p s' := by
  cases e with
  | collector => exact h.collect hs
  | begin b =>
    rw [Evict.step] at hs
    split_ifs at hs with hpc
    exact h.begin hpc hs
  | dispatcher => exact h.dispatch hs
  | gc a => exact h.collectGarbage hs
  | callback i =>
    rw [Evict.step] at hs
    split_ifs at hs with hw
    cases hs
    exact h.setOutgoing i none ⟨h.locks.collector.mono (keeps_of_held hw nofun),
      h.locks.dispatcher.mono (keeps_of_held hw nofun), h.locks.gc.mono (keeps_of_held hw nofun)⟩

end Virtkv.Evict
