import Virtkv.Evict.Safety

/-!
# The occupancy of the cache

Every cached section should be on the FIFO, on the ring or on the shadow list of
the garbage collector, and `nr_cached_tentries` should be the grains of the
first two. Two things break this. A full FIFO drops the section it is given, and
nobody looks at that. And a section that grows while it is on the shadow list is
charged for its growth at once and for its whole length later.

Without the two the occupancy is exact, in every state in which no thread is in
the middle of moving a section.

## Main definitions

- `Exact` — the occupancy is exact
- `Clear` — a step that neither fills the FIFO beyond its capacity nor expands a
  section on the shadow list

## Main results

- `exact_of_clearRun` — clear steps keep the occupancy exact
- `shadowed_growth_charged_twice` — growth on the shadow list does not
-/

namespace Virtkv.Evict

variable {p : Params} {s s' t : State} {i : ℕ}

/-! ### What is to be shown -/

namespace State

/-- No thread is in the middle of moving or growing a section. -/
def Quiet (s : State) : Prop :=
  s.hand = [] ∧ s.dispatcher = .idle ∧
    match s.gc with
    | .idle | .held _ | .flush _ => True
    | _ => False

/-- The lengths of a list of sections. -/
def lengths (s : State) (l : List ℕ) : ℕ := total (fun i => (s.secs i).lenOnDisk) l

end State

/-- Every cached section is in exactly one of the FIFO, the ring and the shadow
list, nothing else is there, and the cached grains are those of the FIFO and the
ring and the growth charged for the shadow list; without a shadow list they are
the grains of all cached sections. -/
structure Exact (p : Params) (s : State) : Prop where
  nodup : (s.fifo ++ s.unread ++ s.pending).Nodup
  cached_iff : ∀ i, (s.secs i).cached = true ↔ i ∈ s.fifo ++ s.unread ++ s.pending
  charged : s.nrCached = s.lengths (s.fifo ++ s.unread) + s.growth
  flushed : s.pending = [] →
    s.nrCached = total (fun i => grains p (s.secs i)) (s.fifo ++ s.unread)

/-- The step does not put a section on a full FIFO, and does not expand a section
of the shadow list. -/
def Clear (s : State) : Event → Prop
  | .dispatcher =>
    match s.dispatcher with
    | .enqueue _ => s.fifo.length + 1 < ringBufferSize
    | _ => True
  | .gc .next =>
    match s.gc with
    | .enqueue _ _ => s.fifo.length + 1 < ringBufferSize
    | _ => True
  | .begin (.expand i) => i ∉ s.pending
  | _ => True

/-- The states a run of clear steps can reach. -/
inductive ClearRun (p : Params) (s : State) : State → Prop where
  | start : ClearRun p s s
  | step {t u : State} {e : Event} :
    ClearRun p s t → Clear t e → Evict.step p t e = some u → ClearRun p s u

/-! ### The invariant -/

namespace State

/-- The sections whose grains are in `nr_cached_tentries`. -/
def charged (s : State) : List ℕ :=
  s.fifo ++ s.hand ++ s.unread ++
    match s.dispatcher with
    | .evDrop _ _ i _ => [i]
    | _ => []

/-- The grains the dispatcher is about to charge. -/
def toServe (s : State) : ℕ :=
  match s.dispatcher with
  | .charge i => (s.secs i).lenOnDisk
  | .grow _ => 1
  | _ => 0

/-- The grains the garbage collector is about to charge. -/
def toFlush (s : State) : ℕ :=
  match s.gc with
  | .charge _ i => (s.secs i).lenOnDisk
  | _ => 0

/-- The grain a section has on flash before its table has it. -/
def ahead (s : State) (i : ℕ) : ℕ :=
  match s.dispatcher with
  | .grow j | .count j | .expand j _ => if j = i then 1 else 0
  | _ => 0

end State

/-- The occupancy while threads move sections. -/
structure Occ (s : State) : Prop where
  all : ∀ i, (s.secs i).cached = true → i ∈ s.known
  len : ∀ i, (s.secs i).hasMem = true → (s.secs i).lenOnDisk = rootG + (s.secs i).cnt + s.ahead i
  sum : s.nrCached + s.toServe + s.toFlush = s.lengths s.charged
  drop : ∀ e g i gLen, s.dispatcher = .evDrop e g i gLen → (s.secs i).lenOnDisk = gLen
  growing : ∀ i, s.dispatcher = .grow i → i ∉ s.pending
  growth : s.growth = 0

theorem total_perm {g : ℕ → ℕ} {l l' : List ℕ} (h : l.Perm l') : total g l = total g l' :=
  (h.map g).sum_eq

/-- Nothing but locks, states and places within the lists changes. -/
theorem Occ.same (h : Occ s)
    (hs : ∀ i, (s'.secs i).cached = (s.secs i).cached ∧ (s'.secs i).hasMem = (s.secs i).hasMem ∧
      (s'.secs i).cnt = (s.secs i).cnt ∧ (s'.secs i).lenOnDisk = (s.secs i).lenOnDisk)
    (hk : s'.known.Perm s.known) (hc : s'.charged.Perm s.charged)
    (hn : s'.nrCached = s.nrCached) (hsv : s'.toServe = s.toServe) (hfl : s'.toFlush = s.toFlush)
    (ha : ∀ i, s'.ahead i = s.ahead i)
    (hd : ∀ e g i gLen, s'.dispatcher = .evDrop e g i gLen → (s.secs i).lenOnDisk = gLen)
    (hgr : ∀ i, s'.dispatcher = .grow i → i ∉ s'.pending) (hg : s'.growth = s.growth) :
    Occ s' where
  all := fun i hi => by
    rw [(hs i).1] at hi
    exact hk.mem_iff.mpr (h.all i hi)
  len := fun i hi => by
    rw [(hs i).2.1] at hi
    rw [(hs i).2.2.2, (hs i).2.2.1, ha i]
    exact h.len i hi
  sum := by
    have hl : s'.lengths s'.charged = s.lengths s.charged := by
      rw [State.lengths, total_perm hc]
      exact total_congr fun i _ => (hs i).2.2.2
    rw [hn, hsv, hfl, hl]
    exact h.sum
  drop := fun e g i gLen he => by
    rw [(hs i).2.2.2]
    exact hd e g i gLen he
  growing := hgr
  growth := by rw [hg]; exact h.growth

/-- The lengths, tables and cache marks of all sections stay. -/
def SameSecs (s s' : State) : Prop :=
  ∀ i, (s'.secs i).cached = (s.secs i).cached ∧ (s'.secs i).hasMem = (s.secs i).hasMem ∧
    (s'.secs i).cnt = (s.secs i).cnt ∧ (s'.secs i).lenOnDisk = (s.secs i).lenOnDisk

theorem sameSecs_setSec {x : Sec} (h1 : x.cached = (s.secs i).cached)
    (h2 : x.hasMem = (s.secs i).hasMem) (h3 : x.cnt = (s.secs i).cnt)
    (h4 : x.lenOnDisk = (s.secs i).lenOnDisk) : SameSecs s (s.setSec i x) := by
  intro j
  by_cases hj : j = i
  · subst hj
    rw [State.setSec_self]
    exact ⟨h1, h2, h3, h4⟩
  · rw [State.setSec_of_ne _ _ hj]
    exact ⟨rfl, rfl, rfl, rfl⟩

theorem toFlush_congr (hg : s'.gc = s.gc)
    (hl : ∀ i, (s'.secs i).lenOnDisk = (s.secs i).lenOnDisk) : s'.toFlush = s.toFlush := by
  rw [State.toFlush, State.toFlush, hg]
  cases s.gc with
  | charge k j => exact hl j
  | _ => rfl

/-- A section that is locked for the dispatcher is not about to be charged by the
garbage collector. -/
theorem toFlush_setSec (h : Locks s) {x : Sec} (hd : Holds s i) :
    (s.setSec i x).toFlush = s.toFlush := by
  have hgc := h.gc
  unfold State.toFlush
  change (match s.gc with
    | .charge _ j => ((s.setSec i x).secs j).lenOnDisk
    | _ => 0) = _
  cases hpc : s.gc with
  | charge k j =>
    rw [hpc] at hgc
    dsimp only
    rw [State.setSec_of_ne]
    rintro rfl
    exact absurd (hd.symm.trans hgc) (by decide)
  | _ => rfl

/-- A step of a thread that neither serves commands nor collects garbage. -/
theorem Occ.other (h : Occ s) (hs : SameSecs s s') (hk : s'.known.Perm s.known)
    (hf : (s'.fifo ++ s'.hand ++ s'.unread).Perm (s.fifo ++ s.hand ++ s.unread))
    (hn : s'.nrCached = s.nrCached) (hd : s'.dispatcher = s.dispatcher) (hg : s'.gc = s.gc)
    (hsh : s'.shadow = s.shadow) (hgr : s'.growth = s.growth) : Occ s' := by
  have hpend : s'.pending = s.pending := by rw [State.pending, State.pending, hg, hsh]
  refine h.same hs hk ?_ hn ?_ (toFlush_congr hg fun j => (hs j).2.2.2) ?_ ?_ ?_ hgr
  · rw [State.charged, State.charged, hd]
    exact hf.append_right _
  · rw [State.toServe, State.toServe, hd]
    cases s.dispatcher with
    | charge j => exact (hs j).2.2.2
    | _ => rfl
  · intro j
    rw [State.ahead, State.ahead, hd]
  · intro e g j gLen he
    rw [hd] at he
    exact h.drop e g j gLen he
  · intro j hj
    rw [hd] at hj
    rw [hpend]
    exact h.growing j hj

/-- A step of the collector. -/
theorem Occ.collect (h : Occ s) (hi : Inv p s) (hs : Evict.collect p s = some s') : Occ s' := by
  have hmove : ∀ (pc : Collector), (s.setCollector pc).hand = s.hand → Occ (s.setCollector pc) := by
    intro pc hh
    refine h.other (fun _ => ⟨rfl, rfl, rfl, rfl⟩) (.of_eq ?_) (.of_eq ?_) rfl rfl rfl rfl rfl
    · change s.fifo ++ (s.setCollector pc).hand ++ _ ++ _ ++ _ ++ _ = _
      rw [hh]
      rfl
    · change s.fifo ++ (s.setCollector pc).hand ++ _ = _
      rw [hh]
      rfl
  unfold Evict.collect at hs
  cases hpc : s.collector with
  | poll =>
    rw [hpc] at hs
    cases hs
    refine hmove _ ?_
    rw [show s.hand = [] by rw [State.hand, hpc]]
    split_ifs <;> rfl
  | reset =>
    rw [hpc] at hs
    cases hs
    have hh : s.hand = [] := by rw [State.hand, hpc]
    refine h.other (fun _ => ⟨rfl, rfl, rfl, rfl⟩) (.of_eq ?_) (.of_eq ?_) rfl rfl rfl rfl rfl
    · rw [State.known, State.known, hh]
      rfl
    · rw [hh]
      rfl
  | measure =>
    rw [hpc] at hs
    cases hs
    refine hmove _ ?_
    rw [show s.hand = [] by rw [State.hand, hpc]]
    split_ifs <;> rfl
  | dequeue n =>
    rw [hpc] at hs
    have hh : s.hand = [] := by rw [State.hand, hpc]
    have hc := hi.counted
    rw [Counted, hpc] at hc
    cases hf : s.fifo with
    | nil =>
      rw [hf] at hs
      cases hs
      refine hmove _ ?_
      rw [hh]
      rfl
    | cons j fifo =>
      have hn : n < maxSearch := by
        have : p.build.grainPerPage ≤ maxSearch :=
          Nat.le_trans (grainPerPage_bounds p.build).2 (by decide)
        omega
      rw [hf] at hs
      dsimp only at hs
      rw [if_pos hn] at hs
      cases hs
      refine h.other (fun _ => ⟨rfl, rfl, rfl, rfl⟩) ?_ ?_ rfl rfl rfl rfl rfl
      · change (fifo ++ [j] ++ s.unread ++ s.taken ++ s.entering ++ s.pending).Perm s.known
        rw [State.known, hf, hh, List.perm_iff_count]
        intro x
        simp only [List.count_append, List.count_cons, List.count_nil]
        omega
      · change (fifo ++ [j] ++ s.unread).Perm _
        rw [hf, hh, List.perm_iff_count]
        intro x
        simp only [List.count_append, List.count_cons, List.count_nil]
        omega
  | lock n j =>
    rw [hpc] at hs
    dsimp only at hs
    split_ifs at hs
    cases hs
    have hh : s.hand = [j] := by rw [State.hand, hpc]
    refine h.other (sameSecs_setSec rfl rfl rfl rfl) (.of_eq ?_) (.of_eq ?_) rfl rfl rfl rfl rfl
    · rw [State.known, State.known, hh]
      rfl
    · rw [hh]
      rfl
  | mark n j =>
    rw [hpc] at hs
    dsimp only at hs
    split_ifs at hs
    cases hs
    have hh : s.hand = [j] := by rw [State.hand, hpc]
    refine h.other (sameSecs_setSec rfl rfl rfl rfl) (.of_eq ?_) (.of_eq ?_) rfl rfl rfl rfl rfl
    · rw [State.known, State.known, hh]
      rfl
    · rw [hh]
      rfl
  | push n j =>
    rw [hpc] at hs
    cases hs
    have hh : s.hand = [j] := by rw [State.hand, hpc]
    have hu : ((s.pushRing j).setCollector (.count n j)).unread = s.unread ++ [j] := hi.unread_push
    refine h.other (fun _ => ⟨rfl, rfl, rfl, rfl⟩) ?_ ?_ rfl rfl rfl rfl rfl
    · rw [State.known, State.known, hu, hh, List.perm_iff_count]
      intro x
      change List.count x (s.fifo ++ [] ++ _ ++ s.taken ++ s.entering ++ s.pending) = _
      simp only [List.count_append, List.count_cons, List.count_nil]
      omega
    · rw [hu, hh, List.perm_iff_count]
      intro x
      change List.count x (s.fifo ++ [] ++ _) = _
      simp only [List.count_append, List.count_cons, List.count_nil]
      omega
  | count n j =>
    rw [hpc] at hs
    cases hs
    have hh : s.hand = [] := by rw [State.hand, hpc]
    refine h.other (fun _ => ⟨rfl, rfl, rfl, rfl⟩) (.of_eq ?_) (.of_eq ?_) rfl rfl rfl rfl rfl
    · rw [State.known, State.known, hh]
      rfl
    · rw [hh]
      rfl
  | check n j =>
    rw [hpc] at hs
    cases hs
    refine hmove _ ?_
    rw [show s.hand = [] by rw [State.hand, hpc]]
    rfl
  | unlock n j stop =>
    rw [hpc] at hs
    cases hs
    have hh : s.hand = [] := by rw [State.hand, hpc]
    have hh' : ((s.release j).setCollector (if stop then .recheck else .dequeue (n + 1))).hand =
        [] := by
      cases stop <;> rfl
    refine h.other (sameSecs_setSec rfl rfl rfl rfl) (.of_eq ?_) (.of_eq ?_) rfl rfl rfl rfl rfl
    · rw [State.known, State.known, hh, hh']
      rfl
    · rw [hh, hh']
      rfl
  | recheck =>
    rw [hpc] at hs
    cases hs
    refine hmove _ ?_
    rw [show s.hand = [] by rw [State.hand, hpc]]
    split_ifs <;> rfl
  | publish =>
    rw [hpc] at hs
    cases hs
    have hh : s.hand = [] := by rw [State.hand, hpc]
    refine h.other (fun _ => ⟨rfl, rfl, rfl, rfl⟩) (.of_eq ?_) (.of_eq ?_) rfl rfl rfl rfl rfl
    · rw [State.known, State.known, hh]
      rfl
    · rw [hh]
      rfl

/-! ### The dispatcher -/

theorem Occ.mem_charged (h : Occ s) (hidle : s.dispatcher = .idle)
    (hc : (s.secs i).cached = true) (hp : i ∉ s.pending) : i ∈ s.fifo ++ s.hand ++ s.unread := by
  have hm := h.all i hc
  rw [State.known, show s.taken = [] by rw [State.taken, hidle],
    show s.entering = [] by rw [State.entering, hidle], List.append_nil, List.append_nil] at hm
  exact (List.mem_append.mp hm).resolve_right hp

theorem Placed.charged_nodup (h : Placed s) : (s.fifo ++ s.hand ++ s.unread).Nodup := by
  refine List.Sublist.nodup ?_ h.nodup
  rw [State.known]
  refine List.Sublist.trans (List.sublist_append_left _ s.taken) ?_
  refine List.Sublist.trans (List.sublist_append_left _ s.entering) ?_
  exact List.sublist_append_left _ _

theorem charged_of_ne (hd : ∀ e g i gLen, s.dispatcher ≠ .evDrop e g i gLen) :
    s.charged = s.fifo ++ s.hand ++ s.unread := by
  rw [State.charged]
  cases hpc : s.dispatcher with
  | evDrop e g i gLen => exact absurd hpc (hd e g i gLen)
  | _ => exact List.append_nil _

theorem charged_at {pc : Dispatcher} (hpc : s.dispatcher = pc)
    (hd : ∀ e g i gLen, pc ≠ .evDrop e g i gLen) : s.charged = s.fifo ++ s.hand ++ s.unread := by
  apply charged_of_ne
  rwa [hpc]

/-- Beginning an access. -/
theorem Occ.begin (h : Occ s) (hi : Inv p s) (hplus : p.build = .plus)
    (hpc : s.dispatcher = .idle) {b : Begin} (hclear : Clear s (.begin b))
    (hs : Evict.begin p s b = some s') : Occ s' := by
  have hsum := h.sum
  rw [charged_at hpc (by rintro _ _ _ _ ⟨⟩),
    show s.toServe = 0 by rw [State.toServe, hpc]] at hsum
  have hahead : ∀ j, s.ahead j = 0 := fun j => by rw [State.ahead, hpc]
  unfold Evict.begin at hs
  cases b with
  | acquire j =>
    dsimp only at hs
    split_ifs at hs
    cases hs
    exact h.other (sameSecs_setSec rfl rfl rfl rfl) (.refl _) (.refl _) rfl rfl rfl rfl rfl
  | pass j =>
    dsimp only at hs
    split_ifs at hs
    cases hs
    exact h.other (sameSecs_setSec rfl rfl rfl rfl) (.refl _) (.refl _) rfl rfl rfl rfl rfl
  | release j =>
    dsimp only at hs
    split_ifs at hs
    cases hs
    exact h.other (sameSecs_setSec rfl rfl rfl rfl) (.refl _) (.refl _) rfl rfl rfl rfl rfl
  | load j =>
    dsimp only at hs
    split_ifs at hs with hok
    cases hs
    have hni := hi.placed.notMem_of_uncached hok.2
    have hother : ∀ x, x ≠ j → ((s.setSec j (loaded p (s.secs j))).setDispatcher
        (.enqueue j)).secs x = s.secs x := fun x hx => State.setSec_of_ne _ _ hx
    have hself : ((s.setSec j (loaded p (s.secs j))).setDispatcher (.enqueue j)).secs j =
        loaded p (s.secs j) := State.setSec_self ..
    refine ⟨?_, ?_, ?_, (by rintro _ _ _ _ ⟨⟩), (by rintro _ ⟨⟩), h.growth⟩
    · intro x hx
      change x ∈ s.fifo ++ s.hand ++ s.unread ++ [] ++ [j] ++ s.pending
      by_cases hxj : x = j
      · simp [hxj]
      · rw [hother x hxj] at hx
        have hm := h.all x hx
        rw [State.known, show s.taken = [] by rw [State.taken, hpc],
          show s.entering = [] by rw [State.entering, hpc]] at hm
        simp only [List.mem_append] at hm ⊢
        tauto
    · intro x hx
      by_cases hxj : x = j
      · subst hxj
        rw [hself] at hx ⊢
        change _ = rootG + (loaded p (s.secs x)).cnt + 0
        unfold loaded
        split_ifs with hm
        · have := h.len x hm
          rw [hahead] at this
          exact this
        · rw [hplus]
          rfl
      · rw [hother x hxj] at hx ⊢
        have := h.len x hx
        rw [hahead] at this
        exact this
    · have hl : ((s.setSec j (loaded p (s.secs j))).setDispatcher (.enqueue j)).lengths
          (s.fifo ++ s.hand ++ s.unread) = s.lengths (s.fifo ++ s.hand ++ s.unread) := by
        refine total_congr fun x hx => ?_
        have hxj : x ≠ j := by
          rintro rfl
          refine hni ?_
          rw [State.known]
          simp only [List.mem_append] at hx ⊢
          tauto
        rw [hother x hxj]
      have hfl : ((s.setSec j (loaded p (s.secs j))).setDispatcher (.enqueue j)).toFlush =
          s.toFlush := toFlush_setSec hi.locks hok.1
      rw [charged_of_ne (fun _ _ _ _ hx => by cases hx), hfl]
      change s.nrCached + (0 : ℕ) + _ = (((s.setSec j (loaded p (s.secs j))).setDispatcher
        (.enqueue j)).lengths (s.fifo ++ s.hand ++ s.unread) : ℤ)
      rw [hl]
      exact hsum
  | dirty j =>
    dsimp only at hs
    split_ifs at hs
    cases hs
    exact h.other (sameSecs_setSec rfl rfl rfl rfl) (.refl _) (.refl _) rfl rfl rfl rfl rfl
  | expand j =>
    dsimp only at hs
    split_ifs at hs with hok
    cases hs
    set s₁ := (s.setSec j { s.secs j with lenOnDisk := (s.secs j).lenOnDisk + 1 }).setDispatcher
      (.grow j) with hs₁
    have hother : ∀ x, x ≠ j → s₁.secs x = s.secs x := fun x hx => State.setSec_of_ne _ _ hx
    have hself : s₁.secs j = { s.secs j with lenOnDisk := (s.secs j).lenOnDisk + 1 } :=
      State.setSec_self ..
    have hknown : s₁.known = s.known := by
      rw [State.known, State.known, show s.taken = [] by rw [State.taken, hpc],
        show s.entering = [] by rw [State.entering, hpc]]
      rfl
    refine ⟨?_, ?_, ?_, (by rintro _ _ _ _ ⟨⟩), ?_, h.growth⟩
    · intro x hx
      rw [hknown]
      by_cases hxj : x = j
      · subst hxj
        exact h.all x hok.2.1
      · rw [hother x hxj] at hx
        exact h.all x hx
    · intro x hx
      change _ = _ + _ + if j = x then 1 else 0
      by_cases hxj : x = j
      · subst hxj
        rw [hself] at hx ⊢
        have := h.len x hx
        rw [hahead] at this
        rw [if_pos rfl]
        dsimp only
        omega
      · rw [hother x hxj] at hx ⊢
        have := h.len x hx
        rw [hahead] at this
        rw [if_neg (Ne.symm hxj)]
        exact this
    · have hl : s₁.lengths (s.fifo ++ s.hand ++ s.unread) =
          s.lengths (s.fifo ++ s.hand ++ s.unread) + 1 := by
        refine total_succ hi.placed.charged_nodup
          (h.mem_charged hpc hok.2.1 hclear) ?_ ?_
        · rw [hself]
        · intro x hx
          rw [hother x hx]
      have hfl : s₁.toFlush = s.toFlush := toFlush_setSec hi.locks hok.1
      rw [charged_of_ne (fun _ _ _ _ hx => by cases hx), hfl]
      change s.nrCached + (1 : ℕ) + _ = (s₁.lengths (s.fifo ++ s.hand ++ s.unread) : ℤ)
      rw [hl]
      push_cast
      omega
    · intro x hx
      change Dispatcher.grow j = .grow x at hx
      cases hx
      exact hclear
  | evict =>
    dsimp only at hs
    split_ifs at hs
    cases hs
    refine h.same (fun _ => ⟨rfl, rfl, rfl, rfl⟩) (.of_eq ?_) (.of_eq ?_) rfl ?_ rfl ?_
      (by rintro _ _ _ _ ⟨⟩) (by rintro _ ⟨⟩)
      rfl
    · rw [State.known, State.known, show s.taken = [] by rw [State.taken, hpc],
        show s.entering = [] by rw [State.entering, hpc]]
      rfl
    · rw [charged_of_ne (fun _ _ _ _ hx => by cases hx), charged_at hpc (by rintro _ _ _ _ ⟨⟩)]
      rfl
    · rw [show s.toServe = 0 by rw [State.toServe, hpc]]
      rfl
    · intro j
      rw [hahead]
      rfl

/-- The dispatcher moves on without touching a section. -/
theorem Occ.setDispatcher (h : Occ s) {pc : Dispatcher}
    (htaken : (s.setDispatcher pc).taken = s.taken)
    (hent : (s.setDispatcher pc).entering = s.entering)
    (hch : (s.setDispatcher pc).charged = s.charged) (hsv : (s.setDispatcher pc).toServe = s.toServe)
    (ha : ∀ i, (s.setDispatcher pc).ahead i = s.ahead i)
    (hd : ∀ e g i gLen, pc = .evDrop e g i gLen → (s.secs i).lenOnDisk = gLen)
    (hg : ∀ i, pc ≠ .grow i) : Occ (s.setDispatcher pc) := by
  refine h.same (fun _ => ⟨rfl, rfl, rfl, rfl⟩) (.of_eq ?_) (.of_eq hch) rfl hsv rfl ha hd
    (fun j hj => absurd hj (hg j)) rfl
  change s.fifo ++ s.hand ++ s.unread ++ (s.setDispatcher pc).taken ++
    (s.setDispatcher pc).entering ++ _ = _
  rw [htaken, hent]
  rfl

/-- A move between two places of an eviction that hold no victim. -/
theorem Occ.evMove (h : Occ s) {pc : Dispatcher}
    (hpc : match s.dispatcher with
      | .evLoop _ _ | .evRead _ _ _ | .evLock _ _ _ | .evFit _ _ _ | .evEnd => True
      | _ => False)
    (hpc' : match pc with
      | .evRead _ _ _ | .evLock _ _ _ | .evFit _ _ _ | .evPop _ _ _ | .evEnd | .idle => True
      | _ => False) : Occ (s.setDispatcher pc) := by
  have h1 : s.taken = [] ∧ s.entering = [] ∧ s.charged = s.fifo ++ s.hand ++ s.unread ∧
      s.toServe = 0 ∧ ∀ j, s.ahead j = 0 := by
    unfold State.taken State.entering State.charged State.toServe State.ahead
    cases hd : s.dispatcher with
    | evLoop | evRead | evLock | evFit | evEnd =>
      exact ⟨rfl, rfl, List.append_nil _, rfl, fun _ => rfl⟩
    | _ =>
      rw [hd] at hpc
      exact hpc.elim
  have h2 : (s.setDispatcher pc).taken = [] ∧ (s.setDispatcher pc).entering = [] ∧
      (s.setDispatcher pc).charged = s.fifo ++ s.hand ++ s.unread ∧
      (s.setDispatcher pc).toServe = 0 ∧ ∀ j, (s.setDispatcher pc).ahead j = 0 := by
    cases pc with
    | evRead | evLock | evFit | evPop | evEnd | idle =>
      exact ⟨rfl, rfl, List.append_nil _, rfl, fun _ => rfl⟩
    | _ => exact hpc'.elim
  refine h.setDispatcher (h2.1.trans h1.1.symm) (h2.2.1.trans h1.2.1.symm)
    (h2.2.2.1.trans h1.2.2.1.symm) (h2.2.2.2.1.trans h1.2.2.2.1.symm)
    (fun j => (h2.2.2.2.2 j).trans (h1.2.2.2.2 j).symm) ?_ ?_
  · rintro e g j gLen rfl
    exact hpc'.elim
  · rintro j rfl
    exact hpc'.elim

theorem fifoEnqueue_of_room (hroom : s.fifo.length + 1 < ringBufferSize) :
    s.fifoEnqueue i = { s with fifo := s.fifo ++ [i] } :=
  if_neg (Nat.ne_of_lt hroom)

theorem Occ.dispatch_enqueue (h : Occ s) (hpc : s.dispatcher = .enqueue i)
    (hroom : s.fifo.length + 1 < ringBufferSize) :
    Occ ((s.fifoEnqueue i).setDispatcher (.charge i)) := by
  have hsum := h.sum
  rw [charged_at hpc (by rintro _ _ _ _ ⟨⟩),
    show s.toServe = 0 by rw [State.toServe, hpc]] at hsum
  have htaken : s.taken = [] := by rw [State.taken, hpc]
  have hent : s.entering = [i] := by rw [State.entering, hpc]
  have hahead : ∀ j, s.ahead j = 0 := fun j => by rw [State.ahead, hpc]
  rw [fifoEnqueue_of_room hroom]
  refine ⟨?_, ?_, ?_, (by rintro _ _ _ _ ⟨⟩), (by rintro _ ⟨⟩), h.growth⟩
  · intro x hx
    have hm := h.all x hx
    rw [State.known, htaken, hent] at hm
    change x ∈ s.fifo ++ [i] ++ s.hand ++ s.unread ++ [] ++ [] ++ s.pending
    simp only [List.mem_append] at hm ⊢
    tauto
  · intro x hx
    have := h.len x hx
    rw [hahead] at this
    exact this
  · rw [charged_of_ne (fun _ _ _ _ hx => by cases hx)]
    change s.nrCached + (((s.secs i).lenOnDisk : ℕ) : ℤ) + (s.toFlush : ℤ) =
      (s.lengths (s.fifo ++ [i] ++ s.hand ++ s.unread) : ℤ)
    have hl : s.lengths (s.fifo ++ [i] ++ s.hand ++ s.unread) =
        s.lengths (s.fifo ++ s.hand ++ s.unread) + (s.secs i).lenOnDisk := by
      simp only [State.lengths, total_append, total_cons]
      change _ + ((s.secs i).lenOnDisk + 0) + _ + _ = _
      omega
    rw [hl]
    push_cast at hsum ⊢
    omega

theorem Occ.dispatch_evPop (h : Occ s) (hi : Inv p s) (hplus : p.build = .plus) {e g : ℕ}
    (hpc : s.dispatcher = .evPop e g i) : Occ (evPop p s e g i) := by
  have hsum := h.sum
  rw [charged_at hpc (by rintro _ _ _ _ ⟨⟩),
    show s.toServe = 0 by rw [State.toServe, hpc]] at hsum
  have htaken : s.taken = [] := by rw [State.taken, hpc]
  have hent : s.entering = [] := by rw [State.entering, hpc]
  have hahead : ∀ j, s.ahead j = 0 := fun j => by rw [State.ahead, hpc]
  have hev := hi.evicting
  rw [Evicting, hpc] at hev
  obtain ⟨hcons, -⟩ := hi.head_unread (by omega)
  have hu : s.unread = i :: s.popRing.unread := by
    have hdrop := List.drop_eq_getElem_cons hcons
    have hx : s.filled[s.consumed] = i := by
      have := hev.2.2.2
      rw [State.unread, hdrop] at this
      exact Option.some.inj this
    rw [hx] at hdrop
    exact hdrop
  have hmem : i ∈ s.known := by simp [State.known, hu]
  have hlen : (s.secs i).lenOnDisk = grains p (s.secs i) := by
    have := h.len i (hi.placed.cached i hmem).2
    rw [hahead] at this
    rw [this, grains, hplus]
    rfl
  -- the length written is the length the section has
  have hpop : ∀ g', Occ (s.popRing.setDispatcher (.evDrop e g' i (grains p (s.secs i)))) := by
    intro g'
    refine h.same (fun _ => ⟨rfl, rfl, rfl, rfl⟩) ?_ ?_ rfl ?_ rfl ?_ ?_ (by rintro _ ⟨⟩) rfl
    · change (s.fifo ++ s.hand ++ s.popRing.unread ++ [i] ++ [] ++ s.pending).Perm s.known
      rw [State.known, hu, htaken, hent, List.perm_iff_count]
      intro x
      simp only [List.count_append, List.count_cons, List.count_nil]
      omega
    · change (s.fifo ++ s.hand ++ s.popRing.unread ++ [i]).Perm s.charged
      rw [charged_at hpc (by rintro _ _ _ _ ⟨⟩), hu, List.perm_iff_count]
      intro x
      simp only [List.count_append, List.count_cons, List.count_nil]
      omega
    · rw [show s.toServe = 0 by rw [State.toServe, hpc]]
      rfl
    · intro j
      rw [hahead]
      rfl
    · intro e' g'' j gLen hx
      cases hx
      exact hlen
  unfold evPop
  dsimp only
  split_ifs
  · have hsame : SameSecs (s.popRing.setDispatcher
        (.evDrop e (g + grains p (s.secs i)) i (grains p (s.secs i))))
        ((s.popRing.writeVictim p i).setDispatcher
          (.evDrop e (g + grains p (s.secs i)) i (grains p (s.secs i)))) := by
      refine sameSecs_setSec (s := s.popRing.setDispatcher
        (.evDrop e (g + grains p (s.secs i)) i (grains p (s.secs i)))) rfl rfl rfl ?_
      rw [hplus]
      exact hlen.symm
    exact (hpop _).other hsame (.refl _) (.refl _) rfl rfl rfl rfl rfl
  · exact hpop _

theorem Occ.dispatch_evDrop (h : Occ s) {e g gLen : ℕ} (hpc : s.dispatcher = .evDrop e g i gLen) :
    Occ ((s.addCached (-(gLen : ℤ))).setDispatcher (.evClean (e + gLen) g i)) := by
  have hsum := h.sum
  have hlen := h.drop e g i gLen hpc
  have hahead : ∀ j, s.ahead j = 0 := fun j => by rw [State.ahead, hpc]
  rw [show s.toServe = 0 by rw [State.toServe, hpc], State.charged, hpc] at hsum
  refine ⟨?_, ?_, ?_, nofun, nofun, h.growth⟩
  · intro x hx
    have hm := h.all x hx
    rw [State.known, show s.taken = [i] by rw [State.taken, hpc],
      show s.entering = [] by rw [State.entering, hpc]] at hm
    exact hm
  · intro x hx
    have := h.len x hx
    rw [hahead] at this
    exact this
  · rw [charged_of_ne (fun _ _ _ _ hx => by cases hx)]
    change s.nrCached + -(gLen : ℤ) + ((0 : ℕ) : ℤ) + (s.toFlush : ℤ) =
      (s.lengths (s.fifo ++ s.hand ++ s.unread) : ℤ)
    have hl : s.lengths (s.fifo ++ s.hand ++ s.unread ++ [i]) =
        s.lengths (s.fifo ++ s.hand ++ s.unread) + gLen := by
      rw [State.lengths, total_append, total_cons, ← hlen]
      rfl
    rw [hl] at hsum
    push_cast at hsum ⊢
    omega

theorem Occ.dispatch_evClean (h : Occ s) (hi : Inv p s) {e g : ℕ}
    (hpc : s.dispatcher = .evClean e g i) {pc : Dispatcher}
    (hpc' : pc = .evEnd ∨ pc = .evLoop e g) : Occ ((s.dropVictim i).setDispatcher pc) := by
  have hsum := h.sum
  have hahead : ∀ j, s.ahead j = 0 := fun j => by rw [State.ahead, hpc]
  rw [charged_at hpc (by rintro _ _ _ _ ⟨⟩),
    show s.toServe = 0 by rw [State.toServe, hpc]] at hsum
  have hlock : Holds s i := by
    have := hi.locks.dispatcher
    rw [hpc] at this
    exact this
  have hsecs : ∀ j, j ≠ i → ((s.dropVictim i).setDispatcher pc).secs j = s.secs j := fun j hj =>
    State.setSec_of_ne _ _ hj
  have hself : ((s.dropVictim i).setDispatcher pc).secs i =
      { s.secs i with cached := false, state := .clean, outgoing := none } := State.setSec_self ..
  have hlen : ∀ j, (((s.dropVictim i).setDispatcher pc).secs j).lenOnDisk =
      (s.secs j).lenOnDisk := by
    intro j
    by_cases hj : j = i
    · rw [hj, hself]
    · rw [hsecs j hj]
  have h2 : ((s.dropVictim i).setDispatcher pc).taken = [] ∧
      ((s.dropVictim i).setDispatcher pc).entering = [] ∧
      ((s.dropVictim i).setDispatcher pc).toServe = 0 ∧
      (∀ j, ((s.dropVictim i).setDispatcher pc).ahead j = 0) ∧
      ((s.dropVictim i).setDispatcher pc).charged = s.fifo ++ s.hand ++ s.unread := by
    rcases hpc' with rfl | rfl <;>
      exact ⟨rfl, rfl, rfl, fun _ => rfl, List.append_nil _⟩
  refine ⟨?_, ?_, ?_, ?_, ?_, h.growth⟩
  · intro x hx
    have hxi : x ≠ i := by
      rintro rfl
      rw [hself] at hx
      cases hx
    rw [hsecs x hxi] at hx
    have hm := h.all x hx
    rw [State.known, show s.taken = [i] by rw [State.taken, hpc],
      show s.entering = [] by rw [State.entering, hpc]] at hm
    rw [State.known, h2.1, h2.2.1]
    change x ∈ s.fifo ++ s.hand ++ s.unread ++ [] ++ [] ++ s.pending
    simp only [List.mem_append, List.mem_singleton] at hm ⊢
    tauto
  · intro x hx
    rw [h2.2.2.2.1, hlen]
    have hmem : (s.secs x).hasMem = true := by
      by_cases hxi : x = i
      · rw [hxi, hself] at hx
        rw [hxi]
        exact hx
      · rw [hsecs x hxi] at hx
        exact hx
    have := h.len x hmem
    rw [hahead] at this
    rw [this]
    by_cases hxi : x = i
    · rw [hxi, hself]
    · rw [hsecs x hxi]
  · have hl : ((s.dropVictim i).setDispatcher pc).lengths (s.fifo ++ s.hand ++ s.unread) =
        s.lengths (s.fifo ++ s.hand ++ s.unread) := total_congr fun j _ => hlen j
    have hfl : ((s.dropVictim i).setDispatcher pc).toFlush = s.toFlush :=
      toFlush_setSec hi.locks hlock
    rw [h2.2.2.1, h2.2.2.2.2, hl, hfl]
    exact hsum
  · rintro e' g' j gLen hx
    rcases hpc' with rfl | rfl <;> cases hx
  · rintro j hx
    rcases hpc' with rfl | rfl <;> cases hx

/-- A step of the dispatcher. -/
theorem Occ.dispatch (h : Occ s) (hi : Inv p s) (hplus : p.build = .plus)
    (hclear : Clear s .dispatcher) (hs : Evict.dispatch p s = some s') : Occ s' := by
  unfold Evict.dispatch at hs
  cases hpc : s.dispatcher with
  | idle =>
    rw [hpc] at hs
    cases hs
  | enqueue i =>
    rw [hpc] at hs
    cases hs
    rw [Clear, hpc] at hclear
    exact h.dispatch_enqueue hpc hclear
  | charge i =>
    rw [hpc] at hs
    cases hs
    have hsum := h.sum
    have hahead : ∀ j, s.ahead j = 0 := fun j => by rw [State.ahead, hpc]
    rw [charged_at hpc (by rintro _ _ _ _ ⟨⟩), State.toServe, hpc] at hsum
    refine ⟨?_, ?_, ?_, (by rintro _ _ _ _ ⟨⟩), (by rintro _ ⟨⟩), h.growth⟩
    · intro x hx
      have hm := h.all x hx
      rw [State.known, show s.taken = [] by rw [State.taken, hpc],
        show s.entering = [] by rw [State.entering, hpc]] at hm
      exact hm
    · intro x hx
      have := h.len x hx
      rw [hahead] at this
      exact this
    · rw [charged_of_ne (fun _ _ _ _ hx => by cases hx)]
      change s.nrCached + (((s.secs i).lenOnDisk : ℕ) : ℤ) + ((0 : ℕ) : ℤ) + (s.toFlush : ℤ) =
        (s.lengths (s.fifo ++ s.hand ++ s.unread) : ℤ)
      rw [← hsum]
      dsimp only
      push_cast
      omega
  | grow i =>
    rw [hpc] at hs
    cases hs
    have hsum := h.sum
    rw [charged_at hpc (by rintro _ _ _ _ ⟨⟩),
    show s.toServe = 1 by rw [State.toServe, hpc]] at hsum
    have hpend := h.growing i hpc
    refine ⟨?_, ?_, ?_, (by rintro _ _ _ _ ⟨⟩), (by rintro _ ⟨⟩), ?_⟩
    · intro x hx
      have hm := h.all x hx
      rw [State.known, show s.taken = [] by rw [State.taken, hpc],
        show s.entering = [] by rw [State.entering, hpc]] at hm
      exact hm
    · intro x hx
      have := h.len x hx
      rw [State.ahead, hpc] at this
      exact this
    · rw [charged_of_ne (fun _ _ _ _ hx => by cases hx)]
      change s.nrCached + 1 + ((0 : ℕ) : ℤ) + (s.toFlush : ℤ) =
        (s.lengths (s.fifo ++ s.hand ++ s.unread) : ℤ)
      rw [← hsum]
      push_cast
      omega
    · change (if i ∈ s.pending then s.growth + 1 else s.growth) = 0
      rw [if_neg hpend]
      exact h.growth
  | count i =>
    rw [hpc] at hs
    cases hs
    have hsame : SameSecs s ((s.countGrowth i).setDispatcher
        (.expand i (decide (Chosen (s.secs i))))) := sameSecs_setSec rfl rfl rfl rfl
    refine h.same hsame (.of_eq ?_) (.of_eq ?_) rfl ?_
      (toFlush_congr rfl fun j => (hsame j).2.2.2) ?_ (by rintro _ _ _ _ ⟨⟩) (by rintro _ ⟨⟩) rfl
    · rw [State.known, State.known, show s.taken = [] by rw [State.taken, hpc],
        show s.entering = [] by rw [State.entering, hpc]]
      rfl
    · rw [charged_of_ne (fun _ _ _ _ hx => by cases hx), charged_at hpc (by rintro _ _ _ _ ⟨⟩)]
      rfl
    · rw [show s.toServe = 0 by rw [State.toServe, hpc]]
      rfl
    · intro j
      rw [State.ahead, State.ahead, hpc]
      rfl
  | expand i b =>
    rw [hpc] at hs
    cases hs
    have hsum := h.sum
    rw [charged_at hpc (by rintro _ _ _ _ ⟨⟩),
    show s.toServe = 0 by rw [State.toServe, hpc]] at hsum
    have hlock : Holds s i := by
      have := hi.locks.dispatcher
      rw [hpc] at this
      exact this
    have hother : ∀ x, x ≠ i → ((s.addLeaf i).setDispatcher .idle).secs x = s.secs x := fun x hx =>
      State.setSec_of_ne _ _ hx
    have hself : ((s.addLeaf i).setDispatcher .idle).secs i =
        { s.secs i with cnt := (s.secs i).cnt + 1 } := State.setSec_self ..
    refine ⟨?_, ?_, ?_, (by rintro _ _ _ _ ⟨⟩), (by rintro _ ⟨⟩), h.growth⟩
    · intro x hx
      have hx' : (s.secs x).cached = true := by
        by_cases hxi : x = i
        · rw [hxi, hself] at hx
          rw [hxi]
          exact hx
        · rw [hother x hxi] at hx
          exact hx
      have hm := h.all x hx'
      rw [State.known, show s.taken = [] by rw [State.taken, hpc],
        show s.entering = [] by rw [State.entering, hpc]] at hm
      exact hm
    · intro x hx
      change _ = _ + _ + 0
      by_cases hxi : x = i
      · rw [hxi, hself] at hx ⊢
        have := h.len i hx
        rw [State.ahead, hpc] at this
        dsimp only at this ⊢
        rw [if_pos rfl] at this
        omega
      · rw [hother x hxi] at hx ⊢
        have := h.len x hx
        rw [State.ahead, hpc] at this
        dsimp only at this
        rw [if_neg (Ne.symm hxi)] at this
        exact this
    · have hl : ((s.addLeaf i).setDispatcher .idle).lengths (s.fifo ++ s.hand ++ s.unread) =
          s.lengths (s.fifo ++ s.hand ++ s.unread) := by
        refine total_congr fun x _ => ?_
        by_cases hxi : x = i
        · rw [hxi, hself]
        · rw [hother x hxi]
      have hfl : ((s.addLeaf i).setDispatcher .idle).toFlush = s.toFlush :=
        toFlush_setSec hi.locks hlock
      rw [charged_of_ne (fun _ _ _ _ hx => by cases hx), hfl]
      change s.nrCached + ((0 : ℕ) : ℤ) + _ = (((s.addLeaf i).setDispatcher .idle).lengths
        (s.fifo ++ s.hand ++ s.unread) : ℤ)
      rw [hl]
      exact hsum
  | evLoop e g =>
    rw [hpc] at hs
    cases hs
    refine h.evMove (by rw [hpc]; trivial) ?_
    split_ifs <;> trivial
  | evRead e g locked =>
    rw [hpc] at hs
    dsimp only at hs
    by_cases hok : (s.secs (s.hts s.tail)).hasMem = true ∧ Chosen (s.secs (s.hts s.tail))
    · rw [if_pos hok] at hs
      cases hs
      refine h.evMove (by rw [hpc]; trivial) ?_
      cases locked <;> trivial
    · rw [if_neg hok] at hs
      cases hs
  | evLock e g i =>
    rw [hpc] at hs
    dsimp only at hs
    split_ifs at hs
    cases hs
    have hacq : Occ (s.acquire i .dispatcher) :=
      h.other (sameSecs_setSec rfl rfl rfl rfl) (.refl _) (.refl _) rfl rfl rfl rfl rfl
    refine hacq.evMove ?_ trivial
    rw [show (s.acquire i .dispatcher).dispatcher = _ from hpc]
    trivial
  | evFit e g i =>
    rw [hpc] at hs
    dsimp only at hs
    unfold evFit at hs
    dsimp only at hs
    split_ifs at hs
    · cases hs
      exact h.evMove (by rw [hpc]; trivial) trivial
    · cases hs
      exact h.evMove (by rw [hpc]; trivial) trivial
  | evPop e g i =>
    rw [hpc] at hs
    cases hs
    exact h.dispatch_evPop hi hplus hpc
  | evDrop e g i gLen =>
    rw [hpc] at hs
    cases hs
    exact h.dispatch_evDrop hpc
  | evClean e g i =>
    rw [hpc] at hs
    cases hs
    refine h.dispatch_evClean hi hpc ?_
    split_ifs
    · exact .inl rfl
    · exact .inr rfl
  | evEnd =>
    rw [hpc] at hs
    cases hs
    have hidle : Occ (s.setDispatcher .idle) := h.evMove (by rw [hpc]; trivial) trivial
    exact hidle.other (fun _ => ⟨rfl, rfl, rfl, rfl⟩) (.refl _) (.refl _) rfl rfl rfl rfl rfl

/-! ### The garbage collector -/

/-- The garbage collector moves on without charging or reading a section. -/
theorem Occ.moveGc (h : Occ s) (hs : SameSecs s s')
    (hf : s'.fifo = s.fifo ∧ s'.hand = s.hand ∧ s'.unread = s.unread)
    (hd : s'.dispatcher = s.dispatcher) (hn : s'.nrCached = s.nrCached)
    (hgr : s'.growth = s.growth) (hpend : s'.pending = s.pending) (hfl : s'.toFlush = s.toFlush) :
    Occ s' := by
  have hch : s'.charged = s.charged := by
    rw [State.charged, State.charged, hf.1, hf.2.1, hf.2.2, hd]
  refine h.same hs (.of_eq ?_) (.of_eq hch) hn ?_ hfl ?_ ?_ ?_ hgr
  · rw [State.known, State.known, hf.1, hf.2.1, hf.2.2, hpend, State.taken, State.taken,
      State.entering, State.entering, hd]
  · rw [State.toServe, State.toServe, hd]
    cases s.dispatcher with
    | charge j => exact (hs j).2.2.2
    | _ => rfl
  · intro j
    rw [State.ahead, State.ahead, hd]
  · intro e g j gLen he
    rw [hd] at he
    exact h.drop e g j gLen he
  · intro j hj
    rw [hd] at hj
    rw [hpend]
    exact h.growing j hj

theorem Occ.gc_shadow (h : Occ s) (hi : Inv p s) (hpc : s.gc = .held i)
    (hc : (s.secs i).cached = false) : Occ (s.shadowRead i) := by
  have hlock := hi.locks.gc
  rw [hpc] at hlock
  have hother : ∀ j, j ≠ i → (s.shadowRead i).secs j = s.secs j := fun j hj =>
    State.setSec_of_ne _ _ hj
  have hself : (s.shadowRead i).secs i = { s.secs i with cached := true } := State.setSec_self ..
  have hlen : ∀ j, ((s.shadowRead i).secs j).hasMem = (s.secs j).hasMem ∧
      ((s.shadowRead i).secs j).cnt = (s.secs j).cnt ∧
      ((s.shadowRead i).secs j).lenOnDisk = (s.secs j).lenOnDisk := by
    intro j
    by_cases hj : j = i
    · rw [hj, hself]
      exact ⟨rfl, rfl, rfl⟩
    · rw [hother j hj]
      exact ⟨rfl, rfl, rfl⟩
  have hpend : (s.shadowRead i).pending = s.pending ++ [i] := by
    rw [State.pending, show (s.shadowRead i).gc = _ from hpc, State.pending, hpc]
    rfl
  refine ⟨?_, ?_, ?_, ?_, ?_, h.growth⟩
  · intro j hj
    change j ∈ s.fifo ++ s.hand ++ s.unread ++ s.taken ++ s.entering ++ (s.shadowRead i).pending
    rw [hpend, ← List.append_assoc]
    by_cases hji : j = i
    · rw [hji]
      exact List.mem_append_right _ (List.mem_singleton_self i)
    · rw [hother j hji] at hj
      exact List.mem_append_left _ (h.all j hj)
  · intro j hj
    rw [(hlen j).1] at hj
    rw [(hlen j).2.1, (hlen j).2.2]
    exact h.len j hj
  · have hl : (s.shadowRead i).lengths s.charged = s.lengths s.charged :=
      total_congr fun j _ => (hlen j).2.2
    have hsv : (s.shadowRead i).toServe = s.toServe := by
      unfold State.toServe
      rw [show (s.shadowRead i).dispatcher = s.dispatcher from rfl]
      cases s.dispatcher with
      | charge j => exact (hlen j).2.2
      | _ => rfl
    have hfl : (s.shadowRead i).toFlush = s.toFlush := toFlush_congr rfl fun j => (hlen j).2.2
    change s.nrCached + _ + _ = (((s.shadowRead i).lengths s.charged : ℕ) : ℤ)
    rw [hl, hsv, hfl]
    exact h.sum
  · intro e g j gLen he
    rw [(hlen j).2.2]
    exact h.drop e g j gLen he
  · intro j hj hmem
    rw [hpend, List.mem_append, List.mem_singleton] at hmem
    rcases hmem with hmem | rfl
    · exact h.growing j hj hmem
    · -- a section that grows is locked for the dispatcher, this one for the collector
      have hd := hi.locks.dispatcher
      rw [show s.dispatcher = _ from hj] at hd
      exact absurd (hd.symm.trans hlock) (by decide)

theorem Occ.gc_enqueue (h : Occ s) (hi : Inv p s) {k : ℕ} (hpc : s.gc = .enqueue k i)
    (hroom : s.fifo.length + 1 < ringBufferSize) :
    Occ ((s.fifoEnqueue i).setGc (.charge k i)) := by
  have hget : s.shadow[k]? = some i := by
    have hfl := hi.placed.gc
    rw [hpc] at hfl
    exact hfl
  have hpend : s.pending = i :: s.shadow.drop (k + 1) := by
    obtain ⟨hk, hx⟩ := List.getElem?_eq_some_iff.mp hget
    rw [State.pending, hpc]
    change s.shadow.drop k = _
    rw [List.drop_eq_getElem_cons hk, hx]
  have hsum := h.sum
  rw [show s.toFlush = 0 by rw [State.toFlush, hpc]] at hsum
  rw [fifoEnqueue_of_room hroom]
  refine ⟨?_, h.len, ?_, h.drop, ?_, h.growth⟩
  · intro j hj
    have hm := h.all j hj
    rw [State.known, hpend] at hm
    change j ∈ s.fifo ++ [i] ++ s.hand ++ s.unread ++ s.taken ++ s.entering ++ s.shadow.drop (k + 1)
    simp only [List.mem_append, List.mem_cons] at hm ⊢
    tauto
  · have hl : s.lengths (s.fifo ++ [i] ++ s.hand ++ s.unread ++
          match s.dispatcher with
          | .evDrop _ _ i _ => [i]
          | _ => []) = s.lengths s.charged + (s.secs i).lenOnDisk := by
      simp only [State.lengths, State.charged, total_append, total_cons]
      change _ + ((s.secs i).lenOnDisk + 0) + _ + _ + _ = _
      omega
    change s.nrCached + (s.toServe : ℤ) + (((s.secs i).lenOnDisk : ℕ) : ℤ) =
      ((s.lengths (s.fifo ++ [i] ++ s.hand ++ s.unread ++
          match s.dispatcher with
          | .evDrop _ _ i _ => [i]
          | _ => []) : ℕ) : ℤ)
    rw [hl]
    push_cast at hsum ⊢
    omega
  · intro j hj hmem
    refine h.growing j hj ?_
    rw [hpend]
    exact List.mem_cons_of_mem _ hmem

theorem Occ.gc_charge (h : Occ s) {k : ℕ} (hpc : s.gc = .charge k i) :
    Occ ((s.addCached (s.secs i).lenOnDisk).setGc (.unlock k i)) := by
  have hpend : s.pending = s.shadow.drop (k + 1) := by rw [State.pending, hpc]
  have hsum := h.sum
  rw [State.toFlush, hpc] at hsum
  refine ⟨?_, h.len, ?_, h.drop, ?_, h.growth⟩
  · intro j hj
    have hm := h.all j hj
    rw [State.known, hpend] at hm
    exact hm
  · change s.nrCached + ((s.secs i).lenOnDisk : ℤ) + (s.toServe : ℤ) + ((0 : ℕ) : ℤ) =
      (s.lengths s.charged : ℤ)
    rw [← hsum]
    push_cast
    omega
  · intro j hj hmem
    refine h.growing j hj ?_
    rw [hpend]
    exact hmem

/-- A step of the garbage collector. -/
theorem Occ.collectGarbage (h : Occ s) (hi : Inv p s) {a : GcAct} (hclear : Clear s (.gc a))
    (hs : Evict.collectGarbage s a = some s') : Occ s' := by
  unfold Evict.collectGarbage at hs
  cases a with
  | acquire i =>
    dsimp only at hs
    split_ifs at hs with hok
    cases hs
    refine h.moveGc (sameSecs_setSec rfl rfl rfl rfl) ⟨rfl, rfl, rfl⟩ rfl rfl rfl ?_ ?_
    · change s.shadow = _
      rw [State.pending, hok.1]
    · rw [show s.toFlush = 0 by rw [State.toFlush, hok.1]]
      rfl
  | shadow =>
    cases hpc : s.gc with
    | held i =>
      rw [hpc] at hs
      dsimp only at hs
      split_ifs at hs with hok
      cases hs
      exact h.gc_shadow hi hpc hok.1
    | _ =>
      rw [hpc] at hs
      cases hs
  | dirty =>
    cases hpc : s.gc with
    | held i =>
      rw [hpc] at hs
      dsimp only at hs
      split_ifs at hs
      cases hs
      exact h.other (sameSecs_setSec rfl rfl rfl rfl) (.refl _) (.refl _) rfl rfl rfl rfl rfl
    | _ =>
      rw [hpc] at hs
      cases hs
  | release =>
    cases hpc : s.gc with
    | held i =>
      rw [hpc] at hs
      cases hs
      refine h.moveGc (sameSecs_setSec rfl rfl rfl rfl) ⟨rfl, rfl, rfl⟩ rfl rfl rfl ?_ ?_
      · change s.shadow = _
        rw [State.pending, hpc]
      · rw [show s.toFlush = 0 by rw [State.toFlush, hpc]]
        rfl
    | _ =>
      rw [hpc] at hs
      cases hs
  | flush =>
    dsimp only at hs
    split_ifs at hs with hok
    cases hs
    refine h.moveGc (fun _ => ⟨rfl, rfl, rfl, rfl⟩) ⟨rfl, rfl, rfl⟩ rfl rfl rfl ?_ ?_
    · change s.shadow.drop 0 = _
      rw [State.pending, hok]
      rfl
    · rw [show s.toFlush = 0 by rw [State.toFlush, hok]]
      rfl
  | next =>
    cases hpc : s.gc with
    | idle =>
      rw [hpc] at hs
      cases hs
    | held i =>
      rw [hpc] at hs
      cases hs
    | flush k =>
      rw [hpc] at hs
      dsimp only at hs
      have hnone : s.toFlush = 0 := by rw [State.toFlush, hpc]
      cases hk : s.shadow[k]? with
      | none =>
        rw [hk] at hs
        cases hs
        have hpend : s.pending = [] := by
          rw [State.pending, hpc]
          exact List.drop_eq_nil_of_le (List.getElem?_eq_none_iff.mp hk)
        refine h.moveGc (fun _ => ⟨rfl, rfl, rfl, rfl⟩) ⟨rfl, rfl, rfl⟩ rfl rfl h.growth.symm ?_
          ?_
        · rw [hpend]
          rfl
        · rw [hnone]
          rfl
      | some i =>
        rw [hk] at hs
        dsimp only at hs
        split_ifs at hs with hfree
        cases hs
        refine h.moveGc (sameSecs_setSec rfl rfl rfl rfl) ⟨rfl, rfl, rfl⟩ rfl rfl rfl ?_ ?_
        · change s.shadow.drop k = _
          rw [State.pending, hpc]
        · rw [hnone]
          rfl
    | enqueue k i =>
      rw [hpc] at hs
      cases hs
      rw [Clear, hpc] at hclear
      exact h.gc_enqueue hi hpc hclear
    | charge k i =>
      rw [hpc] at hs
      cases hs
      exact h.gc_charge hpc
    | unlock k i =>
      rw [hpc] at hs
      cases hs
      refine h.moveGc (sameSecs_setSec rfl rfl rfl rfl) ⟨rfl, rfl, rfl⟩ rfl rfl rfl ?_ ?_
      · change s.shadow.drop (k + 1) = _
        rw [State.pending, hpc]
      · rw [show s.toFlush = 0 by rw [State.toFlush, hpc]]
        rfl

/-! ### Runs -/

/-- Every clear step keeps the occupancy. -/
theorem Occ.step (h : Occ s) (hi : Inv p s) (hplus : p.build = .plus) {e : Event}
    (hclear : Clear s e) (hs : Evict.step p s e = some s') : Occ s' := by
  cases e with
  | collector => exact h.collect hi hs
  | begin b =>
    rw [Evict.step] at hs
    split_ifs at hs with hpc
    exact h.begin hi hplus hpc hclear hs
  | dispatcher => exact h.dispatch hi hplus hclear hs
  | gc a => exact h.collectGarbage hi hclear hs
  | callback i =>
    rw [Evict.step] at hs
    split_ifs at hs
    cases hs
    exact h.other (sameSecs_setSec rfl rfl rfl rfl) (.refl _) (.refl _) rfl rfl rfl rfl rfl

/-- The sections of the FIFO are the cached ones and their grains are charged. -/
structure Charged (s : State) : Prop where
  start : Start s
  all : ∀ i, (s.secs i).cached = true → i ∈ s.fifo
  len : ∀ i, (s.secs i).hasMem = true → (s.secs i).lenOnDisk = rootG + (s.secs i).cnt
  sum : s.nrCached = s.lengths s.fifo
  growth : s.growth = 0

theorem Charged.occ (h : Charged s) : Occ s := by
  have hpc := h.start.dispatcher
  refine ⟨?_, ?_, ?_, ?_, ?_, h.growth⟩
  · intro i hi
    rw [h.start.known]
    exact h.all i hi
  · intro i hi
    rw [State.ahead, hpc]
    exact h.len i hi
  · rw [charged_at hpc (by rintro _ _ _ _ ⟨⟩), State.toServe, hpc, State.toFlush, h.start.gc,
      h.start.unread, State.hand, h.start.collector, List.append_nil, List.append_nil, ← h.sum]
    simp
  · rw [hpc]
    rintro _ _ _ _ ⟨⟩
  · rw [hpc]
    rintro _ ⟨⟩

theorem Occ.clearRun (h : Occ s) (hi : Inv p s) (hplus : p.build = .plus)
    (hr : ClearRun p s t) : Occ t ∧ Inv p t := by
  induction hr with
  | start => exact ⟨h, hi⟩
  | step _ hclear hs ih => exact ⟨ih.1.step ih.2 hplus hclear hs, ih.2.step hs⟩

/-- With no thread at work on a section, the occupancy is exact. -/
theorem Occ.exact (h : Occ s) (hi : Inv p s) (hplus : p.build = .plus) (hq : s.Quiet) :
    Exact p s := by
  obtain ⟨hhand, hpc, hgc⟩ := hq
  have htaken : s.taken = [] := by rw [State.taken, hpc]
  have hent : s.entering = [] := by rw [State.entering, hpc]
  have hknown : s.known = s.fifo ++ s.unread ++ s.pending := by
    rw [State.known, hhand, htaken, hent]
    simp
  have hfl : s.toFlush = 0 := by
    rw [State.toFlush]
    cases hg : s.gc with
    | charge k i =>
      rw [hg] at hgc
      exact hgc.elim
    | _ => rfl
  have hsum : s.nrCached = s.lengths (s.fifo ++ s.unread) := by
    have := h.sum
    rw [charged_at hpc (by rintro _ _ _ _ ⟨⟩), show s.toServe = 0 by rw [State.toServe, hpc], hfl,
      hhand, List.append_nil] at this
    simpa using this
  have hmem : ∀ i ∈ s.fifo ++ s.unread, i ∈ s.known := fun i hx => by
    rw [hknown]
    exact List.mem_append_left _ hx
  refine ⟨hknown ▸ hi.placed.nodup, ?_, ?_, ?_⟩
  · intro i
    rw [← hknown]
    exact ⟨h.all i, fun hx => (hi.placed.cached i hx).1⟩
  · rw [hsum, h.growth]
    simp
  · intro _
    rw [hsum, State.lengths]
    refine congrArg _ (total_congr fun i hx => ?_)
    rw [h.len i (hi.placed.cached i (hmem i hx)).2, State.ahead, hpc, grains, hplus]
    rfl

/-- In every run of clear steps that starts with the grains of the FIFO charged,
the occupancy is exact whenever no thread is at work on a section. -/
theorem exact_of_clearRun (p : Params) (s t : State) (hplus : p.build = .plus) (h : Charged s)
    (hr : ClearRun p s t) (hq : t.Quiet) : Exact p t := by
  obtain ⟨hocc, hinv⟩ := h.occ.clearRun h.start.inv hplus hr
  exact hocc.exact hinv hplus hq

/-- Sections with memory and two leaves; none is cached. -/
def noneCached : State where
  secs _ := { state := .clean, cached := false, hasMem := true, cnt := 2, lenOnDisk := rootG + 2,
              outgoing := none }
  fifo := []
  hts _ := 0
  head := 0
  tail := 0
  candidates := 0
  haveVictims := 0
  nrCached := 0
  shadow := []
  collector := .poll
  dispatcher := .idle
  gc := .idle
  filled := []
  consumed := 0
  growth := 0

theorem charged_noneCached : Charged noneCached where
  start := by
    refine ⟨Ring.holds_empty (by decide) _, rfl, List.nodup_nil, nofun, ?_, rfl, rfl, rfl, rfl, rfl⟩
    rintro i (h | h) <;> cases h
  all := nofun
  len := fun _ _ => rfl
  sum := rfl
  growth := rfl

/-- The section an event expands. -/
def Event.expanded : Event → Option ℕ
  | .begin (.expand i) => some i
  | _ => none

theorem clear_of_room {s : State} {e : Event} (hroom : s.fifo.length + 1 < ringBufferSize)
    (hexp : ∀ i ∈ e.expanded, i ∉ s.pending) : Clear s e := by
  unfold Clear
  split
  · split
    · exact hroom
    · trivial
  · split
    · exact hroom
    · trivial
  · exact hexp _ rfl
  · trivial

/-- A run that checks for room on the FIFO before each step. -/
def runClear (p : Params) : State → List Event → Option State
  | s, [] => some s
  | s, e :: es =>
    if s.fifo.length + 1 < ringBufferSize ∧ ∀ i ∈ e.expanded, i ∉ s.pending then
      (step p s e).bind fun u => runClear p u es
    else none

theorem ClearRun.run {p : Params} {s t u : State} {es : List Event} (hr : ClearRun p s t)
    (h : runClear p t es = some u) : ClearRun p s u := by
  induction es generalizing t with
  | nil =>
    cases h
    exact hr
  | cons e es ih =>
    rw [runClear] at h
    split_ifs at h with hclear
    obtain ⟨v, hv, h⟩ := Option.bind_eq_some_iff.mp h
    exact ih (hr.step (clear_of_room hclear.1 hclear.2) hv) h

/-- Sections with memory that are one leaf short of a page; none is cached. -/
def longSections : State :=
  { noneCached with
    secs := fun _ => { state := .clean, cached := false, hasMem := true, cnt := 59
                       lenOnDisk := rootG + 59, outgoing := none } }

theorem charged_longSections : Charged longSections where
  start := by
    refine ⟨Ring.holds_empty (by decide) _, rfl, List.nodup_nil, nofun, ?_, rfl, rfl, rfl, rfl, rfl⟩
    rintro i (h | h) <;> cases h
  all := nofun
  len := fun _ _ => rfl
  sum := rfl
  growth := rfl

/-- Section 1 is loaded and expanded, the collector takes it, and it is evicted. Meanwhile the
garbage collector reads section 2 into the shadow list, wipes a pair of it and puts it on the
FIFO. -/
def evictWhileShadowed : List Event :=
  [.begin (.acquire 1), .begin (.load 1), .dispatcher, .dispatcher, .begin (.expand 1), .dispatcher,
    .dispatcher, .dispatcher, .begin (.release 1), .gc (.acquire 2), .gc .shadow, .collector,
    .collector, .collector, .collector, .gc .dirty, .collector, .collector, .collector,
    .gc .release, .gc .flush, .gc .next, .collector, .collector, .collector, .collector,
    .collector, .gc .next, .begin .evict, .dispatcher, .dispatcher, .gc .next, .dispatcher,
    .dispatcher, .dispatcher, .gc .next, .dispatcher, .dispatcher, .dispatcher, .gc .next]

/-- In the end the grains of section 2 are charged. -/
theorem exact_of_clearRun_shadowed : ∃ t, runClear twoPages longSections evictWhileShadowed =
    some t ∧ (t.secs 1).cached = false ∧ (t.secs 1).lenOnDisk = rootG + 60 ∧
      t.fifo ++ t.unread ++ t.pending = [2] ∧ (t.secs 2).state = .dirty ∧
      t.nrCached = rootG + 59 ∧ Exact twoPages t := by
  refine ⟨_, rfl, rfl, rfl, rfl, rfl, rfl, ?_⟩
  exact exact_of_clearRun twoPages longSections _ rfl charged_longSections
    (@ClearRun.run _ _ _ _ evictWhileShadowed .start rfl) ⟨rfl, rfl, trivial⟩

/-- The garbage collector reads a section, a store expands it, and the garbage
collector puts it on the FIFO. -/
def growShadowed : List Event :=
  [.gc (.acquire 1), .gc .shadow, .gc .release,
    .begin (.acquire 1), .begin (.expand 1), .dispatcher, .dispatcher, .dispatcher,
    .begin (.release 1), .gc .flush] ++ List.replicate 5 (.gc .next)

theorem shadowed_growth_charged_twice : Charged noneCached ∧
    ∃ t, run twoPages noneCached growShadowed = some t ∧ t.Quiet ∧ t.pending = [] ∧
      t.fifo ++ t.unread = [1] ∧ grains twoPages (t.secs 1) = rootG + 3 ∧
      t.nrCached = rootG + 4 ∧ ¬Exact twoPages t := by
  refine ⟨charged_noneCached, _, rfl, ⟨rfl, rfl, trivial⟩, rfl, rfl, rfl, rfl, ?_⟩
  intro h
  exact absurd (h.flushed rfl) (by decide)

end Virtkv.Evict
