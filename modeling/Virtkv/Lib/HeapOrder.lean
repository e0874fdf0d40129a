import Virtkv.Lib.PQueue

/-!
# Heap order

A queue is in heap order if no element comes before its parent. The sifts restore the order
around one slot: `UpOrder` and `DownOrder` say what they need of the queue around the hole
they move, one step keeps it, and where the sift stops the moving element closes the gap.

## Main results

- `Ordered.root_le` — the root comes first
- `Ordered.insert`, `Ordered.pop`, `Ordered.changePriority` — the operations keep the order
-/

namespace PQueue

variable {α : Type} {pri : α → ℕ} {q : PQueue α} {x : α} {i j : ℕ}

/-- No element comes before its parent. -/
def Ordered (pri : α → ℕ) (q : PQueue α) : Prop :=
  ∀ i, 2 ≤ i → i < q.size → pri (q.d (i / 2)) ≤ pri (q.d i)

/-- The root comes first. -/
theorem Ordered.root_le (h : Ordered pri q) (hi : 1 ≤ i) (his : i < q.size) :
    pri (q.d 1) ≤ pri (q.d i) := by
  induction i using Nat.strong_induction_on with
  | _ i ih =>
    by_cases h1 : i = 1
    · rw [h1]
    · have hup := ih (i / 2) (by omega) (by omega) (by omega)
      exact hup.trans (h i (by omega) his)

/-- The order is about the slots in use only. -/
theorem Ordered.congr {q' : PQueue α} {pri' : α → ℕ} (h : Ordered pri q) (hs : q'.size = q.size)
    (hd : ∀ k, 1 ≤ k → k < q.size → pri' (q'.d k) = pri (q.d k)) : Ordered pri' q' := by
  intro k hk hks
  rw [hs] at hks
  rw [hd k (by omega) hks, hd (k / 2) (by omega) (by omega)]
  exact h k hk hks

/-- The pairs of parent and child that do not touch slot `i` are in order, and the children
of the slot do not come before its parent. -/
structure Apart (pri : α → ℕ) (q : PQueue α) (i : ℕ) : Prop where
  off : ∀ k, 2 ≤ k → k < q.size → k ≠ i → k / 2 ≠ i → pri (q.d (k / 2)) ≤ pri (q.d k)
  grand : 2 ≤ i → ∀ c, c / 2 = i → c < q.size → pri (q.d (i / 2)) ≤ pri (q.d c)

/-- What `bubble_up` needs to close the hole at `i` with `x`. -/
structure UpOrder (pri : α → ℕ) (q : PQueue α) (i : ℕ) (x : α) : Prop extends Apart pri q i where
  below : ∀ c, c / 2 = i → c < q.size → pri x ≤ pri (q.d c)

/-- What `percolate_down` needs to close the hole at `i` with `x`. -/
structure DownOrder (pri : α → ℕ) (q : PQueue α) (i : ℕ) (x : α) : Prop
    extends Apart pri q i where
  above : 2 ≤ i → pri (q.d (i / 2)) ≤ pri x

/-- An ordered queue is in order around every slot, whatever is put there. -/
theorem Ordered.apart (h : Ordered pri q) {q' : PQueue α} {pri' : α → ℕ}
    (hs : q'.size ≤ q.size)
    (hd : ∀ k, 1 ≤ k → k < q'.size → k ≠ i → pri' (q'.d k) = pri (q.d k)) :
    Apart pri' q' i where
  off k hk hks hki hkp := by
    rw [hd k (by omega) hks hki, hd (k / 2) (by omega) (by omega) hkp]
    exact h k hk (by omega)
  grand hi2 c hc hcs := by
    rw [hd c (by omega) hcs (by omega), hd (i / 2) (by omega) (by omega) (by omega)]
    have hup := h i hi2 (by omega)
    have hdown := h c (by omega) (by omega)
    rw [hc] at hdown
    exact hup.trans hdown

variable [DecidableEq α]

@[simp] theorem size_place (q : PQueue α) (i : ℕ) (x : α) : (q.place i x).size = q.size := rfl

@[simp] theorem d_place_self (q : PQueue α) (i : ℕ) (x : α) : (q.place i x).d i = x :=
  Function.update_self _ _ _

theorem d_place_of_ne (q : PQueue α) (x : α) (h : j ≠ i) : (q.place i x).d j = q.d j :=
  Function.update_of_ne h _ _

/-- The gap closes where the element fits between parent and children. -/
theorem Apart.place (h : Apart pri q i) (hup : 2 ≤ i → pri (q.d (i / 2)) ≤ pri x)
    (hdown : ∀ c, c / 2 = i → c < q.size → pri x ≤ pri (q.d c)) :
    Ordered pri (q.place i x) := by
  intro k hk hks
  rw [size_place] at hks
  by_cases hki : k = i
  · rw [hki, d_place_self, d_place_of_ne q x (by omega)]
    exact hup (by omega)
  rw [d_place_of_ne q x hki]
  by_cases hkp : k / 2 = i
  · rw [hkp, d_place_self]
    exact hdown k hkp hks
  · rw [d_place_of_ne q x hkp]
    exact h.off k hk hks hki hkp

/-! ### Up -/

/-- The parent moves down, and the hole to its slot. -/
theorem UpOrder.move (h : UpOrder pri q i x) (hi : 1 < i) (his : i < q.size)
    (hx : pri x < pri (q.d (i / 2))) : UpOrder pri (q.place i (q.d (i / 2))) (i / 2) x := by
  -- a sibling is below the parent
  have hsib : ∀ c, c / 2 = i / 2 → c ≠ i → c < q.size → pri (q.d (i / 2)) ≤ pri (q.d c) := by
    intro c hc hci hcs
    have := h.off c (by omega) hcs hci (by omega)
    rwa [hc] at this
  have htop : 2 ≤ i / 2 → pri (q.d (i / 2 / 2)) ≤ pri (q.d (i / 2)) := fun h2 =>
    h.off (i / 2) h2 (by omega) (by omega) (by omega)
  refine ⟨⟨fun k hk hks hki hkp => ?_, fun h2 c hc hcs => ?_⟩, fun c hc hcs => ?_⟩
  · rw [size_place] at hks
    have hne : k ≠ i := by
      rintro rfl
      exact hkp rfl
    rw [d_place_of_ne _ _ hne]
    by_cases hk2 : k / 2 = i
    · rw [hk2, d_place_self]
      exact h.grand (by omega) k hk2 hks
    · rw [d_place_of_ne _ _ hk2]
      exact h.off k hk hks hne hk2
  · rw [size_place] at hcs
    rw [d_place_of_ne _ _ (show i / 2 / 2 ≠ i by omega)]
    by_cases hci : c = i
    · rw [hci, d_place_self]
      exact htop h2
    · rw [d_place_of_ne _ _ hci]
      exact (htop h2).trans (hsib c hc hci hcs)
  · rw [size_place] at hcs
    by_cases hci : c = i
    · rw [hci, d_place_self]
      exact hx.le
    · rw [d_place_of_ne _ _ hci]
      exact hx.le.trans (hsib c hc hci hcs)

theorem UpOrder.bubbleLoop (fuel : ℕ) (h : UpOrder pri q i x) (hi : 1 ≤ i) (his : i < q.size)
    (hfuel : i ≤ fuel) : Ordered pri (bubbleLoop pri x fuel i q) := by
  induction fuel generalizing i q with
  | zero => omega
  | succ fuel ih =>
    rw [PQueue.bubbleLoop]
    split
    · rename_i hc
      exact ih (h.move hc.1 his hc.2) (by omega) (by rw [size_place]; omega) (by omega)
    · rename_i hc
      apply h.toApart.place
      · intro h2
        exact not_lt.mp fun hlt => hc ⟨h2, hlt⟩
      · exact h.below

/-! ### Down -/

omit [DecidableEq α] in
/-- `maxchild` finds a child no other child comes before. -/
theorem maxchild_spec (h : maxchild pri q i ≠ 0) : maxchild pri q i / 2 = i ∧
    maxchild pri q i < q.size ∧
    ∀ c, c / 2 = i → c < q.size → pri (q.d (maxchild pri q i)) ≤ pri (q.d c) := by
  have htwo : ∀ c, c / 2 = i → c = 2 * i ∨ c = 2 * i + 1 := fun c hc => by omega
  unfold maxchild at h ⊢
  split at h
  · exact absurd rfl h
  rename_i hs
  rw [if_neg hs]
  split
  · rename_i hc
    refine ⟨by omega, hc.1, fun c hci hcs => ?_⟩
    obtain rfl | rfl := htwo c hci
    · exact hc.2.le
    · exact le_rfl
  · rename_i hc
    refine ⟨by omega, by omega, fun c hci hcs => ?_⟩
    obtain rfl | rfl := htwo c hci
    · exact le_rfl
    · exact not_lt.mp fun hlt => hc ⟨hcs, hlt⟩

omit [DecidableEq α] in
theorem maxchild_eq_zero (h : maxchild pri q i = 0) {c : ℕ} (hc : c / 2 = i) (hi : 1 ≤ i) :
    q.size ≤ c := by
  unfold maxchild at h
  split at h
  · omega
  · split at h
    · omega
    · omega

/-- The first child moves up, and the hole to its slot. -/
theorem DownOrder.move (h : DownOrder pri q i x) (hi : 1 ≤ i) {c : ℕ} (hc : c / 2 = i)
    (hcs : c < q.size) (hfirst : ∀ k, k / 2 = i → k < q.size → pri (q.d c) ≤ pri (q.d k))
    (hx : pri (q.d c) < pri x) : DownOrder pri (q.place i (q.d c)) c x := by
  have hci : c ≠ i := by omega
  refine ⟨⟨fun k hk hks hkc hkp => ?_, fun h2 k hk hks => ?_⟩, fun h2 => ?_⟩
  · rw [size_place] at hks
    by_cases hki : k = i
    · rw [hki, d_place_self, d_place_of_ne _ _ (show i / 2 ≠ i by omega)]
      exact h.grand (by omega) c hc hcs
    rw [d_place_of_ne _ _ hki]
    by_cases hk2 : k / 2 = i
    · rw [hk2, d_place_self]
      exact hfirst k hk2 hks
    · rw [d_place_of_ne _ _ hk2]
      exact h.off k hk hks hki hk2
  · rw [size_place] at hks
    rw [hc, d_place_self, d_place_of_ne _ _ (show k ≠ i by omega)]
    have := h.off k (by omega) hks (by omega) (by omega)
    rwa [hk] at this
  · rw [hc, d_place_self]
    exact hx.le

theorem DownOrder.percolateLoop (fuel : ℕ) (h : DownOrder pri q i x) (hi : 1 ≤ i)
    (his : i < q.size) (hfuel : q.size ≤ i + fuel) : Ordered pri (percolateLoop pri x fuel i q) := by
  induction fuel generalizing i q with
  | zero => omega
  | succ fuel ih =>
    rw [PQueue.percolateLoop]
    split
    · rename_i hc
      obtain ⟨hpar, hlt, hfirst⟩ := maxchild_spec hc.1
      refine ih (h.move hi hpar hlt hfirst hc.2) (by omega) hlt ?_
      rw [size_place]
      omega
    · rename_i hc
      refine h.toApart.place h.above fun c hci hcs => not_lt.mp fun hlt => hc ⟨?_, ?_⟩
      · intro h0
        have := maxchild_eq_zero h0 hci hi
        omega
      · have h0 : maxchild pri q i ≠ 0 := by
          intro h0
          have := maxchild_eq_zero h0 hci hi
          omega
        exact ((maxchild_spec h0).2.2 c hci hcs).trans_lt hlt

/-! ### Operations -/

/-- An insertion keeps the order. -/
theorem Ordered.insert (h : Ordered pri q) (hs : 1 ≤ q.size) (x : α) :
    Ordered pri (q.insert pri x) := by
  rw [PQueue.insert, bubbleUp]
  refine UpOrder.bubbleLoop _ ?_ hs (Nat.lt_succ_self _) le_rfl
  set q1 : PQueue α := { q with d := Function.update q.d q.size x, size := q.size + 1 } with hq1
  have hd : ∀ k, k ≠ q.size → q1.d k = q.d k := fun k hk => Function.update_of_ne hk _ _
  refine ⟨⟨fun k hk hks hki hkp => ?_, fun _ c hc hcs => ?_⟩, fun c hc hcs => ?_⟩
  · change k < q.size + 1 at hks
    rw [hd k hki, hd _ hkp]
    exact h k hk (by omega)
  -- the new slot has no children
  · change c < q.size + 1 at hcs
    omega
  · change c < q.size + 1 at hcs
    omega

/-- Taking out the head keeps the order. -/
theorem Ordered.pop (h : Ordered pri q) (hs : 1 ≤ q.size) : Ordered pri (q.pop pri) := by
  rw [pop_eq]
  by_cases h2 : 2 < q.size
  · refine DownOrder.percolateLoop _ ?_ le_rfl (show 1 < q.size - 1 by omega) ?_
    · have hap : Apart pri
          { q with d := Function.update q.d 1 (q.d (q.size - 1)), size := q.size - 1 } 1 := by
        refine h.apart (Nat.sub_le _ _) fun k _ _ hk => ?_
        exact congrArg pri (Function.update_of_ne hk _ _)
      exact ⟨hap, fun h2 => absurd h2 (by omega)⟩
    · exact Nat.le_add_left _ _
  · -- nothing or one element is left
    intro k hk hks
    rw [size_percolateLoop] at hks
    change k < q.size - 1 at hks
    omega

/-- A change of priority keeps the order. -/
theorem Ordered.changePriority {p : ℕ} (h : Ordered pri q) (hi : 1 ≤ q.pos x)
    (his : q.pos x < q.size) (hd : ∀ k, 1 ≤ k → k < q.size → (q.d k = x ↔ k = q.pos x)) :
    Ordered (Function.update pri x p)
      (q.changePriority (Function.update pri x p) (decide (p < pri x)) x) := by
  have hdx : q.d (q.pos x) = x := (hd _ hi his).mpr rfl
  have hother : ∀ k, 1 ≤ k → k < q.size → k ≠ q.pos x →
      Function.update pri x p (q.d k) = pri (q.d k) := by
    intro k hk hks hne
    exact Function.update_of_ne (fun he => hne ((hd k hk hks).mp he)) _ _
  have hself : Function.update pri x p x = p := Function.update_self _ _ _
  have hap := h.apart le_rfl hother
  rw [PQueue.changePriority]
  split
  · rename_i hlt
    rw [bubbleUp, hdx]
    refine UpOrder.bubbleLoop _ ⟨hap, fun c hc hcs => ?_⟩ hi his le_rfl
    rw [hother c (by omega) hcs (by omega), hself]
    have hold := h c (by omega) hcs
    rw [hc, hdx] at hold
    exact (of_decide_eq_true hlt).le.trans hold
  · rename_i hlt
    rw [percolateDown, hdx]
    refine DownOrder.percolateLoop _ ⟨hap, fun h2 => ?_⟩ hi his (Nat.le_add_left _ _)
    rw [hother _ (by omega) (by omega) (by omega), hself]
    have hold := h _ h2 his
    rw [hdx] at hold
    exact hold.trans (not_lt.mp fun hp => hlt (decide_eq_true hp))

end PQueue
