import Virtkv.Lib.HeapOrder

/-!
# Removal and the validity check

`pqueue_remove` fills the slot of the removed element with the last one, which may have to go
up as well as down. `pqueue_is_valid` walks the whole tree; it returns true for the queues in
heap order and for no others.
-/

namespace PQueue

variable {α : Type} {pri : α → ℕ} {q : PQueue α} {x : α} {i : ℕ}

/-- `subtree_is_valid`. The slots below `pos` have larger numbers, so `size` rounds are
enough. -/
def subtreeIsValid (pri : α → ℕ) (q : PQueue α) : ℕ → ℕ → Bool
  | 0, _ => true
  | fuel + 1, pos =>
    (if 2 * pos < q.size then
      if pri (q.d (2 * pos)) < pri (q.d pos) then false else subtreeIsValid pri q fuel (2 * pos)
    else true) &&
    (if 2 * pos + 1 < q.size then
      if pri (q.d (2 * pos + 1)) < pri (q.d pos) then false
      else subtreeIsValid pri q fuel (2 * pos + 1)
    else true)

/-- `pqueue_is_valid`. -/
def isValid (pri : α → ℕ) (q : PQueue α) : Bool := subtreeIsValid pri q q.size 1

/-- Slot `k` is below slot `pos`. -/
def Under (pos k : ℕ) : Prop := ∃ n, k / 2 ^ (n + 1) = pos

theorem under_iff {pos k : ℕ} :
    Under pos k ↔ k / 2 = pos ∨ Under (2 * pos) k ∨ Under (2 * pos + 1) k := by
  have hstep : ∀ n, k / 2 ^ (n + 2) = k / 2 ^ (n + 1) / 2 := fun n => by
    rw [pow_succ 2 (n + 1), Nat.div_div_eq_div_mul]
  constructor
  · rintro ⟨n, hn⟩
    cases n with
    | zero => exact .inl (by simpa using hn)
    | succ n =>
      rw [hstep] at hn
      have : k / 2 ^ (n + 1) = 2 * pos ∨ k / 2 ^ (n + 1) = 2 * pos + 1 := by omega
      exact .inr (this.imp (fun h => ⟨n, h⟩) fun h => ⟨n, h⟩)
  · rintro (h | ⟨n, hn⟩ | ⟨n, hn⟩)
    · exact ⟨0, by simpa using h⟩
    · exact ⟨n + 1, by rw [hstep, hn]; omega⟩
    · exact ⟨n + 1, by rw [hstep, hn]; omega⟩

theorem Under.lt {pos k : ℕ} (h : Under pos k) : 2 * pos ≤ k := by
  obtain ⟨n, hn⟩ := h
  rw [pow_succ, ← Nat.div_div_eq_div_mul] at hn
  have hle : k / 2 ^ n ≤ k := Nat.div_le_self _ _
  omega

/-- Every slot but the root is below the root. -/
theorem under_root {k : ℕ} (hk : 2 ≤ k) : Under 1 k := by
  induction k using Nat.strong_induction_on with
  | _ k ih =>
    by_cases h4 : k < 4
    · exact under_iff.mpr (.inl (by omega))
    · obtain ⟨n, hn⟩ := ih (k / 2) (by omega) (by omega)
      refine ⟨n + 1, ?_⟩
      rwa [pow_succ', ← Nat.div_div_eq_div_mul]

/-- The check of a subtree looks at every slot below its root. -/
theorem subtreeIsValid_iff (fuel : ℕ) (pos : ℕ) (hpos : 1 ≤ pos) (hfuel : q.size ≤ pos + fuel) :
    subtreeIsValid pri q fuel pos = true ↔
      ∀ k, Under pos k → k < q.size → pri (q.d (k / 2)) ≤ pri (q.d k) := by
  induction fuel generalizing pos with
  | zero =>
    refine ⟨fun _ k hk hks => ?_, fun _ => rfl⟩
    have := hk.lt
    omega
  | succ fuel ih =>
    -- the check of one child and of the slots below it
    have hchild : ∀ c, c / 2 = pos → 2 ≤ c → ((if c < q.size then
        if pri (q.d c) < pri (q.d pos) then false else subtreeIsValid pri q fuel c
        else true) = true ↔
          ∀ k, k = c ∨ Under c k → k < q.size → pri (q.d (k / 2)) ≤ pri (q.d k)) := by
      intro c hc hc2
      by_cases hcs : c < q.size
      · rw [if_pos hcs]
        by_cases hlt : pri (q.d c) < pri (q.d pos)
        · rw [if_pos hlt]
          refine ⟨fun h => absurd h Bool.false_ne_true, fun h => ?_⟩
          have := h c (.inl rfl) hcs
          rw [hc] at this
          omega
        · rw [if_neg hlt, ih c (by omega) (by omega)]
          refine ⟨fun h k hk hks => ?_, fun h k hk hks => h k (.inr hk) hks⟩
          rcases hk with rfl | hk
          · rw [hc]
            exact not_lt.mp hlt
          · exact h k hk hks
      · rw [if_neg hcs]
        refine ⟨fun _ k hk hks => ?_, fun _ => rfl⟩
        rcases hk with rfl | hk
        · exact absurd hks hcs
        · have := hk.lt
          omega
    rw [subtreeIsValid, Bool.and_eq_true, hchild (2 * pos) (by omega) (by omega),
      hchild (2 * pos + 1) (by omega) (by omega)]
    constructor
    · rintro ⟨hl, hr⟩ k hk hks
      rcases under_iff.mp hk with h | h | h
      · have : k = 2 * pos ∨ k = 2 * pos + 1 := by omega
        rcases this with h' | h'
        · exact hl k (.inl h') hks
        · exact hr k (.inl h') hks
      · exact hl k (.inr h) hks
      · exact hr k (.inr h) hks
    · intro h
      constructor
      · rintro k (hk | hk) hks
        · exact h k (under_iff.mpr (.inl (by omega))) hks
        · exact h k (under_iff.mpr (.inr (.inl hk))) hks
      · rintro k (hk | hk) hks
        · exact h k (under_iff.mpr (.inl (by omega))) hks
        · exact h k (under_iff.mpr (.inr (.inr hk))) hks

/-- `pqueue_is_valid` decides heap order. -/
theorem isValid_iff_ordered : isValid pri q = true ↔ Ordered pri q := by
  rw [isValid, subtreeIsValid_iff q.size 1 le_rfl (by omega)]
  constructor
  · intro h k hk hks
    exact h k (under_root hk) hks
  · intro h k hk hks
    exact h k hk.lt hks

/-- The queue with the last element in slot `i` too, and without the last slot. -/
def fill (q : PQueue α) (i : ℕ) : PQueue α :=
  { q with d := Function.update q.d i (q.d (q.size - 1)), size := q.size - 1 }

@[simp] theorem size_fill (q : PQueue α) (i : ℕ) : (q.fill i).size = q.size - 1 := rfl

variable [DecidableEq α]

/-- `pqueue_remove`. -/
def remove (pri : α → ℕ) (q : PQueue α) (x : α) : PQueue α :=
  let posn := q.pos x
  let q' := { q with d := Function.update q.d posn (q.d (q.size - 1)), size := q.size - 1 }
  if pri (q'.d posn) < pri x then bubbleUp pri q' posn else percolateDown pri q' posn

/-- The sift of a removal, from the slot of the removed element. -/
theorem remove_eq (pri : α → ℕ) (q : PQueue α) (x : α) : q.remove pri x =
    if pri (q.d (q.size - 1)) < pri x then
      bubbleLoop pri (q.d (q.size - 1)) (q.pos x) (q.pos x) (q.fill (q.pos x))
    else percolateLoop pri (q.d (q.size - 1)) (q.size - 1) (q.pos x) (q.fill (q.pos x)) := by
  simp only [remove, bubbleUp, percolateDown, fill, Function.update_self]

theorem pop_eq_fill (pri : α → ℕ) (q : PQueue α) :
    q.pop pri = percolateLoop pri (q.d (q.size - 1)) (q.size - 1) 1 (q.fill 1) := pop_eq pri q

/-- Where there is no child, `percolate_down` stops at once. -/
theorem percolateLoop_of_leaf {fuel : ℕ} (h : q.size ≤ 2 * i) :
    percolateLoop pri x fuel i q = q.place i x := by
  cases fuel with
  | zero => rfl
  | succ fuel =>
    have h0 : maxchild pri q i = 0 := if_pos h
    rw [percolateLoop]
    exact if_neg fun hc => hc.1 h0

/-- A removal keeps the order. -/
theorem Ordered.remove (h : Ordered pri q) (hi : 1 ≤ q.pos x) (his : q.pos x < q.size)
    (hd : q.d (q.pos x) = x) : Ordered pri (q.remove pri x) := by
  rw [remove_eq]
  set i := q.pos x with hidef
  set y := q.d (q.size - 1) with hy
  have hother : ∀ k, k ≠ i → (q.fill i).d k = q.d k := fun k hk => Function.update_of_ne hk _ _
  have hap : Apart pri (q.fill i) i := h.apart (Nat.sub_le _ _) fun k _ _ hk => by rw [hother k hk]
  by_cases hlast : i = q.size - 1
  · -- the last slot is not in use any more
    have hyx : y = x := by rw [hy, ← hlast, hd]
    rw [hyx, if_neg (lt_irrefl _), percolateLoop_of_leaf (by rw [size_fill]; omega)]
    intro k hk hks
    rw [size_place, size_fill] at hks
    rw [d_place_of_ne _ _ (by omega), d_place_of_ne _ _ (by omega), hother k (by omega),
      hother (k / 2) (by omega)]
    exact h k hk (by omega)
  · split
    · rename_i hyx
      refine UpOrder.bubbleLoop _ ⟨hap, fun c hc hcs => ?_⟩ hi (by rw [size_fill]; omega) le_rfl
      rw [size_fill] at hcs
      rw [hother c (by omega)]
      have hold := h c (by omega) (by omega)
      rw [hc, hd] at hold
      exact hyx.le.trans hold
    · rename_i hyx
      refine DownOrder.percolateLoop _ ⟨hap, fun h2 => ?_⟩ hi (by rw [size_fill]; omega)
        (by rw [size_fill]; omega)
      rw [hother _ (by omega)]
      have hold := h i h2 his
      rw [hd] at hold
      exact hold.trans (not_lt.mp hyx)

end PQueue
