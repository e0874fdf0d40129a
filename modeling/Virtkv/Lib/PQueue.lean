import Mathlib.Logic.Function.Basic
import Mathlib.Data.Finset.Card
import Mathlib.Order.Interval.Finset.Nat

/-!
# An indexed binary heap

The array heap of `pqueue.c` over arbitrary elements: slots are numbered from 1,
`size` is the first unused slot, and every element knows its slot through `pos`.
Priorities are a function of the elements, the smallest one is at the top. The
sifts move a hole instead of swapping, as the source does.

## Main results

- `Ok.insert`, `Ok.pop`, `Ok.changePriority` — the operations keep the positions right
  and change the stored elements as expected
- `Ok.size_le` — a queue of numbers below `n` has at most `n` elements
-/

/-- A heap array with the positions of its elements. -/
structure PQueue (α : Type) where
  d : ℕ → α
  size : ℕ
  pos : α → ℕ

namespace PQueue

variable {α : Type} [DecidableEq α]

/-- `q->d[i] = x; setpos(x, i)`. -/
def place (q : PQueue α) (i : ℕ) (x : α) : PQueue α :=
  { q with d := Function.update q.d i x, pos := Function.update q.pos x i }

/-- The loop of `bubble_up`: the hole is at `i`, the moving element is `x`. -/
def bubbleLoop (pri : α → ℕ) (x : α) : ℕ → ℕ → PQueue α → PQueue α
  | 0, i, q => q.place i x
  | fuel + 1, i, q =>
    if 1 < i ∧ pri x < pri (q.d (i / 2)) then
      bubbleLoop pri x fuel (i / 2) (q.place i (q.d (i / 2)))
    else q.place i x

/-- `bubble_up`. -/
def bubbleUp (pri : α → ℕ) (q : PQueue α) (i : ℕ) : PQueue α :=
  bubbleLoop pri (q.d i) i i q

/-- `maxchild`: the smaller child, or 0. -/
def maxchild (pri : α → ℕ) (q : PQueue α) (i : ℕ) : ℕ :=
  if q.size ≤ 2 * i then 0
  else if 2 * i + 1 < q.size ∧ pri (q.d (2 * i + 1)) < pri (q.d (2 * i)) then 2 * i + 1
  else 2 * i

/-- The loop of `percolate_down`. -/
def percolateLoop (pri : α → ℕ) (x : α) : ℕ → ℕ → PQueue α → PQueue α
  | 0, i, q => q.place i x
  | fuel + 1, i, q =>
    let c := maxchild pri q i
    if c ≠ 0 ∧ pri (q.d c) < pri x then percolateLoop pri x fuel c (q.place i (q.d c))
    else q.place i x

/-- `percolate_down`. -/
def percolateDown (pri : α → ℕ) (q : PQueue α) (i : ℕ) : PQueue α :=
  percolateLoop pri (q.d i) q.size i q

/-- `pqueue_insert`. -/
def insert (pri : α → ℕ) (q : PQueue α) (x : α) : PQueue α :=
  bubbleUp pri { q with d := Function.update q.d q.size x, size := q.size + 1 } q.size

/-- `pqueue_change_priority`, after the priority was set: `lower` says that the new
priority is smaller than the old one. -/
def changePriority (pri : α → ℕ) (q : PQueue α) (lower : Bool) (x : α) : PQueue α :=
  if lower then bubbleUp pri q (q.pos x) else percolateDown pri q (q.pos x)

/-- `pqueue_peek`. -/
def peek (q : PQueue α) : Option α := if q.size = 1 then none else some (q.d 1)

/-- `pqueue_pop` of a heap that is not empty. -/
def pop (pri : α → ℕ) (q : PQueue α) : PQueue α :=
  percolateDown pri
    { q with d := Function.update q.d 1 (q.d (q.size - 1)), size := q.size - 1 } 1

/-! ### Sizes -/

/-- The elements, slot by slot. -/
def entries (q : PQueue α) : List α := (List.range (q.size - 1)).map fun i => q.d (i + 1)

omit [DecidableEq α] in
theorem length_entries (q : PQueue α) : q.entries.length = q.size - 1 := by
  rw [entries, List.length_map, List.length_range]

theorem size_bubbleLoop (pri : α → ℕ) (x : α) (fuel i : ℕ) (q : PQueue α) :
    (bubbleLoop pri x fuel i q).size = q.size := by
  induction fuel generalizing i q with
  | zero => rfl
  | succ fuel ih =>
    unfold bubbleLoop
    split
    · exact ih _ _
    · rfl

theorem size_percolateLoop (pri : α → ℕ) (x : α) (fuel i : ℕ) (q : PQueue α) :
    (percolateLoop pri x fuel i q).size = q.size := by
  induction fuel generalizing i q with
  | zero => rfl
  | succ fuel ih =>
    unfold percolateLoop
    dsimp only
    split
    · exact ih _ _
    · rfl

@[simp] theorem size_insert (pri : α → ℕ) (q : PQueue α) (x : α) :
    (q.insert pri x).size = q.size + 1 := size_bubbleLoop ..

@[simp] theorem size_changePriority (pri : α → ℕ) (q : PQueue α) (lower : Bool) (x : α) :
    (q.changePriority pri lower x).size = q.size := by
  unfold changePriority
  split
  · exact size_bubbleLoop ..
  · exact size_percolateLoop ..

/-! ### Positions -/

/-- Elements in the array know their slot, and an element with a position is there. -/
structure Ok (q : PQueue α) : Prop where
  size_pos : 1 ≤ q.size
  pos_d : ∀ i, 1 ≤ i → i < q.size → q.pos (q.d i) = i
  d_pos : ∀ x, q.pos x ≠ 0 → q.pos x < q.size ∧ q.d (q.pos x) = x

/-- Two queues hold the same elements. -/
def SameElems (q q' : PQueue α) : Prop :=
  q'.size = q.size ∧ ∀ x, q'.pos x ≠ 0 ↔ q.pos x ≠ 0

variable {q : PQueue α} {x : α} {i j : ℕ}

omit [DecidableEq α] in
theorem SameElems.trans {q' q'' : PQueue α} (h : SameElems q q') (h' : SameElems q' q'') :
    SameElems q q'' :=
  ⟨h'.1.trans h.1, fun x => (h'.2 x).trans (h.2 x)⟩

/-- Placing an element where it is changes nothing. -/
theorem Ok.place_self (h : q.Ok) (hi : 1 ≤ i) (his : i < q.size) : q.place i (q.d i) = q := by
  have hp : Function.update q.pos (q.d i) i = q.pos := by
    rw [Function.update_eq_self_iff]
    exact (h.pos_d i hi his).symm
  rw [place, Function.update_eq_self, hp]

/-- The element in slot `j` moves to the hole at `i`, and the hole to `j`. -/
theorem Ok.move (h : (q.place i x).Ok) (hi : 1 ≤ i) (his : i < q.size) (hj : 1 ≤ j)
    (hjs : j < q.size) (hij : j ≠ i) : ((q.place i (q.d j)).place j x).Ok ∧
      SameElems (q.place i x) ((q.place i (q.d j)).place j x) := by
  have hdj : (q.place i x).d j = q.d j := Function.update_of_ne hij _ _
  have hdi : (q.place i x).d i = x := Function.update_self _ _ _
  have hpx : (q.place i x).pos x = i := Function.update_self _ _ _
  have hpy : (q.place i x).pos (q.d j) = j := by
    rw [← hdj]
    exact h.pos_d j hj hjs
  have hyx : q.d j ≠ x := by
    rintro heq
    rw [heq, hpx] at hpy
    exact hij hpy.symm
  -- positions in the new queue
  have hnx : ((q.place i (q.d j)).place j x).pos x = j := Function.update_self _ _ _
  have hny : ((q.place i (q.d j)).place j x).pos (q.d j) = i := by
    show Function.update (Function.update q.pos (q.d j) i) x j (q.d j) = i
    rw [Function.update_of_ne hyx, Function.update_self]
  have hnz : ∀ z, z ≠ x → z ≠ q.d j →
      ((q.place i (q.d j)).place j x).pos z = (q.place i x).pos z := by
    intro z hzx hzy
    show Function.update (Function.update q.pos (q.d j) i) x j z = Function.update q.pos x i z
    rw [Function.update_of_ne hzx, Function.update_of_ne hzy, Function.update_of_ne hzx]
  have hdk : ∀ k, k ≠ i → k ≠ j →
      ((q.place i (q.d j)).place j x).d k = (q.place i x).d k := by
    intro k hki hkj
    show Function.update (Function.update q.d i (q.d j)) j x k = Function.update q.d i x k
    rw [Function.update_of_ne hkj, Function.update_of_ne hki, Function.update_of_ne hki]
  have hdj' : ((q.place i (q.d j)).place j x).d j = x := Function.update_self _ _ _
  have hdi' : ((q.place i (q.d j)).place j x).d i = q.d j := by
    show Function.update (Function.update q.d i (q.d j)) j x i = q.d j
    rw [Function.update_of_ne hij.symm, Function.update_self]
  refine ⟨⟨h.size_pos, fun k hk hks => ?_, fun z hz => ?_⟩, rfl, fun z => ?_⟩
  · by_cases hkj : k = j
    · rw [hkj, hdj', hnx]
    by_cases hki : k = i
    · rw [hki, hdi', hny]
    have hz := h.pos_d k hk hks
    rw [hdk k hki hkj, hnz, hz]
    · rintro heq
      rw [heq, hpx] at hz
      exact hki hz.symm
    · rintro heq
      rw [heq, hpy] at hz
      exact hkj hz.symm
  · by_cases hzx : z = x
    · rw [hzx, hnx]
      exact ⟨hjs, hdj'⟩
    by_cases hzy : z = q.d j
    · rw [hzy, hny]
      exact ⟨his, hdi'⟩
    rw [hnz z hzx hzy] at hz ⊢
    obtain ⟨hlt, hd⟩ := h.d_pos z hz
    refine ⟨hlt, ?_⟩
    rw [hdk, hd]
    · rintro heq
      rw [heq, hdi] at hd
      exact hzx hd.symm
    · rintro heq
      rw [heq, hdj] at hd
      exact hzy hd.symm
  · by_cases hzx : z = x
    · rw [hzx, hnx, hpx]
      omega
    by_cases hzy : z = q.d j
    · rw [hzy, hny, hpy]
      omega
    rw [hnz z hzx hzy]

theorem Ok.bubbleLoop (pri : α → ℕ) (fuel : ℕ) (h : (q.place i x).Ok) (hi : 1 ≤ i)
    (his : i < q.size) :
    (bubbleLoop pri x fuel i q).Ok ∧ SameElems (q.place i x) (bubbleLoop pri x fuel i q) := by
  induction fuel generalizing i q with
  | zero => exact ⟨h, rfl, fun _ => Iff.rfl⟩
  | succ fuel ih =>
    unfold PQueue.bubbleLoop
    split
    · rename_i hc
      obtain ⟨hm, hs⟩ := h.move hi his (j := i / 2) (by omega) (by omega) (by omega)
      obtain ⟨hok, hse⟩ := ih hm (by omega) (show i / 2 < q.size by omega)
      exact ⟨hok, hs.trans hse⟩
    · exact ⟨h, rfl, fun _ => Iff.rfl⟩

omit [DecidableEq α] in
theorem maxchild_cases (pri : α → ℕ) (q : PQueue α) (i : ℕ) (h : maxchild pri q i ≠ 0) :
    maxchild pri q i < q.size ∧ i < maxchild pri q i ∨ i = 0 := by
  unfold maxchild at h ⊢
  split at h
  · exact absurd rfl h
  · rename_i hs
    rw [if_neg hs]
    split
    · omega
    · omega

theorem Ok.percolateLoop (pri : α → ℕ) (fuel : ℕ) (h : (q.place i x).Ok) (hi : 1 ≤ i)
    (his : i < q.size) :
    (percolateLoop pri x fuel i q).Ok ∧ SameElems (q.place i x) (percolateLoop pri x fuel i q) := by
  induction fuel generalizing i q with
  | zero => exact ⟨h, rfl, fun _ => Iff.rfl⟩
  | succ fuel ih =>
    unfold PQueue.percolateLoop
    dsimp only
    split
    · rename_i hc
      rcases maxchild_cases pri q i hc.1 with ⟨hlt, hgt⟩ | h0
      · obtain ⟨hm, hs⟩ := h.move hi his (show 1 ≤ maxchild pri q i by omega) hlt (by omega)
        obtain ⟨hok, hse⟩ := ih hm (by omega) hlt
        exact ⟨hok, hs.trans hse⟩
      · omega
    · exact ⟨h, rfl, fun _ => Iff.rfl⟩

/-! ### Operations -/

/-- A change of priority keeps the elements. -/
theorem Ok.changePriority (pri : α → ℕ) (h : q.Ok) (hx : q.pos x ≠ 0) (lower : Bool) :
    (q.changePriority pri lower x).Ok ∧ SameElems q (q.changePriority pri lower x) := by
  have hlt := (h.d_pos x hx).1
  have hplace := h.place_self (Nat.pos_of_ne_zero hx) hlt
  unfold PQueue.changePriority
  split
  · have := Ok.bubbleLoop pri (q.pos x) (hplace.symm ▸ h)
      (Nat.pos_of_ne_zero hx) hlt
    rwa [hplace] at this
  · have := Ok.percolateLoop pri q.size (hplace.symm ▸ h)
      (Nat.pos_of_ne_zero hx) hlt
    rwa [hplace] at this

/-- An insertion adds an element that is not there. -/
theorem Ok.insert (pri : α → ℕ) (h : q.Ok) (hx : q.pos x = 0) : (q.insert pri x).Ok ∧
    (q.insert pri x).size = q.size + 1 ∧
    ∀ z, (q.insert pri x).pos z ≠ 0 ↔ q.pos z ≠ 0 ∨ z = x := by
  have hsz := h.size_pos
  set q1 : PQueue α := { q with d := Function.update q.d q.size x, size := q.size + 1 } with hq1
  have hd1 : q1.d q.size = x := Function.update_self _ _ _
  have hok : (q1.place q.size x).Ok := by
    refine ⟨by simp [place, hq1], fun k hk hks => ?_, fun z hz => ?_⟩
    · by_cases hkl : k = q.size
      · subst hkl
        simp [place]
      · have hks' : k < q.size := by
          simp only [place, hq1] at hks
          omega
        have hne : q.d k ≠ x := by
          intro heq
          have := h.pos_d k hk hks'
          rw [heq, hx] at this
          omega
        have hdk : (q1.place q.size x).d k = q.d k := by
          simp [place, hq1, hkl]
        rw [hdk]
        show Function.update q.pos x q.size (q.d k) = k
        rw [Function.update_of_ne hne]
        exact h.pos_d k hk hks'
    · by_cases hzx : z = x
      · subst hzx
        have hpz : (q1.place q.size z).pos z = q.size := Function.update_self _ _ _
        rw [hpz]
        exact ⟨Nat.lt_succ_self _, by simp [place]⟩
      · have hpz : (q1.place q.size x).pos z = q.pos z := Function.update_of_ne hzx _ _
        rw [hpz] at hz ⊢
        obtain ⟨hlt, hd⟩ := h.d_pos z hz
        refine ⟨Nat.lt_succ_of_lt hlt, ?_⟩
        have hne : q.pos z ≠ q.size := by omega
        simp [place, hq1, hne, hd]
  have hins : q.insert pri x = PQueue.bubbleLoop pri x q.size q.size q1 := by
    rw [PQueue.insert, bubbleUp, ← hq1, hd1]
  obtain ⟨hok', hsame⟩ := Ok.bubbleLoop pri q.size hok hsz
    (show q.size < q1.size from Nat.lt_succ_self _)
  rw [hins]
  refine ⟨hok', hsame.1, fun z => (hsame.2 z).trans ?_⟩
  by_cases hzx : z = x
  · subst hzx
    have hpz : (q1.place q.size z).pos z = q.size := Function.update_self _ _ _
    rw [hpz]
    exact ⟨fun _ => .inr rfl, fun _ => by omega⟩
  · have hpz : (q1.place q.size x).pos z = q.pos z := Function.update_of_ne hzx _ _
    rw [hpz]
    exact ⟨.inl, fun hz => hz.resolve_right hzx⟩

/-! ### Removal -/

/-- `x->pos = 0`. -/
def forget (q : PQueue α) (x : α) : PQueue α := { q with pos := Function.update q.pos x 0 }

/-- The element is in no slot. -/
def Absent (q : PQueue α) (x : α) : Prop := ∀ i, 1 ≤ i → i < q.size → q.d i ≠ x

/-- The position of an element that is inserted does not matter. -/
theorem bubbleLoop_forget (pri : α → ℕ) (fuel : ℕ) :
    bubbleLoop pri x fuel i (q.forget x) = bubbleLoop pri x fuel i q := by
  have hplace : ∀ (p : PQueue α) (k : ℕ), (p.forget x).place k x = p.place k x := by
    intro p k
    simp [place, forget]
  induction fuel generalizing i q with
  | zero => exact hplace q i
  | succ fuel ih =>
    unfold bubbleLoop
    by_cases hc : 1 < i ∧ pri x < pri (q.d (i / 2))
    · rw [if_pos hc, if_pos (show 1 < i ∧ pri x < pri ((q.forget x).d (i / 2)) from hc)]
      have hne : q.d (i / 2) ≠ x := fun he => absurd hc.2 (by rw [he]; exact lt_irrefl _)
      have hcomm : (q.forget x).place i ((q.forget x).d (i / 2)) =
          (q.place i (q.d (i / 2))).forget x := by
        unfold place forget
        simp only
        rw [Function.update_comm hne]
      rw [hcomm, ih]
    · rw [if_neg hc, if_neg (show ¬(1 < i ∧ pri x < pri ((q.forget x).d (i / 2))) from hc)]
      exact hplace q i

theorem insert_forget (pri : α → ℕ) (q : PQueue α) (x : α) :
    (q.forget x).insert pri x = q.insert pri x := by
  have hd : ∀ p : PQueue α,
      ({ p with d := Function.update p.d p.size x, size := p.size + 1 } : PQueue α).d p.size = x :=
    fun p => Function.update_self _ _ _
  unfold insert bubbleUp
  rw [hd, hd]
  exact bubbleLoop_forget pri q.size
    (q := { q with d := Function.update q.d q.size x, size := q.size + 1 })

/-- Sifting down does not touch an element that is in no slot. -/
theorem percolateLoop_forget (pri : α → ℕ) {y : α} (hy : y ≠ x) (fuel : ℕ) (hi : 1 ≤ i)
    (h : q.Absent x) :
    percolateLoop pri y fuel i (q.forget x) = (percolateLoop pri y fuel i q).forget x := by
  have hplace : ∀ (p : PQueue α) (k : ℕ) (z : α), z ≠ x →
      (p.forget x).place k z = (p.place k z).forget x := by
    intro p k z hz
    unfold place forget
    simp only
    rw [Function.update_comm hz]
  induction fuel generalizing i q with
  | zero => exact hplace q i y hy
  | succ fuel ih =>
    have hmax : maxchild pri (q.forget x) i = maxchild pri q i := rfl
    have hd : (q.forget x).d = q.d := rfl
    unfold percolateLoop
    simp only [hmax, hd]
    by_cases hc : maxchild pri q i ≠ 0 ∧ pri (q.d (maxchild pri q i)) < pri y
    · rw [if_pos hc, if_pos hc]
      rcases maxchild_cases pri q i hc.1 with ⟨hlt, hgt⟩ | h0
      · have hne : q.d (maxchild pri q i) ≠ x := h _ (by omega) hlt
        rw [hplace q i _ hne]
        refine ih (by omega) fun k hk hks => ?_
        show Function.update q.d i _ k ≠ x
        by_cases hki : k = i
        · rw [hki, Function.update_self]
          exact hne
        · rw [Function.update_of_ne hki]
          exact h k hk hks
      · omega
    · rw [if_neg hc, if_neg hc]
      exact hplace q i y hy

theorem pop_eq (pri : α → ℕ) (q : PQueue α) :
    q.pop pri = percolateLoop pri (q.d (q.size - 1)) (q.size - 1) 1
      { q with d := Function.update q.d 1 (q.d (q.size - 1)), size := q.size - 1 } := by
  unfold pop percolateDown
  simp only [Function.update_self]

/-- The only element leaves the queue. -/
theorem Ok.pop_one (pri : α → ℕ) (h : q.Ok) (h2 : q.size = 2) :
    ((q.pop pri).forget (q.d 1)).Ok ∧ (q.pop pri).size = q.size - 1 ∧ (q.pop pri).Absent (q.d 1) ∧
      ∀ z, ((q.pop pri).forget (q.d 1)).pos z ≠ 0 ↔ q.pos z ≠ 0 ∧ z ≠ q.d 1 := by
  set x := q.d 1 with hx
  set y := q.d (q.size - 1) with hy
  set q1 : PQueue α := { q with d := Function.update q.d 1 y, size := q.size - 1 } with hq1
  have hpop : q.pop pri = PQueue.percolateLoop pri y (q.size - 1) 1 q1 := pop_eq pri q
  have hyx : y = x := by rw [hy, hx, h2]
  have hlast : PQueue.percolateLoop pri y (q.size - 1) 1 q1 = q1.place 1 y := by
    have hf : q.size - 1 = 0 + 1 := by omega
    have hmax : maxchild pri q1 1 = 0 := by
      unfold maxchild
      exact if_pos (by show q.size - 1 ≤ 2 * 1; omega)
    rw [hf]
    unfold PQueue.percolateLoop
    simp only [hmax, ne_eq, not_true_eq_false, false_and, if_false]
  have hsize : (q1.place 1 y).size = 1 := by
    show q.size - 1 = 1
    omega
  have hpos : ∀ z, ((q1.place 1 y).forget x).pos z = if z = x then 0 else q.pos z := by
    intro z
    show Function.update (Function.update q.pos y 1) x 0 z = _
    rw [hyx]
    by_cases hz : z = x
    · rw [hz, Function.update_self, if_pos rfl]
    · rw [Function.update_of_ne hz, Function.update_of_ne hz, if_neg hz]
  have honly : ∀ z, q.pos z ≠ 0 → z = x := by
    intro z hz
    obtain ⟨hlt, hd⟩ := h.d_pos z hz
    have : q.pos z = 1 := by omega
    rw [this] at hd
    exact hd.symm
  rw [hpop, hlast]
  refine ⟨⟨hsize.ge, fun k hk hks => ?_, fun z hz => ?_⟩, by rw [hsize]; omega,
    fun k hk hks => ?_, fun z => ?_⟩
  · have : k < 1 := hsize ▸ hks
    omega
  · rw [hpos] at hz
    split at hz
    · exact absurd rfl hz
    · rename_i hzx
      exact absurd (honly z hz) hzx
  · rw [hsize] at hks
    omega
  · rw [hpos]
    split
    · rename_i hzx
      exact ⟨fun hc => absurd rfl hc, fun hc => absurd hzx hc.2⟩
    · rename_i hzx
      exact ⟨fun hc => ⟨hc, hzx⟩, fun hc => hc.1⟩

/-- The head leaves the queue, and the last element is sifted down from the top. -/
theorem Ok.pop_many (pri : α → ℕ) (h : q.Ok) (h2 : 2 < q.size) :
    ((q.pop pri).forget (q.d 1)).Ok ∧ (q.pop pri).size = q.size - 1 ∧ (q.pop pri).Absent (q.d 1) ∧
      ∀ z, ((q.pop pri).forget (q.d 1)).pos z ≠ 0 ↔ q.pos z ≠ 0 ∧ z ≠ q.d 1 := by
  set x := q.d 1 with hx
  set y := q.d (q.size - 1) with hy
  set q1 : PQueue α := { q with d := Function.update q.d 1 y, size := q.size - 1 } with hq1
  have hpx : q.pos x = 1 := h.pos_d 1 le_rfl (by omega)
  have hpop : q.pop pri = PQueue.percolateLoop pri y (q.size - 1) 1 q1 := pop_eq pri q
  have hpy : q.pos y = q.size - 1 := h.pos_d _ (by omega) (by omega)
  have hyx : y ≠ x := by
    intro he
    rw [he, hpx] at hpy
    omega
  have habs : q1.Absent x := by
    intro k hk hks
    have hks' : k < q.size - 1 := hks
    show Function.update q.d 1 y k ≠ x
    by_cases hk1 : k = 1
    · rw [hk1, Function.update_self]
      exact hyx
    · rw [Function.update_of_ne hk1]
      intro he
      have := h.pos_d k hk (by omega)
      rw [he, hpx] at this
      exact hk1 this.symm
  have hpz : ∀ z, ((q1.forget x).place 1 y).pos z =
      if z = y then 1 else if z = x then 0 else q.pos z := by
    intro z
    show Function.update (Function.update q.pos x 0) y 1 z = _
    by_cases hzy : z = y
    · rw [hzy, Function.update_self, if_pos rfl]
    · rw [Function.update_of_ne hzy, if_neg hzy]
      by_cases hzx : z = x
      · rw [hzx, Function.update_self, if_pos rfl]
      · rw [Function.update_of_ne hzx, if_neg hzx]
  have hdk : ∀ k, k ≠ 1 → ((q1.forget x).place 1 y).d k = q.d k := by
    intro k hk
    show Function.update (Function.update q.d 1 y) 1 y k = q.d k
    rw [Function.update_of_ne hk, Function.update_of_ne hk]
  have hd1' : ((q1.forget x).place 1 y).d 1 = y := by simp [place]
  have hok : ((q1.forget x).place 1 y).Ok := by
    refine ⟨by show 1 ≤ q.size - 1; omega, fun k hk hks => ?_, fun z hz => ?_⟩
    · have hks' : k < q.size - 1 := hks
      by_cases hk1 : k = 1
      · rw [hk1, hd1', hpz, if_pos rfl]
      · have hpk := h.pos_d k hk (by omega)
        rw [hdk k hk1, hpz, if_neg, if_neg, hpk]
        · intro he
          rw [he, hpx] at hpk
          exact hk1 hpk.symm
        · intro he
          rw [he, hpy] at hpk
          omega
    · by_cases hzy : z = y
      · rw [hzy, hpz, if_pos rfl]
        exact ⟨by show 1 < q.size - 1; omega, hd1'⟩
      · rw [hpz, if_neg hzy] at hz ⊢
        split at hz
        · exact absurd rfl hz
        · rename_i hzx
          rw [if_neg hzx]
          obtain ⟨hlt, hd⟩ := h.d_pos z hz
          have hne1 : q.pos z ≠ 1 := by
            intro he
            rw [he] at hd
            exact hzx hd.symm
          have hnel : q.pos z ≠ q.size - 1 := by
            intro he
            rw [he] at hd
            exact hzy hd.symm
          refine ⟨by show q.pos z < q.size - 1; omega, ?_⟩
          rw [hdk _ hne1, hd]
  obtain ⟨hok', hsame⟩ := Ok.percolateLoop pri (q.size - 1) hok le_rfl
    (show 1 < q.size - 1 by omega)
  have hforget := percolateLoop_forget pri hyx (q.size - 1) le_rfl habs
  rw [hforget] at hok' hsame
  rw [hpop]
  refine ⟨hok', hsame.1, fun k hk hks he => ?_, fun z => ?_⟩
  · have hks1 : k < ((PQueue.percolateLoop pri y (q.size - 1) 1 q1).forget x).size := hks
    have := hok'.pos_d k hk hks1
    rw [show ((PQueue.percolateLoop pri y (q.size - 1) 1 q1).forget x).d k = x from he] at this
    rw [show ((PQueue.percolateLoop pri y (q.size - 1) 1 q1).forget x).pos x = 0 from
      Function.update_self _ _ _] at this
    omega
  · rw [hsame.2 z, hpz]
    by_cases hzy : z = y
    · rw [if_pos hzy, hzy]
      refine ⟨fun _ => ⟨?_, hyx⟩, fun _ => one_ne_zero⟩
      rw [hpy]
      omega
    · rw [if_neg hzy]
      split
      · rename_i hzx
        exact ⟨fun hc => absurd rfl hc, fun hc => absurd hzx hc.2⟩
      · rename_i hzx
        exact ⟨fun hc => ⟨hc, hzx⟩, fun hc => hc.1⟩

/-- The head leaves the queue; its position is still to be cleared. -/
theorem Ok.pop (pri : α → ℕ) (h : q.Ok) (hne : q.size ≠ 1) :
    ((q.pop pri).forget (q.d 1)).Ok ∧ (q.pop pri).size = q.size - 1 ∧ (q.pop pri).Absent (q.d 1) ∧
      ∀ z, ((q.pop pri).forget (q.d 1)).pos z ≠ 0 ↔ q.pos z ≠ 0 ∧ z ≠ q.d 1 := by
  have hsz := h.size_pos
  by_cases h2 : q.size = 2
  · exact h.pop_one pri h2
  · exact h.pop_many pri (by omega)

theorem forget_comm (q : PQueue α) (x y : α) : (q.forget x).forget y = (q.forget y).forget x := by
  unfold forget
  by_cases hxy : x = y
  · rw [hxy]
  · simp only
    rw [Function.update_comm hxy]

/-- Taking out the head does not touch an element that is in no slot. -/
theorem pop_forget (pri : α → ℕ) (h : q.Absent x) (hs : 2 ≤ q.size) :
    (q.forget x).pop pri = (q.pop pri).forget x := by
  have hlast : q.d (q.size - 1) ≠ x := h _ (by omega) (by omega)
  rw [pop_eq, pop_eq]
  refine percolateLoop_forget pri hlast (q.size - 1) le_rfl ?_
    (q := { q with d := Function.update q.d 1 (q.d (q.size - 1)), size := q.size - 1 })
  intro k hk hks
  have hks : k < q.size - 1 := hks
  show Function.update q.d 1 _ k ≠ x
  by_cases hk1 : k = 1
  · rw [hk1, Function.update_self]
    exact hlast
  · rw [Function.update_of_ne hk1]
    exact h k hk (by omega)

/-- The head is taken out while another element waits to be put back. -/
theorem pop_insert (pri pri' : α → ℕ) (h : q.Absent x) (hs : 2 ≤ q.size) :
    ((q.pop pri).forget (q.d 1)).insert pri' x =
      (((q.forget x).pop pri).forget (q.d 1)).insert pri' x := by
  rw [pop_forget pri h hs, forget_comm, insert_forget]

/-- A queue of numbers below `n` has at most `n` elements. -/
theorem Ok.size_le {q : PQueue ℕ} (h : q.Ok) {n : ℕ} (hn : ∀ x, q.pos x ≠ 0 → x < n) :
    q.size ≤ n + 1 := by
  have hmaps : ∀ i ∈ Finset.Ico 1 q.size, q.d i ∈ Finset.range n := by
    intro i hi
    rw [Finset.mem_Ico] at hi
    rw [Finset.mem_range]
    refine hn _ ?_
    rw [h.pos_d i hi.1 hi.2]
    omega
  have hinj : Set.InjOn q.d (Finset.Ico 1 q.size : Finset ℕ) := by
    intro i hi j hj heq
    rw [Finset.mem_coe, Finset.mem_Ico] at hi hj
    rw [← h.pos_d i hi.1 hi.2, heq, h.pos_d j hj.1 hj.2]
  have hcard := Finset.card_le_card_of_injOn _ hmaps hinj
  rw [Nat.card_Ico, Finset.card_range] at hcard
  omega

end PQueue
