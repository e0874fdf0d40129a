import Virtkv.Pqueue.Valid
import Mathlib.Data.Set.Card

/-!
# A priority queue over whole runs

What a queue is for: a finite map from the queued elements to their priorities, from which an
element of least priority can be taken. `Run` are the runs of the calls of `pqueue.h` with the
map next to the array. The positions of elements that are not queued are left as they are, as
`pqueue_pop` and `pqueue_remove` leave them.

## Main results

- `Run.serves` — in every run the array is valid and answers for the map
-/

namespace PQueue

variable {α : Type} {pri : α → ℕ} {q : PQueue α} {x : α} {i j : ℕ} {s : Set α}

/-! ### The stored elements -/

/-- The slots in use hold the elements of `s`, each once and with its position. -/
structure Stores (q : PQueue α) (s : Set α) : Prop where
  size_pos : 1 ≤ q.size
  slot : ∀ k, 1 ≤ k → k < q.size → q.d k ∈ s ∧ q.pos (q.d k) = k
  mem : ∀ x ∈ s, ∃ k, 1 ≤ k ∧ k < q.size ∧ q.d k = x

/-- A queued element is where its position says. -/
theorem Stores.pos (h : Stores q s) (hx : x ∈ s) :
    1 ≤ q.pos x ∧ q.pos x < q.size ∧ q.d (q.pos x) = x := by
  obtain ⟨k, hk, hks, rfl⟩ := h.mem x hx
  rw [(h.slot k hk hks).2]
  exact ⟨hk, hks, rfl⟩

/-- Another element is in another slot. -/
theorem Stores.ne_pos (h : Stores q s) (hx : x ∈ s) {k : ℕ} (hk : q.d k ≠ x) : k ≠ q.pos x := by
  rintro rfl
  exact hk (h.pos hx).2.2

/-- No element has two slots. -/
theorem Stores.d_eq_iff (h : Stores q s) (hi : 1 ≤ i) (his : i < q.size) :
    q.d i = x ↔ x ∈ s ∧ i = q.pos x := by
  constructor
  · rintro rfl
    exact ⟨(h.slot i hi his).1, (h.slot i hi his).2.symm⟩
  · rintro ⟨hx, rfl⟩
    exact (h.pos hx).2.2

/-- There are as many elements as slots in use. -/
theorem Stores.ncard (h : Stores q s) : s.ncard = q.size - 1 := by
  have himage : s = q.d '' (Finset.Ico 1 q.size : Finset ℕ) := by
    ext x
    rw [Set.mem_image]
    constructor
    · intro hx
      obtain ⟨k, hk, hks, hd⟩ := h.mem x hx
      exact ⟨k, Finset.mem_coe.mpr (Finset.mem_Ico.mpr ⟨hk, hks⟩), hd⟩
    · rintro ⟨k, hk, rfl⟩
      rw [Finset.mem_coe, Finset.mem_Ico] at hk
      exact (h.slot k hk.1 hk.2).1
  have hinj : Set.InjOn q.d (Finset.Ico 1 q.size : Finset ℕ) := by
    intro k hk k' hk' heq
    rw [Finset.mem_coe, Finset.mem_Ico] at hk hk'
    rw [← (h.slot k hk.1 hk.2).2, heq, (h.slot k' hk'.1 hk'.2).2]
  rw [himage, hinj.ncard_image, Set.ncard_coe_finset, Nat.card_Ico]

variable [DecidableEq α]

theorem Stores.place_self (h : Stores q s) (hx : x ∈ s) : q.place (q.pos x) x = q := by
  have hd : Function.update q.d (q.pos x) x = q.d :=
    Function.update_eq_self_iff.mpr (h.pos hx).2.2.symm
  rw [place, hd, Function.update_eq_self]

/-- The element in slot `j` moves to the hole at `i`, and the hole to `j`. -/
theorem Stores.move (h : Stores (q.place i x) s) (hi : 1 ≤ i) (his : i < q.size) (hj : 1 ≤ j)
    (hjs : j < q.size) (hij : j ≠ i) : Stores ((q.place i (q.d j)).place j x) s := by
  have hdj : (q.place i x).d j = q.d j := d_place_of_ne q x hij
  have hxi := h.slot i hi his
  rw [d_place_self] at hxi
  have hyj := h.slot j hj hjs
  rw [hdj] at hyj
  have hyx : q.d j ≠ x := by
    intro heq
    rw [heq, hxi.2] at hyj
    exact hij hyj.2.symm
  -- slots and positions of the new queue
  have hd : ∀ k, ((q.place i (q.d j)).place j x).d k =
      if k = j then x else if k = i then q.d j else q.d k := fun k => by
    simp only [place, Function.update_apply]
  have hpos : ∀ z, ((q.place i (q.d j)).place j x).pos z =
      if z = x then j else if z = q.d j then i else q.pos z := fun z => by
    simp only [place, Function.update_apply]
  have hold : ∀ k, 1 ≤ k → k < q.size → k ≠ i → k ≠ j →
      q.d k ∈ s ∧ q.pos (q.d k) = k ∧ q.d k ≠ x ∧ q.d k ≠ q.d j := by
    intro k hk hks hki hkj
    have hslot := h.slot k hk hks
    rw [d_place_of_ne q x hki] at hslot
    have hne : q.d k ≠ x := by
      intro heq
      rw [heq, hxi.2] at hslot
      exact hki hslot.2.symm
    have hne' : q.d k ≠ q.d j := by
      intro heq
      rw [heq, hyj.2] at hslot
      exact hkj hslot.2.symm
    have hp : (q.place i x).pos (q.d k) = q.pos (q.d k) := Function.update_of_ne hne _ _
    exact ⟨hslot.1, hp ▸ hslot.2, hne, hne'⟩
  refine ⟨h.size_pos, fun k hk hks => ?_, fun z hz => ?_⟩
  · rw [hd]
    by_cases hkj : k = j
    · rw [if_pos hkj, hpos, if_pos rfl]
      exact ⟨hxi.1, hkj.symm⟩
    rw [if_neg hkj]
    by_cases hki : k = i
    · rw [if_pos hki, hpos, if_neg hyx, if_pos rfl]
      exact ⟨hyj.1, hki.symm⟩
    rw [if_neg hki, hpos]
    obtain ⟨hmem, hp, hne, hne'⟩ := hold k hk hks hki hkj
    rw [if_neg hne, if_neg hne']
    exact ⟨hmem, hp⟩
  · obtain ⟨k, hk, hks, hdk⟩ := h.mem z hz
    by_cases hki : k = i
    · subst hki
      rw [d_place_self] at hdk
      exact ⟨j, hj, hjs, by rw [hd, if_pos rfl, hdk]⟩
    rw [d_place_of_ne q x hki] at hdk
    by_cases hkj : k = j
    · subst hkj
      exact ⟨i, hi, his, by rw [hd, if_neg (Ne.symm hij), if_pos rfl, hdk]⟩
    · exact ⟨k, hk, hks, by rw [hd, if_neg hkj, if_neg hki, hdk]⟩

theorem Stores.bubbleLoop (pri : α → ℕ) (fuel : ℕ) (h : Stores (q.place i x) s) (hi : 1 ≤ i)
    (his : i < q.size) : Stores (bubbleLoop pri x fuel i q) s := by
  induction fuel generalizing i q with
  | zero => exact h
  | succ fuel ih =>
    rw [PQueue.bubbleLoop]
    split
    · exact ih (h.move hi his (by omega) (by omega) (by omega)) (by omega)
        (by rw [size_place]; omega)
    · exact h

theorem Stores.percolateLoop (pri : α → ℕ) (fuel : ℕ) (h : Stores (q.place i x) s) (hi : 1 ≤ i)
    (his : i < q.size) : Stores (percolateLoop pri x fuel i q) s := by
  induction fuel generalizing i q with
  | zero => exact h
  | succ fuel ih =>
    rw [PQueue.percolateLoop]
    split
    · rename_i hc
      obtain ⟨hpar, hlt, -⟩ := maxchild_spec hc.1
      exact ih (h.move hi his (by omega) hlt (by omega)) (by omega) hlt
    · exact h

/-! ### Calls -/

theorem Stores.insert (pri : α → ℕ) (h : Stores q s) (hx : x ∉ s) :
    Stores (q.insert pri x) (s ∪ {x}) := by
  have hs := h.size_pos
  rw [PQueue.insert, bubbleUp]
  set q1 : PQueue α := { q with d := Function.update q.d q.size x, size := q.size + 1 } with hq1
  have hx1 : q1.d q.size = x := Function.update_self _ _ _
  rw [hx1]
  apply Stores.bubbleLoop pri q.size _ hs (Nat.lt_succ_self _)
  have hd : ∀ k, k ≠ q.size → (q1.place q.size x).d k = q.d k := by
    intro k hk
    rw [d_place_of_ne _ _ hk]
    exact Function.update_of_ne hk _ _
  refine ⟨Nat.le_add_left _ _, fun k hk hks => ?_, fun z hz => ?_⟩
  · change k < q.size + 1 at hks
    by_cases hkl : k = q.size
    · rw [hkl, d_place_self]
      exact ⟨.inr rfl, Function.update_self _ _ _⟩
    · obtain ⟨hmem, hp⟩ := h.slot k hk (by omega)
      rw [hd k hkl]
      refine ⟨.inl hmem, ?_⟩
      change Function.update q.pos x q.size (q.d k) = k
      rwa [Function.update_of_ne]
      rintro rfl
      exact hx hmem
  · rcases hz with hz | rfl
    · obtain ⟨k, hk, hks, hdk⟩ := h.mem z hz
      exact ⟨k, hk, Nat.lt_succ_of_lt hks, by rw [hd k hks.ne, hdk]⟩
    · exact ⟨q.size, hs, Nat.lt_succ_self _, d_place_self _ _ _⟩

theorem Stores.changePriority (pri : α → ℕ) (h : Stores q s) (hx : x ∈ s) (lower : Bool) :
    Stores (q.changePriority pri lower x) s := by
  obtain ⟨hi, his, hd⟩ := h.pos hx
  have hplace : Stores (q.place (q.pos x) x) s := by rwa [h.place_self hx]
  rw [PQueue.changePriority]
  split
  · rw [bubbleUp, hd]
    exact hplace.bubbleLoop pri _ hi his
  · rw [percolateDown, hd]
    exact hplace.percolateLoop pri _ hi his

/-- The slots other than the one that is filled are the same. -/
theorem d_fill_place_of_ne (q : PQueue α) (y : α) {k : ℕ} (hk : k ≠ i) :
    ((q.fill i).place i y).d k = q.d k := by
  rw [d_place_of_ne _ _ hk]
  exact Function.update_of_ne hk _ _

/-- The last element in place of another one. -/
theorem Stores.fill (h : Stores q s) (hx : x ∈ s) (hlast : q.pos x ≠ q.size - 1) :
    Stores ((q.fill (q.pos x)).place (q.pos x) (q.d (q.size - 1))) (s \ {x}) := by
  obtain ⟨hi, his, -⟩ := h.pos hx
  set i := q.pos x with hidef
  set y := q.d (q.size - 1) with hy
  obtain ⟨hys, hyp⟩ := h.slot (q.size - 1) (by omega) (by omega)
  rw [← hy] at hys hyp
  have hyx : y ≠ x := by
    intro heq
    rw [heq] at hyp
    exact hlast hyp
  refine ⟨by rw [size_place, size_fill]; omega, fun k hk hks => ?_, fun z hz => ?_⟩
  · rw [size_place, size_fill] at hks
    by_cases hki : k = i
    · rw [hki, d_place_self]
      exact ⟨⟨hys, hyx⟩, Function.update_self _ _ _⟩
    · obtain ⟨hmem, hp⟩ := h.slot k hk (by omega)
      rw [d_fill_place_of_ne q _ hki]
      refine ⟨⟨hmem, fun heq => ?_⟩, ?_⟩
      · rw [Set.mem_singleton_iff.mp heq] at hp
        exact hki hp.symm
      · change Function.update q.pos y i (q.d k) = k
        rw [Function.update_of_ne, hp]
        intro heq
        rw [heq, hyp] at hp
        omega
  · obtain ⟨k, hk, hks, hdk⟩ := h.mem z hz.1
    have hki : k ≠ i := h.ne_pos hx (by rw [hdk]; exact hz.2)
    by_cases hkl : k = q.size - 1
    · refine ⟨i, hi, by rw [size_place, size_fill]; omega, ?_⟩
      rw [d_place_self, hy, ← hkl, hdk]
    · refine ⟨k, hk, by rw [size_place, size_fill]; omega, ?_⟩
      rw [d_fill_place_of_ne q _ hki, hdk]

/-- The last element goes, whatever is written behind the slots in use. -/
theorem Stores.cut (h : Stores q s) (hx : x ∈ s) (hlast : q.pos x = q.size - 1) :
    Stores ((q.fill (q.pos x)).place (q.pos x) x) (s \ {x}) := by
  obtain ⟨hi, his, -⟩ := h.pos hx
  set i := q.pos x with hidef
  refine ⟨by rw [size_place, size_fill]; omega, fun k hk hks => ?_, fun z hz => ?_⟩
  · rw [size_place, size_fill] at hks
    obtain ⟨hmem, hp⟩ := h.slot k hk (by omega)
    have hne : q.d k ≠ x := by
      intro heq
      rw [heq, ← hidef] at hp
      omega
    rw [d_fill_place_of_ne q _ (show k ≠ i by omega)]
    refine ⟨⟨hmem, hne⟩, ?_⟩
    change Function.update q.pos x i (q.d k) = k
    rw [Function.update_of_ne hne, hp]
  · obtain ⟨k, hk, hks, hdk⟩ := h.mem z hz.1
    have hki : k ≠ i := h.ne_pos hx (by rw [hdk]; exact hz.2)
    refine ⟨k, hk, by rw [size_place, size_fill]; omega, ?_⟩
    rw [d_fill_place_of_ne q _ hki, hdk]

theorem Stores.remove (pri : α → ℕ) (h : Stores q s) (hx : x ∈ s) :
    Stores (q.remove pri x) (s \ {x}) := by
  obtain ⟨hi, his, hdx⟩ := h.pos hx
  rw [remove_eq]
  by_cases hlast : q.pos x = q.size - 1
  · have hyx : q.d (q.size - 1) = x := by rw [← hlast, hdx]
    rw [hyx, if_neg (lt_irrefl _), percolateLoop_of_leaf (by rw [size_fill]; omega)]
    exact h.cut hx hlast
  · have hfill := h.fill hx hlast
    split
    · exact hfill.bubbleLoop pri _ hi (by rw [size_fill]; omega)
    · exact hfill.percolateLoop pri _ hi (by rw [size_fill]; omega)

theorem Stores.pop (pri : α → ℕ) (h : Stores q s) (hx : q.d 1 = x) (hs : 1 < q.size) :
    Stores (q.pop pri) (s \ {x}) := by
  obtain ⟨hxs, hp⟩ := (h.d_eq_iff le_rfl hs).mp hx
  rw [pop_eq_fill]
  by_cases hlast : q.pos x = q.size - 1
  · have hyx : q.d (q.size - 1) = x := by rw [← hlast, ← hp, hx]
    rw [hyx, percolateLoop_of_leaf (by rw [size_fill]; omega)]
    have := h.cut hxs hlast
    rwa [← hp] at this
  · have hfill := h.fill hxs hlast
    rw [← hp] at hfill hlast
    exact hfill.percolateLoop pri _ le_rfl (by rw [size_fill]; omega)

/-! ### Runs -/

/-- The runs of the calls, with the priorities of the elements and the map of the queued ones.
A caller inserts what is not queued while there is room, changes and removes what is queued,
and sets the priority of other elements as it likes. -/
inductive Run (n : ℕ) : PQueue α → (α → ℕ) → (α → Option ℕ) → Prop where
  | init (d : ℕ → α) (pos pri : α → ℕ) : Run n { d := d, size := 1, pos := pos } pri fun _ => none
  | setpri {q pri m} (h : Run n q pri m) (x : α) (p : ℕ) (hx : m x = none) :
      Run n q (Function.update pri x p) m
  | insert {q pri m} (h : Run n q pri m) (x : α) (hx : m x = none) (hroom : q.size - 1 < n) :
      Run n (q.insert pri x) pri (Function.update m x (some (pri x)))
  | changePriority {q pri m} (h : Run n q pri m) (x : α) (p : ℕ) (hx : m x ≠ none) :
      Run n (q.changePriority (Function.update pri x p) (decide (p < pri x)) x)
        (Function.update pri x p) (Function.update m x (some p))
  | remove {q pri m} (h : Run n q pri m) (x : α) (hx : m x ≠ none) :
      Run n (q.remove pri x) pri (Function.update m x none)
  | pop {q pri m} (h : Run n q pri m) (x : α) (hx : q.peek = some x) :
      Run n (q.pop pri) pri (Function.update m x none)

/-- The queued elements of a map. -/
def queued (m : α → Option ℕ) : Set α := {x | m x ≠ none}

theorem queued_insert (m : α → Option ℕ) (x : α) (p : ℕ) :
    queued (Function.update m x (some p)) = queued m ∪ {x} := by
  ext z
  by_cases hz : z = x
  · subst hz
    exact ⟨fun _ => .inr rfl, fun _ => by simp [queued]⟩
  · simp [queued, hz]

theorem queued_remove (m : α → Option ℕ) (x : α) :
    queued (Function.update m x none) = queued m \ {x} := by
  ext z
  by_cases hz : z = x
  · simp [queued, hz]
  · simp [queued, hz]

omit [DecidableEq α] in
theorem peek_eq_some_iff : q.peek = some x ↔ q.size ≠ 1 ∧ q.d 1 = x := by
  unfold peek
  split
  · simp [*]
  · simp [*]

/-- The array keeps the elements of the map in heap order. -/
structure Models (q : PQueue α) (pri : α → ℕ) (m : α → Option ℕ) : Prop where
  stores : Stores q (queued m)
  ordered : Ordered pri q
  pri_eq : ∀ x p, m x = some p → pri x = p

namespace Models

variable {m : α → Option ℕ}

omit [DecidableEq α] in
theorem init (d : ℕ → α) (pos pri : α → ℕ) :
    Models { d := d, size := 1, pos := pos } pri fun _ => none where
  stores := by
    refine ⟨le_rfl, fun k hk hks => ?_, fun x hx => absurd rfl hx⟩
    change k < 1 at hks
    omega
  ordered k hk hks := by
    change k < 1 at hks
    omega
  pri_eq x p hp := by cases hp

theorem setpri (h : Models q pri m) (p : ℕ) (hx : m x = none) :
    Models q (Function.update pri x p) m := by
  have hne : ∀ z ∈ queued m, z ≠ x := fun z hz heq => hz (heq ▸ hx)
  refine ⟨h.stores, h.ordered.congr rfl fun k hk hks => ?_, fun z p' hz => ?_⟩
  · exact Function.update_of_ne (hne _ (h.stores.slot k hk hks).1) _ _
  · rw [Function.update_of_ne (hne z (by simp [queued, hz]))]
    exact h.pri_eq z p' hz

theorem insert (h : Models q pri m) (hx : m x = none) :
    Models (q.insert pri x) pri (Function.update m x (some (pri x))) := by
  refine ⟨?_, h.ordered.insert h.stores.size_pos x, fun z p hz => ?_⟩
  · rw [queued_insert]
    exact h.stores.insert pri fun hmem => hmem hx
  · by_cases hzx : z = x
    · subst hzx
      rw [Function.update_self] at hz
      exact Option.some.inj hz
    · rw [Function.update_of_ne hzx] at hz
      exact h.pri_eq z p hz

theorem changePriority (h : Models q pri m) (p : ℕ) (hx : m x ≠ none) :
    Models (q.changePriority (Function.update pri x p) (decide (p < pri x)) x)
      (Function.update pri x p) (Function.update m x (some p)) := by
  obtain ⟨hi, his, -⟩ := h.stores.pos hx
  refine ⟨?_, h.ordered.changePriority hi his fun k hk hks => ?_, fun z p' hz => ?_⟩
  · rw [queued_insert, Set.union_eq_self_of_subset_right (Set.singleton_subset_iff.mpr hx)]
    exact h.stores.changePriority _ hx _
  · rw [h.stores.d_eq_iff hk hks]
    exact and_iff_right hx
  · by_cases hzx : z = x
    · subst hzx
      rw [Function.update_self] at hz ⊢
      exact Option.some.inj hz
    · rw [Function.update_of_ne hzx] at hz ⊢
      exact h.pri_eq z p' hz

theorem update_none_le (m : α → Option ℕ) (x z : α) (p : ℕ)
    (hz : Function.update m x none z = some p) : m z = some p := by
  by_cases hzx : z = x
  · rw [hzx, Function.update_self] at hz
    cases hz
  · rwa [Function.update_of_ne hzx] at hz

theorem remove (h : Models q pri m) (hx : m x ≠ none) :
    Models (q.remove pri x) pri (Function.update m x none) := by
  obtain ⟨hi, his, hd⟩ := h.stores.pos hx
  refine ⟨?_, h.ordered.remove hi his hd, fun z p hz => ?_⟩
  · rw [queued_remove]
    exact h.stores.remove pri hx
  · exact h.pri_eq z p (update_none_le m x z p hz)

theorem pop (h : Models q pri m) (hx : q.peek = some x) :
    Models (q.pop pri) pri (Function.update m x none) := by
  obtain ⟨hne, hd⟩ := peek_eq_some_iff.mp hx
  have hs := h.stores.size_pos
  refine ⟨?_, h.ordered.pop hs, fun z p hz => ?_⟩
  · rw [queued_remove]
    exact h.stores.pop pri hd (by omega)
  · exact h.pri_eq z p (update_none_le m x z p hz)

end Models

/-- One call keeps the map, and so does a run. -/
theorem Run.models {n : ℕ} {m : α → Option ℕ} (h : Run n q pri m) : Models q pri m := by
  induction h with
  | init d pos pri => exact .init d pos pri
  | setpri _ x p hx ih => exact ih.setpri p hx
  | insert _ x hx _ ih => exact ih.insert hx
  | changePriority _ x p hx ih => exact ih.changePriority p hx
  | remove _ x hx ih => exact ih.remove hx
  | pop _ x hx ih => exact ih.pop hx

/-- A run stays inside the `n + 1` slots of `pqueue_init`. -/
theorem Run.size_le {n : ℕ} {m : α → Option ℕ} (h : Run n q pri m) : q.size ≤ n + 1 := by
  induction h with
  | init => exact Nat.le_add_left _ _
  | setpri _ _ _ _ ih => exact ih
  | insert _ _ _ hroom ih =>
    rw [size_insert]
    omega
  | changePriority _ _ _ _ ih => rwa [size_changePriority]
  | @remove q pri m _ x _ ih =>
    rw [remove_eq]
    split
    · rw [size_bubbleLoop, size_fill]
      omega
    · rw [size_percolateLoop, size_fill]
      omega
  | @pop q pri m _ x _ ih =>
    rw [pop_eq_fill, size_percolateLoop, size_fill]
    omega

/-- What the queue of a map answers: it is valid and holds the queued elements inside its
`n + 1` slots, `pqueue_peek` finds an element of least priority if there is one, and every
queued element is where its position says. -/
structure Serves (n : ℕ) (q : PQueue α) (pri : α → ℕ) (m : α → Option ℕ) : Prop where
  valid : isValid pri q = true
  room : q.size ≤ n + 1
  size : q.size - 1 = (queued m).ncard
  pri_eq : ∀ x p, m x = some p → pri x = p
  pos : ∀ x, m x ≠ none → 1 ≤ q.pos x ∧ q.pos x < q.size ∧ q.d (q.pos x) = x
  peek_none : q.peek = none ↔ ∀ x, m x = none
  peek_some : ∀ x, q.peek = some x → ∃ p, m x = some p ∧ ∀ y p', m y = some p' → p ≤ p'

/-- In every run the queue serves its map: it is valid, and what it finds at the top has the
least priority of the elements that were inserted and not taken out. -/
theorem Run.serves {n : ℕ} {m : α → Option ℕ} (h : Run n q pri m) : Serves n q pri m := by
  have hm := h.models
  have hst := hm.stores
  refine ⟨isValid_iff_ordered.mpr hm.ordered, h.size_le, hst.ncard.symm, hm.pri_eq,
    fun x hx => hst.pos hx, ?_, fun x hx => ?_⟩
  · constructor
    · intro hpeek x
      by_contra hx
      obtain ⟨hi, his, -⟩ := hst.pos hx
      unfold peek at hpeek
      rw [if_neg (by omega)] at hpeek
      cases hpeek
    · intro hnone
      unfold peek
      rw [if_pos]
      by_contra hs
      have hs1 := hst.size_pos
      exact (hst.slot 1 le_rfl (by omega)).1 (hnone _)
  · obtain ⟨hne, hd⟩ := peek_eq_some_iff.mp hx
    have hs1 := hst.size_pos
    have hmem := (hst.slot 1 le_rfl (by omega)).1
    rw [hd] at hmem
    obtain ⟨p, hp⟩ := Option.ne_none_iff_exists'.mp hmem
    refine ⟨p, hp, fun y p' hy => ?_⟩
    obtain ⟨hi, his, hdy⟩ := hst.pos (x := y) (by simp [queued, hy])
    have hle := hm.ordered.root_le hi his
    rwa [hd, hdy, hm.pri_eq x p hp, hm.pri_eq y p' hy] at hle

/-- An empty queue of numbers that are their own priorities. -/
def emptyQueue : PQueue ℕ := { d := fun _ => 0, size := 1, pos := fun _ => 0 }

/-- Three numbers go in, the middle one gets the least priority and is taken out, and the
largest one is removed. -/
theorem Run.serves_three :
    let q := ((emptyQueue.insert id 7).insert id 9).insert id 8
    let pri := Function.update id 8 2
    let m := Function.update (Function.update (Function.update (fun _ => none) 7 (some 7))
      9 (some 9)) 8 (some 8)
    Serves 3 (((q.changePriority pri true 8).pop pri).remove pri 9) pri
      (Function.update (Function.update (Function.update m 8 (some 2)) 8 none) 9 none) := by
  have h0 : Run 3 emptyQueue id fun _ => none := .init _ _ _
  have h3 := ((h0.insert 7 rfl (by decide)).insert 9 rfl (by decide)).insert 8 rfl (by decide)
  have h4 := h3.changePriority 8 2 (by decide)
  exact ((h4.pop 8 (by decide)).remove 9 (by decide)).serves

end PQueue
