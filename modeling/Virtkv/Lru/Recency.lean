import Virtkv.Lib.Recency
import Virtkv.Lru.Linked

/-!
# The LRU cache as a recency list

`LruSpec` says what the cache is for: it knows which items it has and when each was used last,
a set of a full cache drops the least recently used item, and `lru_cache_get_oldest` returns and
removes it. Every sequence of calls refines it, and the chain from head to tail is the recency
list.

## Main results

- `Represents.step`, `Represents.runAll` — one call, and a sequence of calls
- `runAll_isRecencyList` — the cache after any sequence of calls on a fresh one
- `Follows.get`, `Follows.set`, `Follows.remove`, `Follows.getOldest` — the ids from head to tail
  are the list that the append buffers are modelled with
-/

namespace Virtkv

open Outcome Recency

/-- The use of the items, and their ids. -/
structure LruSpec (α : Type) where
  usage : Usage α
  id : α → ℕ

namespace LruSpec

variable {α : Type} [DecidableEq α]

/-- No item is present. -/
def fresh (id : α → ℕ) : LruSpec α := { usage := Usage.empty, id := id }

/-- The calls that are allowed: an item that is set has a new id below `MAX_CAPACITY`, removed
ids are present, the assertion of `lru_cache_get` holds, and ids are only written while the
item is not present. -/
def Allows (s : LruSpec α) : LruOp α → Prop
  | .label x _ => x ∉ s.usage.present
  | .set x => s.id x < Lru.maxCapacity ∧ ∀ y ∈ s.usage.present, s.id y ≠ s.id x
  | .get i =>
    s.usage.present = ∅ ∨ Lru.maxCapacity ≤ i ∨ ∃ x ∈ s.usage.present, s.id x = i
  | .remove i => ∃ x ∈ s.usage.present, s.id x = i
  | .getOldest => True

/-- What a call does, and the item it returns. -/
inductive Step (capacity : ℕ) (s : LruSpec α) : LruOp α → Option α → LruSpec α → Prop where
  | label {x : α} {i : ℕ} :
    Step capacity s (.label x i) none { s with id := Function.update s.id x i }
  | set {x : α} : s.usage.present.card ≠ capacity →
    Step capacity s (.set x) none { s with usage := s.usage.use x }
  | setFull {x y : α} : s.usage.present.card = capacity → s.usage.Oldest y →
    Step capacity s (.set x) none { s with usage := (s.usage.discard y).use x }
  | get {x : α} : x ∈ s.usage.present →
    Step capacity s (.get (s.id x)) (some x) { s with usage := s.usage.use x }
  | getNone {i : ℕ} : (∀ x ∈ s.usage.present, s.id x ≠ i) → Step capacity s (.get i) none s
  | remove {x : α} : x ∈ s.usage.present →
    Step capacity s (.remove (s.id x)) none { s with usage := s.usage.discard x }
  | getOldest {x : α} : s.usage.Oldest x →
    Step capacity s .getOldest (some x) { s with usage := s.usage.discard x }
  | getOldestNone : s.usage.present = ∅ → Step capacity s .getOldest none s

/-- The calls one after the other, with the items they return. -/
inductive Steps (capacity : ℕ) :
    LruSpec α → List (LruOp α) → List (Option α) → LruSpec α → Prop where
  | nil {s : LruSpec α} : Steps capacity s [] [] s
  | cons {s t u : LruSpec α} {op : LruOp α} {ops : List (LruOp α)} {r : Option α}
      {rs : List (Option α)} :
    Step capacity s op r t → Steps capacity t ops rs u → Steps capacity s (op :: ops) (r :: rs) u

/-- Every call of the sequence is allowed when its turn comes. -/
def Legal (capacity : ℕ) : LruSpec α → List (LruOp α) → Prop
  | _, [] => True
  | s, op :: ops => s.Allows op ∧ ∀ r t, Step capacity s op r t → Legal capacity t ops

end LruSpec

namespace LruCache

variable {α : Type} [DecidableEq α] {c : LruCache α} {s : LruSpec α} {l : List α} {x : α}

/-- The chain of the cache is the recency list. -/
structure Represents (c : LruCache α) (s : LruSpec α) (l : List α) : Prop where
  holds : c.Holds l
  recent : s.usage.Lists l
  id : c.id = s.id

namespace Represents

variable {op : LruOp α}

omit [DecidableEq α] in
theorem init (c : LruCache α) (capacity : ℕ) (hzero : ∀ i < Lru.maxCapacity, c.items i = none) :
    (c.init capacity).Represents (.fresh c.id) [] :=
  ⟨.init hzero, .empty, rfl⟩

/-- The id of an item that is not present is written. -/
theorem label (h : c.Represents s l) (hx : x ∉ s.usage.present) (i : ℕ) :
    ({ c with id := Function.update c.id x i } : LruCache α).Represents
      { s with id := Function.update s.id x i } l := by
  have hne : ∀ y ∈ l, y ≠ x := fun y hy he => hx (he ▸ (h.recent.mem y).mp hy)
  have hid : ∀ y ∈ l, Function.update c.id x i y = c.id y := fun y hy =>
    Function.update_of_ne (hne y hy) _ _
  refine ⟨⟨⟨h.holds.linked.next, h.holds.linked.prev, h.holds.linked.nodup⟩, h.holds.size,
    h.holds.le_capacity, fun y hy => ?_, fun j hj y => ?_⟩, h.recent, by rw [h.id]⟩
  · show Function.update c.id x i y < _
    rw [hid y hy]
    exact h.holds.id_lt y hy
  · show c.items j = some y ↔ y ∈ l ∧ Function.update c.id x i y = j
    rw [h.holds.items j hj y]
    refine and_congr_right fun hy => ?_
    rw [hid y hy]

/-- `lru_cache_set`. -/
theorem set (h : c.Represents s l) (hcap : 2 ≤ c.capacity) (hid : s.id x < Lru.maxCapacity)
    (hnew : ∀ y ∈ s.usage.present, s.id y ≠ s.id x) :
    ∃ c' t l', c.set x = .ok c' ∧ s.Step c.capacity (.set x) none t ∧ c'.Represents t l' ∧
      c'.capacity = c.capacity := by
  have hfresh : ∀ y ∈ l, c.id y ≠ c.id x := fun y hy => by
    rw [h.id]
    exact hnew y ((h.recent.mem y).mp hy)
  have hnot : x ∉ l := fun hmem => hfresh x hmem rfl
  obtain ⟨c', hrun, hholds, hid', hcap'⟩ := h.holds.set hcap (by rwa [h.id]) hfresh
  have hcard := h.recent.card_eq
  by_cases hfull : l.length = c.capacity
  · rw [if_pos hfull] at hholds
    -- a full cache is not empty, so there is a least recently used item
    have hne : l ≠ [] := by
      rintro rfl
      rw [List.length_nil] at hfull
      omega
    have hold := h.recent.oldest_getLast (List.getLast?_eq_some_getLast hne)
    refine ⟨c', _, _, hrun, .setFull (hcard.trans hfull) hold, ⟨hholds, ?_, hid'.trans h.id⟩, hcap'⟩
    exact (h.recent.discard_oldest hold).use fun hmem => hnot (List.mem_of_mem_dropLast hmem)
  · rw [if_neg hfull] at hholds
    exact ⟨c', _, _, hrun, .set (by rwa [hcard]), ⟨hholds, h.recent.use hnot, hid'.trans h.id⟩, hcap'⟩

/-- `lru_cache_get`. -/
theorem get {i : ℕ} (h : c.Represents s l) (hop : s.Allows (.get i)) :
    ∃ r c' t l', c.get i = .ok (r, c') ∧ s.Step c.capacity (.get i) r t ∧ c'.Represents t l' ∧
      c'.capacity = c.capacity := by
  by_cases hpresent : ∃ x ∈ s.usage.present, s.id x = i
  · obtain ⟨x, hx, rfl⟩ := hpresent
    have hmem := (h.recent.mem x).mpr hx
    obtain ⟨c', hrun, hholds, hid', hcap'⟩ := h.holds.get hmem
    rw [h.id] at hrun
    exact ⟨_, c', _, _, hrun, .get hx, ⟨hholds, h.recent.reuse hmem, hid'.trans h.id⟩, hcap'⟩
  · have hnone : l = [] ∨ Lru.maxCapacity ≤ i := by
      rcases hop with hempty | hmax | hthere
      · refine .inl (List.eq_nil_iff_forall_not_mem.mpr fun x hx => ?_)
        have hin := (h.recent.mem x).mp hx
        rw [hempty] at hin
        exact Finset.notMem_empty x hin
      · exact .inr hmax
      · exact absurd hthere hpresent
    refine ⟨none, c, s, l, h.holds.get_none hnone, .getNone fun x hx he => ?_, h, rfl⟩
    exact hpresent ⟨x, hx, he⟩

/-- `lru_cache_remove`. -/
theorem remove (h : c.Represents s l) (hx : x ∈ s.usage.present) :
    ∃ c', c.remove (s.id x) = .ok c' ∧
      c'.Represents { s with usage := s.usage.discard x } (l.erase x) ∧
      c'.capacity = c.capacity := by
  obtain ⟨c', hrun, hholds, hid', hcap'⟩ := h.holds.remove ((h.recent.mem x).mpr hx)
  rw [h.id] at hrun
  exact ⟨c', hrun, ⟨hholds, h.recent.discard x, hid'.trans h.id⟩, hcap'⟩

/-- `lru_cache_get_oldest`. -/
theorem getOldest (h : c.Represents s l) :
    ∃ r c' t l', c.getOldest = .ok (r, c') ∧ s.Step c.capacity .getOldest r t ∧
      c'.Represents t l' ∧ c'.capacity = c.capacity := by
  rcases List.eq_nil_or_concat' l with rfl | ⟨l, x, rfl⟩
  · have hempty : s.usage.present = ∅ := by
      rw [← Finset.card_eq_zero, h.recent.card_eq, List.length_nil]
    exact ⟨none, c, s, [], h.holds.getOldest_nil, .getOldestNone hempty, h, rfl⟩
  · have hold := h.recent.oldest_getLast List.getLast?_concat
    obtain ⟨c', hrun, hholds, hid', hcap'⟩ := h.holds.getOldest
    have hrecent := h.recent.discard_oldest hold
    rw [List.dropLast_concat] at hrecent
    exact ⟨_, c', _, l, hrun, .getOldest hold, ⟨hholds, hrecent, hid'.trans h.id⟩, hcap'⟩

/-- An allowed call returns and does what it is meant to do. -/
theorem step (h : c.Represents s l) (hcap : 2 ≤ c.capacity) (hop : s.Allows op) :
    ∃ r c' t l', op.run c = .ok (r, c') ∧ s.Step c.capacity op r t ∧ c'.Represents t l' ∧
      c'.capacity = c.capacity := by
  cases op with
  | label x i => exact ⟨none, _, _, l, rfl, .label, h.label hop i, rfl⟩
  | set x =>
    obtain ⟨c', t, l', hrun, hstep, h', hcap'⟩ := h.set hcap hop.1 hop.2
    refine ⟨none, c', t, l', ?_, hstep, h', hcap'⟩
    simp only [LruOp.run, hrun, ok_bind]
    rfl
  | get i => exact h.get hop
  | remove i =>
    obtain ⟨x, hx, rfl⟩ := hop
    obtain ⟨c', hrun, h', hcap'⟩ := h.remove hx
    refine ⟨none, c', _, _, ?_, .remove hx, h', hcap'⟩
    simp only [LruOp.run, hrun, ok_bind]
    rfl
  | getOldest => exact h.getOldest

/-- So does every sequence of allowed calls. -/
theorem runAll {ops : List (LruOp α)} (h : c.Represents s l) (hcap : 2 ≤ c.capacity)
    (hops : s.Legal c.capacity ops) :
    ∃ rs c' t l', LruOp.runAll c ops = .ok (rs, c') ∧ s.Steps c.capacity ops rs t ∧
      c'.Represents t l' ∧ c'.capacity = c.capacity := by
  induction ops generalizing c s l with
  | nil => exact ⟨[], c, s, l, rfl, .nil, h, rfl⟩
  | cons op ops ih =>
    obtain ⟨r, c1, s1, l1, hrun, hstep, h1, hcap1⟩ := h.step hcap hops.1
    have hrest := hops.2 r s1 hstep
    rw [← hcap1] at hrest
    obtain ⟨rs, c2, s2, l2, hruns, hsteps, h2, hcap2⟩ := ih h1 (by rwa [hcap1]) hrest
    rw [hcap1] at hsteps hcap2
    refine ⟨r :: rs, c2, s2, l2, ?_, .cons hstep hsteps, h2, hcap2⟩
    simp only [LruOp.runAll, hrun, hruns, ok_bind]
    rfl

end Represents

/-- The chain from head to tail has the items that are present, from the most to the least
recently used; the links back, the array and the counter go with it. -/
structure IsRecencyList (c : LruCache α) (capacity : ℕ) (s : LruSpec α) (l : List α) : Prop where
  chain : Links.Run c.next c.head l
  last : c.tail = l.getLast?
  nodup : l.Nodup
  present : ∀ x, x ∈ l ↔ x ∈ s.usage.present
  sorted : l.Pairwise fun x y => s.usage.last y < s.usage.last x
  inverse : ∀ x ∈ l, ∀ y ∈ l, c.next x = some y ↔ c.prev y = some x
  first : ∀ x, c.head = some x → c.prev x = none
  items : ∀ i < Lru.maxCapacity, c.items i ≠ none ↔ ∃ x ∈ s.usage.present, s.id x = i
  size : c.size = l.length
  le_capacity : c.size ≤ capacity

omit [DecidableEq α] in
theorem Represents.isRecencyList (h : c.Represents s l) : c.IsRecencyList c.capacity s l where
  chain := h.holds.linked.next
  last := h.holds.linked.tail_eq
  nodup := h.holds.linked.nodup
  present := h.recent.mem
  sorted := h.recent.sorted
  inverse _ hx _ hy := h.holds.linked.next_iff_prev hx hy
  first x hx := by
    have hlinked := h.holds.linked
    rw [hlinked.head_eq] at hx
    obtain ⟨l, rfl⟩ := List.head?_eq_some_iff.mp hx
    exact hlinked.prev_eq (a := [])
  items i hi := by
    rw [h.holds.items_ne_none hi, h.id]
    simp only [h.recent.mem]
  size := h.holds.size
  le_capacity := by
    rw [h.holds.size]
    exact h.holds.le_capacity

/-- The cache after every sequence of allowed calls on a fresh one whose array is zeroed. -/
theorem runAll_isRecencyList {c : LruCache α} {capacity : ℕ} (hcap : 2 ≤ capacity)
    (hzero : ∀ i < Lru.maxCapacity, c.items i = none) {ops : List (LruOp α)}
    (hops : (LruSpec.fresh c.id).Legal capacity ops) :
    ∃ rs c' s l, LruOp.runAll (c.init capacity) ops = .ok (rs, c') ∧
      (LruSpec.fresh c.id).Steps capacity ops rs s ∧ c'.IsRecencyList capacity s l := by
  obtain ⟨rs, c', s, l, hrun, hsteps, h, hcap'⟩ :=
    (Represents.init c capacity hzero).runAll hcap hops
  have hlist := h.isRecencyList
  rw [hcap'] at hlist
  exact ⟨rs, c', s, l, hrun, hsteps, hlist⟩

/-- A fresh cache of 4 whose items are numbers, with themselves as ids. -/
def blankFour : LruCache ℕ where
  id x := x
  prev _ := none
  next _ := none
  head := none
  tail := none
  capacity := 0
  size := 0
  items _ := none

/-- An item is set, got, and returned as the oldest one. -/
theorem runAll_isRecencyList_oneItem :
    ∃ rs c' s l, LruOp.runAll (blankFour.init 4) [.set 3, .get 3, .getOldest] = .ok (rs, c') ∧
      (LruSpec.fresh blankFour.id).Steps 4 [.set 3, .get 3, .getOldest] rs s ∧
      c'.IsRecencyList 4 s l := by
  refine runAll_isRecencyList (by decide) (fun _ _ => rfl) ⟨⟨by decide, fun y hy => ?_⟩, ?_⟩
  · exact absurd hy (Finset.notMem_empty y)
  · rintro r t hset
    refine ⟨.inr (.inr ⟨3, ?_⟩), fun _ _ _ => ⟨trivial, fun _ _ _ => trivial⟩⟩
    cases hset with
    | set hroom => exact ⟨Usage.mem_use.mpr (.inl rfl), rfl⟩
    | setFull hfull hold => exact absurd hold.1 (Finset.notMem_empty _)

/-- A get of an id that is not present stops at an assertion, if the cache is not empty. -/
theorem runAll_get_missing :
    blankFour.id 3 < Lru.maxCapacity ∧ blankFour.id 5 < Lru.maxCapacity ∧
      LruOp.runAll (blankFour.init 4) [.set 3, .get 5] = .error .bug ∧
      ¬∃ rs c' s l, LruOp.runAll (blankFour.init 4) [.set 3, .get 5] = .ok (rs, c') ∧
        c'.IsRecencyList 4 s l := by
  have hrun : LruOp.runAll (blankFour.init 4) [.set 3, .get 5] = .error .bug := rfl
  refine ⟨by decide, by decide, hrun, ?_⟩
  rintro ⟨rs, c', s, l, hok, -⟩
  rw [hrun] at hok
  cases hok

/-! ### The list of ids -/

/-- The ids from head to tail. -/
def Follows (c : LruCache α) (ids : List ℕ) : Prop := ∃ l, c.Holds l ∧ l.map c.id = ids

namespace Follows

variable {ids ids' : List ℕ} {i : ℕ}

/-- The ids behind an item that is taken out. -/
theorem map_erase (h : c.Holds l) (hx : x ∈ l) :
    (l.erase x).map c.id = (l.map c.id).erase (c.id x) := by
  obtain ⟨a, b, rfl⟩ := List.append_of_mem hx
  have hnot := h.linked.notMem_front
  have hid : c.id x ∉ a.map c.id := by
    intro hmem
    obtain ⟨y, hy, he⟩ := List.mem_map.mp hmem
    exact hnot (h.id_inj (List.mem_append_left _ hy) hx he ▸ hy)
  rw [List.erase_append_right _ hnot, List.erase_cons_head, List.map_append, List.map_append,
    List.erase_append_right _ hid, List.map_cons, List.erase_cons_head]

theorem get (h : c.Follows ids) (hget : Lru.get ids i = .ok ids') :
    ∃ r c', c.get i = .ok (r, c') ∧ c'.Follows ids' := by
  obtain ⟨l, hl, rfl⟩ := h
  rw [Lru.get] at hget
  split at hget
  · rename_i hnone
    cases hget
    exact ⟨none, c, hl.get_none (hnone.imp_left List.map_eq_nil_iff.mp), l, hl, rfl⟩
  · simp only [bind_eq_ok, ensure_eq_ok] at hget
    obtain ⟨-, hmem, hmove⟩ := hget
    cases hmove
    obtain ⟨x, hx, rfl⟩ := List.mem_map.mp hmem
    obtain ⟨c', hrun, hholds, hid, -⟩ := hl.get hx
    refine ⟨_, c', hrun, _, hholds, ?_⟩
    rw [hid, List.map_cons, map_erase hl hx]

theorem set (h : c.Follows ids) (hcap : c.capacity = Lru.capacity)
    (hid : c.id x < Lru.maxCapacity) (hnew : c.id x ∉ ids) :
    ∃ c', c.set x = .ok c' ∧ c'.Follows (Lru.set ids (c.id x)) := by
  obtain ⟨l, hl, rfl⟩ := h
  have htwo : 2 ≤ c.capacity := by
    rw [hcap]
    decide
  obtain ⟨c', hrun, hholds, hid', -⟩ := hl.set htwo hid fun y hy he =>
    hnew (he ▸ List.mem_map_of_mem hy)
  refine ⟨c', hrun, _, hholds, ?_⟩
  rw [hid', List.map_cons, Lru.set, List.length_map, hcap]
  split
  · rw [List.map_dropLast]
  · rfl

theorem remove (h : c.Follows ids) (hremove : Lru.remove ids i = .ok ids') :
    ∃ c', c.remove i = .ok c' ∧ c'.Follows ids' := by
  obtain ⟨l, hl, rfl⟩ := h
  simp only [Lru.remove, bind_eq_ok, ensure_eq_ok] at hremove
  obtain ⟨-, -, -, hmem, herase⟩ := hremove
  cases herase
  obtain ⟨x, hx, rfl⟩ := List.mem_map.mp hmem
  obtain ⟨c', hrun, hholds, hid, -⟩ := hl.remove hx
  refine ⟨c', hrun, _, hholds, ?_⟩
  rw [hid, map_erase hl hx]

theorem getOldest (h : c.Follows ids) (hold : Lru.getOldest ids = some (i, ids')) :
    ∃ x c', c.getOldest = .ok (some x, c') ∧ c.id x = i ∧ c'.Follows ids' := by
  obtain ⟨l, hl, rfl⟩ := h
  rw [Lru.getOldest, Option.map_eq_some_iff] at hold
  obtain ⟨j, hlast, heq⟩ := hold
  cases heq
  rcases List.eq_nil_or_concat' l with rfl | ⟨l, x, rfl⟩
  · cases hlast
  · rw [List.map_append, List.map_singleton] at hlast ⊢
    rw [List.getLast?_concat] at hlast
    obtain ⟨c', hrun, hholds, hid, -⟩ := hl.getOldest
    refine ⟨x, c', hrun, Option.some.inj hlast, l, hholds, ?_⟩
    rw [hid, List.dropLast_concat]

end Follows

end LruCache

end Virtkv
