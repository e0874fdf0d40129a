import Virtkv.Lib.Links
import Virtkv.Lru.Defs

/-!
# The pointer operations of the LRU cache

`Linked c l` says that the items of `l` are linked both ways from the head of the cache to its
tail, and `Holds c l` that the array, the counter and the capacity go with them. Every call
is described by what it does to the list.

## Main results

- `Linked.unlinkBehind`, `Linked.cutHead`, `Linked.linkHead` — the pointer operations
- `Holds.get`, `Holds.set`, `Holds.remove`, `Holds.getOldest` — the calls
-/

namespace Virtkv

open Outcome Links

namespace LruCache

variable {α : Type} [DecidableEq α] {c c' : LruCache α} {l a b : List α} {x y : α}

/-- The items of the list are linked both ways. -/
structure Linked (c : LruCache α) (l : List α) : Prop where
  next : Run c.next c.head l
  prev : Run c.prev c.tail l.reverse
  nodup : l.Nodup

/-- Everything but the links is the same. -/
structure SameBody (c c' : LruCache α) : Prop where
  id : c'.id = c.id
  capacity : c'.capacity = c.capacity
  size : c'.size = c.size
  items : c'.items = c.items

namespace Linked

omit [DecidableEq α] in
theorem head_eq (h : c.Linked l) : c.head = l.head? := h.next.start

omit [DecidableEq α] in
theorem tail_eq (h : c.Linked l) : c.tail = l.getLast? := by
  rw [h.prev.start, List.head?_reverse]

omit [DecidableEq α] in
theorem next_eq (h : c.Linked (a ++ x :: b)) : c.next x = b.head? := h.next.link

omit [DecidableEq α] in
theorem prev_eq (h : c.Linked (a ++ x :: b)) : c.prev x = a.getLast? := by
  have hprev := h.prev
  rw [List.reverse_append, List.reverse_cons, List.append_assoc, List.singleton_append] at hprev
  rw [hprev.link, List.head?_reverse]

omit [DecidableEq α] in
/-- An item is not in front of itself. -/
theorem notMem_front (h : c.Linked (a ++ x :: b)) : x ∉ a := fun hmem =>
  (List.nodup_append.mp h.nodup).2.2 x hmem x (List.mem_cons_self ..) rfl

omit [DecidableEq α] in
/-- `prev` and `next` are inverse to each other. -/
theorem next_iff_prev (h : c.Linked l) (hx : x ∈ l) (hy : y ∈ l) :
    c.next x = some y ↔ c.prev y = some x := by
  constructor
  · intro hxy
    obtain ⟨a, b, rfl⟩ := List.append_of_mem hx
    rw [h.next_eq] at hxy
    obtain ⟨b, rfl⟩ := List.head?_eq_some_iff.mp hxy
    rw [List.append_cons] at h
    rw [h.prev_eq, List.getLast?_concat]
  · intro hyx
    obtain ⟨a, b, rfl⟩ := List.append_of_mem hy
    rw [h.prev_eq] at hyx
    obtain ⟨a, rfl⟩ := List.getLast?_eq_some_iff.mp hyx
    rw [List.append_assoc, List.singleton_append] at h
    rw [h.next_eq, List.head?_cons]

/-! ### Taking an item out -/

/-- The last of several items is cut off. -/
theorem cutTail (h : c.Linked (l ++ [x])) (hne : l ≠ []) :
    ∃ c', c.cutTail x = .ok c' ∧ c'.Linked l ∧ SameBody c c' ∧ c'.head = c.head := by
  obtain ⟨a, p, rfl⟩ := (List.eq_nil_or_concat' l).resolve_left hne
  have hprev : c.prev x = some p := by rw [h.prev_eq, List.getLast?_concat]
  have hnext : c.next x = none := h.next_eq
  have hnodup := (List.nodup_append.mp h.nodup).1
  refine ⟨({ c with tail := c.prev x }).setNext p none, ?_, ⟨?_, ?_, hnodup⟩, ⟨rfl, rfl, rfl, rfl⟩,
    rfl⟩
  · simp only [LruCache.cutTail, hprev, deref, ok_bind]
    rfl
  · have hskip := h.next
    have hn := h.nodup
    rw [List.append_assoc, List.singleton_append] at hskip hn
    have hrun := hskip.skip hn
    rwa [hnext] at hrun
  · have hback := h.prev
    rw [List.reverse_append, List.reverse_singleton, List.singleton_append, run_cons] at hback
    exact hback.2

/-- An item with a neighbour on both sides is cut out. -/
theorem bypass (h : c.Linked (a ++ x :: b)) (ha : a ≠ []) (hb : b ≠ []) :
    ∃ c', c.bypass x = .ok c' ∧ c'.Linked (a ++ b) ∧ SameBody c c' ∧ c'.head = c.head := by
  obtain ⟨a, p, rfl⟩ := (List.eq_nil_or_concat' a).resolve_left ha
  obtain ⟨n, b, rfl⟩ := List.exists_cons_of_ne_nil hb
  have hprev : c.prev x = some p := by rw [h.prev_eq, List.getLast?_concat]
  have hnext : c.next x = some n := h.next_eq
  have hn := h.nodup
  have hfront := h.next
  have hback := h.prev
  rw [List.append_assoc, List.singleton_append] at hn hfront
  have hpx : p ≠ x := by
    have := (List.nodup_append.mp hn).2.1
    simp only [List.nodup_cons, List.mem_cons, not_or] at this
    exact this.1.1
  have hrev : ((a ++ [p]) ++ x :: n :: b).reverse = b.reverse ++ n :: x :: (p :: a.reverse) := by
    simp
  have hrev' : ((a ++ [p]) ++ n :: b).reverse = b.reverse ++ n :: (p :: a.reverse) := by simp
  refine ⟨(c.setNext p (c.next x)).setPrev n (c.prev x), ?_, ⟨?_, ?_, ?_⟩, ⟨rfl, rfl, rfl, rfl⟩,
    rfl⟩
  · -- the first write does not change the links of the item itself
    have hstay : (c.setNext p (some n)).next x = some n := by
      show Function.update c.next p (some n) x = some n
      rw [Function.update_of_ne hpx.symm, hnext]
    have hkeep : (c.setNext p (some n)).prev x = some p := hprev
    simp only [LruCache.bypass, hprev, hnext, deref, ok_bind, hstay, hkeep]
    rfl
  · rw [List.append_assoc, List.singleton_append]
    exact hfront.skip hn
  · rw [hrev']
    rw [hrev] at hback
    refine hback.skip ?_
    rw [← hrev, List.nodup_reverse]
    exact h.nodup
  · refine h.nodup.sublist ?_
    exact List.Sublist.append_left (List.sublist_cons_self ..) _

/-- An item that is not the head is taken out. -/
theorem unlinkBehind (h : c.Linked l) (hx : x ∈ l) (hhead : c.head ≠ some x) :
    ∃ c', c.unlinkBehind x = .ok c' ∧ c'.Linked (l.erase x) ∧ SameBody c c' ∧
      c'.head = c.head := by
  obtain ⟨a, b, rfl⟩ := List.append_of_mem hx
  have ha : a ≠ [] := by
    rintro rfl
    exact hhead h.head_eq
  rw [LruCache.unlinkBehind, List.erase_append_right _ h.notMem_front, List.erase_cons_head]
  cases b with
  | nil =>
    rw [if_pos (by rw [h.tail_eq, List.getLast?_concat]), List.append_nil]
    exact h.cutTail ha
  | cons n b =>
    have htail : c.tail ≠ some x := by
      intro htail
      rw [h.tail_eq, List.getLast?_append_cons, List.getLast?_cons_cons] at htail
      have hmem := List.mem_of_getLast? htail
      exact (List.nodup_cons.mp (List.nodup_append.mp h.nodup).2.1).1 hmem
    rw [if_neg htail]
    exact h.bypass ha (List.cons_ne_nil n b)

/-- The head is taken out. -/
theorem cutHead (h : c.Linked (x :: l)) :
    (c.cutHead x).Linked l ∧ SameBody c (c.cutHead x) := by
  have hnext : c.next x = l.head? := h.next_eq (a := [])
  have hnodup := List.nodup_cons.mp h.nodup
  cases l with
  | nil =>
    have hcut : c.cutHead x = { c with head := none, tail := none } := by
      simp only [LruCache.cutHead, hnext, List.head?_nil]
    rw [hcut]
    exact ⟨⟨rfl, rfl, .nil⟩, ⟨rfl, rfl, rfl, rfl⟩⟩
  | cons n l =>
    have hcut : c.cutHead x = ({ c with head := some n }).setPrev n none := by
      simp only [LruCache.cutHead, hnext, List.head?_cons]
    have hprev : c.prev x = none := h.prev_eq (a := [])
    have hback := h.prev
    rw [hcut]
    refine ⟨⟨⟨rfl, ?_⟩, ?_, hnodup.2⟩, ⟨rfl, rfl, rfl, rfl⟩⟩
    · exact (run_cons.mp h.next).2.2
    · -- in the chain backwards the head is the last cell
      rw [List.reverse_cons, List.reverse_cons, List.append_assoc] at hback
      have hskip := hback.skip (by
        have hn := List.nodup_reverse.mpr h.nodup
        rwa [List.reverse_cons, List.reverse_cons, List.append_assoc] at hn)
      rw [hprev] at hskip
      rwa [List.reverse_cons]

/-- Any item is taken out. -/
theorem unlink (h : c.Linked l) (hx : x ∈ l) :
    ∃ c', c.unlink x = .ok c' ∧ c'.Linked (l.erase x) ∧ SameBody c c' := by
  rw [LruCache.unlink]
  by_cases hhead : c.head = some x
  · rw [if_pos hhead]
    rw [h.head_eq] at hhead
    obtain ⟨l, rfl⟩ := List.head?_eq_some_iff.mp hhead
    rw [List.erase_cons_head]
    exact ⟨_, rfl, h.cutHead⟩
  · rw [if_neg hhead]
    obtain ⟨c1, hun, hl, hb, -⟩ := h.unlinkBehind hx hhead
    exact ⟨c1, hun, hl, hb⟩

/-- The last item is taken out, also if it is the only one. -/
theorem unlinkTail (h : c.Linked (l ++ [x])) :
    ∃ c', c.unlinkTail x = .ok c' ∧ c'.Linked l ∧ SameBody c c' := by
  rw [LruCache.unlinkTail]
  cases l with
  | nil =>
    have hhead : some x = c.head := h.head_eq.symm
    rw [if_pos hhead]
    exact ⟨_, rfl, ⟨rfl, rfl, .nil⟩, ⟨rfl, rfl, rfl, rfl⟩⟩
  | cons s t =>
    have hne : some x ≠ c.head := by
      rw [h.head_eq]
      intro he
      rw [Option.some.inj he] at h
      exact (List.nodup_cons.mp h.nodup).1 (List.mem_append_right _ (List.mem_singleton_self s))
    rw [if_neg hne]
    obtain ⟨c1, hrun, hl, hb, -⟩ := h.cutTail (List.cons_ne_nil s t)
    exact ⟨c1, hrun, hl, hb⟩

/-! ### Putting an item in front -/

/-- An item is linked in front of the head. -/
theorem linkHead (h : c.Linked l) (hx : x ∉ l) :
    (c.linkHead x).Linked (x :: l) ∧ SameBody c (c.linkHead x) := by
  have hnodup : (x :: l).Nodup := List.nodup_cons.mpr ⟨hx, h.nodup⟩
  have hfront : Run (Function.update c.next x c.head) (some x) (x :: l) :=
    ⟨rfl, by
      show Run _ (Function.update c.next x c.head x) l
      rw [Function.update_self]
      exact h.next.update hx _⟩
  cases l with
  | nil =>
    have hhead : c.head = none := h.head_eq
    have hlink : c.linkHead x =
        { (c.setPrev x none).setNext x c.head with tail := some x, head := some x } := by
      simp only [LruCache.linkHead, setPrev, setNext, hhead]
    rw [hlink]
    refine ⟨⟨hfront, ⟨rfl, ?_⟩, hnodup⟩, ⟨rfl, rfl, rfl, rfl⟩⟩
    exact Function.update_self ..
  | cons n l =>
    have hhead : c.head = some n := h.head_eq
    have hlink : c.linkHead x =
        { ((c.setPrev x none).setNext x c.head).setPrev n (some x) with head := some x } := by
      simp only [LruCache.linkHead, setPrev, setNext, hhead]
    rw [hlink]
    refine ⟨⟨hfront, ?_, hnodup⟩, ⟨rfl, rfl, rfl, rfl⟩⟩
    have hback := h.prev.update (p := x) (by rwa [List.mem_reverse]) none
    rw [List.reverse_cons] at hback
    rw [List.reverse_cons, List.reverse_cons, List.append_assoc]
    refine hback.concat ?_ (Function.update_self ..) fun he => ?_
    · rw [← List.reverse_cons, List.nodup_reverse]
      exact h.nodup
    · exact hx (he ▸ List.mem_cons_self ..)

end Linked

/-! ### The calls -/

/-- The items of the list are linked, found by their ids and counted. -/
structure Holds (c : LruCache α) (l : List α) : Prop where
  linked : c.Linked l
  size : c.size = l.length
  le_capacity : l.length ≤ c.capacity
  id_lt : ∀ x ∈ l, c.id x < Lru.maxCapacity
  items : ∀ i < Lru.maxCapacity, ∀ x, c.items i = some x ↔ x ∈ l ∧ c.id x = i

namespace Holds

omit [DecidableEq α] in
theorem item_eq (h : c.Holds l) (hx : x ∈ l) : c.items (c.id x) = some x :=
  (h.items _ (h.id_lt x hx) x).mpr ⟨hx, rfl⟩

omit [DecidableEq α] in
/-- Ids are not used twice. -/
theorem id_inj (h : c.Holds l) (hx : x ∈ l) (hy : y ∈ l) (he : c.id x = c.id y) : x = y := by
  have h1 := h.item_eq hx
  rw [he, h.item_eq hy] at h1
  exact (Option.some.inj h1).symm

omit [DecidableEq α] in
/-- The array has an entry for the ids that are present. -/
theorem items_ne_none (h : c.Holds l) {i : ℕ} (hi : i < Lru.maxCapacity) :
    c.items i ≠ none ↔ ∃ x ∈ l, c.id x = i := by
  constructor
  · intro hne
    obtain ⟨x, hx⟩ := Option.ne_none_iff_exists'.mp hne
    exact ⟨x, (h.items i hi x).mp hx⟩
  · rintro ⟨x, hx⟩ hnone
    rw [(h.items i hi x).mpr hx] at hnone
    cases hnone

omit [DecidableEq α] in
theorem size_ne_zero (h : c.Holds l) (hx : x ∈ l) : c.size ≠ 0 := by
  rw [h.size]
  exact (List.length_pos_of_mem hx).ne'

omit [DecidableEq α] in
/-- The check of `lru_cache_get` and `lru_cache_remove` lets the id of an item pass. -/
theorem live (h : c.Holds l) (hx : x ∈ l) : ¬(c.size = 0 ∨ Lru.maxCapacity ≤ c.id x) :=
  not_or.mpr ⟨h.size_ne_zero hx, not_le.mpr (h.id_lt x hx)⟩

omit [DecidableEq α] in
/-- The same items in another order. -/
theorem relink (h : c.Holds l) (hl : c'.Linked b) (hb : SameBody c c') (hperm : b.Perm l) :
    c'.Holds b where
  linked := hl
  size := by rw [hb.size, h.size, hperm.length_eq]
  le_capacity := by
    rw [hb.capacity, hperm.length_eq]
    exact h.le_capacity
  id_lt x hx := by
    rw [hb.id]
    exact h.id_lt x (hperm.mem_iff.mp hx)
  items i hi x := by
    rw [hb.items, hb.id, h.items i hi x, hperm.mem_iff]

/-- An item that was taken out of the list leaves the array. -/
theorem forget (h : c.Holds l) (hx : x ∈ l) (hl : c'.Linked (l.erase x)) (hb : SameBody c c') :
    ∃ c'', c'.setItem (c.id x) none = .ok c'' ∧
      ({ c'' with size := c''.size - 1 } : LruCache α).Holds (l.erase x) ∧ c''.id = c.id ∧
      c''.capacity = c.capacity := by
  have hnodup := h.linked.nodup
  refine ⟨{ c' with items := Function.update c'.items (c.id x) none }, ?_,
    ⟨⟨hl.next, hl.prev, hl.nodup⟩, ?_, ?_, fun y hy => ?_, fun i hi y => ?_⟩, hb.id, hb.capacity⟩
  · rw [setItem, ensure_of (h.id_lt x hx)]
    rfl
  · show c'.size - 1 = _
    rw [hb.size, h.size, List.length_erase_of_mem hx]
  · show _ ≤ c'.capacity
    rw [hb.capacity]
    exact (List.length_erase_le).trans h.le_capacity
  · show c'.id y < _
    rw [hb.id]
    exact h.id_lt y (List.mem_of_mem_erase hy)
  · show Function.update c'.items (c.id x) none i = some y ↔ y ∈ l.erase x ∧ c'.id y = i
    rw [hb.items, hb.id, hnodup.mem_erase_iff]
    by_cases hix : i = c.id x
    · -- the id of the item: nobody else has it
      subst hix
      rw [Function.update_self]
      refine ⟨nofun, fun ⟨⟨hne, hy⟩, he⟩ => absurd (h.id_inj hy hx he) hne⟩
    · rw [Function.update_of_ne hix, h.items i hi y]
      constructor
      · rintro ⟨hy, he⟩
        refine ⟨⟨?_, hy⟩, he⟩
        rintro rfl
        exact hix he.symm
      · rintro ⟨⟨-, hy⟩, he⟩
        exact ⟨hy, he⟩

/-- The last item, taken out of the list, leaves the array. -/
theorem forgetTail (h : c.Holds (l ++ [x])) (hl : c'.Linked l) (hb : SameBody c c') :
    ∃ c'', c'.setItem (c'.id x) none = .ok c'' ∧
      ({ c'' with size := c''.size - 1 } : LruCache α).Holds l ∧ c''.id = c.id ∧
      c''.capacity = c.capacity := by
  have hx : x ∈ l ++ [x] := List.mem_append_right _ (List.mem_singleton_self x)
  have herase : (l ++ [x]).erase x = l := by
    rw [List.erase_append_right _ h.linked.notMem_front, List.erase_cons_head, List.append_nil]
  have hforget := h.forget hx (herase.symm ▸ hl) hb
  rwa [herase, ← congrFun hb.id x] at hforget

omit [DecidableEq α] in
/-- A fresh cache is empty. -/
theorem init {capacity : ℕ} (hzero : ∀ i < Lru.maxCapacity, c.items i = none) :
    (c.init capacity).Holds [] where
  linked := ⟨rfl, rfl, .nil⟩
  size := rfl
  le_capacity := Nat.zero_le _
  id_lt x hx := absurd hx List.not_mem_nil
  items i hi x := by
    show c.items i = some x ↔ _
    rw [hzero i hi]
    exact ⟨nofun, fun hx => absurd hx.1 List.not_mem_nil⟩

/-- `lru_cache_get` of an item moves it to the head. -/
theorem get (h : c.Holds l) (hx : x ∈ l) :
    ∃ c', c.get (c.id x) = .ok (some x, c') ∧ c'.Holds (x :: l.erase x) ∧ c'.id = c.id ∧
      c'.capacity = c.capacity := by
  have hitem := h.item_eq hx
  have hlive := h.live hx
  simp only [LruCache.get, if_neg hlive, hitem]
  by_cases hhead : c.head = some x
  · rw [if_pos hhead]
    have hmove : x :: l.erase x = l := by
      rw [h.linked.head_eq] at hhead
      obtain ⟨l, rfl⟩ := List.head?_eq_some_iff.mp hhead
      rw [List.erase_cons_head]
    rw [hmove]
    exact ⟨c, rfl, h, rfl, rfl⟩
  · rw [if_neg hhead]
    obtain ⟨c1, hun, hl, hb, hh⟩ := h.linked.unlinkBehind hx hhead
    have hnot : x ∉ l.erase x := fun hmem => (h.linked.nodup.mem_erase_iff.mp hmem).1 rfl
    obtain ⟨hlink, hb'⟩ := hl.linkHead hnot
    -- there is a head: the item itself is another one
    obtain ⟨s, hs⟩ : ∃ s, c1.head = some s := by
      rw [hh, h.linked.head_eq]
      exact ⟨_, List.head?_eq_some_head (List.ne_nil_of_mem hx)⟩
    refine ⟨c1.linkHead x, ?_, h.relink hlink ⟨hb'.id.trans hb.id, hb'.capacity.trans hb.capacity,
      hb'.size.trans hb.size, hb'.items.trans hb.items⟩ (List.perm_cons_erase hx).symm,
      hb'.id.trans hb.id, hb'.capacity.trans hb.capacity⟩
    simp only [hun, ok_bind, LruCache.linkHead, setPrev, setNext, hs, deref]
    rfl

/-- `lru_cache_get` of an empty cache, or of no id. -/
theorem get_none (h : c.Holds l) {id : ℕ} (hid : l = [] ∨ Lru.maxCapacity ≤ id) :
    c.get id = .ok (none, c) := by
  refine if_pos (hid.imp_left fun hnil => ?_)
  rw [h.size, hnil, List.length_nil]

/-- `lru_cache_remove` of an item takes it out. -/
theorem remove (h : c.Holds l) (hx : x ∈ l) :
    ∃ c', c.remove (c.id x) = .ok c' ∧ c'.Holds (l.erase x) ∧ c'.id = c.id ∧
      c'.capacity = c.capacity := by
  have hitem := h.item_eq hx
  have hlive := h.live hx
  obtain ⟨c1, hrun, hl, hb⟩ := h.linked.unlink hx
  obtain ⟨c2, hset, hholds, hid, hcap⟩ := h.forget hx hl hb
  refine ⟨_, ?_, hholds, hid, hcap⟩
  simp only [LruCache.remove, ensure_of hlive, ok_bind, hitem, hrun, hset]
  rfl

/-- `lru_cache_get_oldest` takes out the last item. -/
theorem getOldest (h : c.Holds (l ++ [x])) :
    ∃ c', c.getOldest = .ok (some x, c') ∧ c'.Holds l ∧ c'.id = c.id ∧
      c'.capacity = c.capacity := by
  have hx : x ∈ l ++ [x] := List.mem_append_right _ (List.mem_singleton_self x)
  have htail : c.tail = some x := by rw [h.linked.tail_eq, List.getLast?_concat]
  obtain ⟨c1, hrun, hl, hb⟩ := h.linked.unlinkTail
  obtain ⟨c2, hset, hholds, hid, hcap⟩ := h.forgetTail hl hb
  refine ⟨_, ?_, hholds, hid, hcap⟩
  rw [LruCache.getOldest, if_neg (h.size_ne_zero hx)]
  simp only [htail, deref, ok_bind, hrun, hset]
  rfl

omit [DecidableEq α] in
/-- `lru_cache_get_oldest` of an empty cache. -/
theorem getOldest_nil [DecidableEq α] (h : c.Holds []) : c.getOldest = .ok (none, c) :=
  if_pos h.size

/-- A full cache drops its last item. -/
theorem makeRoom_full (h : c.Holds (l ++ [x])) (hne : l ≠ []) (hfull : c.size = c.capacity) :
    ∃ c', c.makeRoom = .ok c' ∧ c'.Holds l ∧ c'.id = c.id ∧ c'.capacity = c.capacity := by
  have htail : c.tail = some x := by rw [h.linked.tail_eq, List.getLast?_concat]
  obtain ⟨c1, hrun, hl, hb, -⟩ := h.linked.cutTail hne
  obtain ⟨c2, hset, hholds, hid, hcap⟩ := h.forgetTail hl hb
  refine ⟨_, ?_, hholds, hid, hcap⟩
  rw [LruCache.makeRoom, if_pos hfull]
  simp only [htail, deref, ok_bind, hrun, hset]
  rfl

/-- A cache with room takes an item with a new id. -/
theorem insert (h : c.Holds l) (hroom : l.length < c.capacity) (hid : c.id x < Lru.maxCapacity)
    (hfresh : ∀ y ∈ l, c.id y ≠ c.id x) :
    ∃ c', (c.linkHead x).setItem (c.id x) (some x) = .ok c' ∧
      ({ c' with size := c'.size + 1 } : LruCache α).Holds (x :: l) ∧ c'.id = c.id ∧
      c'.capacity = c.capacity := by
  have hx : x ∉ l := fun hmem => hfresh x hmem rfl
  obtain ⟨hl, hb⟩ := h.linked.linkHead hx
  refine ⟨{ c.linkHead x with items := Function.update (c.linkHead x).items (c.id x) (some x) }, ?_,
    ⟨⟨hl.next, hl.prev, hl.nodup⟩, ?_, ?_, fun y hy => ?_, fun i hi y => ?_⟩, hb.id, hb.capacity⟩
  · rw [setItem, ensure_of hid]
    rfl
  · show (c.linkHead x).size + 1 = _
    rw [hb.size, h.size, List.length_cons]
  · show _ ≤ (c.linkHead x).capacity
    rw [hb.capacity, List.length_cons]
    exact hroom
  · show (c.linkHead x).id y < _
    rw [hb.id]
    rcases List.mem_cons.mp hy with rfl | hy
    · exact hid
    · exact h.id_lt y hy
  · show Function.update (c.linkHead x).items (c.id x) (some x) i = some y ↔
      y ∈ x :: l ∧ (c.linkHead x).id y = i
    rw [hb.items, hb.id, List.mem_cons]
    by_cases hix : i = c.id x
    · subst hix
      rw [Function.update_self]
      constructor
      · intro he
        rw [Option.some.inj he]
        exact ⟨.inl rfl, rfl⟩
      · rintro ⟨rfl | hy, he⟩
        · rfl
        · exact absurd he (hfresh y hy)
    · rw [Function.update_of_ne hix, h.items i hi y]
      refine ⟨fun ⟨hy, he⟩ => ⟨.inr hy, he⟩, ?_⟩
      rintro ⟨rfl | hy, he⟩
      · exact absurd he.symm hix
      · exact ⟨hy, he⟩

/-- `lru_cache_set` puts an item with a new id at the head; a full cache drops its last item. -/
theorem set (h : c.Holds l) (hcap : 2 ≤ c.capacity) (hid : c.id x < Lru.maxCapacity)
    (hfresh : ∀ y ∈ l, c.id y ≠ c.id x) :
    ∃ c', c.set x = .ok c' ∧ c'.Holds (x :: if l.length = c.capacity then l.dropLast else l) ∧
      c'.id = c.id ∧ c'.capacity = c.capacity := by
  by_cases hfull : l.length = c.capacity
  · rw [if_pos hfull]
    obtain ⟨l, y, rfl⟩ := (List.eq_nil_or_concat' l).resolve_left fun hnil => by
      rw [hnil, List.length_nil] at hfull
      omega
    have hsize : c.size = c.capacity := h.size.trans hfull
    rw [List.length_append, List.length_singleton] at hfull
    have hne : l ≠ [] := by
      rintro rfl
      rw [List.length_nil] at hfull
      omega
    obtain ⟨c1, hdrop, h1, hid1, hcap1⟩ := h.makeRoom_full hne hsize
    have hins := h1.insert (x := x) (by omega) (by rwa [hid1]) (fun z hz => by
      rw [hid1]
      exact hfresh z (List.mem_append_left _ hz))
    rw [hid1, hcap1] at hins
    obtain ⟨c2, hset, h2, hid2, hcap2⟩ := hins
    rw [List.dropLast_concat]
    refine ⟨_, ?_, h2, hid2, hcap2⟩
    simp only [LruCache.set, hdrop, ok_bind, hset]
    rfl
  · rw [if_neg hfull]
    have hle := h.le_capacity
    have hroom : c.makeRoom = .ok c := if_neg (by rwa [h.size])
    obtain ⟨c2, hset, h2, hid2, hcap2⟩ := h.insert (x := x) (by omega) hid hfresh
    refine ⟨_, ?_, h2, hid2, hcap2⟩
    simp only [LruCache.set, hroom, hset, ok_bind]
    rfl

end Holds

end LruCache

end Virtkv
