import Mathlib.Data.Finset.Card
import Mathlib.Data.List.Nodup
import Mathlib.Logic.Function.Basic

/-!
# Recency lists

Which items are present and when each was used last is a `Usage`. A list is its recency list
if it has the items that are present, the one used last at the head. Such a list has no
repetition, its last item is the least recently used one, and using, discarding and dropping
items are list operations.

## Main definitions

- `Usage.Oldest u x` — `x` is the least recently used item of those present
- `Usage.Lists u l` — `l` is the recency list

## Main results

- `Lists.use`, `Lists.reuse`, `Lists.discard` — the recency list after each operation
- `Lists.oldest_iff`, `Lists.discard_oldest` — the least recently used item is the last one
-/

namespace Recency

variable {α : Type} [DecidableEq α]

/-- The items that are present, and when each item was used last. -/
structure Usage (α : Type) where
  present : Finset α
  last : α → ℕ
  now : ℕ

namespace Usage

/-- Nothing is present. -/
def empty : Usage α := { present := ∅, last := fun _ => 0, now := 0 }

/-- An item is used; it is present from now on. -/
def use (u : Usage α) (x : α) : Usage α where
  present := insert x u.present
  last := Function.update u.last x u.now
  now := u.now + 1

/-- An item is present no more. -/
def discard (u : Usage α) (x : α) : Usage α := { u with present := u.present.erase x }

/-- The least recently used item. -/
def Oldest (u : Usage α) (x : α) : Prop :=
  x ∈ u.present ∧ ∀ y ∈ u.present, y ≠ x → u.last x < u.last y

@[simp] theorem mem_use {u : Usage α} {x y : α} :
    y ∈ (u.use x).present ↔ y = x ∨ y ∈ u.present := Finset.mem_insert

@[simp] theorem last_use_self (u : Usage α) (x : α) : (u.use x).last x = u.now :=
  Function.update_self ..

theorem last_use_of_ne {u : Usage α} {x y : α} (h : y ≠ x) : (u.use x).last y = u.last y :=
  Function.update_of_ne h _ _

@[simp] theorem now_use (u : Usage α) (x : α) : (u.use x).now = u.now + 1 := rfl

@[simp] theorem mem_discard {u : Usage α} {x y : α} :
    y ∈ (u.discard x).present ↔ y ≠ x ∧ y ∈ u.present := Finset.mem_erase

/-- The items present from the most to the least recently used. -/
structure Lists (u : Usage α) (l : List α) : Prop where
  mem : ∀ x, x ∈ l ↔ x ∈ u.present
  sorted : l.Pairwise fun x y => u.last y < u.last x
  past : ∀ x ∈ l, u.last x < u.now

namespace Lists

variable {u : Usage α} {l l' : List α} {x : α}

omit [DecidableEq α] in
theorem empty : (Usage.empty : Usage α).Lists [] where
  mem x := ⟨fun h => absurd h List.not_mem_nil, fun h => absurd h (Finset.notMem_empty x)⟩
  sorted := .nil
  past _ h := absurd h List.not_mem_nil

omit [DecidableEq α] in
theorem nodup (h : u.Lists l) : l.Nodup := h.sorted.imp fun {_ _} hlt he => by
  rw [he] at hlt
  exact lt_irrefl _ hlt

theorem card_eq (h : u.Lists l) : u.present.card = l.length := by
  rw [← List.toFinset_card_of_nodup h.nodup]
  congr 1
  ext x
  rw [List.mem_toFinset, h.mem x]

/-- A new item is used. -/
theorem use (h : u.Lists l) (hx : x ∉ l) : (u.use x).Lists (x :: l) where
  mem y := by rw [List.mem_cons, mem_use, h.mem y]
  sorted := by
    have hlast : ∀ y ∈ l, (u.use x).last y = u.last y := fun y hy =>
      last_use_of_ne (ne_of_mem_of_not_mem hy hx)
    refine List.pairwise_cons.mpr ⟨fun y hy => ?_, ?_⟩
    · rw [hlast y hy, last_use_self]
      exact h.past y hy
    · refine h.sorted.imp_of_mem fun hy hz hlt => ?_
      rwa [hlast _ hy, hlast _ hz]
  past y hy := by
    rw [now_use]
    rcases List.mem_cons.mp hy with rfl | hy
    · rw [last_use_self]
      exact Nat.lt_succ_self _
    · rw [last_use_of_ne (ne_of_mem_of_not_mem hy hx)]
      exact Nat.lt_succ_of_lt (h.past y hy)

/-- An item that is discarded leaves the list; the others keep their order. -/
theorem discard (h : u.Lists l) (x : α) : (u.discard x).Lists (l.erase x) where
  mem y := by
    rw [h.nodup.mem_erase_iff, mem_discard, h.mem y]
  sorted := h.sorted.sublist List.erase_sublist
  past y hy := h.past y (List.mem_of_mem_erase hy)

omit [DecidableEq α] in
/-- The last item is the least recently used one. -/
theorem oldest_getLast (h : u.Lists l) (hx : l.getLast? = some x) : u.Oldest x := by
  have hsplit : l = l.dropLast ++ [x] := (List.dropLast_append_getLast? _ hx).symm
  have hsorted := h.sorted
  rw [hsplit] at hsorted
  refine ⟨(h.mem x).mp (List.mem_of_getLast? hx), fun y hy hne => ?_⟩
  have hmem := (h.mem y).mpr hy
  rw [hsplit, List.mem_append, List.mem_singleton] at hmem
  exact (List.pairwise_append.mp hsorted).2.2 y (hmem.resolve_right hne) x
    (List.mem_singleton_self x)

omit [DecidableEq α] in
theorem oldest_iff (h : u.Lists l) : u.Oldest x ↔ l.getLast? = some x := by
  refine ⟨fun hold => ?_, h.oldest_getLast⟩
  have hmem := (h.mem x).mpr hold.1
  cases hlast : l.getLast? with
  | none =>
    rw [List.getLast?_eq_none_iff.mp hlast] at hmem
    exact absurd hmem List.not_mem_nil
  | some y =>
    -- two least recently used items would each have been used before the other
    have hy := h.oldest_getLast hlast
    by_contra hne
    have hxy : x ≠ y := fun he => hne (by rw [he])
    exact lt_asymm (hold.2 y hy.1 hxy.symm) (hy.2 x hold.1 hxy)

/-- Without its last item the list is the one without the least recently used item. -/
theorem discard_oldest (h : u.Lists l) (hx : u.Oldest x) : (u.discard x).Lists l.dropLast := by
  have hsplit : l = l.dropLast ++ [x] :=
    (List.dropLast_append_getLast? _ (h.oldest_iff.mp hx)).symm
  have hnot : x ∉ l.dropLast := by
    have hnodup := h.nodup
    rw [hsplit] at hnodup
    exact fun hmem => (List.nodup_append.mp hnodup).2.2 x hmem x (List.mem_singleton_self x) rfl
  have herase : l.erase x = l.dropLast := by
    conv_lhs => rw [hsplit]
    rw [List.erase_append_right _ hnot, List.erase_cons_head, List.append_nil]
  rw [← herase]
  exact h.discard x

/-- An item that is present is used again. -/
theorem reuse (h : u.Lists l) (hx : x ∈ l) : (u.use x).Lists (x :: l.erase x) := by
  have hnot : x ∉ l.erase x := fun hmem => ((h.nodup.mem_erase_iff).mp hmem).1 rfl
  have huse := (h.discard x).use hnot
  have heq : (u.discard x).use x = u.use x := by
    rw [Usage.use, Usage.use, Usage.discard, Finset.insert_erase ((h.mem x).mp hx),
      Finset.insert_eq_of_mem ((h.mem x).mp hx)]
  rwa [heq] at huse

end Lists

end Usage

end Recency
