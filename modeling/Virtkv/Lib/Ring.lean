import Mathlib.Data.List.Basic
import Mathlib.Data.Nat.ModEq
import Mathlib.Logic.Function.Basic

/-!
# Ring buffers with a history

A ring buffer of `n` slots is written at `head` and read at `tail`, both modulo
`n`. `Holds` compares it with its history: the list of all values ever written
and the number of them that were read. The slots between `tail` and `head` then
hold the values written and not yet read, in order, and none of them has been
overwritten.

## Main results

- `Holds.push`, `Holds.pop` — writing a value and reading one
- `Holds.distance` — the distance from `tail` to `head` counts the unread values
- `Contains.push`, `Contains.pop` — the unread values as a queue
-/

namespace Ring

variable {α : Type*} {n head tail taken : ℕ} {buf : ℕ → α} {log : List α}

/-- The ring buffer after `log` was written and the first `taken` of it read. -/
structure Holds (n : ℕ) (buf : ℕ → α) (head tail : ℕ) (log : List α) (taken : ℕ) : Prop where
  head_eq : head = log.length % n
  tail_eq : tail = taken % n
  taken_le : taken ≤ log.length
  unread_lt : log.length - taken < n
  slot : ∀ i, taken ≤ i → (hi : i < log.length) → buf (i % n) = log[i]

theorem mod_ne {i j : ℕ} (hij : i < j) (hlt : j - i < n) : i % n ≠ j % n := by
  intro he
  have hd : n ∣ j - i := (Nat.modEq_iff_dvd' hij.le).mp he
  exact absurd (Nat.le_of_dvd (by omega) hd) (by omega)

/-- Writing a value while a slot is left. -/
theorem Holds.push (h : Holds n buf head tail log taken) (x : α)
    (hroom : log.length - taken + 1 < n) :
    Holds n (Function.update buf head x) ((head + 1) % n) tail (log ++ [x]) taken where
  head_eq := by
    rw [h.head_eq, List.length_append, List.length_singleton, Nat.mod_add_mod]
  tail_eq := h.tail_eq
  taken_le := by
    rw [List.length_append]
    have := h.taken_le
    omega
  unread_lt := by
    rw [List.length_append, List.length_singleton]
    have := h.taken_le
    omega
  slot := by
    intro i hi hlt
    rw [List.length_append, List.length_singleton] at hlt
    by_cases hlast : i = log.length
    · subst hlast
      rw [← h.head_eq, Function.update_self, List.getElem_append_right (Nat.le_refl _)]
      simp
    · have hi' : i < log.length := by omega
      have hne : i % n ≠ head := by
        rw [h.head_eq]
        exact mod_ne hi' (by omega)
      rw [Function.update_of_ne hne, h.slot i hi hi', List.getElem_append_left hi']

/-- Reading a value that was not read before. -/
theorem Holds.pop (h : Holds n buf head tail log taken) (hlt : taken < log.length) :
    Holds n buf head ((tail + 1) % n) log (taken + 1) where
  head_eq := h.head_eq
  tail_eq := by rw [h.tail_eq, Nat.mod_add_mod]
  taken_le := hlt
  unread_lt := by
    have := h.unread_lt
    omega
  slot := fun i hi hi' => h.slot i (by omega) hi'

/-- The slot at the tail holds the oldest unread value. -/
theorem Holds.at_tail (h : Holds n buf head tail log taken) (hlt : taken < log.length) :
    buf tail = log[taken] := by
  rw [h.tail_eq]
  exact h.slot taken (Nat.le_refl _) hlt

/-- `head - tail`, plus `n` if that is negative, is the number of unread values. -/
theorem Holds.distance (h : Holds n buf head tail log taken) (hn : 0 < n) :
    (if head < tail then head + n - tail else head - tail) = log.length - taken := by
  obtain ⟨k, hk⟩ : ∃ k, log.length = taken + k := ⟨_, (Nat.add_sub_cancel' h.taken_le).symm⟩
  have hkn : k < n := by
    have := h.unread_lt
    omega
  have ht : tail < n := by
    rw [h.tail_eq]
    exact Nat.mod_lt _ hn
  have hh : head = (tail + k) % n := by
    rw [h.head_eq, h.tail_eq, hk, Nat.mod_add_mod]
  rcases Nat.lt_or_ge (tail + k) n with hlt | hge
  · rw [Nat.mod_eq_of_lt hlt] at hh
    rw [if_neg (by omega)]
    omega
  · rw [Nat.mod_eq_sub_mod hge, Nat.mod_eq_of_lt (by omega)] at hh
    rw [if_pos (by omega)]
    omega

/-- A ring buffer that was never written. -/
theorem holds_empty (hn : 0 < n) (buf : ℕ → α) : Holds n buf 0 0 [] 0 where
  head_eq := (Nat.zero_mod n).symm
  tail_eq := (Nat.zero_mod n).symm
  taken_le := Nat.le_refl _
  unread_lt := hn
  slot := fun _ _ hi => absurd hi (Nat.not_lt_zero _)

/-! ### The unread values -/

/-- The unread values, the oldest first. -/
def Contains (n : ℕ) (buf : ℕ → α) (head tail : ℕ) (l : List α) : Prop :=
  ∃ log taken, Holds n buf head tail log taken ∧ log.drop taken = l

variable {l : List α} {x : α}

theorem contains_empty (hn : 0 < n) (buf : ℕ → α) : Contains n buf 0 0 [] :=
  ⟨[], 0, holds_empty hn buf, rfl⟩

theorem Contains.length_lt (h : Contains n buf head tail l) : l.length < n := by
  obtain ⟨log, taken, hh, rfl⟩ := h
  rw [List.length_drop]
  exact hh.unread_lt

/-- Head and tail are the same slot only if nothing is unread. -/
theorem Contains.empty_iff (h : Contains n buf head tail l) : head = tail ↔ l = [] := by
  obtain ⟨log, taken, hh, rfl⟩ := h
  have hle := hh.taken_le
  have hlt := hh.unread_lt
  rw [hh.head_eq, hh.tail_eq, List.drop_eq_nil_iff]
  constructor
  · intro he
    by_contra hne
    exact mod_ne (by omega) hlt he.symm
  · intro hle'
    rw [Nat.le_antisymm hle hle']

/-- The slot behind the head is the tail if one slot is left. -/
theorem Contains.full_iff (h : Contains n buf head tail l) :
    (head + 1) % n = tail ↔ l.length + 1 = n := by
  obtain ⟨log, taken, hh, rfl⟩ := h
  have hle := hh.taken_le
  have hlt := hh.unread_lt
  rw [hh.head_eq, hh.tail_eq, Nat.mod_add_mod, List.length_drop]
  constructor
  · intro he
    by_contra hne
    exact mod_ne (i := taken) (j := log.length + 1) (n := n) (by omega) (by omega) he.symm
  · intro he
    have : log.length + 1 = taken + n := by omega
    rw [this, Nat.add_mod_right]

theorem Contains.push (h : Contains n buf head tail l) (x : α) (hroom : l.length + 1 < n) :
    Contains n (Function.update buf head x) ((head + 1) % n) tail (l ++ [x]) := by
  obtain ⟨log, taken, hh, rfl⟩ := h
  rw [List.length_drop] at hroom
  refine ⟨log ++ [x], taken, hh.push x hroom, ?_⟩
  rw [List.drop_append_of_le_length hh.taken_le]

theorem Contains.pop (h : Contains n buf head tail (x :: l)) :
    buf tail = x ∧ Contains n buf head ((tail + 1) % n) l := by
  obtain ⟨log, taken, hh, hl⟩ := h
  have hlt : taken < log.length := by
    by_contra hge
    rw [List.drop_eq_nil_of_le (not_lt.mp hge)] at hl
    cases hl
  rw [List.drop_eq_getElem_cons hlt] at hl
  injection hl with hx hrest
  exact ⟨(hh.at_tail hlt).trans hx, log, taken + 1, hh.pop hlt, hrest⟩

end Ring
