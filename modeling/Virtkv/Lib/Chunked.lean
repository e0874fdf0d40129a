import Mathlib.Data.List.GetD
import Mathlib.Algebra.Ring.Divisibility.Basic
import Mathlib.Algebra.Ring.Nat

/-!
# Lists of addresses that run through pages

A buffer that is made of pages of `p` bytes, wherever the pages are, is the list of the
addresses of its bytes: within a page an address follows the one before.

## Main definitions

- `Paged p l` — the addresses `l` run through pages of `p` bytes

## Main results

- `Paged.eq_append` — the first page, and what is behind it
- `Paged.append` — pages behind whole pages
-/

namespace Chunked

/-- The addresses run through pages: each page begins at a multiple of `p`. -/
structure Paged (p : ℕ) (l : List ℕ) : Prop where
  step : ∀ i < l.length, l.getD i 0 = l.getD (p * (i / p)) 0 + i % p
  base : ∀ k, p * k < l.length → p ∣ l.getD (p * k) 0

variable {p : ℕ} {l l' : List ℕ}

theorem getD_range' {a n i : ℕ} (h : i < n) : (List.range' a n).getD i 0 = a + i := by
  rw [List.getD_eq_getElem _ _ (by simpa using h), List.getElem_range', one_mul]

theorem getD_drop (l : List ℕ) (n i : ℕ) : (l.drop n).getD i 0 = l.getD (n + i) 0 := by
  rw [List.getD_eq_getElem?_getD, List.getD_eq_getElem?_getD, List.getElem?_drop]

theorem paged_nil : Paged p [] := ⟨by simp, by simp⟩

theorem paged_range' {a n : ℕ} (h : p ∣ a) : Paged p (List.range' a n) where
  step i hi := by
    rw [List.length_range'] at hi
    rw [getD_range' hi, getD_range' (lt_of_le_of_lt (Nat.mul_div_le i p) hi), add_assoc,
      Nat.div_add_mod]
  base k hk := by
    rw [List.length_range'] at hk
    rw [getD_range' hk]
    exact dvd_add h (dvd_mul_right p k)

/-- The pages behind the first `k`. -/
theorem Paged.drop (h : Paged p l) (hp : 0 < p) (k : ℕ) : Paged p (l.drop (p * k)) where
  step i hi := by
    rw [List.length_drop] at hi
    have hdiv : (p * k + i) / p = k + i / p := Nat.mul_add_div hp k i
    rw [getD_drop, getD_drop, h.step _ (by omega), hdiv, Nat.mul_add_mod, Nat.mul_add]
  base j hj := by
    rw [List.length_drop] at hj
    rw [getD_drop, ← Nat.mul_add]
    apply h.base
    rw [Nat.mul_add]
    omega

/-- The first page, as far as it goes. -/
theorem Paged.take (h : Paged p l) {n : ℕ} (hn : n ≤ p) (hl : n ≤ l.length) :
    l.take n = List.range' (l.getD 0 0) n := by
  apply List.ext_getElem
  · rw [List.length_take, List.length_range', min_eq_left hl]
  · intro i hi _
    rw [List.length_take] at hi
    have hip : i < p := by omega
    have hstep := h.step i (by omega)
    rw [Nat.div_eq_of_lt hip, mul_zero, Nat.mod_eq_of_lt hip,
      List.getD_eq_getElem _ _ (by omega : i < l.length)] at hstep
    rw [List.getElem_take, List.getElem_range', one_mul, hstep]

/-- The first page and what is behind it. -/
theorem Paged.eq_append (h : Paged p l) (n : ℕ) (hn : n ≤ l.length) :
    l.take n = List.range' (l.getD 0 0) (min n p) ++ (l.drop p).take (n - p) := by
  rw [← h.take (min_le_right n p) (by omega)]
  rcases Nat.le_total n p with hnp | hpn
  · rw [min_eq_left hnp, Nat.sub_eq_zero_of_le hnp, List.take_zero, List.append_nil]
  · rw [min_eq_right hpn, ← List.take_add, Nat.add_sub_cancel' hpn]

theorem Paged.append (h : Paged p l) (h' : Paged p l') (hp : 0 < p) (hl : p ∣ l.length) :
    Paged p (l ++ l') := by
  obtain ⟨q, hq⟩ := hl
  have hleft : ∀ {i}, i < p * q → (l ++ l').getD i 0 = l.getD i 0 := fun hi =>
    List.getD_append _ _ _ _ (by omega)
  have hright : ∀ {i}, (l ++ l').getD (p * q + i) 0 = l'.getD i 0 := by
    intro i
    rw [List.getD_append_right _ _ _ _ (by omega), hq, Nat.add_sub_cancel_left]
  constructor
  · intro i hi
    rw [List.length_append, hq] at hi
    rcases Nat.lt_or_ge i (p * q) with hiq | hiq
    · rw [hleft hiq, hleft (lt_of_le_of_lt (Nat.mul_div_le i p) hiq), h.step i (by omega)]
    · obtain ⟨j, rfl⟩ := Nat.exists_eq_add_of_le hiq
      rw [Nat.mul_add_div hp, Nat.mul_add, Nat.mul_add_mod, hright, hright]
      exact h'.step j (by omega)
  · intro k hk
    rw [List.length_append, hq] at hk
    rcases Nat.lt_or_ge k q with hkq | hkq
    · have hlt : p * k < p * q := Nat.mul_lt_mul_of_pos_left hkq hp
      rw [hleft hlt]
      exact h.base k (by omega)
    · obtain ⟨j, rfl⟩ := Nat.exists_eq_add_of_le hkq
      rw [Nat.mul_add] at hk ⊢
      rw [hright]
      exact h'.base j (by omega)

end Chunked
