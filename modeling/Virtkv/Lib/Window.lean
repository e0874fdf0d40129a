import Mathlib.Data.Nat.ModEq
import Mathlib.Logic.Function.Basic
import Virtkv.Lib.Ring

/-!
# Ring buffers as windows

A ring buffer of `n` slots that starts at `head` can show the values of an unbounded sequence
at `a, a + 1, .., a + n - 1`. Writing a slot writes the sequence; moving `head` slides the
window, if the slots left behind are given the values that come into view.

## Main results

- `Shows.write` — writing a slot
- `Shows.slide` — moving the window
-/

namespace Window

variable {α : Type*} {n head a i j k : ℕ} {buf buf' : ℕ → α} {f : ℕ → α}

theorem slot_inj (hi : i < n) (hj : j < n) (h : (head + i) % n = (head + j) % n) : i = j := by
  rcases Nat.lt_trichotomy i j with hlt | heq | hgt
  · exact absurd h (Ring.mod_ne (by omega) (by omega))
  · exact heq
  · exact absurd h.symm (Ring.mod_ne (by omega) (by omega))

/-- Every slot is at some distance from the head. -/
theorem exists_slot (hhead : head < n) {p : ℕ} (hp : p < n) : ∃ k < n, (head + k) % n = p := by
  rcases Nat.lt_or_ge p head with hlt | hge
  · refine ⟨n - head + p, by omega, ?_⟩
    rw [show head + (n - head + p) = p + n by omega, Nat.add_mod_right, Nat.mod_eq_of_lt hp]
  · refine ⟨p - head, by omega, ?_⟩
    rw [show head + (p - head) = p by omega, Nat.mod_eq_of_lt hp]

/-- The buffer shows the sequence `f` from `a` on. -/
structure Shows (n : ℕ) (buf : ℕ → α) (head a : ℕ) (f : ℕ → α) : Prop where
  head_lt : head < n
  slot : ∀ k < n, buf ((head + k) % n) = f (a + k)

/-- A buffer shows what is in it. -/
theorem shows_self (hhead : head < n) (buf : ℕ → α) :
    Shows n buf head 0 fun x => buf ((head + x) % n) where
  head_lt := hhead
  slot k _ := by rw [Nat.zero_add]

/-- A buffer of equal values shows a constant stretch of a sequence. -/
theorem shows_const {c : α} (hhead : head < n) (hbuf : ∀ p < n, buf p = c)
    (hf : ∀ x, a ≤ x → f x = c) : Shows n buf head a f where
  head_lt := hhead
  slot k _ := by rw [hbuf _ (Nat.mod_lt _ (Nat.zero_lt_of_lt hhead)), hf _ (Nat.le_add_right a k)]

namespace Shows

theorem write (h : Shows n buf head a f) (hk : k < n) (v : α) :
    Shows n (Function.update buf ((head + k) % n) v) head a (Function.update f (a + k) v) where
  head_lt := h.head_lt
  slot j hj := by
    by_cases heq : j = k
    · rw [heq, Function.update_self, Function.update_self]
    · rw [Function.update_of_ne fun hs => heq (slot_inj hj hk hs),
        Function.update_of_ne (by omega), h.slot j hj]

/-- The window moves by `j`: the first `j` slots take the values behind the window. -/
theorem slide (h : Shows n buf head a f)
    (hnew : ∀ k < j, buf' ((head + k) % n) = f (a + n + k))
    (hold : ∀ k, j ≤ k → k < n → buf' ((head + k) % n) = buf ((head + k) % n)) :
    Shows n buf' ((head + j) % n) (a + j) f where
  head_lt := Nat.mod_lt _ (Nat.zero_lt_of_lt h.head_lt)
  slot k hk := by
    rw [Nat.mod_add_mod, Nat.add_assoc]
    rcases Nat.lt_or_ge (j + k) n with hlt | hge
    · rw [hold _ (Nat.le_add_right j k) hlt, h.slot _ hlt, Nat.add_assoc]
    · obtain ⟨i, hi⟩ := Nat.exists_eq_add_of_le hge
      rw [hi, show head + (n + i) = head + i + n by omega, Nat.add_mod_right, hnew i (by omega)]
      congr 1
      omega

end Shows

end Window
