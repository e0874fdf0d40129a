import Virtkv.Lib.Ring

/-!
# Ring buffers with lap bits

A producer writes the slots of a ring of `n` slots in turn and a consumer reads them in turn,
without a counter that both can see: every slot carries a bit, which the producer flips from
one lap to the next. `Holds` says that the bits are those of a ring into which `posted` values
were written and out of which `read` were read.

## Main results

- `Holds.pending_iff` — the bit under the consumer tells whether there is a value to read
- `Holds.post`, `Holds.take` — writing a value and reading one
- `mod_succ`, `lap_succ` — how an index and a bit move on
-/

namespace PhaseRing

variable {n i posted read : ℕ} {bit bit' : ℕ → Bool}

/-- The bit of the `i`-th value: set on every other lap, beginning with the first. -/
def lap (n i : ℕ) : Bool := decide (i / n % 2 = 0)

theorem lap_zero (n : ℕ) : lap n 0 = true := by
  rw [lap, Nat.zero_div]
  rfl

/-- The same slot has the other bit on the next lap. -/
theorem lap_add (hn : 0 < n) (i : ℕ) : lap n (i + n) = !lap n i := by
  unfold lap
  rw [Nat.add_div_right i hn]
  rcases Nat.mod_two_eq_zero_or_one (i / n) with h | h
  · rw [decide_eq_true h, decide_eq_false (by omega)]
    rfl
  · rw [decide_eq_false (show ¬i / n % 2 = 0 by omega), decide_eq_true (by omega)]
    rfl

theorem mod_succ (hn : 0 < n) (i : ℕ) :
    (i + 1) % n = if i % n + 1 = n then 0 else i % n + 1 := by
  have hlt := Nat.mod_lt i hn
  rw [← Nat.mod_add_mod]
  split
  · rename_i he
    rw [he, Nat.mod_self]
  · rw [Nat.mod_eq_of_lt]
    omega

theorem lap_succ (hn : 0 < n) (i : ℕ) :
    lap n (i + 1) = if i % n + 1 = n then !lap n i else lap n i := by
  have hlt := Nat.mod_lt i hn
  have hdm := Nat.div_add_mod i n
  split
  · rename_i he
    -- the lap ends: `i + 1` is a multiple of `n`
    have hdiv : (i + 1) / n = (i + n) / n := by
      rw [Nat.add_div_right i hn, ← hdm, Nat.add_assoc, he, ← Nat.mul_succ,
        Nat.mul_div_cancel_left _ hn, hdm]
    rw [← lap_add hn, lap, lap, hdiv]
  · have hdiv : (i + 1) / n = i / n := by
      apply Nat.div_eq_of_lt_le
      · rw [Nat.mul_comm]
        omega
      · rw [Nat.add_mul, Nat.mul_comm]
        omega
    rw [lap, lap, hdiv]

/-- The bits after `posted` values were written and `read` of them were read. -/
structure Holds (n : ℕ) (bit : ℕ → Bool) (posted read : ℕ) : Prop where
  read_le : read ≤ posted
  posted_le : posted ≤ read + n
  unread : ∀ i, read ≤ i → i < posted → bit (i % n) = lap n i
  old : ∀ i, posted ≤ i → i < read + n → bit (i % n) = !lap n i

/-- A ring of cleared bits. -/
theorem holds_clear (hbit : ∀ i, bit i = false) : Holds n bit 0 0 where
  read_le := le_rfl
  posted_le := Nat.zero_le _
  unread i _ hi := absurd hi (Nat.not_lt_zero i)
  old i _ hi := by
    rw [Nat.zero_add] at hi
    rw [hbit, lap, Nat.div_eq_of_lt hi]
    rfl

namespace Holds

theorem congr (h : Holds n bit posted read) (hbit : ∀ i, bit' i = bit i) :
    Holds n bit' posted read := by
  have he : bit' = bit := funext hbit
  rwa [he]

/-- The consumer compares the bit under its index with the bit of its lap. -/
theorem pending_iff (h : Holds n bit posted read) (hn : 0 < n) :
    bit (read % n) = lap n read ↔ read < posted := by
  constructor
  · intro hbit
    by_contra hge
    have hold := h.old read (Nat.le_of_not_lt hge) (Nat.lt_add_of_pos_right hn)
    rw [hbit] at hold
    cases hl : lap n read <;> rw [hl] at hold <;> cases hold
  · exact h.unread read le_rfl

/-- A value is written while there is a slot that is not to be read. -/
theorem post (h : Holds n bit posted read) (hroom : posted < read + n) :
    Holds n (Function.update bit (posted % n) (lap n posted)) (posted + 1) read where
  read_le := Nat.le_succ_of_le h.read_le
  posted_le := hroom
  unread i hi hlt := by
    rcases Nat.lt_succ_iff_lt_or_eq.mp hlt with hlt | rfl
    · rw [Function.update_of_ne (Ring.mod_ne hlt (by omega)), h.unread i hi hlt]
    · rw [Function.update_self]
  old i hi hlt := by
    have hne : i % n ≠ posted % n := (Ring.mod_ne (by omega) (by have := h.read_le; omega)).symm
    rw [Function.update_of_ne hne, h.old i (by omega) hlt]

/-- A value is read. -/
theorem take (h : Holds n bit posted read) (hlt : read < posted) :
    Holds n bit posted (read + 1) where
  read_le := hlt
  posted_le := by
    have := h.posted_le
    omega
  unread i hi hi' := h.unread i (by omega) hi'
  old i hi hi' := by
    rcases Nat.lt_or_ge i (read + n) with hin | hout
    · exact h.old i hi hin
    · -- the slot just read will be written on the next lap
      have hn : 0 < n := by omega
      obtain rfl : i = read + n := by omega
      rw [Nat.add_mod_right, lap_add hn, Bool.not_not]
      exact h.unread read le_rfl hlt

end Holds

end PhaseRing
