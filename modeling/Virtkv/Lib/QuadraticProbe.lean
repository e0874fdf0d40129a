import Mathlib.Data.Nat.ModEq
import Mathlib.Data.Int.ModEq
import Mathlib.Algebra.Ring.Parity
import Mathlib.Tactic.Ring

/-!
# Quadratic probing modulo a power of two

The offsets `c + c ^ 2`, taken modulo a power of two, run through all even numbers while
`c` runs through the first half of the counts. Followed by a reduction modulo an odd
number they still reach every residue, since a residue and the same residue one modulus
further differ in parity.

## Main results

- `exists_count_modEq` — every even number is an offset
- `exists_count` — every slot of a table with an odd number of slots is probed
-/

namespace QuadraticProbe

/-- The mirrored count has the other half of the offsets. -/
theorem mirror_offset {k c i : ℕ} {a t : ℤ} (hi : c + i + 1 = 2 ^ (k + 1))
    (ht : (c : ℤ) + c * c - a = 2 ^ (k + 1) * t) :
    (i : ℤ) + i * i - a = 2 ^ (k + 1) * (t - 1 + 2 * (2 ^ k - c)) := by
  have hi' : (i : ℤ) = 2 ^ (k + 1) - 1 - c := by
    have hcast : (c : ℤ) + i + 1 = 2 ^ (k + 1) := mod_cast hi
    omega
  calc (i : ℤ) + i * i - a
      = ((c : ℤ) + c * c - a) + 2 ^ (k + 1) * (2 ^ (k + 1) - 1 - 2 * c) := by
        rw [hi']
        ring
    _ = 2 ^ (k + 1) * (t - 1 + 2 * (2 ^ k - c)) := by
        rw [ht]
        ring

/-- The counts below `2 ^ k` have every even number as their offset. -/
theorem exists_count_modEq (k a : ℕ) : ∃ c < 2 ^ k, c + c * c ≡ 2 * a [MOD 2 ^ (k + 1)] := by
  induction k with
  | zero =>
    refine ⟨0, by omega, ?_⟩
    exact (Nat.modEq_zero_iff_dvd.mpr ⟨a, by ring⟩).symm
  | succ k ih =>
    obtain ⟨c, hc, hmod⟩ := ih
    have hpow : 2 ^ (k + 1) = 2 * 2 ^ k := Nat.pow_succ'
    obtain ⟨t, ht⟩ := Nat.modEq_iff_dvd.mp hmod.symm
    push_cast at ht
    -- the next bit of the offset of `c` decides between `c` and its mirror
    rcases Int.even_or_odd' t with ⟨u, rfl | rfl⟩
    · refine ⟨c, by omega, (Nat.modEq_iff_dvd.mpr ⟨u, ?_⟩).symm⟩
      push_cast
      rw [ht]
      ring
    · refine ⟨2 ^ (k + 1) - 1 - c, by omega, (Nat.modEq_iff_dvd.mpr ⟨u + (2 ^ k - c), ?_⟩).symm⟩
      have hm := @mirror_offset k c (2 ^ (k + 1) - 1 - c) _ _ (by omega) ht
      push_cast at hm ⊢
      rw [hm]
      ring

/-- Modulo an odd `m`, every residue has a representative of either parity below `2 * m`. -/
theorem exists_parity {m s : ℕ} (hm : Odd m) (hs : s < m) (h : ℕ) :
    ∃ v < 2 * m, v % m = s ∧ v % 2 = h % 2 := by
  obtain ⟨j, rfl⟩ := hm
  by_cases hpar : s % 2 = h % 2
  · exact ⟨s, by omega, Nat.mod_eq_of_lt hs, hpar⟩
  · refine ⟨s + (2 * j + 1), by omega, ?_, by omega⟩
    rw [Nat.add_mod_right, Nat.mod_eq_of_lt hs]

/-- With `w + 1`-bit hashes, every slot of a table of `m` slots is probed, for every odd
`m` below `2 ^ w`. -/
theorem exists_count {w m s h : ℕ} (hm : Odd m) (hlt : m < 2 ^ w) (hs : s < m)
    (hh : h < 2 ^ (w + 1)) : ∃ c < 2 ^ w, (h + c + c * c) % 2 ^ (w + 1) % m = s := by
  obtain ⟨v, hv, hvs, hpar⟩ := exists_parity hm hs h
  have hpow : 2 ^ (w + 1) = 2 * 2 ^ w := Nat.pow_succ'
  obtain ⟨a, ha⟩ : ∃ a, h + 2 * a = v + 2 ^ (w + 1) := ⟨(v + 2 ^ (w + 1) - h) / 2, by omega⟩
  obtain ⟨c, hc, hmod⟩ := exists_count_modEq w a
  have hsum : h + c + c * c ≡ v [MOD 2 ^ (w + 1)] := by
    have hadd := hmod.add_left h
    rw [ha, ← Nat.add_assoc] at hadd
    exact hadd.trans (Nat.add_modEq_right)
  refine ⟨c, hc, ?_⟩
  rw [hsum, Nat.mod_eq_of_lt (show v < 2 ^ (w + 1) by omega), hvs]

end QuadraticProbe
