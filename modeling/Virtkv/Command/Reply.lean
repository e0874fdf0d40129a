import Virtkv.Command.Defs
import Mathlib.Order.Interval.Finset.Nat

/-!
# What a read copies

The range of pair memory that `__retrieve` hands to the IO worker for a read, and the
pieces in which the worker copies it to the pages of the host.
-/

namespace Virtkv

open Outcome

namespace Shard

/-! ### The copy loop of the worker -/

/-- The copy loop of `__do_perform_io_kv` for a read: the places and sizes of the pieces it
copies to the pages of the host, whose addresses are `prp`. -/
def copyLoop (prp : ℕ → ℕ) : ℕ → ℕ → ℕ → ℕ → List (ℕ × ℕ)
  | 0, _, _, _ => []
  | fuel + 1, prpOffs, offset, remaining =>
    if remaining = 0 then []
    else
      let memOffs := prp prpOffs % pageSize
      let ioSize := min remaining pageSize
      let ioSize := if pageSize < ioSize + memOffs then pageSize - memOffs else ioSize
      (offset, ioSize) :: copyLoop prp fuel (prpOffs + 1) (offset + ioSize) (remaining - ioSize)

/-- The pieces the worker copies. -/
def copies (prp : ℕ → ℕ) (x : Source) : List (ℕ × ℕ) :=
  match x.rsvd with
  | none => []
  | some start => copyLoop prp x.valueLen 0 start x.valueLen

/-- The bytes of a range of pair memory. -/
def span (start len : ℕ) : Finset ℕ := Finset.Ico start (start + len)

theorem ioSize_bounds {remaining memOffs : ℕ} (hrem : remaining ≠ 0) :
    let ioSize := min remaining pageSize
    let ioSize := if pageSize < ioSize + memOffs % pageSize then pageSize - memOffs % pageSize
      else ioSize
    0 < ioSize ∧ ioSize ≤ remaining := by
  have hpage : pageSize = 4096 := rfl
  have hmod : memOffs % pageSize < pageSize := Nat.mod_lt _ (by omega)
  dsimp only
  split <;> omega

/-- The pieces make up the range. -/
theorem copyLoop_biUnion (prp : ℕ → ℕ) {fuel prpOffs offset remaining : ℕ}
    (hfuel : remaining ≤ fuel) :
    (copyLoop prp fuel prpOffs offset remaining).toFinset.biUnion (fun q => span q.1 q.2) =
      span offset remaining := by
  induction fuel generalizing prpOffs offset remaining with
  | zero =>
    obtain rfl : remaining = 0 := by omega
    simp [copyLoop, span]
  | succ fuel ih =>
    unfold copyLoop
    split
    · rename_i hrem
      simp [hrem, span]
    · rename_i hrem
      obtain ⟨hpos, hle⟩ := @ioSize_bounds remaining (prp prpOffs) hrem
      dsimp only at hpos hle ⊢
      generalize (if pageSize < min remaining pageSize + prp prpOffs % pageSize then
        pageSize - prp prpOffs % pageSize else min remaining pageSize) = ioSize at hpos hle ⊢
      rw [List.toFinset_cons, Finset.biUnion_insert, ih (by omega)]
      ext i
      simp only [span, Finset.mem_union, Finset.mem_Ico]
      omega

/-- The worker copies exactly the range it is given. -/
theorem copies_biUnion (prp : ℕ → ℕ) {x : Source} {start : ℕ} (h : x.rsvd = some start) :
    (copies prp x).toFinset.biUnion (fun q => span q.1 q.2) = span start x.valueLen := by
  unfold copies
  rw [h]
  exact copyLoop_biUnion prp le_rfl

/-! ### The range of a read -/

/-- A successful read hands over a range of the value that fits the buffer of the host, and
only bytes of the value are copied; any other read copies nothing. -/
def Source.Within (x : Source) (klen realVlen vlen rOffset : ℕ) : Prop :=
  match x.status with
  | .success => ∃ start, x.rsvd = some start ∧ rOffset + x.valueLen ≤ realVlen ∧
      x.valueLen ≤ vlen ∧
      ∀ prp, (copies prp x).toFinset.biUnion (fun q => span q.1 q.2) ⊆
        span (PairMem.metaSz klen) realVlen
  | _ => x.rsvd = none ∧ ∀ prp, copies prp x = []

/-- A success, in terms of the range. -/
theorem Source.within_success {klen realVlen vlen rOffset start len : ℕ} :
    ({ status := .success, valueLen := len, rsvd := some start } : Source).Within
        klen realVlen vlen rOffset ↔
      rOffset + len ≤ realVlen ∧ len ≤ vlen ∧
        (0 < len → PairMem.metaSz klen ≤ start ∧
          start + len ≤ PairMem.metaSz klen + realVlen) := by
  unfold Within
  have hrange : span start len ⊆ span (PairMem.metaSz klen) realVlen ↔
      (0 < len → PairMem.metaSz klen ≤ start ∧
        start + len ≤ PairMem.metaSz klen + realVlen) := by
    unfold span
    rcases Nat.eq_zero_or_pos len with rfl | hpos
    · simp
    · rw [Finset.Ico_subset_Ico_iff (by omega)]
      exact ⟨fun h _ => h, fun h => h hpos⟩
  constructor
  · rintro ⟨start', hstart, hle, hbuf, hsub⟩
    cases hstart
    refine ⟨hle, hbuf, hrange.mp ?_⟩
    have hcopy := hsub fun _ => 0
    rwa [copies_biUnion _ rfl] at hcopy
  · rintro ⟨hle, hbuf, hsub⟩
    refine ⟨start, rfl, hle, hbuf, fun prp => ?_⟩
    rw [copies_biUnion prp rfl]
    exact hrange.mpr hsub

theorem klenFromValue_lt {mem : List UInt8} {klen : ℕ}
    (h : PairMem.klenFromValue mem = .ok klen) : klen < 2 ^ 8 := by
  simp only [PairMem.klenFromValue, bind_eq_ok] at h
  obtain ⟨b, -, h⟩ := h
  cases h
  exact UInt8.toNat_lt _

theorem vlenFromValue_lt {mem : List UInt8} {vlen : ℕ}
    (h : PairMem.vlenFromValue mem = .ok vlen) : 0 < vlen ∧ vlen < 2 ^ 32 := by
  simp only [PairMem.vlenFromValue, bind_eq_ok, ensure_eq_ok] at h
  obtain ⟨-, -, b, -, -, hpos, h⟩ := h
  cases h
  refine ⟨hpos, ?_⟩
  have h0 := UInt8.toNat_lt (b.getD 0 0)
  have h1 := UInt8.toNat_lt (b.getD 1 0)
  have h2 := UInt8.toNat_lt (b.getD 2 0)
  have h3 := UInt8.toNat_lt (b.getD 3 0)
  unfold ofLe32
  omega

/-- A read of a stored pair stays inside its value exactly if it starts at the value, or
starts before its end without a wrap of the 32-bit sums. -/
theorem readSource_within_iff {mem : List UInt8} {klen realVlen vlen rOffset : ℕ}
    (hk : PairMem.klenFromValue mem = .ok klen) (hv : PairMem.vlenFromValue mem = .ok realVlen)
    (hoff : rOffset < 2 ^ 32) (hvlen : vlen < 2 ^ 32) :
    (readSource realVlen klen vlen rOffset).Within klen realVlen vlen rOffset ↔
      rOffset = 0 ∨ (rOffset ≤ realVlen ∧ rOffset + vlen < 2 ^ 32 ∧
        (rOffset + PairMem.metaSz klen < 2 ^ 32 ∨ vlen = 0 ∨ rOffset = realVlen)) := by
  have hmeta : PairMem.metaSz klen = klen + 5 := by
    unfold PairMem.metaSz klenMarkerSz vlenMarkerSz
    omega
  have hklen := klenFromValue_lt hk
  obtain ⟨hpos, hlt⟩ := vlenFromValue_lt hv
  have hback : ((rOffset + PairMem.metaSz klen) % 2 ^ 32 + 2 ^ 32 - PairMem.metaSz klen) %
      2 ^ 32 = rOffset := by omega
  unfold readSource
  dsimp only
  rw [hback]
  split
  · rename_i hne
    -- an offset read: the sum is either exact or too small by 2 ^ 32
    split
    · rename_i hsum
      rw [Source.within_success]
      constructor
      · rintro ⟨hle, -, hrange⟩
        refine .inr ⟨by omega, by omega, ?_⟩
        by_contra hno
        have := hrange (by omega)
        omega
      · rintro (h0 | ⟨hle, hnowrap, hstart⟩)
        · exact absurd h0 hne
        · refine ⟨by omega, le_rfl, fun hlen => ?_⟩
          omega
    · rename_i hsum
      rw [Source.within_success]
      constructor
      · rintro ⟨hle, -, hrange⟩
        refine .inr ⟨by omega, by omega, ?_⟩
        by_contra hno
        have := hrange (by omega)
        omega
      · rintro (h0 | ⟨hle, hnowrap, hstart⟩)
        · exact absurd h0 hne
        · refine ⟨by omega, by omega, fun hlen => ?_⟩
          omega
  · rename_i h0
    have h0 : rOffset = 0 := by omega
    subst h0
    refine iff_of_true ?_ (.inl rfl)
    split
    · exact ⟨rfl, fun prp => rfl⟩
    · rw [Source.within_success]
      refine ⟨by omega, by omega, fun _ => ?_⟩
      omega

/-- A pair with a value of 100 bytes. -/
def smallPair : List UInt8 := PairMem.header [97] 100 ++ List.replicate 100 0

theorem readSource_within_smallPair :
    (readSource 100 1 64 36).Within 1 100 64 36 :=
  (@readSource_within_iff smallPair 1 100 64 36 (by decide) (by decide) (by decide)
    (by decide)).mpr (by decide)

/-- A read behind the end of the value succeeds, with almost `2 ^ 32` bytes to copy. -/
theorem readSource_behind_smallPair :
    PairMem.klenFromValue smallPair = .ok 1 ∧ PairMem.vlenFromValue smallPair = .ok 100 ∧
      readSource 100 1 64 200 =
        { status := .success, valueLen := 2 ^ 32 - 100, rsvd := some 206 } ∧
      ¬(readSource 100 1 64 200).Within 1 100 64 200 := by
  refine ⟨by decide, by decide, by decide, ?_⟩
  rw [show readSource 100 1 64 200 =
    { status := .success, valueLen := 2 ^ 32 - 100, rsvd := some 206 } by decide,
    Source.within_success]
  decide

end Shard

end Virtkv
