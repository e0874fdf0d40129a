import Mathlib.Order.CompletePartialOrder
import Mathlib.Order.Interval.Set.LinearOrder
import Virtkv.Gc.Shift

/-!
# Merging offset deletes

`__combine_shifts` sorts the deletes collected for a pair by offset and merges ranges that
touch. It keeps one range in hand; a delete that begins behind it closes it, one that begins
at its end extends it, one that lies inside it is dropped. There is no branch for a delete that
begins inside the range and ends behind it: the assertion at the end of the chain fails.

The kernel's `sort` is not stable, so the order of deletes with the same offset is left open:
it is a parameter of which only `Sorts` is known.
-/

namespace Virtkv

open Outcome

namespace Shift

/-! ### Ranges -/

/-- The end of a shift. -/
def stop (x : ℕ) : ℕ := off x + len x

/-- The bytes of a shift. -/
def bytes (x : ℕ) : Set ℕ := Set.Ico (off x) (stop x)

/-- The bytes of a list of shifts. -/
def allBytes (xs : List ℕ) : Set ℕ := {n | ∃ x ∈ xs, n ∈ bytes x}

/-- A shift that is not empty and stays in the 32-bit numbers; its highest bit is the mark of
an offset delete. -/
structure Proper (x : ℕ) : Prop where
  len_pos : 0 < len x
  off_lt : off x < 2 ^ 31
  stop_lt : stop x < 2 ^ 32

/-- The order `comp` sorts by. -/
def Ordered (xs : List ℕ) : Prop := xs.Pairwise fun a b => off a ≤ off b

/-- What is known of the kernel's `sort` with `comp`. -/
def Sorts (sort : List ℕ → List ℕ) : Prop := ∀ xs, (sort xs).Perm xs ∧ Ordered (sort xs)

theorem off_pack (o : ℕ) {l : ℕ} (h : l < 2 ^ 32) : off (pack o l) = o := by
  rw [off, pack, Nat.mul_comm, Nat.mul_add_div (by decide), Nat.div_eq_of_lt h, Nat.add_zero]

theorem len_pack (o : ℕ) {l : ℕ} (h : l < 2 ^ 32) : len (pack o l) = l := by
  rw [len, pack, Nat.mul_add_mod_self_right, Nat.mod_eq_of_lt h]

theorem bytes_pack (o : ℕ) {l : ℕ} (h : l < 2 ^ 32) : bytes (pack o l) = Set.Ico o (o + l) := by
  rw [bytes, stop, off_pack o h, len_pack o h]

@[simp] theorem allBytes_nil : allBytes [] = ∅ := by
  ext n
  simp [allBytes]

@[simp] theorem allBytes_cons (x : ℕ) (xs : List ℕ) :
    allBytes (x :: xs) = bytes x ∪ allBytes xs := by
  ext n
  simp [allBytes]

theorem allBytes_perm {xs ys : List ℕ} (h : xs.Perm ys) : allBytes xs = allBytes ys := by
  ext n
  simp only [allBytes, Set.mem_ofPred_eq, h.mem_iff]

/-! ### The loop -/

/-- `__combine_shifts` with the kernel's `sort`. -/
def combineWith (sort : List ℕ → List ℕ) (xs : List ℕ) : Except Fault (List ℕ) :=
  match sort xs with
  | [] => .ok []
  | x :: ys => do
    ensure (xs.length ≤ maxShifts) .bug
    combineLoop ys (off x) (len x) (off x + len x)

theorem combine_eq (d : Device) : combine d = combineWith d.sort := rfl

/-- A sort that is stable. -/
def sorted (xs : List ℕ) : List ℕ := xs.insertionSort fun a b => off a ≤ off b

theorem sorts_sorted : Sorts sorted := by
  intro xs
  have htotal : Std.Total fun a b : ℕ => off a ≤ off b := ⟨fun a b => Nat.le_total _ _⟩
  have htrans : IsTrans ℕ fun a b => off a ≤ off b := ⟨fun _ _ _ => Nat.le_trans⟩
  exact ⟨List.perm_insertionSort _ xs, List.pairwise_insertionSort _ xs⟩

/-- One round with the range `[o, o + l)` in hand: the first of the three cases of a touching
range and the test for a repeated one never decide anything by themselves. -/
theorem combineLoop_cons {o l x : ℕ} (xs : List ℕ) (ho : o ≤ off x) (hl : 0 < l)
    (hx : 0 < len x) :
    combineLoop (x :: xs) o l (o + l) =
      if o + l < off x then do
        let ys ← combineLoop xs (off x) (len x) (off x + len x)
        return pack o l :: ys
      else if off x = o + l then combineLoop xs o (l + len x) (o + (l + len x))
      else if stop x ≤ o + l then combineLoop xs o l (o + l)
      else .error .bug := by
  rw [combineLoop]
  by_cases hsame : o = off x ∧ l = len x
  · obtain ⟨rfl, rfl⟩ := hsame
    rw [if_pos ⟨rfl, rfl⟩, if_neg (by omega), if_neg (by omega),
      if_pos (show stop x ≤ off x + len x from le_rfl)]
  rw [if_neg hsame]
  by_cases hgap : o + l < off x
  · rw [if_pos (.inl hgap), if_pos hgap]
  rw [if_neg (by omega), if_neg hgap, if_neg (show ¬off x + len x ≤ o by omega)]
  by_cases htouch : off x = o + l
  · rw [if_pos (by omega), if_pos htouch]
  rw [if_neg (by omega), if_neg htouch]
  by_cases hin : stop x ≤ o + l
  · rw [if_pos hin, ensure_of ⟨ho, hin⟩, ok_bind]
  · rw [if_neg hin, ensure, if_neg (fun h => hin h.2), error_bind]

/-! ### When the merge finishes -/

/-- A shift begins inside one of those before it and ends behind all of them. -/
def Overhangs (pre : List ℕ) (x : ℕ) : Prop :=
  (∃ y ∈ pre, off x < stop y) ∧ ∀ y ∈ pre, stop y < stop x

/-- No shift of the list overhangs those before it. -/
def NoOverhang (pre xs : List ℕ) : Prop :=
  ∀ mid x post, xs = mid ++ x :: post → ¬Overhangs (pre ++ mid) x

theorem noOverhang_nil (pre : List ℕ) : NoOverhang pre [] := by
  intro mid x post h
  simp at h

theorem noOverhang_cons {pre xs : List ℕ} {x : ℕ} :
    NoOverhang pre (x :: xs) ↔ ¬Overhangs pre x ∧ NoOverhang (pre ++ [x]) xs := by
  constructor
  · intro h
    refine ⟨fun hx => h [] x xs rfl (by rwa [List.append_nil]), fun mid y post heq => ?_⟩
    rw [List.append_assoc]
    exact h (x :: mid) y post (by rw [heq]; rfl)
  · rintro ⟨hx, hxs⟩ mid y post heq
    cases mid with
    | nil =>
      obtain ⟨rfl, -⟩ := List.cons.inj heq
      rwa [List.append_nil]
    | cons z mid =>
      obtain ⟨rfl, htail⟩ := List.cons.inj heq
      have := hxs mid y post htail
      rwa [List.append_assoc] at this

/-- `reach` is the furthest end of the shifts looked at. -/
structure Reach (pre : List ℕ) (reach : ℕ) : Prop where
  le : ∀ y ∈ pre, stop y ≤ reach
  mem : ∃ y ∈ pre, stop y = reach

theorem Reach.overhangs_iff {pre : List ℕ} {reach x : ℕ} (h : Reach pre reach) :
    Overhangs pre x ↔ off x < reach ∧ reach < stop x := by
  obtain ⟨z, hz, hreach⟩ := h.mem
  constructor
  · rintro ⟨⟨y, hy, hoff⟩, hall⟩
    have := h.le y hy
    have := hall z hz
    omega
  · rintro ⟨hoff, hstop⟩
    refine ⟨⟨z, hz, by omega⟩, fun y hy => ?_⟩
    have := h.le y hy
    omega

/-- The furthest end with one more shift. -/
theorem Reach.append {pre : List ℕ} {reach : ℕ} (h : Reach pre reach) (x : ℕ) :
    Reach (pre ++ [x]) (max reach (stop x)) where
  le := by
    intro y hy
    rw [List.mem_append, List.mem_singleton] at hy
    rcases hy with hy | rfl
    · exact le_trans (h.le y hy) (le_max_left _ _)
    · exact le_max_right _ _
  mem := by
    obtain ⟨z, hz, hreach⟩ := h.mem
    rcases le_total reach (stop x) with hle | hle
    · exact ⟨x, by simp, by omega⟩
    · exact ⟨z, List.mem_append_left _ hz, by omega⟩

/-- The loop finishes if and only if no shift overhangs. -/
theorem combineLoop_finishes_iff {pre xs : List ℕ} {o l : ℕ} (hl : 0 < l)
    (hreach : Reach pre (o + l)) (ho : ∀ x ∈ xs, o ≤ off x) (hsort : Ordered xs)
    (hpos : ∀ x ∈ xs, 0 < len x) :
    (∃ ys, combineLoop xs o l (o + l) = .ok ys) ↔ NoOverhang pre xs := by
  induction xs generalizing pre o l with
  | nil => exact ⟨fun _ => noOverhang_nil pre, fun _ => ⟨_, rfl⟩⟩
  | cons x xs ih =>
    obtain ⟨hxs, hsort⟩ := List.pairwise_cons.mp hsort
    have hox := ho x List.mem_cons_self
    have hx := hpos x List.mem_cons_self
    have hpos' : ∀ y ∈ xs, 0 < len y := fun y hy => hpos y (List.mem_cons_of_mem _ hy)
    have ho' : ∀ y ∈ xs, o ≤ off y := fun y hy => ho y (List.mem_cons_of_mem _ hy)
    have hnext := hreach.append x
    rw [combineLoop_cons xs hox hl hx, noOverhang_cons, hreach.overhangs_iff]
    have hstop : stop x = off x + len x := rfl
    by_cases hgap : o + l < off x
    · -- the range in hand is closed
      rw [if_pos hgap]
      rw [show max (o + l) (stop x) = off x + len x by omega] at hnext
      have := ih hx hnext hxs hsort hpos'
      rw [← this, and_iff_right (by omega)]
      constructor
      · rintro ⟨ys, h⟩
        obtain ⟨zs, hzs, -⟩ := bind_eq_ok.mp h
        exact ⟨zs, hzs⟩
      · rintro ⟨zs, hzs⟩
        exact ⟨pack o l :: zs, bind_eq_ok.mpr ⟨zs, hzs, rfl⟩⟩
    rw [if_neg hgap]
    by_cases htouch : off x = o + l
    · -- the range in hand grows by the delete
      rw [if_pos htouch]
      rw [show max (o + l) (stop x) = o + (l + len x) by omega] at hnext
      rw [ih (by omega) hnext ho' hsort hpos', and_iff_right (by omega)]
    rw [if_neg htouch]
    by_cases hin : stop x ≤ o + l
    · -- the delete lies inside and is dropped
      rw [if_pos hin]
      rw [show max (o + l) (stop x) = o + l by omega] at hnext
      rw [ih hl hnext ho' hsort hpos', and_iff_right (by omega)]
    · -- it begins inside and ends behind: the assertion
      rw [if_neg hin]
      refine iff_of_false (fun ⟨ys, h⟩ => ?_) (fun h => h.1 (by omega))
      cases h

/-! ### What the merge makes of the ranges -/

/-- The ranges `ys` are in order, share no byte and cover the bytes `all`. -/
structure Covers (all : Set ℕ) (ys : List ℕ) : Prop where
  ordered : Ordered ys
  disjoint : ys.Pairwise fun a b => Disjoint (bytes a) (bytes b)
  bytes_eq : allBytes ys = all

/-- The loop adds the bytes of the rest to those of the range in hand. -/
theorem combineLoop_covers {xs ys : List ℕ} {o l : ℕ} (hl : 0 < l) (hlt : o + l < 2 ^ 32)
    (ho : ∀ x ∈ xs, o ≤ off x) (hsort : Ordered xs)
    (hx : ∀ x ∈ xs, 0 < len x ∧ stop x < 2 ^ 32)
    (h : combineLoop xs o l (o + l) = .ok ys) :
    Covers (Set.Ico o (o + l) ∪ allBytes xs) ys ∧ ∀ y ∈ ys, o ≤ off y := by
  induction xs generalizing o l ys with
  | nil =>
    cases h
    refine ⟨⟨List.pairwise_singleton _ _, List.pairwise_singleton _ _, ?_⟩, ?_⟩
    · rw [allBytes_cons, bytes_pack o (by omega)]
    · intro y hy
      rw [List.mem_singleton.mp hy, off_pack o (by omega)]
  | cons x xs ih =>
    obtain ⟨hxs, hsort⟩ := List.pairwise_cons.mp hsort
    have hox := ho x List.mem_cons_self
    obtain ⟨hlen, hstop⟩ := hx x List.mem_cons_self
    have hx' : ∀ y ∈ xs, 0 < len y ∧ stop y < 2 ^ 32 := fun y hy => hx y (List.mem_cons_of_mem _ hy)
    have ho' : ∀ y ∈ xs, o ≤ off y := fun y hy => ho y (List.mem_cons_of_mem _ hy)
    have hend : stop x = off x + len x := rfl
    rw [combineLoop_cons xs hox hl hlen] at h
    rw [allBytes_cons, ← Set.union_assoc]
    split at h
    · -- a gap: everything that follows lies behind the closed range
      rename_i hgap
      obtain ⟨zs, hzs, h⟩ := bind_eq_ok.mp h
      cases h
      obtain ⟨hcov, hge⟩ := ih hlen (by omega) hxs hsort hx' hzs
      have hpack := bytes_pack o (show l < 2 ^ 32 by omega)
      refine ⟨⟨List.pairwise_cons.mpr ⟨?_, hcov.ordered⟩,
        List.pairwise_cons.mpr ⟨?_, hcov.disjoint⟩, ?_⟩, ?_⟩
      · intro z hz
        have := hge z hz
        rw [off_pack o (by omega)]
        omega
      · intro z hz
        have := hge z hz
        rw [hpack, Set.disjoint_left]
        rintro n ⟨-, hn⟩ ⟨hn', -⟩
        omega
      · rw [allBytes_cons, hpack, hcov.bytes_eq, ← Set.union_assoc]
        rfl
      · intro z hz
        rcases List.mem_cons.mp hz with rfl | hz
        · rw [off_pack o (by omega)]
        · have := hge z hz
          omega
    split at h
    · rename_i htouch
      -- the delete begins where the range ends
      have hjoin : Set.Ico o (o + l) ∪ bytes x = Set.Ico o (o + (l + len x)) := by
        rw [bytes, hend, htouch, ← Nat.add_assoc]
        exact Set.Ico_union_Ico_eq_Ico (by omega) (by omega)
      rw [hjoin]
      exact ih (by omega) (by omega) ho' hsort hx' h
    split at h
    · rename_i hin
      -- the delete adds no bytes
      have hsub : bytes x ⊆ Set.Ico o (o + l) := Set.Ico_subset_Ico hox hin
      rw [Set.union_eq_left.mpr hsub]
      exact ih hl hlt ho' hsort hx' h
    · cases h

/-! ### The merge as a whole -/

/-- `__combine_shifts` finishes, and what it leaves in `shifts_post` covers the deletes. -/
def Merges (sort : List ℕ → List ℕ) (xs : List ℕ) : Prop :=
  ∃ ys, combineWith sort xs = .ok ys ∧ Covers (allBytes xs) ys

/-- The merge keeps the deleted bytes if and only if, in the order of the sorted list, no delete
begins inside the ones before it and ends behind all of them. -/
theorem merges_iff_noOverhang (sort : List ℕ → List ℕ) (hsort : Sorts sort) (xs : List ℕ)
    (hne : xs ≠ []) (hlen : xs.length ≤ maxShifts) (hx : ∀ x ∈ xs, Proper x) :
    Merges sort xs ↔ NoOverhang [] (sort xs) := by
  obtain ⟨hperm, hord⟩ := hsort xs
  rw [← List.length_pos_iff, ← hperm.length_eq, List.length_pos_iff] at hne
  have hprop : ∀ x ∈ sort xs, Proper x := fun x h => hx x (hperm.mem_iff.mp h)
  rw [Merges, combineWith, ← allBytes_perm hperm]
  generalize sort xs = zs at hord hne hprop
  cases zs with
  | nil => exact absurd rfl hne
  | cons x zs =>
    obtain ⟨hle, hord⟩ := List.pairwise_cons.mp hord
    obtain ⟨hpos, -, hstop⟩ := hprop x List.mem_cons_self
    have hzs : ∀ y ∈ zs, Proper y := fun y hy => hprop y (List.mem_cons_of_mem _ hy)
    have hreach : Reach [x] (off x + len x) := ⟨by simp [stop], x, by simp, rfl⟩
    have hfin := combineLoop_finishes_iff hpos hreach hle hord fun y hy => (hzs y hy).len_pos
    -- nothing comes before the first delete, so it cannot begin inside
    have hfirst : ¬Overhangs [] x := by
      rintro ⟨⟨y, hy, -⟩, -⟩
      cases hy
    rw [noOverhang_cons, List.nil_append, and_iff_right hfirst, ← hfin, ensure_of hlen]
    constructor
    · rintro ⟨ys, hys, -⟩
      exact ⟨ys, hys⟩
    · rintro ⟨ys, hys⟩
      refine ⟨ys, hys, ?_⟩
      rw [allBytes_cons]
      exact (combineLoop_covers hpos hstop hle hord
        (fun y hy => ⟨(hzs y hy).len_pos, (hzs y hy).stop_lt⟩) hys).1

/-- Three deletes, two of which touch and one of which lies inside. -/
theorem merges_iff_noOverhang_touching :
    Merges sorted [pack 4 2, pack 0 4, pack 1 2] ↔
      NoOverhang [] (sorted [pack 4 2, pack 0 4, pack 1 2]) := by
  refine merges_iff_noOverhang sorted sorts_sorted _ (by decide) (by decide) fun x hx => ?_
  rcases List.mem_cons.mp hx with rfl | hx
  · exact ⟨by decide, by decide, by decide⟩
  rcases List.mem_cons.mp hx with rfl | hx
  · exact ⟨by decide, by decide, by decide⟩
  rw [List.mem_singleton.mp hx]
  exact ⟨by decide, by decide, by decide⟩

/-- Of a pair with a key of 4 bytes, bytes 9 to 16 and bytes 13 to 20 are deleted: the assertion
fails. -/
theorem not_merges_overlapping : ¬Merges sorted [pack 9 8, pack 13 8] := by
  rintro ⟨ys, h, -⟩
  have hfail : combineWith sorted [pack 9 8, pack 13 8] = .error .bug := by decide
  rw [hfail] at h
  cases h

end Shift

end Virtkv
