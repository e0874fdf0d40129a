import Mathlib.Tactic.Linarith
import Virtkv.TwoLevel.Invariant

/-!
# Redistribution of the two-level table

`twolevel_reload` gathers every pair, sorts them, chooses the root keys so that the
leaves get equally many pairs and inserts the pairs again. Leaf `i` gets the pairs
at positions `cut i` up to `cut (i + 1)` of the sorted array. Since these are at most
`IN_LEAF`, no leaf is found full on the way, so the `reloading` assertion holds.
-/

namespace Virtkv

open Outcome

namespace TwoLevel

/-! ### Cutting an array into equal parts -/

/-- The first position of part `i`, when `n * q + r` positions are cut into `n` parts
and the first `r` parts get one position more. -/
def cut (q r i : ℕ) : ℕ := i * q + min i r

theorem cut_succ (q r i : ℕ) : cut q r (i + 1) = cut q r i + q + if i < r then 1 else 0 := by
  unfold cut
  rw [Nat.succ_mul]
  split <;> omega

theorem cut_zero (q r : ℕ) : cut q r 0 = 0 := by simp [cut]

theorem cut_mono (q r : ℕ) {i j : ℕ} (h : i ≤ j) : cut q r i ≤ cut q r j := by
  unfold cut
  have := Nat.mul_le_mul_right q h
  omega

theorem cut_div_mod {N n : ℕ} (hn : 0 < n) : cut (N / n) (N % n) n = N := by
  unfold cut
  rw [Nat.min_eq_right (Nat.mod_lt N hn).le]
  exact Nat.div_add_mod N n

theorem cut_pos {N n i : ℕ} (hN : 0 < N) : 0 < cut (N / n) (N % n) (i + 1) := by
  rw [cut_succ]
  by_cases hq : 0 < N / n
  · omega
  have hqr : N % n = N := by
    have := Nat.div_add_mod N n
    rwa [Nat.eq_zero_of_not_pos hq, Nat.mul_zero, Nat.zero_add] at this
  rw [hqr]
  by_cases hi : i < N
  · rw [if_pos hi]
    exact Nat.succ_pos _
  · have hcut : 0 < cut (N / n) N i := by
      unfold cut
      have : min i N = N := by omega
      omega
    exact Nat.lt_of_lt_of_le hcut (by rw [Nat.add_assoc]; exact Nat.le_add_right _ _)

/-- Every position lies in a part. -/
theorem exists_cut {q r n k : ℕ} (hk : k < cut q r n) :
    ∃ i < n, cut q r i ≤ k ∧ k < cut q r (i + 1) := by
  induction n with
  | zero => simp [cut_zero] at hk
  | succ n ih =>
    by_cases hlt : k < cut q r n
    · obtain ⟨i, hi, hik⟩ := ih hlt
      exact ⟨i, by omega, hik⟩
    · exact ⟨n, by omega, by omega, hk⟩

/-- A part has at most `c` positions, if there are at most `c` times as many positions
as parts. -/
theorem cut_succ_le {N n c : ℕ} (hN : N ≤ n * c) (i : ℕ) :
    cut (N / n) (N % n) (i + 1) ≤ cut (N / n) (N % n) i + c := by
  rw [cut_succ]
  have hq : N / n ≤ c := Nat.div_le_of_le_mul hN
  by_cases hr : i < N % n
  · rw [if_pos hr]
    -- a remainder means that the quotient is not the bound itself
    have hne : N / n ≠ c := by
      intro heq
      have := Nat.div_add_mod N n
      rw [heq] at this
      omega
    omega
  · rw [if_neg hr]
    omega

/-! ### The new root keys -/

/-- The pairs sorted by strictly increasing indices below `UINT_MAX`. -/
structure Sorted (es : List LeafE) : Prop where
  lt : ∀ a b (ha : a < es.length) (hb : b < es.length), a < b → es[a].1 < es[b].1
  key_lt : ∀ e ∈ es, e.1 < uintMax

theorem Sorted.le {es : List LeafE} (hs : Sorted es) {a b : ℕ} (ha : a < es.length)
    (hb : b < es.length) (hab : a ≤ b) : es[a].1 ≤ es[b].1 := by
  rcases Nat.eq_or_lt_of_le hab with rfl | hlt
  · exact le_rfl
  · exact (hs.lt a b ha hb hlt).le

/-- Key `i` of `n`: the largest index of part `i`, except for the last one. -/
def rootKey (es : List LeafE) (n i : ℕ) : ℕ :=
  if i + 1 < n then
    (es.getD (cut (es.length / n) (es.length % n) (i + 1) - 1) (uintMax, uintMax)).1
  else uintMax

theorem newRootsLoop_eq {es : List LeafE} {n : ℕ} (hes : 0 < es.length) {rem i : ℕ}
    (hi : i + rem = n) (hn : 0 < n) :
    newRootsLoop es n (es.length / n) rem i (cut (es.length / n) (es.length % n) i : ℕ)
      (es.length % n - i) = .ok ((List.range' i rem).map (rootKey es n)) := by
  induction rem generalizing i with
  | zero => rfl
  | succ rem ih =>
    have hk : ((cut (es.length / n) (es.length % n) i : ℕ) : ℤ) + (es.length / n : ℕ) - 1 +
        (if 0 < es.length % n - i then 1 else 0) =
        (cut (es.length / n) (es.length % n) (i + 1) - 1 : ℕ) := by
      have hpos := cut_pos (n := n) (i := i) hes
      rw [Nat.cast_sub hpos, cut_succ]
      by_cases hr : i < es.length % n
      · rw [if_pos hr, if_pos (by omega)]
        push_cast
        ring
      · rw [if_neg hr, if_neg (by omega)]
        push_cast
        ring
    rw [newRootsLoop, List.range'_succ, List.map_cons]
    simp only [hk]
    have hpos := cut_pos (n := n) (i := i) hes
    have hnext : ((cut (es.length / n) (es.length % n) (i + 1) - 1 : ℕ) : ℤ) + 1 =
        (cut (es.length / n) (es.length % n) (i + 1) : ℕ) := by omega
    have hsub : es.length % n - i - 1 = es.length % n - (i + 1) := by omega
    rw [hnext, hsub, ih (by omega)]
    by_cases hlast : i + 1 < n
    · have hlt : cut (es.length / n) (es.length % n) (i + 1) - 1 < es.length := by
        have h1 := cut_mono (es.length / n) (es.length % n) hlast.le
        rw [cut_div_mod hn] at h1
        omega
      simp only [rootKey, hlast, if_true, keyAt, Int.toNat_natCast,
        List.getElem?_eq_getElem hlt, List.getD_eq_getElem?_getD, Option.getD_some,
        if_neg (show ¬((_ : ℕ) : ℤ) < 0 from Int.not_lt.mpr (Int.natCast_nonneg _))]
      rfl
    · simp only [rootKey, hlast, if_false]
      rfl

/-- `__new_roots` returns the largest index of every part. -/
theorem newRoots_eq {es : List LeafE} {n : ℕ} (hes : 0 < es.length) (hn : 0 < n) :
    newRoots es n = .ok ((List.range' 0 n).map (rootKey es n)) := by
  have h := newRootsLoop_eq hes (Nat.zero_add n) hn
  rw [newRoots]
  simpa [cut_zero] using h

theorem setEntries_spec {ks : List ℕ} {i : ℕ} {m : PageWords} (hi : i + ks.length ≤ inRoot) :
    cnt (setEntries ks i m) = cnt m ∧
      (∀ k, entry (setEntries ks i m) k =
        if i ≤ k ∧ k < i + ks.length then ks.getD (k - i) 0 else entry m k) ∧
      ∀ k, SameLeaf m (setEntries ks i m) k := by
  induction ks generalizing i m with
  | nil =>
    refine ⟨rfl, fun k => ?_, fun _ _ _ => ⟨rfl, rfl⟩⟩
    rw [if_neg (by simp only [List.length_nil]; omega)]
    rfl
  | cons a ks ih =>
    rw [List.length_cons] at hi
    obtain ⟨h1, h2, h3⟩ := ih (i := i + 1) (m := setEntry m i a) (by omega)
    refine ⟨h1.trans (cnt_setEntry ..), fun k => ?_, fun k => ?_⟩
    · rw [setEntries, h2 k, List.length_cons]
      by_cases hki : k = i
      · subst hki
        rw [if_neg (by omega), if_pos (by omega)]
        simp
      · rw [entry_setEntry_of_ne hki]
        by_cases hin : i + 1 ≤ k ∧ k < i + 1 + ks.length
        · rw [if_pos hin, if_pos (by omega)]
          have : k - i = (k - (i + 1)) + 1 := by omega
          rw [this, List.getD_cons_succ]
        · rw [if_neg hin, if_neg (by omega)]
    · exact (sameLeaf_setEntry (by omega)).trans (h3 k)

/-! ### What is written -/

/-- The second page comes from the first one by writes to root keys and slots, in which an empty
index has no grain. -/
inductive Writes (m : PageWords) : PageWords → Prop
  | refl : Writes m m
  | slot {m' : PageWords} (h : Writes m m') (i : ℕ) {j x p : ℕ} (hj : j < inLeaf)
      (hp : x = uintMax → p = uintMax) : Writes m (setSlot m' i j x p)
  | key {m' : PageWords} (h : Writes m m') {i : ℕ} (hi : i < inRoot) (v : ℕ) :
      Writes m (setEntry m' i v)

namespace Writes

variable {m m' m'' : PageWords}

theorem trans (h : Writes m m') (h' : Writes m' m'') : Writes m m'' := by
  induction h' with
  | refl => exact h
  | slot _ i hj hp ih => exact ih.slot i hj hp
  | key _ hi v ih => exact ih.key hi v

theorem drainLeaf (i : ℕ) {n j : ℕ} (hn : j + n ≤ inLeaf) :
    Writes m (drainLeaf i n j m).2 := by
  induction n generalizing m j with
  | zero => exact refl
  | succ n ih =>
    rw [TwoLevel.drainLeaf]
    split
    · exact refl
    · exact (refl.slot i (by omega) fun _ => rfl).trans (ih (by omega))

theorem drainLeaves (n i : ℕ) : Writes m (drainLeaves n i m).2 := by
  induction n generalizing m i with
  | zero => exact refl
  | succ n ih => exact (drainLeaf i (Nat.zero_add _).le).trans (ih (i + 1))

theorem setEntries {ks : List ℕ} {i : ℕ} (hi : i + ks.length ≤ inRoot) :
    Writes m (setEntries ks i m) := by
  induction ks generalizing m i with
  | nil => exact refl
  | cons k ks ih =>
    rw [List.length_cons] at hi
    exact (refl.key (by omega) k).trans (ih (by omega))

theorem fillSlot (i : ℕ) {h p n j : ℕ} (hn : j + n ≤ inLeaf) (hp : h = uintMax → p = uintMax) :
    Writes m (fillSlot i h p n j m) := by
  induction n generalizing j with
  | zero => exact refl
  | succ n ih =>
    rw [TwoLevel.fillSlot]
    split
    · exact refl.slot i (by omega) hp
    · exact ih (by omega)

theorem insertLeaf {i h p : ℕ} (hi : i < inRoot) (hp : h = uintMax → p = uintMax) :
    Writes m (insertLeaf m i h p) := by
  rw [TwoLevel.insertLeaf]
  refine trans ?_ (fillSlot i (Nat.zero_add _).le hp)
  split
  · exact refl.key hi h
  · exact refl

end Writes

/-! ### Inserting the pairs again -/

/-- The table in the middle of a reload: the first `k` pairs are back. -/
structure Reloading (es : List LeafE) (n k : ℕ) (t : Table) (Ls : ℕ → List LeafE) : Prop where
  inv : TableInv t Ls
  cnt_eq : cnt t.mem = n
  keys : ∀ i < n, entry t.mem i = rootKey es n i
  count : t.cachedCnt = k
  length_eq : ∀ i, (Ls i).length = min k (cut (es.length / n) (es.length % n) (i + 1)) -
    min k (cut (es.length / n) (es.length % n) i)
  contents : ∀ e, (∃ i, e ∈ Ls i) ↔ e ∈ es.take k

namespace Reloading

variable {es : List LeafE} {n k : ℕ} {t : Table} {Ls : ℕ → List LeafE}

/-- The key of a part that is not the last one is the index at its end. -/
theorem rootKey_eq (hn : 0 < n) (hes : 0 < es.length) {i : ℕ} (hi : i + 1 < n) :
    ∃ h : cut (es.length / n) (es.length % n) (i + 1) - 1 < es.length,
      rootKey es n i = es[cut (es.length / n) (es.length % n) (i + 1) - 1].1 := by
  have hlt : cut (es.length / n) (es.length % n) (i + 1) - 1 < es.length := by
    have h1 := cut_mono (es.length / n) (es.length % n) hi.le
    rw [cut_div_mod hn] at h1
    have hpos := cut_pos (n := n) (i := i) hes
    omega
  refine ⟨hlt, ?_⟩
  rw [rootKey, if_pos hi, List.getD_eq_getElem?_getD, List.getElem?_eq_getElem hlt,
    Option.getD_some]

theorem rootKey_lt (hs : Sorted es) (hn : 0 < n) (hes : 0 < es.length) {i : ℕ} (hi : i + 1 < n) :
    rootKey es n i < uintMax := by
  obtain ⟨hlt, heq⟩ := rootKey_eq hn hes hi
  rw [heq]
  exact hs.key_lt _ (es.getElem_mem hlt)

/-- A table without pairs, with the new keys in its root. -/
theorem start {m : PageWords} (hs : Sorted es) (hes : 0 < es.length) (htwo : 2 ≤ n)
    (hroot : n ≤ inRoot) (hcnt : cnt m = n)
    (hempty : ∀ i < inRoot, ∀ j < inLeaf, hidx m i j = uintMax) :
    Reloading es n 0 ⟨0, setEntries ((List.range' 0 n).map (rootKey es n)) 0 m⟩
      (fun _ => []) := by
  set ks := (List.range' 0 n).map (rootKey es n) with hks
  have hkslen : ks.length = n := by simp [hks]
  obtain ⟨hc, hent, hsame⟩ := setEntries_spec (i := 0) (m := m) (show 0 + ks.length ≤ inRoot by omega)
  have hcm : cnt (setEntries ks 0 m) = n := hc.trans hcnt
  have hkeys : ∀ i < n, entry (setEntries ks 0 m) i = rootKey es n i := by
    intro i hi
    rw [hent i, if_pos (by omega), Nat.sub_zero, List.getD_eq_getElem?_getD,
      List.getElem?_eq_getElem (by omega)]
    simp [hks]
  refine ⟨⟨⟨?_, ?_, ?_, ?_⟩, ?_, ?_, ?_, ?_, ?_⟩, hcm, hkeys, rfl, ?_, ?_⟩
  · rw [hcm]; exact htwo
  · rw [hcm]; exact hroot
  · intro i j hij hj
    simp only [hcm] at hj
    rw [hkeys i (by omega), hkeys j hj]
    by_cases hlast : j + 1 < n
    · obtain ⟨ha, hae⟩ := rootKey_eq (n := n) (i := i) (by omega) hes (by omega)
      obtain ⟨hb, hbe⟩ := rootKey_eq (n := n) (i := j) (by omega) hes hlast
      rw [hae, hbe]
      have := cut_mono (es.length / n) (es.length % n) (i := i + 1) (j := j + 1) (by omega)
      exact hs.le ha hb (by omega)
    · have hj' : rootKey es n j = uintMax := by rw [rootKey, if_neg hlast]
      rw [hj']
      by_cases hi : i + 1 < n
      · exact (rootKey_lt hs (by omega) hes hi).le
      · rw [rootKey, if_neg hi]
  · simp only [hcm]
    rw [hkeys _ (by omega), rootKey, if_neg (by omega)]
  · intro i hi
    exact LeafHolds.same (leafHolds_nil fun j hj => hempty i hi j hj) (hsame i)
  · exact fun _ _ he => absurd he List.not_mem_nil
  · exact fun _ => List.nodup_nil
  · exact fun _ _ _ => rfl
  · simp [total]
  · simp
  · simp

/-- The pair at position `k` belongs to the leaf whose part has position `k`. -/
theorem routes (r : Reloading es n k t Ls) (hs : Sorted es) {i : ℕ} (hk : k < es.length)
    (hi : i < n) (hlo : cut (es.length / n) (es.length % n) i ≤ k)
    (hhi : k < cut (es.length / n) (es.length % n) (i + 1)) :
    Routes t.mem es[k].1 i where
  lt_cnt := by rw [r.cnt_eq]; exact hi
  below j hj := by
    obtain ⟨hlt, heq⟩ := rootKey_eq (n := n) (i := j) (show 0 < n by omega) (Nat.zero_lt_of_lt hk)
      (by omega)
    rw [r.keys j (by omega), heq]
    have h1 := cut_mono (es.length / n) (es.length % n) (i := j + 1) (j := i) (by omega)
    have h2 := cut_pos (n := n) (i := j) (N := es.length) (by omega)
    exact hs.lt _ k hlt hk (by omega)
  le_entry := by
    rw [r.keys i hi]
    by_cases hlast : i + 1 < n
    · obtain ⟨hlt, heq⟩ := rootKey_eq (show 0 < n by omega) (Nat.zero_lt_of_lt hk) hlast
      rw [heq]
      exact hs.le hk hlt (by omega)
    · rw [rootKey, if_neg hlast]
      exact (hs.key_lt _ (es.getElem_mem hk)).le

/-- One insertion of the reload: the leaf has room, and the next pair is back. -/
theorem step (r : Reloading es n k t Ls) (hs : Sorted es) (hk : k < es.length)
    (hfit : es.length ≤ n * inLeaf) (hsmall : es.length < 2 ^ 32) :
    ∃ t' Ls', insertReloading t es[k] = .ok t' ∧ Reloading es n (k + 1) t' Ls' ∧
      Writes t.mem t'.mem := by
  have hn : 0 < n := by
    have := r.inv.root.two_le
    rw [r.cnt_eq] at this
    omega
  obtain ⟨i, hi, hlo, hhi⟩ := exists_cut (q := es.length / n) (r := es.length % n) (n := n)
    (k := k) (by rw [cut_div_mod hn]; exact hk)
  have hroute := r.routes hs hk hi hlo hhi
  have hroom : (Ls i).length < inLeaf := by
    have := cut_succ_le hfit i
    rw [r.length_eq i]
    omega
  have hL := r.inv.leaf i (r.inv.lt_inRoot hroute)
  have hclosed : ∀ j, j + 1 < cnt t.mem → entry t.mem j ≠ uintMax := by
    intro j hj
    rw [r.cnt_eq] at hj
    rw [r.keys j (by omega)]
    exact (rootKey_lt hs hn (by omega) hj).ne
  have hnew : ∀ j, ∀ e ∈ Ls j, e.1 ≠ es[k].1 := by
    intro j e he
    obtain ⟨a, ha, rfl⟩ := List.getElem_of_mem ((r.contents e).mp ⟨j, he⟩)
    rw [List.length_take] at ha
    rw [List.getElem_take]
    exact (hs.lt a k (by omega) hk (by omega)).ne
  have hcount := r.count
  have hins := r.inv.insert (p := es[k].2) hroute (hs.key_lt _ (es.getElem_mem hk)) hnew hroom
    (by omega)
  obtain ⟨hc, he⟩ := TableInv.entry_insertLeaf (p := es[k].2) hroute hclosed hL hroom
  refine ⟨_, _, ?_, ⟨hins, hc.trans r.cnt_eq, ?_, ?_, ?_, ?_⟩,
    Writes.insertLeaf (r.inv.lt_inRoot hroute)
      fun heq => absurd heq (hs.key_lt _ (es.getElem_mem hk)).ne⟩
  · have hlast : hidx t.mem i (inLeaf - 1) = uintMax := hL.last_eq_iff.mpr hroom
    rw [insertReloading, r.inv.root.lowerBound_eq hroute]
    simp only [ensure_of hlast]
    rfl
  · intro j hj
    have := r.inv.root.le_inRoot
    have := r.cnt_eq
    exact (he j (by omega)).trans (r.keys j hj)
  · show (t.cachedCnt + 1) % 2 ^ 32 = k + 1
    omega
  · intro j
    by_cases hji : j = i
    · subst hji
      rw [Function.update_self, List.length_append, List.length_singleton, r.length_eq j]
      omega
    · rw [Function.update_of_ne hji, r.length_eq j]
      rcases Nat.lt_or_gt_of_ne hji with hlt | hgt
      · have := cut_mono (es.length / n) (es.length % n) (i := j + 1) (j := i) (by omega)
        have := cut_mono (es.length / n) (es.length % n) (i := j) (j := j + 1) (by omega)
        omega
      · have := cut_mono (es.length / n) (es.length % n) (i := i + 1) (j := j) (by omega)
        have := cut_mono (es.length / n) (es.length % n) (i := j) (j := j + 1) (by omega)
        omega
  · intro e
    rw [List.take_succ_eq_append_getElem hk, List.mem_append, List.mem_singleton, ← r.contents e]
    exact r.inv.mem_update_append hroute hnew

/-- All insertions of the reload. -/
theorem run (r : Reloading es n k t Ls) (hs : Sorted es) (hk : k ≤ es.length)
    (hfit : es.length ≤ n * inLeaf) (hsmall : es.length < 2 ^ 32) :
    ∃ t' Ls', (es.drop k).foldlM insertReloading t = .ok t' ∧
      Reloading es n es.length t' Ls' ∧ Writes t.mem t'.mem := by
  induction hd : es.length - k generalizing k t Ls with
  | zero =>
    obtain rfl : k = es.length := by omega
    exact ⟨t, Ls, by rw [List.drop_length]; rfl, r, .refl⟩
  | succ d ih =>
    have hlt : k < es.length := by omega
    obtain ⟨t', Ls', hstep, r', hw⟩ := r.step hs hlt hfit hsmall
    obtain ⟨t'', Ls'', hrun, r'', hw'⟩ := ih r' (by omega) (by omega)
    refine ⟨t'', Ls'', ?_, r'', hw.trans hw'⟩
    rw [List.drop_eq_getElem_cons hlt, List.foldlM_cons, hstep]
    exact hrun

end Reloading

/-! ### The reload -/

theorem sorted_sortLeaves {es : List LeafE} (hnd : (es.map Prod.fst).Nodup)
    (hlt : ∀ e ∈ es, e.1 < uintMax) : Sorted (sortLeaves es) := by
  have hperm : (sortLeaves es).Perm es := List.perm_insertionSort _ es
  have : Std.Total (fun a b : LeafE => a.1 ≤ b.1) := ⟨fun a b => Nat.le_total a.1 b.1⟩
  have : IsTrans LeafE (fun a b => a.1 ≤ b.1) := ⟨fun _ _ _ => Nat.le_trans⟩
  have hpw : (sortLeaves es).Pairwise (fun a b => a.1 ≤ b.1) :=
    List.pairwise_insertionSort (fun a b : LeafE => a.1 ≤ b.1) es
  have hnd' : ((sortLeaves es).map Prod.fst).Nodup := (hperm.map _).nodup_iff.mpr hnd
  refine ⟨fun a b ha hb hab => lt_of_le_of_ne ?_ ?_, fun e he => hlt e (hperm.mem_iff.mp he)⟩
  · exact List.pairwise_iff_getElem.mp hpw a b ha hb hab
  · intro heq
    exact hab.ne (key_inj hnd' ha hb heq)

/-- A page whose leaves can be gathered: the leaves in use hold `Ls`, the others are
empty. The root keys need not be in order, since a reload sets them anew. -/
structure Gatherable (m : PageWords) (Ls : ℕ → List LeafE) : Prop where
  two_le : 2 ≤ cnt m
  le_inRoot : cnt m ≤ inRoot
  leaf : ∀ i < inRoot, LeafHolds m i (Ls i)
  outside : ∀ i, cnt m ≤ i → Ls i = []

/-- The pairs of the leaves in use, in order. -/
def pairs (Ls : ℕ → List LeafE) (n : ℕ) : List LeafE := (List.range' 0 n).flatMap Ls

theorem Gatherable.mem_pairs {m : PageWords} {Ls : ℕ → List LeafE} (g : Gatherable m Ls)
    {e : LeafE} : e ∈ pairs Ls (cnt m) ↔ ∃ i, e ∈ Ls i := by
  simp only [pairs, List.mem_flatMap, List.mem_range'_1]
  constructor
  · rintro ⟨i, -, he⟩
    exact ⟨i, he⟩
  · rintro ⟨i, he⟩
    refine ⟨i, ?_, he⟩
    by_contra hi
    rw [g.outside i (by omega)] at he
    exact absurd he List.not_mem_nil

/-- `twolevel_reload` returns a table with the same pairs, and with the new pair if
there is one. -/
theorem Gatherable.reload {t : Table} {Ls : ℕ → List LeafE} (g : Gatherable t.mem Ls) {h p : ℕ}
    (extra : List LeafE) (hextra : (if h ≠ uintMax then [(h, p)] else []) = extra)
    (hnd : ((pairs Ls (cnt t.mem) ++ extra).map Prod.fst).Nodup)
    (hlt : ∀ e ∈ pairs Ls (cnt t.mem) ++ extra, e.1 < uintMax)
    (hcount : t.cachedCnt = (pairs Ls (cnt t.mem) ++ extra).length)
    (hpos : 0 < t.cachedCnt) (hfit : t.cachedCnt ≤ cnt t.mem * inLeaf)
    (hsmall : t.cachedCnt < 2 ^ 32) :
    ∃ t' Ls', twolevelReload t h p = .ok t' ∧ TableInv t' Ls' ∧ cnt t'.mem = cnt t.mem ∧
      t'.cachedCnt = t.cachedCnt ∧ Writes t.mem t'.mem ∧
      ∀ e, (∃ i, e ∈ Ls' i) ↔ (∃ i, e ∈ Ls i) ∨ e ∈ extra := by
  obtain ⟨hgather, hdrain⟩ := drainLeaves_spec (m := t.mem) Ls (n := cnt t.mem) (i := 0)
    (fun k _ hk => g.leaf k (by have := g.le_inRoot; omega))
  generalize hmd : (drainLeaves (cnt t.mem) 0 t.mem).2 = md at hdrain
  generalize hes : sortLeaves (pairs Ls (cnt t.mem) ++ extra) = es
  have hperm : es.Perm (pairs Ls (cnt t.mem) ++ extra) := by
    rw [← hes]
    exact List.perm_insertionSort _ _
  have hs : Sorted es := hes ▸ sorted_sortLeaves hnd hlt
  have hlen : es.length = t.cachedCnt := hperm.length_eq.trans hcount.symm
  have hes0 : 0 < es.length := by omega
  have htwo := g.two_le
  have hroot := g.le_inRoot
  -- the emptied table with its new keys starts the insertions
  have hstart := Reloading.start hs hes0 htwo hroot hdrain.cnt_eq fun i hi j hj => by
    by_cases hin : i < cnt t.mem
    · exact hdrain.emptied i ⟨Nat.zero_le _, by omega⟩ j hj
    · rw [(hdrain.same i (by omega) j hj).1]
      have hL := g.leaf i hi
      rw [g.outside i (by omega)] at hL
      exact hL.empty j (Nat.zero_le _) hj
  obtain ⟨t', Ls', hrun, r, hw⟩ := hstart.run hs (Nat.zero_le _) (by omega) (by omega)
  have hdrained : Writes t.mem md := hmd ▸ Writes.drainLeaves _ _
  have hkeyed := hdrained.trans
    (Writes.setEntries (show 0 + ((List.range' 0 (cnt t.mem)).map (rootKey es (cnt t.mem))).length ≤
      inRoot by simp only [List.length_map, List.length_range']; omega))
  refine ⟨t', Ls', ?_, r.inv, r.cnt_eq, r.count.trans hlen, hkeyed.trans hw, fun e => ?_⟩
  · have hroots := newRoots_eq (show 0 < es.length by omega) (show 0 < cnt t.mem by omega)
    have hzero : (t.cachedCnt + 2 ^ 32 - es.length) % 2 ^ 32 = 0 := by
      rw [hlen, Nat.add_sub_cancel_left]
      rfl
    have harg : (if h ≠ uintMax then pairs Ls (cnt t.mem) ++ [(h, p)]
        else pairs Ls (cnt t.mem)) = pairs Ls (cnt t.mem) ++ extra := by
      rw [← hextra]
      split <;> simp
    rw [List.drop_zero] at hrun
    rw [← pairs] at hgather
    rw [twolevelReload]
    simp only [hgather, hmd, harg, hes, hdrain.cnt_eq, hroots, ok_bind, hzero, hrun,
      ensure_of (r.count.trans hlen)]
    rfl
  · rw [r.contents e, List.take_length, hperm.mem_iff, List.mem_append, g.mem_pairs]

end TwoLevel

end Virtkv
