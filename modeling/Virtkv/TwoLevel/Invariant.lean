import Mathlib.Algebra.Order.BigOperators.Group.Finset
import Virtkv.TwoLevel.Leaf

/-!
# The invariant of the two-level table

`TableInv t Ls` links the root keys, the leaves (as the lists `Ls`) and the entry
count of a table. Searching, inserting into a leaf with room, overwriting and
deleting are read off it here; `twolevel_reload` is the subject of `Reload`.
-/

namespace Virtkv

open Outcome

namespace TwoLevel

/-! ### The root and its binary search -/

/-- The root keys in use are sorted and the last one is `UINT_MAX`. -/
structure RootOk (m : PageWords) : Prop where
  two_le : 2 ≤ cnt m
  le_inRoot : cnt m ≤ inRoot
  mono : ∀ i j, i ≤ j → j < cnt m → entry m i ≤ entry m j
  last : entry m (cnt m - 1) = uintMax

/-- Index `h` belongs to leaf `i`. -/
structure Routes (m : PageWords) (h i : ℕ) : Prop where
  lt_cnt : i < cnt m
  below : ∀ k < i, entry m k < h
  le_entry : h ≤ entry m i

theorem RootOk.entry_le {m : PageWords} (hr : RootOk m) {k : ℕ} (hk : k < cnt m) :
    entry m k ≤ uintMax := by
  rw [← hr.last]
  exact hr.mono k _ (by omega) (by have := hr.two_le; omega)

theorem Routes.congr {m m' : PageWords} {h i : ℕ} (hr : Routes m h i) (hc : cnt m' = cnt m)
    (he : ∀ k ≤ i, entry m' k = entry m k) : Routes m' h i where
  lt_cnt := by rw [hc]; exact hr.lt_cnt
  below k hk := by rw [he k hk.le]; exact hr.below k hk
  le_entry := by rw [he i le_rfl]; exact hr.le_entry

theorem Routes.unique {m : PageWords} {h i i' : ℕ} (hr : Routes m h i) (hr' : Routes m h i') :
    i = i' := by
  rcases Nat.lt_trichotomy i i' with hlt | rfl | hlt
  · exact absurd hr.le_entry (by have := hr'.below i hlt; omega)
  · rfl
  · exact absurd hr'.le_entry (by have := hr.below i' hlt; omega)

/-- The loop invariant of `__lower_bound`: everything left of the window is smaller,
everything right of it is not. -/
theorem lowerBoundLoop_spec {e : ℕ → ℕ} {h n : ℕ}
    (he : ∀ i j, i ≤ j → j < n → e i ≤ e j) {fuel left bound : ℕ} (hf : bound - left ≤ fuel)
    (hlb : left ≤ bound) (hbn : bound ≤ n) (hleft : ∀ k < left, e k < h)
    (hright : ∀ k, bound ≤ k → k < n → h ≤ e k) :
    lowerBoundLoop e h fuel left bound ≤ bound ∧
      (∀ k < lowerBoundLoop e h fuel left bound, e k < h) ∧
      (∀ k, lowerBoundLoop e h fuel left bound ≤ k → k < n → h ≤ e k) := by
  induction fuel generalizing left bound with
  | zero =>
    obtain rfl : left = bound := by omega
    exact ⟨le_rfl, hleft, hright⟩
  | succ fuel ih =>
    rw [lowerBoundLoop]
    by_cases hlt : left < bound
    · rw [if_pos hlt]
      generalize hmid : left + (bound - 1 - left) / 2 = mid
      have hmid_lo : left ≤ mid := by omega
      have hmid_hi : mid < bound := by omega
      by_cases hm : e mid < h
      · simp only [hm, if_true]
        refine ih (by omega) (by omega) hbn (fun k hk => ?_) hright
        exact lt_of_le_of_lt (he k mid (by omega) (by omega)) hm
      · simp only [hm, if_false]
        have hrec := ih (by omega) hmid_lo (by omega) hleft
          (fun k hk hkn => le_trans (by omega) (he mid k hk hkn))
        exact ⟨by omega, hrec.2⟩
    · rw [if_neg hlt]
      obtain rfl : left = bound := by omega
      exact ⟨le_rfl, hleft, hright⟩

/-- `__lower_bound` returns the leaf of the index. -/
theorem RootOk.routes_lowerBound {m : PageWords} (hr : RootOk m) {h : ℕ} (hh : h ≤ uintMax) :
    Routes m h (lowerBound m h) := by
  have hspec := lowerBoundLoop_spec (e := entry m) (h := h) (n := cnt m) hr.mono
    (show cnt m - 0 ≤ cnt m by omega) (Nat.zero_le _) le_rfl (by omega) (by omega)
  rw [← lowerBound] at hspec
  obtain ⟨hle, hlow, hhigh⟩ := hspec
  have hlt : lowerBound m h < cnt m := by
    by_contra hge
    have := hlow (cnt m - 1) (by have := hr.two_le; omega)
    rw [hr.last] at this
    omega
  exact ⟨hlt, hlow, hhigh _ le_rfl hlt⟩

theorem RootOk.lowerBound_eq {m : PageWords} (hr : RootOk m) {h i : ℕ} (hi : Routes m h i) :
    lowerBound m h = i :=
  (hr.routes_lowerBound (hi.le_entry.trans (hr.entry_le hi.lt_cnt))).unique hi

/-! ### The invariant -/

/-- The number of pairs in the first `n` leaves. -/
def total (Ls : ℕ → List LeafE) (n : ℕ) : ℕ := ∑ i ∈ Finset.range n, (Ls i).length

/-- The table holds the leaves `Ls`: packed, routed by the root keys, without
repeated indices, and counted by `cached_cnt`. A root key before the last one that
is still `UINT_MAX` has an empty leaf, so the first insert may lower it. -/
structure TableInv (t : Table) (Ls : ℕ → List LeafE) : Prop where
  root : RootOk t.mem
  leaf : ∀ i < inRoot, LeafHolds t.mem i (Ls i)
  routed : ∀ i, ∀ e ∈ Ls i, Routes t.mem e.1 i
  nodup : ∀ i, ((Ls i).map Prod.fst).Nodup
  opened : ∀ i, i + 1 < cnt t.mem → entry t.mem i = uintMax → Ls i = []
  count : t.cachedCnt = total Ls (cnt t.mem)

theorem total_update (Ls : ℕ → List LeafE) {n i : ℕ} (hi : i < n) (L : List LeafE) :
    total (Function.update Ls i L) n + (Ls i).length = total Ls n + L.length := by
  have hmem : i ∈ Finset.range n := Finset.mem_range.mpr hi
  have hrest : ∑ k ∈ (Finset.range n).erase i, (Function.update Ls i L k).length =
      ∑ k ∈ (Finset.range n).erase i, (Ls k).length := by
    refine Finset.sum_congr rfl fun k hk => ?_
    rw [Function.update_of_ne (Finset.ne_of_mem_erase hk)]
  unfold total
  rw [← Finset.add_sum_erase _ _ hmem, ← Finset.add_sum_erase _ _ hmem, hrest,
    Function.update_self]
  omega

namespace TableInv

variable {t : Table} {Ls : ℕ → List LeafE}

theorem lt_inRoot (inv : TableInv t Ls) {i h : ℕ} (hr : Routes t.mem h i) : i < inRoot :=
  lt_of_lt_of_le hr.lt_cnt inv.root.le_inRoot

theorem nil_of_ge (inv : TableInv t Ls) {i : ℕ} (hi : cnt t.mem ≤ i) : Ls i = [] := by
  refine List.eq_nil_iff_forall_not_mem.mpr fun e he => ?_
  have := (inv.routed i e he).lt_cnt
  omega

theorem key_lt (inv : TableInv t Ls) {i : ℕ} {e : LeafE} (he : e ∈ Ls i) : e.1 < uintMax := by
  have hr := inv.routed i e he
  have hne := (inv.leaf i (inv.lt_inRoot hr)).key_ne e he
  have hle := hr.le_entry.trans (inv.root.entry_le hr.lt_cnt)
  omega

theorem length_le (inv : TableInv t Ls) (i : ℕ) : (Ls i).length ≤ inLeaf := by
  by_cases hi : i < inRoot
  · exact (inv.leaf i hi).length_le
  · rw [inv.nil_of_ge (by have := inv.root.le_inRoot; omega)]
    exact Nat.zero_le _

/-- No table holds more pairs than its leaves have slots. -/
theorem count_le (inv : TableInv t Ls) : t.cachedCnt ≤ cnt t.mem * inLeaf := by
  rw [inv.count, total]
  calc ∑ i ∈ Finset.range (cnt t.mem), (Ls i).length
      ≤ ∑ _i ∈ Finset.range (cnt t.mem), inLeaf :=
        Finset.sum_le_sum fun i _ => inv.length_le i
    _ = cnt t.mem * inLeaf := by simp

/-- Replacing one leaf under unchanged root keys. -/
theorem replace (inv : TableInv t Ls) {t' : Table} {i : ℕ} {L : List LeafE}
    (hi : i < cnt t.mem) (hcnt : cnt t'.mem = cnt t.mem)
    (hent : ∀ k < inRoot, entry t'.mem k = entry t.mem k)
    (hsame : ∀ k ≠ i, SameLeaf t.mem t'.mem k) (hL : LeafHolds t'.mem i L)
    (hrouted : ∀ e ∈ L, Routes t.mem e.1 i) (hnd : (L.map Prod.fst).Nodup)
    (hopened : i + 1 < cnt t.mem → entry t.mem i = uintMax → L = [])
    (hcount : t'.cachedCnt + (Ls i).length = t.cachedCnt + L.length) :
    TableInv t' (Function.update Ls i L) := by
  have hle := inv.root.le_inRoot
  have hroutes : ∀ {h k}, Routes t.mem h k → Routes t'.mem h k := fun hr =>
    hr.congr hcnt fun k hk => hent k (by have := hr.lt_cnt; omega)
  refine ⟨⟨?_, ?_, ?_, ?_⟩, ?_, ?_, ?_, ?_, ?_⟩
  · rw [hcnt]; exact inv.root.two_le
  · rw [hcnt]; exact hle
  · intro a b hab hb
    rw [hcnt] at hb
    rw [hent a (by omega), hent b (by omega)]
    exact inv.root.mono a b hab hb
  · rw [hcnt, hent _ (by have := inv.root.two_le; omega)]
    exact inv.root.last
  · intro k hk
    by_cases hki : k = i
    · subst hki
      rwa [Function.update_self]
    · rw [Function.update_of_ne hki]
      exact (inv.leaf k hk).same (hsame k hki)
  · intro k e he
    by_cases hki : k = i
    · subst hki
      rw [Function.update_self] at he
      exact hroutes (hrouted e he)
    · rw [Function.update_of_ne hki] at he
      exact hroutes (inv.routed k e he)
  · intro k
    by_cases hki : k = i
    · subst hki
      rwa [Function.update_self]
    · rw [Function.update_of_ne hki]
      exact inv.nodup k
  · intro k hk hopen
    rw [hcnt] at hk
    rw [hent k (by omega)] at hopen
    by_cases hki : k = i
    · subst hki
      rw [Function.update_self]
      exact hopened hk hopen
    · rw [Function.update_of_ne hki]
      exact inv.opened k hk hopen
  · have htot := total_update Ls hi L
    have hc := inv.count
    rw [hcnt]
    omega

/-! ### Searching -/

/-- `twolevel_find` of a present index returns its grain and its position. -/
theorem find_of_mem (inv : TableInv t Ls) {i j : ℕ} (hj : j < (Ls i).length) :
    twolevelFind t.mem (Ls i)[j].1 = ((Ls i)[j].2, some (slotPos i j)) := by
  have hr := inv.routed i _ ((Ls i).getElem_mem hj)
  have hL := inv.leaf i (inv.lt_inRoot hr)
  rw [twolevelFind, inv.root.lowerBound_eq hr]
  simp only [(Nat.ne_of_lt hr.lt_cnt), if_false]
  have hlen := hL.length_le
  exact findInLeaf_of_mem hL (inv.nodup i) hj rfl (Nat.zero_le _) (by omega)

/-- `twolevel_find` of an absent index returns `UINT_MAX` and leaves `pos` alone. -/
theorem find_of_not_mem (inv : TableInv t Ls) {h : ℕ} (hh : h < uintMax)
    (hmem : ∀ i, ∀ e ∈ Ls i, e.1 ≠ h) : twolevelFind t.mem h = (uintMax, none) := by
  have hr := inv.root.routes_lowerBound hh.le
  rw [twolevelFind]
  simp only [(Nat.ne_of_lt hr.lt_cnt), if_false]
  exact findInLeaf_of_not_mem (inv.leaf _ (inv.lt_inRoot hr)) hh.ne (hmem _) (by omega)

/-! ### Overwriting and deleting through a position -/

theorem overwrite (inv : TableInv t Ls) {i j h p p' : ℕ} (hj : j < (Ls i).length)
    (hkey : (Ls i)[j] = (h, p')) :
    TableInv { t with mem := Function.update t.mem (slotPos i j / 4) p }
      (Function.update Ls i ((Ls i).set j (h, p))) := by
  have hr := inv.routed i _ ((Ls i).getElem_mem hj)
  have hL := inv.leaf i (inv.lt_inRoot hr)
  have hlen := hL.length_le
  rw [update_slotPos]
  have hfst : ((Ls i).set j (h, p)).map Prod.fst = (Ls i).map Prod.fst := by
    rw [List.map_set]
    refine List.ext_getElem (by simp) fun k hk _ => ?_
    rw [List.getElem_set]
    by_cases hjk : j = k
    · subst hjk
      simp [hkey]
    · simp [hjk]
  refine inv.replace hr.lt_cnt (cnt_update_slot ..) (fun k hk => entry_update_slot hk) ?_
    (hL.overwrite hj hkey) ?_ ?_ ?_ ?_
  · intro k hk j' hj'
    exact ⟨hidx_update_slot (by omega) hj', ppa_update_slot_of_ne (by omega) hj' (.inl hk)⟩
  · intro e he
    have hmem : e.1 ∈ (Ls i).map Prod.fst := by
      rw [← hfst]
      exact List.mem_map_of_mem he
    obtain ⟨e', he', heq⟩ := List.mem_map.mp hmem
    rw [← heq]
    exact inv.routed i e' he'
  · rw [hfst]
    exact inv.nodup i
  · intro hi hopen
    rw [inv.opened i hi hopen] at hj
    exact absurd hj (Nat.not_lt_zero j)
  · simp

theorem delete (inv : TableInv t Ls) {i j : ℕ} (hj : j < (Ls i).length)
    (hsmall : t.cachedCnt < 2 ^ 32) :
    TableInv
      { cachedCnt := (t.cachedCnt + 2 ^ 32 - 1) % 2 ^ 32,
        mem := shiftLeaf i (inLeaf - 1 - j) j t.mem }
      (Function.update Ls i ((Ls i).eraseIdx j)) := by
  have hr := inv.routed i _ ((Ls i).getElem_mem hj)
  have hL := inv.leaf i (inv.lt_inRoot hr)
  have hlen := hL.length_le
  have h8 := inLeaf_eq
  refine inv.replace hr.lt_cnt (cnt_shiftLeaf ..) (fun k hk => entry_shiftLeaf hk)
    (fun k hk => sameLeaf_shiftLeaf (by omega) hk) (hL.shift hj) ?_ ?_ ?_ ?_
  · exact fun e he => inv.routed i e (List.mem_of_mem_eraseIdx he)
  · exact (inv.nodup i).sublist ((List.eraseIdx_sublist ..).map _)
  · intro hi hopen
    rw [inv.opened i hi hopen] at hj
    exact absurd hj (Nat.not_lt_zero j)
  · have hpos : (Ls i).length ≤ t.cachedCnt := by
      rw [inv.count, total]
      exact Finset.single_le_sum (f := fun k => (Ls k).length) (fun _ _ => Nat.zero_le _)
        (Finset.mem_range.mpr hr.lt_cnt)
    rw [List.length_eraseIdx_of_lt hj]
    show (t.cachedCnt + 2 ^ 32 - 1) % 2 ^ 32 + (Ls i).length = _
    omega

/-! ### Inserting into a leaf with room -/

/-- Lowering a root key that is still `UINT_MAX`. -/
theorem raise (inv : TableInv t Ls) {h i : ℕ} (hr : Routes t.mem h i)
    (hlast : i + 1 < cnt t.mem) (hopen : entry t.mem i = uintMax) (hh : h < uintMax) :
    TableInv { t with mem := setEntry t.mem i h } Ls := by
  have hi := inv.lt_inRoot hr
  refine ⟨⟨?_, ?_, ?_, ?_⟩, ?_, ?_, inv.nodup, ?_, ?_⟩
  · simpa using inv.root.two_le
  · simpa using inv.root.le_inRoot
  · intro a b hab hb
    rw [cnt_setEntry] at hb
    have hmono := inv.root.mono
    by_cases ha : a = i <;> by_cases hb' : b = i
    · subst ha hb'
      exact le_rfl
    · subst ha
      rw [entry_setEntry_same, entry_setEntry_of_ne hb']
      have := hmono a b hab hb
      omega
    · subst hb'
      rw [entry_setEntry_same, entry_setEntry_of_ne ha]
      exact (hr.below a (by omega)).le
    · rw [entry_setEntry_of_ne ha, entry_setEntry_of_ne hb']
      exact hmono a b hab hb
  · rw [cnt_setEntry, entry_setEntry_of_ne (by omega)]
    exact inv.root.last
  · exact fun k hk => (inv.leaf k hk).same (sameLeaf_setEntry hi)
  · -- leaves after `i` are empty, since the key before them is still `UINT_MAX`
    intro k e he
    have hrk := inv.routed k e he
    have hki : k < i := by
      by_contra hge
      rcases Nat.eq_or_lt_of_not_lt hge with rfl | hlt
      · rw [inv.opened _ hlast hopen] at he
        exact absurd he List.not_mem_nil
      · have h1 := hrk.below i hlt
        have h2 := inv.key_lt he
        omega
    exact hrk.congr (cnt_setEntry ..) fun a ha => entry_setEntry_of_ne (by omega)
  · intro k hk hok
    rw [cnt_setEntry] at hk
    by_cases hki : k = i
    · subst hki
      exact inv.opened k hk hopen
    · rw [entry_setEntry_of_ne hki] at hok
      exact inv.opened k hk hok
  · simpa using inv.count

/-- The tail of `twolevel_insert`, with the redundant write of an equal key left out. -/
theorem insertLeaf_eq {m : PageWords} {i h p : ℕ} (hr : Routes m h i) :
    insertLeaf m i h p = fillSlot i h p inLeaf 0
      (if i + 1 < cnt m ∧ entry m i = uintMax then setEntry m i h else m) := by
  have hi := hr.lt_cnt
  rw [insertLeaf]
  by_cases hlast : i + 1 < cnt m
  · by_cases hopen : entry m i = uintMax
    · rw [if_pos ⟨by omega, .inr hopen⟩, if_pos ⟨hlast, hopen⟩]
    · rw [if_neg (show ¬(i + 1 < cnt m ∧ entry m i = uintMax) from fun hc => hopen hc.2)]
      by_cases hle : entry m i ≤ h
      · have heq : h = m (1 + i) := le_antisymm hr.le_entry hle
        rw [if_pos ⟨by omega, .inl hle⟩, setEntry, heq, Function.update_eq_self]
      · rw [if_neg (by tauto)]
  · rw [if_neg (by omega), if_neg (by omega)]

/-- Inserting a new index into its leaf. -/
theorem insert (inv : TableInv t Ls) {h i p : ℕ} (hr : Routes t.mem h i) (hh : h < uintMax)
    (hnew : ∀ k, ∀ e ∈ Ls k, e.1 ≠ h) (hroom : (Ls i).length < inLeaf)
    (hsmall : t.cachedCnt + 1 < 2 ^ 32) :
    TableInv { cachedCnt := (t.cachedCnt + 1) % 2 ^ 32, mem := insertLeaf t.mem i h p }
      (Function.update Ls i (Ls i ++ [(h, p)])) := by
  rw [insertLeaf_eq hr]
  set m := if i + 1 < cnt t.mem ∧ entry t.mem i = uintMax then setEntry t.mem i h else t.mem
    with hm
  -- the key is lowered first, which gives the table the slot is filled in
  have inv' : TableInv { t with mem := m } Ls ∧ Routes m h i ∧
      (i + 1 < cnt m → entry m i ≠ uintMax) := by
    by_cases hopen : i + 1 < cnt t.mem ∧ entry t.mem i = uintMax
    · rw [hm, if_pos hopen]
      refine ⟨inv.raise hr hopen.1 hopen.2 hh, ⟨?_, ?_, ?_⟩, ?_⟩
      · simpa using hr.lt_cnt
      · intro k hk
        rw [entry_setEntry_of_ne (by omega)]
        exact hr.below k hk
      · simp
      · intro _
        simpa using hh.ne
    · rw [hm, if_neg hopen]
      exact ⟨inv, hr, by tauto⟩
  obtain ⟨inv', hr', hclosed⟩ := inv'
  have hL := inv'.leaf i (inv'.lt_inRoot hr')
  rw [fillSlot_eq hL hroom (Nat.zero_le _) (by omega)]
  refine inv'.replace hr'.lt_cnt (cnt_setSlot ..) (fun k hk => entry_setSlot hk)
    (fun k hk => sameLeaf_setSlot hroom hk) (hL.fill hroom hh.ne) ?_ ?_ ?_ ?_
  · intro e he
    rcases List.mem_append.mp he with he | he
    · exact inv'.routed i e he
    · rw [List.mem_singleton.mp he]
      exact hr'
  · rw [List.map_append, List.map_singleton]
    refine (inv.nodup i).append (List.nodup_singleton h) ?_
    rw [List.disjoint_singleton]
    intro hmem
    obtain ⟨e, he, heq⟩ := List.mem_map.mp hmem
    exact hnew i e he heq
  · intro hi hopen
    exact absurd hopen (hclosed hi)
  · simp only [List.length_append, List.length_singleton]
    omega

/-- Inserting into a table whose keys are all set leaves the keys alone. -/
theorem entry_insertLeaf {m : PageWords} {h i p : ℕ} (hr : Routes m h i)
    (hclosed : ∀ k, k + 1 < cnt m → entry m k ≠ uintMax) {L : List LeafE}
    (hL : LeafHolds m i L) (hroom : L.length < inLeaf) :
    cnt (insertLeaf m i h p) = cnt m ∧
      ∀ k < inRoot, entry (insertLeaf m i h p) k = entry m k := by
  rw [insertLeaf_eq hr, if_neg (fun hc => hclosed i hc.1 hc.2),
    fillSlot_eq hL hroom (Nat.zero_le _) (by omega)]
  exact ⟨cnt_setSlot .., fun k hk => entry_setSlot hk⟩

/-! ### The pairs after a change of one leaf -/

/-- The other pairs of a leaf are those with another index. -/
theorem mem_eraseIdx (inv : TableInv t Ls) {i j h p : ℕ} (hj : j < (Ls i).length)
    (hkey : (Ls i)[j] = (h, p)) {e : LeafE} :
    e ∈ (Ls i).eraseIdx j ↔ e ∈ Ls i ∧ e.1 ≠ h := by
  have hnd : (Ls i).Nodup := List.Nodup.of_map _ (inv.nodup i)
  rw [List.mem_eraseIdx_iff_getElem]
  constructor
  · rintro ⟨k, hk, hkj, rfl⟩
    refine ⟨List.getElem_mem hk, fun hfst => hkj ?_⟩
    have hinj := List.inj_on_of_nodup_map (inv.nodup i) (List.getElem_mem hk)
      (List.getElem_mem hj) (by rw [hfst, hkey])
    exact hnd.getElem_inj_iff.mp hinj
  · rintro ⟨he, hne⟩
    obtain ⟨k, hk, rfl⟩ := List.getElem_of_mem he
    refine ⟨k, hk, ?_, rfl⟩
    rintro rfl
    exact hne (by rw [hkey])

theorem mem_set (inv : TableInv t Ls) {i j h p p' : ℕ} (hj : j < (Ls i).length)
    (hkey : (Ls i)[j] = (h, p')) {e : LeafE} :
    e ∈ (Ls i).set j (h, p) ↔ (e ∈ Ls i ∧ e.1 ≠ h) ∨ e = (h, p) := by
  constructor
  · intro he
    obtain ⟨k, hk, rfl⟩ := List.getElem_of_mem he
    rw [List.length_set] at hk
    rw [List.getElem_set]
    by_cases hjk : j = k
    · rw [if_pos hjk]
      exact .inr rfl
    · rw [if_neg hjk]
      refine .inl ⟨List.getElem_mem hk, fun hfst => hjk ?_⟩
      exact key_inj (inv.nodup i) hj hk (by rw [hkey, hfst])
  · rintro (⟨he, hne⟩ | rfl)
    · obtain ⟨k, hk, rfl⟩ := List.getElem_of_mem he
      have hjk : j ≠ k := by
        rintro rfl
        exact hne (by rw [hkey])
      exact List.mem_iff_getElem.mpr ⟨k, by simpa using hk, by simp [hjk]⟩
    · exact List.mem_set hj _

/-- Replacing the pairs of index `h` in its leaf by those in `P` does so in the table. -/
theorem mem_update_leaf (inv : TableInv t Ls) {i h : ℕ} (hr : Routes t.mem h i) {L : List LeafE}
    {P : LeafE → Prop} (hL : ∀ e, e ∈ L ↔ (e ∈ Ls i ∧ e.1 ≠ h) ∨ P e) {e : LeafE} :
    (∃ k, e ∈ Function.update Ls i L k) ↔ ((∃ k, e ∈ Ls k) ∧ e.1 ≠ h) ∨ P e := by
  constructor
  · rintro ⟨k, hk⟩
    by_cases hki : k = i
    · subst hki
      rw [Function.update_self, hL] at hk
      exact hk.imp_left fun ⟨he, hne⟩ => ⟨⟨k, he⟩, hne⟩
    · rw [Function.update_of_ne hki] at hk
      refine .inl ⟨⟨k, hk⟩, ?_⟩
      rintro rfl
      exact hki ((inv.routed k e hk).unique hr)
  · rintro (⟨⟨k, hk⟩, hne⟩ | hP)
    · refine ⟨k, ?_⟩
      by_cases hki : k = i
      · subst hki
        rw [Function.update_self, hL]
        exact .inl ⟨hk, hne⟩
      · rwa [Function.update_of_ne hki]
    · refine ⟨i, ?_⟩
      rw [Function.update_self, hL]
      exact .inr hP

theorem mem_update_append (inv : TableInv t Ls) {h i p : ℕ} (hr : Routes t.mem h i)
    (hnew : ∀ k, ∀ e ∈ Ls k, e.1 ≠ h) {e : LeafE} :
    (∃ k, e ∈ Function.update Ls i (Ls i ++ [(h, p)]) k) ↔ (∃ k, e ∈ Ls k) ∨ e = (h, p) := by
  rw [inv.mem_update_leaf (P := (· = (h, p))) hr]
  · refine or_congr_left (and_iff_left_of_imp ?_)
    rintro ⟨k, hk⟩
    exact hnew k e hk
  · intro e'
    rw [List.mem_append, List.mem_singleton]
    exact or_congr_left (and_iff_left_of_imp (hnew i e')).symm

end TableInv

end TwoLevel

end Virtkv
