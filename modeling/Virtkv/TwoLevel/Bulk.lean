import Virtkv.TwoLevel.Refinement

/-!
# Bulk loading of the two-level table

`twolevel_bulk_insert` fills a fresh table with the sorted pairs of a section at once. It
takes the root keys a reload would choose and goes through pairs and leaves in step: a pair
that is behind the key of the current leaf opens the next one. What it writes are the slots
that the insertions of a reload write, so the loaded table is the reloaded one.

## Main results

- `BulkLoop.run` — the loop ends, and fills the leaves as the insertions of a reload do
- `twolevelBulkInsert_agrees` — every index is found as after inserting the pairs one by one
-/

namespace Virtkv

open Outcome

namespace TwoLevel

/-- The variables of the loop of `twolevel_bulk_insert`. The last one is a record of the
slots written, with their leaves. -/
structure Bulk where
  curRoot : ℕ
  curRootIdx : ℕ
  curLeaf : ℕ
  leafIdx : ℕ
  idx : ℕ
  mem : PageWords
  written : List (ℕ × ℕ)

/-- `new_root_keys[i]`; behind `root->cnt` the array is not set. -/
def newRootKey (keys : List ℕ) (i : ℕ) : Except Fault ℕ :=
  match keys[i]? with
  | some k => .ok k
  | none => .error .badAccess

/-- Write a pair to the next slot of the current leaf. -/
def Bulk.place (b : Bulk) (e : LeafE) : Bulk :=
  { b with
    mem := setSlot b.mem b.curLeaf b.idx e.1 e.2
    written := b.written ++ [(b.curLeaf, b.idx)]
    leafIdx := b.leafIdx + 1
    idx := b.idx + 1 }

/-- The loop of `twolevel_bulk_insert`. -/
def bulkLoop (es : List LeafE) (keys : List ℕ) : ℕ → Bulk → Except Fault Bulk
  | 0, _ => .error .hang
  | fuel + 1, b =>
    match es[b.leafIdx]? with
    | none => .ok b
    | some e =>
      if e.1 ≤ b.curRoot then do
        ensure (0 < e.1) .bug
        bulkLoop es keys fuel (b.place e)
      else do
        let curRoot ← newRootKey keys (b.curRootIdx + 1)
        bulkLoop es keys fuel
          { b with curRootIdx := b.curRootIdx + 1, curRoot := curRoot
                   curLeaf := b.curLeaf + 1, idx := 0 }

/-- `twolevel_bulk_insert`: the page, and the slots written. -/
def twolevelBulkInsert (m : PageWords) (e : List LeafE) :
    Except Fault (PageWords × List (ℕ × ℕ)) := do
  let e := sortLeaves e
  let newRootKeys ← newRoots e (cnt m)
  let m := setEntries newRootKeys 0 m
  let curRoot ← newRootKey newRootKeys 0
  let b ← bulkLoop e newRootKeys (e.length + cnt m + 1)
    { curRoot := curRoot, curRootIdx := 0, curLeaf := 0, leafIdx := 0, idx := 0
      mem := m, written := [] }
  return (b.mem, b.written)

/-- `twolevel_init`, and `twolevel_expand` until there are `n` leaves. -/
def prepared (n : ℕ) (m : PageWords) : PageWords := twolevelExpand^[n - 2] (twolevelInit m)

/-- `twolevel_insert` without a position. -/
def insertOne (t : Table) (e : LeafE) : Except Fault Table := twolevelInsert t e.1 e.2 uintMax

/-! ### Empty slots -/

/-- An empty slot has no grain. -/
def EmptyPpa (m : PageWords) : Prop :=
  ∀ i < inRoot, ∀ j < inLeaf, hidx m i j = uintMax → ppa m i j = uintMax

namespace EmptyPpa

variable {m : PageWords}

theorem setSlot (hm : EmptyPpa m) {i j h p : ℕ} (hj : j < inLeaf)
    (hp : h = uintMax → p = uintMax) : EmptyPpa (setSlot m i j h p) := by
  intro i' hi' j' hj' hidx'
  by_cases hsame : i' = i ∧ j' = j
  · obtain ⟨rfl, rfl⟩ := hsame
    rw [hidx_setSlot_same] at hidx'
    rw [ppa_setSlot_same]
    exact hp hidx'
  · have hne : i' ≠ i ∨ j' ≠ j := by tauto
    rw [hidx_setSlot_of_ne hj hj' hne] at hidx'
    rw [ppa_setSlot_of_ne hj hj' hne]
    exact hm i' hi' j' hj' hidx'

theorem same {m' : PageWords} (hm : EmptyPpa m) (hsame : ∀ i < inRoot, SameLeaf m m' i) :
    EmptyPpa m' := by
  intro i hi j hj hidx'
  rw [(hsame i hi j hj).1] at hidx'
  rw [(hsame i hi j hj).2]
  exact hm i hi j hj hidx'

theorem setEntry (hm : EmptyPpa m) {i v : ℕ} (hi : i < inRoot) : EmptyPpa (setEntry m i v) :=
  hm.same fun _ _ => sameLeaf_setEntry hi

theorem writes {m' : PageWords} (hm : EmptyPpa m) (hw : Writes m m') : EmptyPpa m' := by
  induction hw with
  | refl => exact hm
  | slot _ i hj hp ih => exact ih.setSlot hj hp
  | key _ hi v ih => exact ih.setEntry hi

/-- What `twolevel_find` returns for the mark of an empty slot. -/
theorem find_uintMax (hm : EmptyPpa m) {i : ℕ} (hi : i < inRoot) {n j : ℕ} (hn : j + n ≤ inLeaf) :
    (findInLeaf m i uintMax n j).1 = uintMax := by
  induction n generalizing j with
  | zero => rfl
  | succ n ih =>
    rw [findInLeaf]
    split
    · rename_i hempty
      exact hm i hi j (by omega) hempty
    · exact ih (by omega)

end EmptyPpa

/-! ### The loop -/

variable {es : List LeafE} {n k : ℕ}

/-- An insertion of a reload writes the slot behind the pairs of its leaf. -/
theorem Reloading.step_mem {t : Table} {Ls : ℕ → List LeafE} (r : Reloading es n k t Ls)
    (hs : Sorted es) (hk : k < es.length) (hfit : es.length ≤ n * inLeaf)
    (hsmall : es.length < 2 ^ 32) {i : ℕ} (hi : i < n)
    (hlo : cut (es.length / n) (es.length % n) i ≤ k)
    (hhi : k < cut (es.length / n) (es.length % n) (i + 1)) :
    ∃ t' Ls', Reloading es n (k + 1) t' Ls' ∧
      t'.mem = setSlot t.mem i (k - cut (es.length / n) (es.length % n) i) es[k].1 es[k].2 := by
  have hroute := r.routes hs hk hi hlo hhi
  have hlen : (Ls i).length = k - cut (es.length / n) (es.length % n) i := by
    rw [r.length_eq i]
    omega
  have hroom : (Ls i).length < inLeaf := by
    have := cut_succ_le hfit i
    omega
  have hL := r.inv.leaf i (r.inv.lt_inRoot hroute)
  -- only the last leaf has no largest key
  have hclosed : ¬(i + 1 < cnt t.mem ∧ entry t.mem i = uintMax) := by
    rintro ⟨hlt, hopen⟩
    rw [r.cnt_eq] at hlt
    rw [r.keys i hi] at hopen
    exact (rootKey_lt hs (by omega) (by omega) hlt).ne hopen
  obtain ⟨t', Ls', hstep, r', -⟩ := r.step hs hk hfit hsmall
  refine ⟨t', Ls', r', ?_⟩
  have hlast : hidx t.mem i (inLeaf - 1) = uintMax := hL.last_eq_iff.mpr hroom
  rw [insertReloading, r.inv.root.lowerBound_eq hroute] at hstep
  simp only [ensure_of hlast, ok_bind] at hstep
  cases hstep
  rw [TableInv.insertLeaf_eq hroute, if_neg hclosed,
    fillSlot_eq hL hroom (Nat.zero_le _) (by omega), hlen]

/-- The loop between two pairs: the first `k` pairs are where the insertions of a reload put
them, and the current leaf is the one with the last of them. -/
structure BulkLoop (es : List LeafE) (n k i : ℕ) (b : Bulk) : Prop where
  leafIdx_eq : b.leafIdx = k
  curLeaf_eq : b.curLeaf = i
  curRootIdx_eq : b.curRootIdx = i
  curRoot_eq : b.curRoot = rootKey es n i
  leaf_lt : i < n
  lo : cut (es.length / n) (es.length % n) i ≤ k
  hi : k ≤ cut (es.length / n) (es.length % n) (i + 1)
  idx_eq : b.idx = k - cut (es.length / n) (es.length % n) i
  reloading : ∃ t Ls, Reloading es n k t Ls ∧ t.mem = b.mem
  emptyPpa : EmptyPpa b.mem
  written_lt : ∀ w ∈ b.written, w.2 < inLeaf
  written_le : ∀ a, b.written.countP (fun w => w.1 = a) ≤
    min k (cut (es.length / n) (es.length % n) (a + 1)) -
      min k (cut (es.length / n) (es.length % n) a)

namespace BulkLoop

variable {i : ℕ} {b : Bulk}

/-- A pair belongs to the current leaf exactly if it is not behind its key. -/
theorem le_curRoot_iff (h : BulkLoop es n k i b) (hs : Sorted es) (hk : k < es.length) :
    es[k].1 ≤ b.curRoot ↔ k < cut (es.length / n) (es.length % n) (i + 1) := by
  have hi := h.leaf_lt
  rw [h.curRoot_eq]
  by_cases hlast : i + 1 < n
  · obtain ⟨hlt, heq⟩ := Reloading.rootKey_eq (n := n) (by omega) (Nat.zero_lt_of_lt hk) hlast
    have hpos := cut_pos (n := n) (i := i) (Nat.zero_lt_of_lt hk)
    rw [heq]
    constructor
    · intro hle
      by_contra hge
      have := hs.lt _ k hlt hk (by omega)
      omega
    · intro hlt'
      exact hs.le hk hlt (by omega)
  · have hend : cut (es.length / n) (es.length % n) (i + 1) = es.length := by
      rw [show i + 1 = n by omega, cut_div_mod (by omega)]
    rw [rootKey, if_neg hlast, hend]
    exact ⟨fun _ => hk, fun _ => (hs.key_lt _ (es.getElem_mem hk)).le⟩

/-- A pair of the current leaf. -/
theorem place (h : BulkLoop es n k i b) (hs : Sorted es) (hk : k < es.length)
    (hfit : es.length ≤ n * inLeaf) (hsmall : es.length < 2 ^ 32)
    (hhi : k < cut (es.length / n) (es.length % n) (i + 1)) :
    BulkLoop es n (k + 1) i (b.place es[k]) := by
  obtain ⟨t, Ls, r, hmem⟩ := h.reloading
  obtain ⟨t', Ls', r', hmem'⟩ := r.step_mem hs hk hfit hsmall h.leaf_lt h.lo hhi
  have hlo := h.lo
  have hidx := h.idx_eq
  have hcut := cut_succ_le hfit i
  refine ⟨?_, h.curLeaf_eq, h.curRootIdx_eq, h.curRoot_eq, h.leaf_lt, by omega, by omega, ?_, ?_,
    ?_, ?_, ?_⟩
  · rw [Bulk.place, h.leafIdx_eq]
  · rw [Bulk.place]
    dsimp only
    omega
  · refine ⟨t', Ls', r', ?_⟩
    rw [hmem', Bulk.place, h.curLeaf_eq, hidx, hmem]
  · apply h.emptyPpa.setSlot (by omega)
    exact fun heq => absurd heq (hs.key_lt _ (es.getElem_mem hk)).ne
  · intro w hw
    rw [Bulk.place, List.mem_append, List.mem_singleton] at hw
    rcases hw with hw | rfl
    · exact h.written_lt w hw
    · dsimp only
      omega
  · intro a
    have hle := h.written_le a
    rw [Bulk.place, List.countP_append, List.countP_singleton, h.curLeaf_eq]
    rcases Nat.lt_trichotomy a i with hlt | rfl | hgt
    · -- a leaf that is full: its writes are all in the past
      have := cut_mono (es.length / n) (es.length % n) (i := a + 1) (j := i) (by omega)
      have := cut_mono (es.length / n) (es.length % n) (i := a) (j := a + 1) (by omega)
      rw [if_neg (by simp; omega)]
      omega
    · rw [if_pos (by simp)]
      omega
    · -- a leaf that is not begun
      have := cut_mono (es.length / n) (es.length % n) (i := i + 1) (j := a) (by omega)
      have := cut_mono (es.length / n) (es.length % n) (i := a) (j := a + 1) (by omega)
      rw [if_neg (by simp; omega)]
      omega

/-- The pairs of the current leaf are placed: the next one. -/
theorem advance (h : BulkLoop es n k i b) (hk : k < es.length)
    (hge : cut (es.length / n) (es.length % n) (i + 1) ≤ k) :
    newRootKey ((List.range' 0 n).map (rootKey es n)) (b.curRootIdx + 1) =
        .ok (rootKey es n (i + 1)) ∧
      BulkLoop es n k (i + 1)
        { b with curRootIdx := b.curRootIdx + 1, curRoot := rootKey es n (i + 1)
                 curLeaf := b.curLeaf + 1, idx := 0 } := by
  have hi := h.leaf_lt
  have hhi := h.hi
  have hlast : i + 1 < n := by
    by_contra hlast
    rw [show i + 1 = n by omega, cut_div_mod (by omega)] at hge
    omega
  have hnext := cut_mono (es.length / n) (es.length % n) (i := i + 1) (j := i + 1 + 1) (by omega)
  constructor
  · rw [newRootKey, h.curRootIdx_eq, List.getElem?_map, List.getElem?_range' hlast]
    simp
  · refine ⟨h.leafIdx_eq, ?_, ?_, rfl, hlast, hge, by omega, ?_, h.reloading, h.emptyPpa,
      h.written_lt, h.written_le⟩
    · dsimp only
      rw [h.curLeaf_eq]
    · dsimp only
      rw [h.curRootIdx_eq]
    · dsimp only
      omega

/-- The loop ends behind the last pair. -/
theorem run (h : BulkLoop es n k i b) (hs : Sorted es) (hpos : ∀ e ∈ es, 0 < e.1)
    (hk : k ≤ es.length) (hfit : es.length ≤ n * inLeaf) (hsmall : es.length < 2 ^ 32) {fuel : ℕ}
    (hfuel : es.length - k + (n - i) < fuel) :
    ∃ b' i', bulkLoop es ((List.range' 0 n).map (rootKey es n)) fuel b = .ok b' ∧
      BulkLoop es n es.length i' b' := by
  induction fuel generalizing k i b with
  | zero => omega
  | succ fuel ih =>
    have hleaf := h.leafIdx_eq
    rw [bulkLoop]
    rcases Nat.eq_or_lt_of_le hk with hend | hlt
    · rw [List.getElem?_eq_none (by omega)]
      rw [hend] at h
      exact ⟨b, i, rfl, h⟩
    have hget : es[b.leafIdx]? = some es[k] := by
      rw [hleaf]
      exact List.getElem?_eq_getElem hlt
    rw [hget]
    dsimp only
    by_cases hle : es[k].1 ≤ b.curRoot
    · -- the key belongs to the current leaf
      rw [if_pos hle, ensure_of (hpos _ (es.getElem_mem hlt)), ok_bind]
      have hhi := (h.le_curRoot_iff hs hlt).mp hle
      exact ih (h.place hs hlt hfit hsmall hhi) (by omega) (by omega)
    · -- the leaf is done; the key is looked at again
      rw [if_neg hle]
      have hge : cut (es.length / n) (es.length % n) (i + 1) ≤ k := by
        by_contra hhi
        exact hle ((h.le_curRoot_iff hs hlt).mpr (by omega))
      obtain ⟨hkey, hnext⟩ := h.advance hlt hge
      have hi := hnext.leaf_lt
      rw [hkey, ok_bind]
      exact ih (i := i + 1) hnext hk (by omega)

end BulkLoop

/-! ### Inserting one by one -/

/-- A table without empty slots that have a grain, with given pairs. -/
structure Loaded (n : ℕ) (t : Table) (es : List LeafE) : Prop where
  cnt_eq : cnt t.mem = n
  emptyPpa : EmptyPpa t.mem
  holds : ∃ Ls, TableInv t Ls ∧ ∀ e, (∃ i, e ∈ Ls i) ↔ e ∈ es

namespace Loaded

variable {t : Table}

/-- The table counts its pairs. -/
theorem count (h : Loaded n t es) (hnd : (es.map Prod.fst).Nodup) : t.cachedCnt = es.length := by
  obtain ⟨Ls, inv, hcont⟩ := h.holds
  have hperm : (pairs Ls (cnt t.mem)).Perm es := by
    rw [List.perm_ext_iff_of_nodup (List.Nodup.of_map _ (inv.nodup_pairs _))
      (List.Nodup.of_map _ hnd)]
    intro e
    rw [inv.gatherable.mem_pairs, hcont e]
  rw [inv.count, ← length_pairs, hperm.length_eq]

/-- `twolevel_find` returns the grain of a pair that was inserted, and `UINT_MAX` for any other
index. -/
theorem find_eq (h : Loaded n t es) (hnd : (es.map Prod.fst).Nodup) {x : ℕ} (hx : x ≤ uintMax) :
    (twolevelFind t.mem x).1 = ((es.find? fun e => e.1 = x).map Prod.snd).getD uintMax := by
  obtain ⟨Ls, inv, hcont⟩ := h.holds
  by_cases hmem : ∃ e ∈ es, e.1 = x
  · obtain ⟨e, he, rfl⟩ := hmem
    have hfound : es.find? (fun e' => e'.1 = e.1) = some e := by
      cases hfind : es.find? fun e' => e'.1 = e.1 with
      | none =>
        rw [List.find?_eq_none] at hfind
        exact absurd rfl (of_decide_eq_false (Bool.eq_false_iff.mpr (hfind e he)))
      | some e' =>
        have hkey : e'.1 = e.1 := by simpa using List.find?_some hfind
        rw [List.inj_on_of_nodup_map hnd (List.mem_of_find?_eq_some hfind) he hkey]
    obtain ⟨i, hi⟩ := (hcont e).mpr he
    obtain ⟨j, hj, rfl⟩ := List.getElem_of_mem hi
    rw [inv.find_of_mem hj, hfound]
    rfl
  · have hnone : es.find? (fun e => e.1 = x) = none := by
      rw [List.find?_eq_none]
      intro e he hx'
      exact hmem ⟨e, he, of_decide_eq_true hx'⟩
    rw [hnone]
    rcases Nat.eq_or_lt_of_le hx with rfl | hlt
    · -- UINT_MAX is the key of the empty slots, which hold UINT_MAX
      have hr := inv.root.routes_lowerBound le_rfl
      rw [twolevelFind]
      simp only [Nat.ne_of_lt hr.lt_cnt, if_false]
      exact h.emptyPpa.find_uintMax (inv.lt_inRoot hr) (Nat.zero_add _).le
    · rw [inv.find_of_not_mem hlt]
      · rfl
      · intro i e he hx'
        exact hmem ⟨e, (hcont e).mp ⟨i, he⟩, hx'⟩

theorem perm (h : Loaded n t es) {es' : List LeafE} (hperm : es.Perm es') : Loaded n t es' where
  cnt_eq := h.cnt_eq
  emptyPpa := h.emptyPpa
  holds := by
    obtain ⟨Ls, inv, hcont⟩ := h.holds
    exact ⟨Ls, inv, fun e => (hcont e).trans hperm.mem_iff⟩

/-- Inserting a new pair. -/
theorem insertOne (h : Loaded n t es) {e : LeafE} (hnd : ((es ++ [e]).map Prod.fst).Nodup)
    (he : e.1 < uintMax) (hroom : es.length < n * inLeaf) :
    ∃ t', insertOne t e = .ok t' ∧ Loaded n t' (es ++ [e]) := by
  rw [List.map_append, List.map_singleton, List.nodup_append] at hnd
  have hcount := h.count hnd.1
  obtain ⟨Ls, inv, hcont⟩ := h.holds
  have hnew : ∀ i, ∀ e' ∈ Ls i, e'.1 ≠ e.1 := by
    intro i e' he'
    exact hnd.2.2 _ (List.mem_map_of_mem ((hcont e').mp ⟨i, he'⟩)) _ (List.mem_singleton_self _)
  obtain ⟨t', Ls', hok, inv', hcnt, hw, hcont'⟩ := inv.insert_new_writes (p := e.2) he hnew
    (by rw [hcount, h.cnt_eq]; exact hroom)
  refine ⟨t', hok, hcnt.trans h.cnt_eq, h.emptyPpa.writes hw, Ls', inv', ?_⟩
  intro e'
  rw [hcont', hcont, List.mem_append, List.mem_singleton]

/-- Inserting pairs one by one. -/
theorem insertAll (h : Loaded n t es) {rest : List LeafE}
    (hnd : ((es ++ rest).map Prod.fst).Nodup) (hlt : ∀ e ∈ rest, e.1 < uintMax)
    (hfit : (es ++ rest).length ≤ n * inLeaf) :
    ∃ t', rest.foldlM TwoLevel.insertOne t = .ok t' ∧ Loaded n t' (es ++ rest) := by
  induction rest generalizing t es with
  | nil => exact ⟨t, rfl, by rwa [List.append_nil]⟩
  | cons e rest ih =>
    have happ : es ++ e :: rest = (es ++ [e]) ++ rest := by simp
    rw [happ] at hnd hfit ⊢
    rw [List.length_append, List.length_append, List.length_singleton] at hfit
    have hnd' : ((es ++ [e]).map Prod.fst).Nodup := by
      rw [List.map_append] at hnd
      exact hnd.of_append_left
    obtain ⟨t1, hone, h1⟩ := h.insertOne hnd' (hlt e List.mem_cons_self) (by omega)
    obtain ⟨t', hrun, h'⟩ := ih h1 hnd (fun e' he' => hlt e' (List.mem_cons_of_mem _ he'))
      (by rw [List.length_append, List.length_append, List.length_singleton]; omega)
    refine ⟨t', ?_, h'⟩
    rw [List.foldlM_cons, hone]
    exact hrun

end Loaded

/-! ### Fresh tables -/

theorem cnt_prepared (hn : 2 ≤ n) (m : PageWords) : cnt (prepared n m) = n := by
  have hiter : ∀ (k : ℕ) (m : PageWords), cnt (twolevelExpand^[k] m) = cnt m + k := by
    intro k
    induction k with
    | zero => intro m; rfl
    | succ k ih =>
      intro m
      rw [Function.iterate_succ_apply, ih, twolevelExpand, setCnt, cnt, Function.update_self]
      omega
  rw [prepared, hiter, show cnt (twolevelInit m) = 2 from rfl]
  omega

/-- `twolevel_expand` changes the count alone. -/
theorem prepared_word (n : ℕ) (m : PageWords) {w : ℕ} (hw : 0 < w) (hw' : w < leafBase inRoot) :
    prepared n m w = uintMax := by
  have hiter : ∀ (k : ℕ) (m : PageWords), (twolevelExpand^[k] m) w = m w := by
    intro k
    induction k with
    | zero => intro m; rfl
    | succ k ih =>
      intro m
      rw [Function.iterate_succ_apply, ih, twolevelExpand, setCnt,
        Function.update_of_ne (by omega)]
  rw [prepared, hiter, twolevelInit, if_neg (by omega), if_pos hw']

theorem prepared_empty (n : ℕ) (m : PageWords) {i j : ℕ} (hi : i < inRoot) (hj : j < inLeaf) :
    hidx (prepared n m) i j = uintMax ∧ ppa (prepared n m) i j = uintMax := by
  rw [inRoot_eq] at hi
  rw [inLeaf_eq] at hj
  constructor
  · apply prepared_word <;> simp only [leafBase_eq, inRoot_eq] <;> omega
  · apply prepared_word <;> simp only [leafBase_eq, inRoot_eq, inLeaf_eq] <;> omega

theorem emptyPpa_prepared (n : ℕ) (m : PageWords) : EmptyPpa (prepared n m) :=
  fun _ hi _ hj _ => (prepared_empty n m hi hj).2

/-- A fresh table has no pairs. -/
theorem loaded_prepared (hn : 2 ≤ n) (hroot : n ≤ inRoot) (m : PageWords) :
    Loaded n ⟨0, prepared n m⟩ [] := by
  have hcnt := cnt_prepared hn m
  have hent : ∀ i < n, entry (prepared n m) i = uintMax := by
    intro i hi
    rw [inRoot_eq] at hroot
    exact prepared_word n m (by omega) (by rw [leafBase_eq, inRoot_eq]; omega)
  refine ⟨hcnt, emptyPpa_prepared n m, fun _ => [], ⟨⟨?_, ?_, ?_, ?_⟩, ?_, ?_, ?_, ?_, ?_⟩, ?_⟩
  · rwa [hcnt]
  · rwa [hcnt]
  · intro i j hij hj
    rw [hcnt] at hj
    rw [hent i (by omega), hent j hj]
  · rw [hcnt, hent _ (by omega)]
  · exact fun i hi => leafHolds_nil fun j hj => (prepared_empty n m hi hj).1
  · exact fun _ _ he => absurd he List.not_mem_nil
  · exact fun _ => List.nodup_nil
  · exact fun _ _ _ => rfl
  · simp [total]
  · simp

/-! ### Bulk loading -/

/-- `twolevel_bulk_insert` returns a table with the given pairs, and writes slots of the leaves
only, each of them at most once. -/
theorem twolevelBulkInsert_loads (hn : 2 ≤ n) (hroot : n ≤ inRoot) (m : PageWords)
    (hpos : 0 < es.length) (hfit : es.length ≤ n * inLeaf) (hnd : (es.map Prod.fst).Nodup)
    (hkey : ∀ e ∈ es, 0 < e.1 ∧ e.1 < uintMax) :
    ∃ m' ws, twolevelBulkInsert (prepared n m) es = .ok (m', ws) ∧
      Loaded n ⟨es.length, m'⟩ es ∧ (∀ w ∈ ws, w.2 < inLeaf) ∧
      ∀ i, ws.countP (fun w => w.1 = i) ≤ inLeaf := by
  have hperm : (sortLeaves es).Perm es := List.perm_insertionSort _ es
  have hs : Sorted (sortLeaves es) := sorted_sortLeaves hnd fun e he => (hkey e he).2
  have hlen := hperm.length_eq
  have hcnt := cnt_prepared hn m
  have hsmall : es.length < 2 ^ 32 := by
    rw [inRoot_eq] at hroot
    rw [inLeaf_eq] at hfit
    omega
  generalize hsl : sortLeaves es = sl at hperm hs hlen
  have hkeys := newRoots_eq (show 0 < sl.length by omega) (by omega : 0 < n)
  have hfirst : newRootKey ((List.range' 0 n).map (rootKey sl n)) 0 = .ok (rootKey sl n 0) := by
    rw [newRootKey, List.getElem?_map, List.getElem?_range' (by omega)]
    rfl
  have hstart := Reloading.start hs (by omega) hn hroot hcnt
    fun i hi j hj => (prepared_empty n m hi hj).1
  -- the loop starts with the largest key of the first leaf
  have hbulk : BulkLoop sl n 0 0
      { curRoot := rootKey sl n 0, curRootIdx := 0, curLeaf := 0, leafIdx := 0, idx := 0
        mem := setEntries ((List.range' 0 n).map (rootKey sl n)) 0 (prepared n m)
        written := [] } := by
    refine ⟨rfl, rfl, rfl, rfl, by omega, by rw [cut_zero], Nat.zero_le _, by rw [cut_zero],
      ⟨_, _, hstart, rfl⟩, ?_, ?_, ?_⟩
    · refine (emptyPpa_prepared n m).writes (Writes.setEntries ?_)
      rw [List.length_map, List.length_range']
      omega
    · exact fun w hw => absurd hw List.not_mem_nil
    · exact fun a => Nat.zero_le _
  obtain ⟨b, i, hrun, hend⟩ := hbulk.run hs (fun e he => (hkey e (hperm.mem_iff.mp he)).1)
    (Nat.zero_le _) (by omega) (by omega)
    (show sl.length - 0 + (n - 0) < sl.length + n + 1 by omega)
  obtain ⟨t, Ls, r, hmem⟩ := hend.reloading
  refine ⟨b.mem, b.written, ?_, ⟨?_, ?_, Ls, ?_, ?_⟩, hend.written_lt, ?_⟩
  · have hcm : cnt (setEntries ((List.range' 0 n).map (rootKey sl n)) 0 (prepared n m)) = n :=
      hstart.cnt_eq
    rw [twolevelBulkInsert, hsl]
    simp only [hcnt, hkeys, ok_bind, hfirst, hcm, hrun]
    rfl
  · rw [← hmem]
    exact r.cnt_eq
  · exact hend.emptyPpa
  · have hcount := r.count
    rw [← hmem, ← hlen, ← hcount]
    exact r.inv
  · intro e
    rw [r.contents e, List.take_length, hperm.mem_iff]
  · intro a
    have hle := hend.written_le a
    have hcut := cut_succ_le (N := sl.length) (n := n) (c := inLeaf) (by omega) a
    omega

/-- Bulk loading a fresh table fills no leaf beyond its slots, ends, and leaves every index with
the grain it has after the pairs are inserted one by one, in any order. -/
theorem twolevelBulkInsert_agrees (n : ℕ) (hn : 2 ≤ n) (hroot : n ≤ inRoot) (m : PageWords)
    (es : List LeafE) (hpos : 1 ≤ es.length) (hfit : es.length ≤ n * inLeaf)
    (hnd : (es.map Prod.fst).Nodup) (hkey : ∀ e ∈ es, 0 < e.1 ∧ e.1 < uintMax) :
    ∃ m' ws, twolevelBulkInsert (prepared n m) es = .ok (m', ws) ∧
      (∀ w ∈ ws, w.2 < inLeaf) ∧ (∀ i, ws.countP (fun w => w.1 = i) ≤ inLeaf) ∧
      ∀ es' : List LeafE, es'.Perm es → ∃ t, es'.foldlM insertOne ⟨0, prepared n m⟩ = .ok t ∧
        ∀ x ≤ uintMax, (twolevelFind m' x).1 = (twolevelFind t.mem x).1 := by
  obtain ⟨m', ws, hbulk, hloaded, hslots, hleaves⟩ :=
    twolevelBulkInsert_loads hn hroot m hpos hfit hnd hkey
  refine ⟨m', ws, hbulk, hslots, hleaves, fun es' hperm => ?_⟩
  have hnd' : (es'.map Prod.fst).Nodup := (hperm.map _).nodup_iff.mpr hnd
  obtain ⟨t, hrun, hone⟩ := (loaded_prepared hn hroot m).insertAll
    (show (([] ++ es').map Prod.fst).Nodup from hnd')
    (fun e he => (hkey e (hperm.mem_iff.mp he)).2)
    (by rw [List.nil_append, hperm.length_eq]; exact hfit)
  refine ⟨t, hrun, fun x hx => ?_⟩
  rw [hloaded.find_eq hnd hx, (hone.perm hperm).find_eq hnd hx]

/-- 24 pairs, the last index first. -/
def descending : List LeafE := (List.range 24).map fun i => (100 - i, i)

/-- They fill three leaves. -/
theorem twolevelBulkInsert_agrees_full :
    ∃ m' ws, twolevelBulkInsert (prepared 3 fun _ => 0) descending = .ok (m', ws) ∧
      ws.countP (fun w => w.1 = 1) = inLeaf ∧
      (∀ w ∈ ws, w.2 < inLeaf) ∧ (∀ i, ws.countP (fun w => w.1 = i) ≤ inLeaf) ∧
      ∀ es' : List LeafE, es'.Perm descending →
        ∃ t, es'.foldlM insertOne ⟨0, prepared 3 fun _ => 0⟩ = .ok t ∧
          ∀ x ≤ uintMax, (twolevelFind m' x).1 = (twolevelFind t.mem x).1 := by
  have hfull : ((twolevelBulkInsert (prepared 3 fun _ => 0) descending).map fun x =>
      x.2.countP fun w => w.1 = 1).toOption = some inLeaf := by decide +kernel
  obtain ⟨m', ws, hbulk, hagrees⟩ := twolevelBulkInsert_agrees 3 (by decide) (by decide)
    (fun _ => 0) descending (by decide) (by decide) (by decide) (by decide)
  rw [hbulk] at hfull
  exact ⟨m', ws, hbulk, Option.some.inj hfull, hagrees⟩

end TwoLevel

end Virtkv
