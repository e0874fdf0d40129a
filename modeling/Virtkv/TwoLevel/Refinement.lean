import Virtkv.TwoLevel.Reload

/-!
# The two-level table is a finite map

The abstract table is a partial function from hash indices to grains. `Refines t f`
says that the page of `t` represents `f`; every `__update_map` of a section keeps
the relation, so `twolevel_find` reads `f` after every run of updates.
-/

namespace Virtkv

open Outcome

namespace TwoLevel

/-- The effect of an update on the abstract table: the grain `UINT_MAX` removes. -/
def record (f : ℕ → Option ℕ) (h p : ℕ) : ℕ → Option ℕ :=
  Function.update f h (if p = uintMax then none else some p)

/-- The table represents the partial function `f`. -/
def Refines (t : Table) (f : ℕ → Option ℕ) : Prop :=
  ∃ Ls, TableInv t Ls ∧ ∀ h p, (∃ i, (h, p) ∈ Ls i) ↔ f h = some p

/-! ### Counting the pairs -/

theorem length_pairs (Ls : ℕ → List LeafE) (n : ℕ) : (pairs Ls n).length = total Ls n := by
  unfold pairs total
  rw [List.length_flatMap, ← List.range_eq_range']
  induction n with
  | zero => rfl
  | succ n ih =>
    rw [List.range_succ, List.map_append, List.sum_append, ih, Finset.sum_range_succ]
    simp

namespace TableInv

variable {t : Table} {Ls : ℕ → List LeafE}

theorem gatherable (inv : TableInv t Ls) : Gatherable t.mem Ls where
  two_le := inv.root.two_le
  le_inRoot := inv.root.le_inRoot
  leaf := inv.leaf
  outside _ hi := inv.nil_of_ge hi

/-- No index occurs twice, also not in two leaves. -/
theorem nodup_pairs (inv : TableInv t Ls) (n : ℕ) : ((pairs Ls n).map Prod.fst).Nodup := by
  rw [pairs, List.map_flatMap, List.nodup_flatMap]
  refine ⟨fun i _ => inv.nodup i, ?_⟩
  refine (List.nodup_range' (s := 0) (n := n)).imp fun {i i'} hne => ?_
  intro h hi hi'
  obtain ⟨e, he, rfl⟩ := List.mem_map.mp hi
  obtain ⟨e', he', heq⟩ := List.mem_map.mp hi'
  have hr' := inv.routed i' e' he'
  rw [heq] at hr'
  exact hne ((inv.routed i e he).unique hr')

/-- `cached_cnt` is the number of present indices. -/
theorem count_eq_card (inv : TableInv t Ls) {f : ℕ → Option ℕ}
    (hf : ∀ h p, (∃ i, (h, p) ∈ Ls i) ↔ f h = some p) {S : Finset ℕ}
    (hS : ∀ h, f h ≠ none → h ∈ S) :
    t.cachedCnt = (S.filter fun h => (f h).isSome).card := by
  have hset : ((pairs Ls (cnt t.mem)).map Prod.fst).toFinset =
      S.filter fun h => (f h).isSome := by
    ext h
    rw [List.mem_toFinset, List.mem_map, Finset.mem_filter]
    constructor
    · rintro ⟨⟨h', p⟩, he, rfl⟩
      have hp : f h' = some p := (hf h' p).mp (inv.gatherable.mem_pairs.mp he)
      exact ⟨hS h' (by simp [hp]), by simp [hp]⟩
    · rintro ⟨-, hsome⟩
      obtain ⟨p, hp⟩ := Option.isSome_iff_exists.mp hsome
      exact ⟨(h, p), inv.gatherable.mem_pairs.mpr ((hf h p).mpr hp), rfl⟩
  rw [← hset, List.toFinset_card_of_nodup (inv.nodup_pairs _), List.length_map, length_pairs]
  exact inv.count

/-! ### Inserting a new index -/

theorem cnt_fillSlot (i h p n j : ℕ) (m : PageWords) : cnt (fillSlot i h p n j m) = cnt m := by
  induction n generalizing j with
  | zero => rfl
  | succ n ih =>
    rw [fillSlot]
    split
    · exact cnt_setSlot ..
    · exact ih (j + 1)

theorem cnt_insertLeaf (m : PageWords) (i h p : ℕ) : cnt (insertLeaf m i h p) = cnt m := by
  rw [insertLeaf]
  rw [cnt_fillSlot]
  split
  · exact cnt_setEntry ..
  · rfl

/-- `twolevel_insert` of a new index into a table with a free slot: into its leaf, or
through a redistribution. -/
theorem insert_new_writes (inv : TableInv t Ls) {h p : ℕ} (hh : h < uintMax)
    (hnew : ∀ i, ∀ e ∈ Ls i, e.1 ≠ h) (hroom : t.cachedCnt < cnt t.mem * inLeaf) :
    ∃ t' Ls', twolevelInsert t h p uintMax = .ok t' ∧ TableInv t' Ls' ∧
      cnt t'.mem = cnt t.mem ∧ Writes t.mem t'.mem ∧
      ∀ e, (∃ i, e ∈ Ls' i) ↔ (∃ i, e ∈ Ls i) ∨ e = (h, p) := by
  have hr := inv.root.routes_lowerBound hh.le
  have hL := inv.leaf _ (inv.lt_inRoot hr)
  have hle := inv.root.le_inRoot
  rw [inRoot_eq] at hle
  rw [inLeaf_eq] at hroom
  have hsmall : t.cachedCnt + 1 < 2 ^ 32 := by omega
  have hmod : (t.cachedCnt + 1) % 2 ^ 32 = t.cachedCnt + 1 := Nat.mod_eq_of_lt hsmall
  rw [twolevelInsert, if_neg (not_not.mpr rfl)]
  by_cases hfull : hidx t.mem (lowerBound t.mem h) (inLeaf - 1) = uintMax
  · simp only [hfull, ne_eq, not_true_eq_false, if_false]
    exact ⟨_, _, rfl, inv.insert hr hh hnew (hL.last_eq_iff.mp hfull) hsmall,
      cnt_insertLeaf .., Writes.insertLeaf (inv.lt_inRoot hr) (fun heq => absurd heq hh.ne),
      fun e => inv.mem_update_append hr hnew⟩
  · simp only [ne_eq, hfull, not_false_eq_true, if_true]
    have hlen : (pairs Ls (cnt t.mem)).length = t.cachedCnt :=
      (length_pairs ..).trans inv.count.symm
    have hreload := Gatherable.reload
      (t := { t with cachedCnt := (t.cachedCnt + 1) % 2 ^ 32 }) inv.gatherable
      (h := h) (p := p) [(h, p)] (if_pos hh.ne) ?_ ?_ ?_ ?_ ?_ ?_
    · obtain ⟨t', Ls', hok, inv', hcnt, -, hw, hcont⟩ := hreload
      exact ⟨t', Ls', hok, inv', hcnt, hw, fun e => by rw [hcont e, List.mem_singleton]⟩
    · rw [List.map_append, List.map_singleton]
      refine (inv.nodup_pairs _).append (List.nodup_singleton h) ?_
      rw [List.disjoint_singleton]
      intro hmem
      obtain ⟨e, he, heq⟩ := List.mem_map.mp hmem
      obtain ⟨i, hi⟩ := inv.gatherable.mem_pairs.mp he
      exact hnew i e hi heq
    · intro e he
      rcases List.mem_append.mp he with he | he
      · obtain ⟨i, hi⟩ := inv.gatherable.mem_pairs.mp he
        exact inv.key_lt hi
      · rw [List.mem_singleton.mp he]
        exact hh
    · rw [List.length_append, List.length_singleton, hlen]
      exact hmod
    · show 0 < (t.cachedCnt + 1) % 2 ^ 32
      omega
    · show (t.cachedCnt + 1) % 2 ^ 32 ≤ cnt t.mem * inLeaf
      rw [hmod, inLeaf_eq]
      omega
    · exact Nat.mod_lt _ (by norm_num)

theorem insert_new (inv : TableInv t Ls) {h p : ℕ} (hh : h < uintMax)
    (hnew : ∀ i, ∀ e ∈ Ls i, e.1 ≠ h) (hroom : t.cachedCnt < cnt t.mem * inLeaf) :
    ∃ t' Ls', twolevelInsert t h p uintMax = .ok t' ∧ TableInv t' Ls' ∧
      ∀ e, (∃ i, e ∈ Ls' i) ↔ (∃ i, e ∈ Ls i) ∨ e = (h, p) := by
  obtain ⟨t', Ls', hok, inv', -, -, hcont⟩ := inv.insert_new_writes (p := p) hh hnew hroom
  exact ⟨t', Ls', hok, inv', hcont⟩

/-- Growing the root by one leaf and redistributing keeps the pairs. -/
theorem expand (inv : TableInv t Ls) (hpos : 0 < t.cachedCnt) (hcnt : cnt t.mem < inRoot) :
    ∃ t' Ls', twolevelReload { t with mem := twolevelExpand t.mem } uintMax uintMax = .ok t' ∧
      TableInv t' Ls' ∧ cnt t'.mem = cnt t.mem + 1 ∧ t'.cachedCnt = t.cachedCnt ∧
      ∀ e, (∃ i, e ∈ Ls' i) ↔ ∃ i, e ∈ Ls i := by
  have hgrown : cnt (twolevelExpand t.mem) = cnt t.mem + 1 := by
    simp [twolevelExpand, setCnt, cnt]
  have hsame : ∀ i, SameLeaf t.mem (twolevelExpand t.mem) i := by
    intro i j _
    unfold twolevelExpand setCnt hidx ppa
    rw [Function.update_of_ne (by rw [leafBase_eq]; omega),
      Function.update_of_ne (by rw [leafBase_eq]; omega)]
    exact ⟨rfl, rfl⟩
  have g : Gatherable (twolevelExpand t.mem) Ls :=
    ⟨by have := inv.root.two_le; omega, by omega, fun i hi => (inv.leaf i hi).same (hsame i),
      fun i hi => inv.nil_of_ge (by omega)⟩
  have hpairs : pairs Ls (cnt t.mem + 1) = pairs Ls (cnt t.mem) := by
    unfold pairs
    rw [← List.range_eq_range', List.range_succ, List.flatMap_append, ← List.range_eq_range']
    simp [inv.nil_of_ge le_rfl]
  have hle := inv.count_le
  rw [inRoot_eq] at hcnt
  rw [inLeaf_eq] at hle
  have hreload := Gatherable.reload
    (t := { t with mem := twolevelExpand t.mem }) g
    (h := uintMax) (p := uintMax) [] (if_neg (not_not.mpr rfl)) ?_ ?_ ?_ hpos ?_ ?_
  · obtain ⟨t', Ls', hok, inv', hc, hcount, -, hcont⟩ := hreload
    refine ⟨t', Ls', hok, inv', hc.trans hgrown, hcount, fun e => ?_⟩
    rw [hcont e]
    simp
  · rw [List.append_nil]
    exact inv.nodup_pairs _
  · intro e he
    rw [List.append_nil] at he
    obtain ⟨i, hi⟩ := g.mem_pairs.mp he
    exact inv.key_lt hi
  · simp only [hgrown, List.append_nil, hpairs, length_pairs]
    exact inv.count
  · simp only [hgrown, inLeaf_eq]
    omega
  · show t.cachedCnt < 2 ^ 32
    omega

end TableInv

/-! ### One update -/

namespace Refines

variable {t : Table} {f : ℕ → Option ℕ}

/-- `twolevel_find` reads the abstract table. -/
theorem find_eq (hf : Refines t f) {h : ℕ} (hh : h < uintMax) :
    (twolevelFind t.mem h).1 = (f h).getD uintMax := by
  obtain ⟨Ls, inv, hcont⟩ := hf
  cases hfh : f h with
  | none =>
    rw [inv.find_of_not_mem hh]
    · rfl
    · rintro i ⟨h', p⟩ he rfl
      have := (hcont h' p).mp ⟨i, he⟩
      rw [hfh] at this
      exact absurd this (by simp)
  | some p =>
    obtain ⟨i, hi⟩ := (hcont h p).mpr hfh
    obtain ⟨j, hj, heq⟩ := List.getElem_of_mem hi
    have hfind := inv.find_of_mem hj
    rw [heq] at hfind
    rw [hfind]
    rfl

theorem count_eq (hf : Refines t f) {S : Finset ℕ} (hS : ∀ h, f h ≠ none → h ∈ S) :
    t.cachedCnt = (S.filter fun h => (f h).isSome).card := by
  obtain ⟨Ls, inv, hcont⟩ := hf
  exact inv.count_eq_card hcont hS

theorem root (hf : Refines t f) : RootOk t.mem := by
  obtain ⟨Ls, inv, -⟩ := hf
  exact inv.root

/-- An update of a present index goes through its position. -/
theorem update_present (hf : Refines t f) {h p p' : ℕ} (hp' : f h = some p') :
    ∃ t', updateTable t h p ((twolevelFind t.mem h).2.getD uintMax) = .ok t' ∧
      Refines t' (record f h p) := by
  obtain ⟨Ls, inv, hcont⟩ := hf
  obtain ⟨i, hi⟩ := (hcont h p').mpr hp'
  obtain ⟨j, hj, heq⟩ := List.getElem_of_mem hi
  have hr := inv.routed i _ hi
  have hi60 := inv.lt_inRoot hr
  have hj8 : j < inLeaf := lt_of_lt_of_le hj (inv.length_le i)
  have hfind := inv.find_of_mem hj
  rw [heq] at hfind
  have hpos : slotPos i j ≠ uintMax := by
    have h60 := inRoot_eq
    have h8 := inLeaf_eq
    have hmax : uintMax = 4294967295 := rfl
    rw [slotPos_eq]
    omega
  have hle := inv.count_le
  have hcnt := inv.root.le_inRoot
  rw [inLeaf_eq] at hle
  rw [inRoot_eq] at hcnt
  rw [hfind, Option.getD_some, updateTable, if_neg (fun hc => hpos hc.2), ok_bind]
  show ∃ t', twolevelInsert t h p (slotPos i j) = .ok t' ∧ _
  unfold twolevelInsert
  rw [if_pos hpos]
  by_cases hp : p = uintMax
  · rw [if_pos hp, posLeaf_slotPos hj8, posSlot_slotPos hj8]
    refine ⟨_, rfl, _, inv.delete hj (by omega), fun h' q => ?_⟩
    rw [inv.mem_update_leaf (P := fun _ => False) hr
      (fun e => by rw [inv.mem_eraseIdx hj heq, or_false]), hcont, record, if_pos hp]
    by_cases hh' : h' = h
    · simp [hh']
    · simp [hh']
  · rw [if_neg hp]
    refine ⟨_, rfl, _, inv.overwrite hj heq, fun h' q => ?_⟩
    rw [inv.mem_update_leaf (P := (· = (h, p))) hr (fun e => inv.mem_set hj heq), hcont, record,
      if_neg hp]
    by_cases hh' : h' = h
    · simp [hh', eq_comm]
    · simp [hh']

/-- An update of an absent index inserts it, growing the root first if it has to. -/
theorem update_absent (hf : Refines t f) {S : Finset ℕ} (hcard : S.card ≤ Build.plus.epp)
    (hS : ∀ h, f h ≠ none → h ∈ S) {h p : ℕ} (hh : h < uintMax) (hmem : h ∈ S)
    (hnone : f h = none) (hp : p ≠ uintMax) :
    ∃ t', updateTable t h p ((twolevelFind t.mem h).2.getD uintMax) = .ok t' ∧
      Refines t' (record f h p) := by
  obtain ⟨Ls, inv, hcont⟩ := hf
  have hnew : ∀ i, ∀ e ∈ Ls i, e.1 ≠ h := by
    rintro i ⟨h', q⟩ he rfl
    have := (hcont h' q).mp ⟨i, he⟩
    rw [hnone] at this
    exact absurd this (by simp)
  -- the section still has an index without a slot, so there is a leaf to add
  have hlt : t.cachedCnt < Build.plus.epp := by
    rw [inv.count_eq_card hcont hS]
    refine lt_of_lt_of_le (Finset.card_lt_card ?_) hcard
    refine Finset.filter_ssubset.mpr ⟨h, hmem, ?_⟩
    simp [hnone]
  have hepp : Build.plus.epp = inRoot * inLeaf := rfl
  rw [inv.find_of_not_mem hh hnew, Option.getD_none, updateTable]
  have hcommon : ∀ {t1 : Table} {Ls1 : ℕ → List LeafE}, TableInv t1 Ls1 →
      (∀ e, (∃ i, e ∈ Ls1 i) ↔ ∃ i, e ∈ Ls i) → t1.cachedCnt < cnt t1.mem * inLeaf →
      ∃ t', twolevelInsert t1 h p uintMax = .ok t' ∧ Refines t' (record f h p) := by
    intro t1 Ls1 inv1 hsame hroom
    obtain ⟨t', Ls', hok, inv', hcont'⟩ := inv1.insert_new (p := p) hh
      (fun i e he => by
        obtain ⟨k, hk⟩ := (hsame e).mp ⟨i, he⟩
        exact hnew k e hk) hroom
    refine ⟨t', hok, Ls', inv', fun h' q => ?_⟩
    rw [hcont', hsame, hcont, record, if_neg hp]
    by_cases hh' : h' = h
    · subst hh'
      rw [Function.update_self, hnone]
      simp [eq_comm]
    · rw [Function.update_of_ne hh']
      simp [hh']
  by_cases hfull : t.cachedCnt = cnt t.mem * inLeaf
  · have h2 := inv.root.two_le
    have h8 := inLeaf_eq
    have h60 := inRoot_eq
    rw [h8] at hfull hepp
    obtain ⟨t1, Ls1, hok, inv1, hc, hcount, hsame⟩ := inv.expand (by omega) (by omega)
    rw [if_pos ⟨by rw [h8]; exact hfull, rfl⟩, hok, ok_bind]
    exact hcommon inv1 hsame (by rw [h8]; omega)
  · rw [if_neg (fun hc => hfull hc.1), ok_bind]
    exact hcommon inv (fun _ => Iff.rfl) (by have := inv.count_le; omega)

end Refines

/-! ### Runs of updates -/

/-- A section after `twolevel_init`. -/
def initTable (m : PageWords) : Table := { cachedCnt := 0, mem := twolevelInit m }

/-- `__update_map` with the position that `twolevel_find` returned. -/
def updateFound (t : Table) (e : LeafE) : Except Fault Table :=
  updateTable t e.1 e.2 ((twolevelFind t.mem e.1).2.getD uintMax)

/-- The abstract table after a run of updates. -/
def recorded (ops : List LeafE) : ℕ → Option ℕ :=
  ops.foldl (fun f e => record f e.1 e.2) (fun _ => none)

/-- Every update inserts, overwrites or deletes an index of the section; only a
present index is deleted. -/
def Legal (S : Finset ℕ) : (ℕ → Option ℕ) → List LeafE → Prop
  | _, [] => True
  | f, e :: ops => e.1 ∈ S ∧ (e.2 = uintMax → f e.1 ≠ none) ∧ Legal S (record f e.1 e.2) ops

instance (S : Finset ℕ) (f : ℕ → Option ℕ) (ops : List LeafE) : Decidable (Legal S f ops) :=
  match ops with
  | [] => isTrue trivial
  | e :: ops =>
    have := instDecidableLegal S (record f e.1 e.2) ops
    inferInstanceAs (Decidable (_ ∧ _ ∧ _))

theorem refines_initTable (m : PageWords) : Refines (initTable m) (fun _ => none) := by
  have hcnt : cnt (twolevelInit m) = 2 := rfl
  have hent : ∀ k < inRoot, entry (twolevelInit m) k = uintMax := by
    intro k hk
    rw [inRoot_eq] at hk
    rw [entry, twolevelInit, if_neg (by omega), if_pos (by rw [leafBase_eq, inRoot_eq]; omega)]
  have h60 := inRoot_eq
  refine ⟨fun _ => [], ⟨⟨hcnt.ge, by rw [initTable, hcnt]; omega, ?_, ?_⟩, ?_, ?_, ?_, ?_, ?_⟩, ?_⟩
  · intro i j hij hj
    rw [initTable, hcnt] at hj
    rw [initTable, hent i (by omega), hent j (by omega)]
  · rw [initTable, hcnt]
    exact hent 1 (by omega)
  · intro i hi
    refine leafHolds_nil fun j hj => ?_
    rw [inLeaf_eq] at hj
    show twolevelInit m (leafBase i + j) = uintMax
    rw [twolevelInit, if_neg (by rw [leafBase_eq]; omega),
      if_pos (by simp only [leafBase_eq, inRoot_eq]; omega)]
  · exact fun _ _ he => absurd he List.not_mem_nil
  · exact fun _ => List.nodup_nil
  · exact fun _ _ _ => rfl
  · simp [initTable, total]
  · simp

theorem record_support {S : Finset ℕ} {f : ℕ → Option ℕ} (hS : ∀ h, f h ≠ none → h ∈ S)
    {h p : ℕ} (hmem : h ∈ S) : ∀ h', record f h p h' ≠ none → h' ∈ S := by
  intro h' hne
  by_cases hh : h' = h
  · rwa [hh]
  · rw [record, Function.update_of_ne hh] at hne
    exact hS h' hne

/-- A run keeps the relation. -/
theorem Refines.run {S : Finset ℕ} (hcard : S.card ≤ Build.plus.epp)
    (hlt : ∀ h ∈ S, h < uintMax) {ops : List LeafE} {t : Table} {f : ℕ → Option ℕ}
    (hf : Refines t f) (hS : ∀ h, f h ≠ none → h ∈ S) (hlegal : Legal S f ops) :
    ∃ t', ops.foldlM updateFound t = .ok t' ∧
      Refines t' (ops.foldl (fun f e => record f e.1 e.2) f) ∧
      ∀ h, ops.foldl (fun f e => record f e.1 e.2) f h ≠ none → h ∈ S := by
  induction ops generalizing t f with
  | nil => exact ⟨t, rfl, hf, hS⟩
  | cons e ops ih =>
    obtain ⟨hmem, hdel, hrest⟩ := hlegal
    have hstep : ∃ t', updateFound t e = .ok t' ∧ Refines t' (record f e.1 e.2) := by
      cases hfe : f e.1 with
      | none =>
        exact hf.update_absent hcard hS (hlt _ hmem) hmem hfe (fun hp => hdel hp hfe)
      | some p' => exact hf.update_present hfe
    obtain ⟨t1, hok, hf1⟩ := hstep
    obtain ⟨t', hrun, hf', hS'⟩ := ih hf1 (record_support hS hmem) hrest
    refine ⟨t', ?_, hf', hS'⟩
    rw [List.foldlM_cons, hok]
    exact hrun

/-- Every run of updates of a section returns, and leaves a table that holds for every
index the last grain written and not deleted, counts the present indices and keeps
its root keys in order. -/
theorem update_run_is_map (m : PageWords) (S : Finset ℕ) (hcard : S.card ≤ Build.plus.epp)
    (hlt : ∀ h ∈ S, h < uintMax) (ops : List LeafE) (hlegal : Legal S (fun _ => none) ops) :
    ∃ t, ops.foldlM updateFound (initTable m) = .ok t ∧
      (∀ h < uintMax, (twolevelFind t.mem h).1 = (recorded ops h).getD uintMax) ∧
      t.cachedCnt = (S.filter fun h => (recorded ops h).isSome).card ∧
      (∀ i j, i ≤ j → j < cnt t.mem → entry t.mem i ≤ entry t.mem j) ∧
      entry t.mem (cnt t.mem - 1) = uintMax ∧ cnt t.mem ≤ inRoot := by
  obtain ⟨t, hok, hf, hS⟩ := (refines_initTable m).run hcard hlt (by simp) hlegal
  exact ⟨t, hok, fun h hh => hf.find_eq hh, hf.count_eq hS, hf.root.mono, hf.root.last,
    hf.root.le_inRoot⟩

/-- Two inserts, an overwrite and a delete. -/
theorem update_run_is_map_four_updates :
    ∃ t, [(9, 4), (5, 7), (9, 6), (5, uintMax)].foldlM updateFound (initTable fun _ => 0) =
        .ok t ∧ (twolevelFind t.mem 9).1 = 6 ∧ (twolevelFind t.mem 5).1 = uintMax ∧
      t.cachedCnt = 1 := by
  obtain ⟨t, hok, hfind, hcount, -⟩ := update_run_is_map (fun _ => 0) {5, 9} (by decide)
    (by decide) [(9, 4), (5, 7), (9, 6), (5, uintMax)] (by decide)
  exact ⟨t, hok, hfind 9 (by decide), hfind 5 (by decide), hcount⟩

end TwoLevel

end Virtkv
