import Virtkv.Command.Lookup

/-!
# Opening sections and updating slots

What `__store` and the full delete do to the hash table of a shard. A section that is
used for the first time turns its missing slots into empty ones (`Opens`); `__update_map`
changes one slot (`Puts`).
-/

namespace Virtkv

open Outcome OpenAddressing

/-- All indices of the section are smaller than the empty mapping. -/
def Device.SecFits (d : Device) (i : ℕ) : Prop := (i + 1) * d.epp ≤ uintMax

theorem Device.SecFits.lt {d : Device} {i lpa : ℕ} (h : d.SecFits i) (hi : d.idx lpa = i) :
    lpa < uintMax := by
  have hlt : lpa < (lpa / d.epp + 1) * d.epp := Nat.lt_mul_of_div_lt (Nat.lt_succ_self _) d.epp_pos
  rw [← hi] at h
  exact hlt.trans_le h

theorem Device.Fits.secFits {d : Device} (hfit : d.Fits) (hash c : ℕ) :
    d.SecFits (d.idx (d.probe hash c)) := by
  have hroom := hfit.room
  have hlt := hfit.lt
  have hepp := d.epp_cases
  have hmax : uintMax = 2 ^ 32 - 1 := rfl
  have hmod := Nat.mod_lt ((hash + c + c * c) % 2 ^ 32)
    (show 0 < d.nrValidTentries - 1 by omega)
  have hprobe : d.probe hash c < 2 ^ 31 := by
    unfold Device.probe
    omega
  have hle := Nat.div_mul_le_self (d.probe hash c) d.epp
  unfold Device.SecFits Device.idx
  rw [Nat.add_mul]
  omega

namespace Shard

variable {d : Device} {s s' : Shard}

/-! ### Sections that are used for the first time -/

/-- Missing slots may have become empty; nothing else changed in the table. -/
structure Opens (d : Device) (s s' : Shard) : Prop where
  cell : ∀ lpa, s'.cell d lpa = s.cell d lpa ∨
    (s.cell d lpa = .missing ∧ s'.cell d lpa = .empty)
  maxTry : s'.maxTry = s.maxTry
  tableOk : s.TableOk d → s'.TableOk d
  appendBufs : s'.appendBufs = s.appendBufs

namespace Opens

theorem of_sameTable (h : SameTable s s') : Opens d s s' where
  cell lpa := .inl (h.cell_eq lpa)
  maxTry := h.maxTry
  tableOk := h.tableOk
  appendBufs := h.appendBufs

theorem trans {s'' : Shard} (h : Opens d s s') (h' : Opens d s' s'') : Opens d s s'' where
  cell lpa := by
    rcases h.cell lpa with heq | ⟨hm, he⟩
    · rw [← heq]
      exact h'.cell lpa
    · rcases h'.cell lpa with heq' | ⟨hm', -⟩
      · exact .inr ⟨hm, heq'.trans he⟩
      · rw [he] at hm'
        cases hm'
  maxTry := h'.maxTry.trans h.maxTry
  tableOk := fun hok => h'.tableOk (h.tableOk hok)
  appendBufs := h'.appendBufs.trans h.appendBufs

theorem full_iff (h : Opens d s s') {lpa : ℕ} {k : Bytes} {p : Pair} :
    s'.cell d lpa = .full k p ↔ s.cell d lpa = .full k p := by
  rcases h.cell lpa with heq | ⟨hm, he⟩
  · rw [heq]
  · rw [hm, he]
    constructor <;> intro hc <;> cases hc

/-- Slots of other keys are slots of other keys before and after. -/
theorem other_iff (h : Opens d s s') {lpa : ℕ} {k : Bytes} :
    (s'.cell d lpa).Other k ↔ (s.cell d lpa).Other k := by
  rcases h.cell lpa with heq | ⟨hm, he⟩
  · rw [heq]
  · rw [hm, he]
    exact Iff.rfl

theorem before_other (h : Opens d s s') {k : Bytes} {c : ℕ}
    (hb : Before d.scheme (Cell.Other k) (s'.tab d) k c) :
    Before d.scheme (Cell.Other k) (s.tab d) k c :=
  fun i hi hu => h.other_iff.mp (hb i hi hu)

end Opens

/-- The mapping page that `mapPageLoop` takes is a page other than page 0. -/
theorem mapPageLoop_lt {f f' : Flash} {fuel ppa : ℕ}
    (h : mapPageLoop d fuel f = .ok (ppa, f')) : ppa < d.geo.ttPgs := by
  induction fuel generalizing f with
  | zero => cases h
  | succ fuel ih =>
    simp only [mapPageLoop, bind_eq_ok] at h
    obtain ⟨⟨p, pg, f1⟩, h1, f2, -, h⟩ := h
    split at h
    · simp only [bind_eq_ok] at h
      obtain ⟨f3, -, h⟩ := h
      exact ih h
    · cases h
      exact Flash.takePage_lt h1

/-- The section of an empty table. -/
theorem find_emptyPage {lpa : ℕ} (hlt : lpa < uintMax) {c : Cache}
    (h : (c.secs (d.idx lpa)).table.mem = emptyPage d) :
    (c.hidxToGrain d lpa).1 = uintMax := by
  unfold Cache.hidxToGrain
  dsimp only
  rw [h]
  unfold emptyPage
  cases d.build with
  | original => rfl
  | plus => exact (TwoLevel.refines_initTable fun _ => 0).find_eq hlt

/-- A section after its first use by `__store`. -/
def newSection (d : Device) (x : Section) (ppa : ℕ) : Section :=
  { x with
    tPpa := ppa, cached := true, hasMem := true, gOff := 0, lenOnDisk := firstLen d
    state := .clean, written := emptyPage d
    table := { cachedCnt := match d.build with
                 | .original => x.table.cachedCnt
                 | .plus => 0
               mem := emptyPage d } }

/-- The first use of a section gives it a page and an empty table. -/
theorem openSection_new {i : ℕ} (hi : (s.sec i).tPpa = uintMax)
    (h : s.openSection d i = .ok s') : ∃ ppa < d.geo.ttPgs,
      s'.cache.secs = Function.update s.cache.secs i (newSection d (s.sec i) ppa) ∧
      s'.pairMem = (s.clearPairs d i).pairMem ∧ s'.maxTry = s.maxTry ∧
      s'.appendBufs = s.appendBufs := by
  rw [openSection, if_pos hi] at h
  simp only [allocSection, bind_eq_ok] at h
  obtain ⟨s1, ⟨⟨ppa, f1⟩, hppa, f2, -, h1⟩, h⟩ := h
  cases h1
  unfold loadSection at h
  rw [if_neg (by simp [sec, setSec, setCache])] at h
  simp only [getOne, getMappings, if_true, bind_eq_ok, ok_bind, ensure_eq_ok] at h
  obtain ⟨s2, h2, -, -, h⟩ := h
  cases h2
  cases h
  refine ⟨ppa, mapPageLoop_lt hppa, ?_, rfl, rfl, rfl⟩
  simp only [addCached, setCache, Cache.enqueue]
  have hcongr : ∀ {c : Cache} {p : Prop} [Decidable p] {l : List ℕ},
      (if p then c else { c with fifo := l }).secs = c.secs := by
    intro c p _ l
    split <;> rfl
  rw [hcongr]
  simp only [clearPairs, setSec, setCache, setFlash, sec, Cache.setSec, Function.update_self,
    Function.update_idem]
  rfl

/-- Opening a section makes its missing slots empty. -/
theorem opens_openSection {i : ℕ} (hfit : d.PagesFit) (hsec : d.SecFits i)
    (h : s.openSection d i = .ok s') : Opens d s s' ∧ (s'.sec i).tPpa ≠ uintMax := by
  by_cases hi : (s.sec i).tPpa = uintMax
  swap
  · rw [openSection, if_neg hi] at h
    have hs := sameTable_loadSection h
    exact ⟨.of_sameTable hs, fun hc => hi ((hs.secs.missing i).mp hc)⟩
  obtain ⟨ppa, hppa, hsecs, hpair, hmax, hbufs⟩ := openSection_new hi h
  have hne : ppa ≠ uintMax := Nat.ne_of_lt (Nat.lt_of_lt_of_le hppa hfit)
  have hself : s'.sec i = newSection d (s.sec i) ppa := by
    rw [sec, hsecs, Function.update_self]
  have hother : ∀ j, j ≠ i → s'.sec j = s.sec j := by
    intro j hj
    rw [sec, hsecs, Function.update_of_ne hj]
    rfl
  have hnew : ∀ lpa, d.idx lpa = i → (s'.cache.hidxToGrain d lpa).1 = uintMax := by
    rintro lpa rfl
    exact find_emptyPage (hsec.lt rfl) (by rw [hsecs, Function.update_self]; rfl)
  have hold : ∀ lpa, d.idx lpa ≠ i →
      s'.cache.hidxToGrain d lpa = s.cache.hidxToGrain d lpa := by
    intro lpa hl
    unfold Cache.hidxToGrain
    rw [hsecs, Function.update_of_ne hl]
  have hmem : ∀ lpa, d.idx lpa ≠ i → s'.pairMem lpa = s.pairMem lpa := by
    intro lpa hl
    rw [hpair]
    exact if_neg hl
  refine ⟨⟨fun lpa => ?_, hmax, fun hok => ⟨fun j hj => ?_, fun lpa hm => ?_, fun hb j hj => ?_⟩,
    hbufs⟩, ?_⟩
  · by_cases hl : d.idx lpa = i
    · right
      subst hl
      exact ⟨cell_missing hi, cell_empty (by rw [hself]; exact hne) (hnew lpa rfl)⟩
    · left
      unfold cell
      rw [hother _ hl, hold lpa hl, hmem lpa hl]
  · by_cases hji : j = i
    · subst hji
      rw [hself]
      exact hne
    · rw [hother j hji] at hj ⊢
      exact hok.memOk j hj
  · have hl : d.idx lpa ≠ i := fun hl => hm.2 (hnew lpa hl)
    rw [hmem lpa hl]
    refine hok.pair lpa ⟨?_, ?_⟩
    · rw [← hother _ hl]
      exact hm.1
    · rw [← hold lpa hl]
      exact hm.2
  · by_cases hji : j = i
    · subst hji
      rw [hself]
      refine ⟨fun _ => none, ?_, fun _ hne => absurd rfl hne⟩
      have htab : (newSection d (s.sec j) ppa).table = TwoLevel.initTable fun _ => 0 := by
        simp only [newSection, emptyPage, hb, TwoLevel.initTable]
      rw [htab]
      exact TwoLevel.refines_initTable _
    · rw [hother j hji] at hj ⊢
      exact hok.refines hb j hj
  · rw [hself]
    exact hne

/-! ### Updating one slot -/

/-- Between the states only the table of section `i` and the place of its page changed. -/
structure OnlySec (s s' : Shard) (i : ℕ) : Prop where
  others : ∀ j, j ≠ i → s'.sec j = s.sec j
  hasMem : (s'.sec i).hasMem = (s.sec i).hasMem
  missing : (s'.sec i).tPpa = uintMax ↔ (s.sec i).tPpa = uintMax
  pairMem : s'.pairMem = s.pairMem
  maxTry : s'.maxTry = s.maxTry
  appendBufs : s'.appendBufs = s.appendBufs

namespace OnlySec

theorem refl (s : Shard) (i : ℕ) : OnlySec s s i :=
  ⟨fun _ _ => rfl, rfl, Iff.rfl, rfl, rfl, rfl⟩

theorem trans {s'' : Shard} {i : ℕ} (h : OnlySec s s' i) (h' : OnlySec s' s'' i) :
    OnlySec s s'' i where
  others j hj := (h'.others j hj).trans (h.others j hj)
  hasMem := h'.hasMem.trans h.hasMem
  missing := h'.missing.trans h.missing
  pairMem := h'.pairMem.trans h.pairMem
  maxTry := h'.maxTry.trans h.maxTry
  appendBufs := h'.appendBufs.trans h.appendBufs

theorem setSec {i : ℕ} {x : Section} (hm : x.hasMem = (s.sec i).hasMem)
    (ht : x.tPpa = uintMax ↔ (s.sec i).tPpa = uintMax) : OnlySec s (s.setSec i x) i where
  others j hj := by simp [sec, Shard.setSec, setCache, hj]
  hasMem := by simpa [sec, Shard.setSec, setCache] using hm
  missing := by simpa [sec, Shard.setSec, setCache] using ht
  pairMem := rfl
  maxTry := rfl
  appendBufs := rfl

/-- Nothing but flash, log and the counters of the cache changed. -/
theorem of_secs {i : ℕ} (h : s'.cache.secs = s.cache.secs) (hp : s'.pairMem = s.pairMem)
    (hm : s'.maxTry = s.maxTry) (hb : s'.appendBufs = s.appendBufs) : OnlySec s s' i := by
  have hsec : ∀ j, s'.sec j = s.sec j := fun j => by rw [sec, h]; rfl
  exact ⟨fun j _ => hsec j, by rw [hsec], by rw [hsec], hp, hm, hb⟩

end OnlySec

@[simp] theorem sec_setSec_self (s : Shard) (i : ℕ) (x : Section) : (s.setSec i x).sec i = x := by
  simp [sec, setSec, setCache]

theorem onlySec_markDirty (s : Shard) (i : ℕ) : OnlySec s (s.markDirty i) i :=
  OnlySec.setSec rfl Iff.rfl

/-- `__expand_map_entry` moves the section to a new page. -/
theorem expandMapEntry_spec {i : ℕ} (hfit : d.PagesFit) (hi : (s.sec i).tPpa ≠ uintMax)
    (h : s.expandMapEntry d i = .ok s') :
    OnlySec s s' i ∧ (s'.sec i).table = (s.sec i).table := by
  simp only [expandMapEntry, bind_eq_ok, ensure_eq_ok] at h
  obtain ⟨f1, -, -, -, ⟨ppa, f2⟩, hppa, f3, -, h⟩ := h
  cases h
  have hne : ppa ≠ uintMax := Nat.ne_of_lt (Nat.lt_of_lt_of_le (mapPageLoop_lt hppa) hfit)
  refine ⟨?_, by rw [sec_setSec_self]⟩
  refine OnlySec.trans (OnlySec.of_secs ?_ ?_ ?_ ?_) (OnlySec.setSec ?_ ?_)
  all_goals try rfl
  exact ⟨fun hc => absurd hc hne, fun hc => absurd hc hi⟩

/-- A full table gets another leaf before a new index comes; what is left of the update is
the insertion. -/
theorem growTable_spec {i pos : ℕ} (hfit : d.PagesFit) (hi : (s.sec i).tPpa ≠ uintMax)
    (h : s.growTable d i pos = .ok s') : OnlySec s s' i ∧
      ∀ lpa ppa, TwoLevel.updateTable (s.sec i).table lpa ppa pos =
        TwoLevel.twolevelInsert (s'.sec i).table lpa ppa pos := by
  unfold growTable at h
  dsimp only at h
  split at h
  · rename_i hfull
    simp only [bind_eq_ok] at h
    obtain ⟨s1, h1, t1, ht1, h⟩ := h
    cases h
    obtain ⟨ho, -⟩ := expandMapEntry_spec hfit hi h1
    refine ⟨ho.trans (OnlySec.setSec rfl Iff.rfl), fun lpa ppa => ?_⟩
    rw [TwoLevel.updateTable, if_pos hfull, ht1, ok_bind, sec_setSec_self]
  · rename_i hroom
    cases h
    refine ⟨OnlySec.refl _ i, fun lpa ppa => ?_⟩
    rw [TwoLevel.updateTable, if_neg hroom, ok_bind]

theorem recordOld_spec {i lpa pos n : ℕ} {record : Bool}
    (h : s.recordOld d i lpa pos record = .ok (n, s')) :
    OnlySec s s' i ∧ (s'.sec i).table = (s.sec i).table := by
  unfold recordOld at h
  dsimp only at h
  split at h
  · simp only [bind_eq_ok] at h
    obtain ⟨⟨c, f, log⟩, -, h⟩ := h
    cases h
    exact ⟨OnlySec.of_secs rfl rfl rfl rfl, rfl⟩
  · cases h
    exact ⟨OnlySec.refl _ i, rfl⟩

/-- `__update_map` in Plus is the update of the two-level table. -/
theorem updateTwolevel_spec {lpa ppa pos n : ℕ} {mem : Option Bytes} {record : Bool}
    (hfit : d.PagesFit) (hi : (s.sec (d.idx lpa)).tPpa ≠ uintMax)
    (h : s.updateTwolevel d lpa mem ppa pos record = .ok (n, s')) :
    ∃ s1, OnlySec s s1 (d.idx lpa) ∧ s' = s1.setPair lpa mem ∧
      TwoLevel.updateTable (s.sec (d.idx lpa)).table lpa ppa pos =
        .ok (s1.sec (d.idx lpa)).table := by
  simp only [updateTwolevel, bind_eq_ok] at h
  obtain ⟨s1, h1, ⟨c, s2⟩, h2, t, ht, h⟩ := h
  cases h
  obtain ⟨ho1, ht1⟩ := growTable_spec hfit hi h1
  obtain ⟨ho2, ht2⟩ := recordOld_spec h2
  refine ⟨s2.setSec (d.idx lpa) { s2.sec (d.idx lpa) with table := t },
    (ho1.trans ho2).trans (OnlySec.setSec rfl Iff.rfl), rfl, ?_⟩
  rw [sec_setSec_self, ht1, ← ht2]
  exact ht

/-- One slot got the memory `mem` and the grain `ppa`; the other slots are as before. -/
structure Puts (d : Device) (s s' : Shard) (lpa : ℕ) (mem : Option Bytes) (ppa : ℕ) : Prop where
  grain : (s'.cache.hidxToGrain d lpa).1 = ppa
  others : ∀ j, j ≠ lpa → (s'.cache.hidxToGrain d j).1 = (s.cache.hidxToGrain d j).1
  missing : ∀ i, (s'.sec i).tPpa = uintMax ↔ (s.sec i).tPpa = uintMax
  pairMem : s'.pairMem = Function.update s.pairMem lpa mem
  maxTry : s'.maxTry = s.maxTry
  appendBufs : s'.appendBufs = s.appendBufs
  memOk : s.MemOk → s'.MemOk
  refines : d.build = .plus → ∀ i, (s'.sec i).tPpa ≠ uintMax →
    ∃ f, TwoLevel.Refines (s'.sec i).table f ∧ ∀ h, f h ≠ none → h ∈ d.secIndices i

/-- The sections after a change of one section. -/
theorem OnlySec.missing_iff {i : ℕ} (h : OnlySec s s' i) (j : ℕ) :
    (s'.sec j).tPpa = uintMax ↔ (s.sec j).tPpa = uintMax := by
  by_cases hj : j = i
  · rw [hj]
    exact h.missing
  · rw [h.others j hj]

theorem OnlySec.memOk {i : ℕ} (h : OnlySec s s' i) (hok : s.MemOk) : s'.MemOk := by
  intro j hj hc
  refine hok j ?_ ((h.missing_iff j).mp hc)
  by_cases hji : j = i
  · rw [hji] at hj ⊢
    rwa [h.hasMem] at hj
  · rwa [h.others j hji] at hj

theorem OnlySec.hidxToGrain {i j : ℕ} (h : OnlySec s s' i) (hj : d.idx j ≠ i) :
    s'.cache.hidxToGrain d j = s.cache.hidxToGrain d j := by
  have hsec : s'.cache.secs (d.idx j) = s.cache.secs (d.idx j) := h.others _ hj
  unfold Cache.hidxToGrain
  rw [hsec]

/-- The table of the section represents a map that changed at one index. -/
theorem puts_of_refines {lpa ppa : ℕ} {mem : Option Bytes} {s1 : Shard} {f : ℕ → Option ℕ}
    (hb : d.build = .plus) (hsec : d.SecFits (d.idx lpa)) (hok : s.TableOk d)
    (ho : OnlySec s s1 (d.idx lpa)) (hf : TwoLevel.Refines (s.sec (d.idx lpa)).table f)
    (hS : ∀ h, f h ≠ none → h ∈ d.secIndices (d.idx lpa))
    (hf1 : TwoLevel.Refines (s1.sec (d.idx lpa)).table (TwoLevel.record f lpa ppa)) :
    Puts d s (s1.setPair lpa mem) lpa mem ppa where
  grain := by
    have hfind := hf1.find_eq (hsec.lt rfl)
    rw [TwoLevel.record, Function.update_self] at hfind
    simp only [Cache.hidxToGrain, hb]
    refine hfind.trans ?_
    split
    · rename_i hp
      rw [hp]
      rfl
    · rfl
  others j hj := by
    by_cases hidx : d.idx j = d.idx lpa
    · have hlt := hsec.lt hidx
      have hnew := hf1.find_eq hlt
      rw [TwoLevel.record, Function.update_of_ne hj, ← hf.find_eq hlt] at hnew
      simp only [Cache.hidxToGrain, hb, hidx]
      exact hnew
    · exact congrArg Prod.fst (ho.hidxToGrain hidx)
  missing := ho.missing_iff
  pairMem := by
    show Function.update s1.pairMem lpa mem = _
    rw [ho.pairMem]
  maxTry := ho.maxTry
  appendBufs := ho.appendBufs
  memOk := ho.memOk
  refines _ i hi := by
    by_cases hil : i = d.idx lpa
    · subst hil
      exact ⟨_, hf1, TwoLevel.record_support hS (Device.mem_secIndices.mpr ⟨rfl, hsec.lt rfl⟩)⟩
    · have hsame : (s1.setPair lpa mem).sec i = s.sec i := ho.others i hil
      rw [hsame] at hi ⊢
      exact hok.refines hb i hi

/-- Two indices of one section have different offsets. -/
theorem secOffset_ne {i j : ℕ} (hij : i ≠ j) (h : d.idx i = d.idx j) :
    d.secOffset i ≠ d.secOffset j := by
  intro heq
  refine hij ?_
  rw [← Nat.div_add_mod i d.epp, ← Nat.div_add_mod j d.epp]
  unfold Device.idx at h
  unfold Device.secOffset at heq
  rw [h, heq]

/-- The flat table of the section changed at one offset. -/
theorem puts_of_flat {lpa ppa : ℕ} {mem : Option Bytes} {s1 : Shard} (hb : d.build = .original)
    (ho : OnlySec s s1 (d.idx lpa)) (hmem : (s1.sec (d.idx lpa)).table.mem =
      Function.update (s.sec (d.idx lpa)).table.mem (d.secOffset lpa) ppa) :
    Puts d s (s1.setPair lpa mem) lpa mem ppa where
  grain := by
    simp only [Cache.hidxToGrain, hb]
    show (s1.sec (d.idx lpa)).table.mem (d.secOffset lpa) = ppa
    rw [hmem, Function.update_self]
  others j hj := by
    by_cases hidx : d.idx j = d.idx lpa
    · simp only [Cache.hidxToGrain, hb, hidx]
      show (s1.sec (d.idx lpa)).table.mem (d.secOffset j) = _
      rw [hmem, Function.update_of_ne (secOffset_ne hj hidx)]
      rfl
    · exact congrArg Prod.fst (ho.hidxToGrain hidx)
  missing := ho.missing_iff
  pairMem := by
    show Function.update s1.pairMem lpa mem = _
    rw [ho.pairMem]
  maxTry := ho.maxTry
  appendBufs := ho.appendBufs
  memOk := ho.memOk
  refines hp := by
    rw [hb] at hp
    cases hp

/-- `__update_map` with the position of the index: a grain is put, or the mapping of a
mapped index is removed. -/
theorem puts_updateMap {lpa ppa n : ℕ} {mem : Option Bytes} {record : Bool} (hfit : d.PagesFit)
    (hsec : d.SecFits (d.idx lpa)) (hok : s.TableOk d)
    (hi : (s.sec (d.idx lpa)).tPpa ≠ uintMax)
    (hput : ppa = uintMax → (s.cache.hidxToGrain d lpa).1 ≠ uintMax)
    (h : s.updateMap d lpa mem ppa (s.cache.hidxToGrain d lpa).2 record = .ok (n, s')) :
    Puts d s s' lpa mem ppa := by
  simp only [updateMap, bind_eq_ok, ensure_eq_ok] at h
  obtain ⟨-, -, h⟩ := h
  have hdirty := onlySec_markDirty s (d.idx lpa)
  have htab : ((s.markDirty (d.idx lpa)).sec (d.idx lpa)).table = (s.sec (d.idx lpa)).table := by
    rw [markDirty, sec_setSec_self]
  split at h
  · rename_i hb
    cases h
    have ho : OnlySec (s.markDirty (d.idx lpa)) ((s.markDirty (d.idx lpa)).setSec (d.idx lpa)
        { (s.markDirty (d.idx lpa)).sec (d.idx lpa) with
          table := { ((s.markDirty (d.idx lpa)).sec (d.idx lpa)).table with
            mem := Function.update ((s.markDirty (d.idx lpa)).sec (d.idx lpa)).table.mem
              (d.secOffset lpa) ppa } }) (d.idx lpa) := OnlySec.setSec rfl Iff.rfl
    exact puts_of_flat hb (hdirty.trans ho) (by rw [sec_setSec_self, htab])
  · rename_i hb
    obtain ⟨f, hf, hS⟩ := hok.refines hb _ hi
    obtain ⟨s1, ho, rfl, htable⟩ :=
      updateTwolevel_spec hfit (fun hc => hi (hdirty.missing.mp hc)) h
    rw [htab] at htable
    have hpos : (s.cache.hidxToGrain d lpa).2 =
        (TwoLevel.twolevelFind (s.sec (d.idx lpa)).table.mem lpa).2.getD uintMax := by
      simp only [Cache.hidxToGrain, hb]
      rfl
    have hgrain : (s.cache.hidxToGrain d lpa).1 = (f lpa).getD uintMax := by
      rw [← hf.find_eq (hsec.lt rfl)]
      simp only [Cache.hidxToGrain, hb]
      rfl
    rw [hpos] at htable
    have hf1 : TwoLevel.Refines (s1.sec (d.idx lpa)).table (TwoLevel.record f lpa ppa) := by
      cases hfl : f lpa with
      | none =>
        have hepp : d.epp = Build.plus.epp := by rw [Device.epp, hb]
        obtain ⟨t, ht, href⟩ := hf.update_absent (hepp ▸ d.card_secIndices_le (d.idx lpa)) hS
          (hsec.lt rfl) (Device.mem_secIndices.mpr ⟨rfl, hsec.lt rfl⟩) hfl
          (fun hp => hput hp (by rw [hgrain, hfl]; rfl))
        rw [ht] at htable
        cases htable
        exact href
      | some p =>
        obtain ⟨t, ht, href⟩ := hf.update_present (p := ppa) hfl
        rw [ht] at htable
        cases htable
        exact href
    exact puts_of_refines hb hsec hok (hdirty.trans ho) hf hS hf1

end Shard

end Virtkv
