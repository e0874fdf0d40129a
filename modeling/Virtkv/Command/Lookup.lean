import Virtkv.Command.View

/-!
# Looking up a key

The probe loop of `__retrieve` is the lookup of the open-addressed table a shard shows:
it ends with a miss where the key is absent and with the slot where it is found.
-/

namespace Virtkv

open Outcome OpenAddressing

namespace Device

variable {d : Device}

/-- The index `get_hash_idx` returns is the first one outside the first section. -/
theorem getHashIdxLoop_eq_ok {hash fuel cnt lpa c : ℕ}
    (h : d.getHashIdxLoop hash fuel cnt = .ok (lpa, c)) :
    lpa = d.probe hash c ∧ d.epp < lpa ∧ cnt ≤ c ∧ c < cnt + fuel ∧
      ∀ i, cnt ≤ i → i < c → d.probe hash i ≤ d.epp := by
  induction fuel generalizing cnt with
  | zero => cases h
  | succ fuel ih =>
    unfold getHashIdxLoop at h
    split at h
    · rename_i hle
      obtain ⟨h1, h2, h3, h4, h5⟩ := ih h
      refine ⟨h1, h2, by omega, by omega, fun i hi hic => ?_⟩
      rcases Nat.eq_or_lt_of_le hi with rfl | hlt
      · exact hle
      · exact h5 i hlt hic
    · rename_i hgt
      cases h
      exact ⟨rfl, by omega, le_rfl, by omega, fun i hi hic => by omega⟩

theorem getHashIdxLoop_exists {hash fuel cnt c : ℕ} (hle : cnt ≤ c) (hlt : c < cnt + fuel)
    (hc : d.epp < d.probe hash c) : ∃ r, d.getHashIdxLoop hash fuel cnt = .ok r := by
  induction fuel generalizing cnt with
  | zero => omega
  | succ fuel ih =>
    unfold getHashIdxLoop
    split
    · rename_i hskip
      have hne : cnt ≠ c := by
        rintro rfl
        omega
      exact ih (by omega) (by omega)
    · exact ⟨_, rfl⟩

/-- `get_hash_idx` gives the next usable count of the key and its slot. -/
structure NextIdx (d : Device) (k : Bytes) (cnt lpa c : ℕ) : Prop where
  slot : lpa = d.scheme.slot k c
  usable : d.scheme.usable k c
  le : cnt ≤ c
  skipped : ∀ i, cnt ≤ i → i < c → ¬d.scheme.usable k i

theorem getHashIdx_eq_ok {k : Bytes} {cnt lpa c : ℕ}
    (h : d.getHashIdx (d.hash32 k) cnt = .ok (lpa, c)) : NextIdx d k cnt lpa c := by
  obtain ⟨h1, h2, h3, h4, h5⟩ := getHashIdxLoop_eq_ok h
  refine ⟨h1, ⟨by omega, by rwa [h1] at h2⟩, h3, fun i hi hic hu => ?_⟩
  exact absurd (h5 i hi hic) (Nat.not_le.mpr hu.2)

/-- Up to the middle of the counts there is always another index. -/
theorem Fits.getHashIdx_yields (hfit : d.Fits) (k : Bytes) {cnt : ℕ} (hcnt : cnt ≤ 2 ^ 31) :
    Yields (d.getHashIdx (d.hash32 k) cnt) (fun _ => False)
      (fun r => NextIdx d k cnt r.1 r.2) := by
  obtain ⟨c, hc, hu⟩ := hfit.exists_usable
    (show d.hash32 k < 2 ^ 32 from Nat.mod_lt _ (Nat.two_pow_pos 32))
  -- the mirror of a usable count lies in the second half
  have hmirror := d.probe_symm (d.hash32 k) (show c + (2 ^ 32 - 1 - c) + 1 = 2 ^ 32 by omega)
  obtain ⟨r, hr⟩ := @getHashIdxLoop_exists d (d.hash32 k) (2 ^ 32 - cnt) cnt (2 ^ 32 - 1 - c)
    (by omega) (by omega) (by rwa [hmirror])
  have hr' : d.getHashIdx (d.hash32 k) cnt = .ok (r.1, r.2) := hr
  rw [hr']
  exact getHashIdx_eq_ok hr'

variable {V : Type} {P : Cell Bytes V → Prop} {t : Tab Bytes V} {k : Bytes} {cnt lpa c : ℕ}

/-- The skipped counts are not usable, so the cells before the next index are those before
the current count. -/
theorem NextIdx.before (h : NextIdx d k cnt lpa c) (hb : Before d.scheme P t k cnt) :
    Before d.scheme P t k c := by
  intro i hi hu
  by_cases hlt : i < cnt
  · exact hb i hlt hu
  · exact absurd hu (h.skipped i (by omega) hi)

theorem NextIdx.before_succ (h : NextIdx d k cnt lpa c) (hb : Before d.scheme P t k cnt)
    (hc : P (t.cell lpa)) : Before d.scheme P t k (c + 1) := by
  intro i hi hu
  rcases Nat.lt_succ_iff_lt_or_eq.mp hi with hlt | rfl
  · exact h.before hb i hlt hu
  · rwa [← h.slot]

end Device

/-! ### Comparing keys -/

namespace PairMem

variable {k : Bytes} {p : Pair}

theorem read_append {pre mid post : Bytes} : read (pre ++ (mid ++ post)) pre.length mid.length =
    .ok mid := by
  rw [read, ensure_of (by simp), ok_bind, List.drop_left, List.take_left]
  rfl

theorem klenFromValue_bytes (hk : k.length ≤ maxKlen) :
    klenFromValue (bytes k p) = .ok k.length := by
  have hread : read (bytes k p) 0 klenMarkerSz = .ok [UInt8.ofNat k.length] := by
    have := @read_append [] [UInt8.ofNat k.length]
      (k ++ le32 p.value.length ++ (p.value ++ p.rest))
    simpa [bytes, header, klenMarkerSz] using this
  have h16 : maxKlen = 16 := rfl
  rw [klenFromValue, hread, ok_bind]
  simp only [List.getD_cons_zero, UInt8.toNat_ofNat']
  rw [Nat.mod_eq_of_lt (by omega)]
  rfl

theorem read_key_bytes (k : Bytes) (p : Pair) :
    read (bytes k p) klenMarkerSz k.length = .ok k := by
  have := @read_append [UInt8.ofNat k.length] k (le32 p.value.length ++ (p.value ++ p.rest))
  simpa [bytes, header, klenMarkerSz] using this

theorem read_vlen_bytes (k : Bytes) (p : Pair) :
    read (bytes k p) (klenMarkerSz + k.length) vlenMarkerSz = .ok (le32 p.value.length) := by
  have := @read_append (UInt8.ofNat k.length :: k) (le32 p.value.length) (p.value ++ p.rest)
  simpa [bytes, header, klenMarkerSz, Nat.add_comm, length_le32] using this

theorem vlenFromValue_bytes (hk : k.length ≤ maxKlen) (hv : p.value.length < 2 ^ 32) :
    vlenFromValue (bytes k p) =
      (do ensure (0 < p.value.length) .bug; return p.value.length) := by
  have hof := ofLe32_le32_append hv []
  rw [List.append_nil] at hof
  rw [vlenFromValue, klenFromValue_bytes hk, ok_bind, read_vlen_bytes, ok_bind, hof]

theorem read_value_bytes (k : Bytes) (p : Pair) :
    read (bytes k p) (metaSz k.length) p.value.length = .ok p.value := by
  have := @read_append (header k p.value.length) p.value p.rest
  rwa [length_header] at this

end PairMem

namespace Compare

variable {d : Device}

theorem keyMatches_bytes {k key : Bytes} {p : Pair} (hk : k.length ≤ maxKlen) :
    keyMatches (PairMem.bytes k p) key = .ok (decide (k = key)) := by
  rw [keyMatches, PairMem.klenFromValue_bytes hk, ok_bind]
  split
  · rename_i hne
    have : k ≠ key := by
      rintro rfl
      exact hne rfl
    simp only [this, decide_false]
    rfl
  · rw [PairMem.read_key_bytes, ok_bind]
    rfl

/-- The comparison stops only in its page walk. -/
theorem retrieveAndCompare_yields {grain readLen readOffset : ℕ} {k key : Bytes} {p : Pair}
    {forDel : Bool} (hg : d.gIdx grain < d.geo.ttPgs) (hk : k.length ≤ maxKlen) :
    Yields (retrieveAndCompare d grain (PairMem.bytes k p) key readLen readOffset forDel)
      (fun e => e = .pageWalk) (fun eq => eq = decide (k = key)) := by
  unfold retrieveAndCompare
  simp only [Geometry.ppaToStruct, ensure_of hg, ok_bind, keyMatches_bytes hk, pure, Except.pure]
  by_cases heq : k = key
  · simp only [heq, decide_true, not_true_eq_false, if_false]
    split
    · rfl
    · cases hw : pageWalk d _ readOffset (toInt readLen) forDel with
      | error e => rfl
      | ok u => rfl
  · simp [heq]

end Compare

/-! ### The probe loop of `__retrieve` -/

/-- Every hash index names an existing section. -/
def Device.Indexed (d : Device) : Prop :=
  ∀ hash c, d.epp < d.probe hash c → d.idx (d.probe hash c) < d.nrValidTpages

namespace Shard

/-- What the probe loops rely on besides the table: only the section `held` is locked,
sections that exist are in memory and on a page, and pairs are on pages. -/
structure Ready (d : Device) (held : Option ℕ) (s : Shard) : Prop where
  locks : ∀ i, (s.sec i).outgoing = decide (held = some i)
  page : ∀ i, (s.sec i).tPpa ≠ uintMax → (s.sec i).hasMem = true ∧ (s.sec i).tPpa < d.geo.ttPgs
  grain : ∀ lpa, s.Mapped d lpa → d.gIdx (s.cache.hidxToGrain d lpa).1 < d.geo.ttPgs

/-- Some slot holds an empty value, on whose length a lookup asserts. -/
def HoldsEmpty (d : Device) (s : Shard) : Prop := ∃ lpa k p, s.cell d lpa = .full k p ∧ p.value = []

/-- The ways the probe loop of `__retrieve` does not end. -/
def LoopStops (d : Device) (s : Shard) (e : Fault) : Prop :=
  e = .pageWalk ∨ (e = .bug ∧ s.HoldsEmpty d)

variable {d : Device} {s s' : Shard} {held : Option ℕ}

theorem LoopStops.of_sameTable {e : Fault} (hsame : SameTable s s') (h : LoopStops d s' e) :
    LoopStops d s e := by
  rcases h with h | ⟨h, lpa, k, p, hc, hempty⟩
  · exact .inl h
  · rw [hsame.cell_eq] at hc
    exact .inr ⟨h, lpa, k, p, hc, hempty⟩

/-- The table part of `Ready` only depends on the table. -/
theorem Ready.of_sameTable (hr : s.Ready d held) (h : SameTable s s')
    {held' : Option ℕ} (hlocks : ∀ i, (s'.sec i).outgoing = decide (held' = some i))
    (hpage : ∀ i, (s'.sec i).tPpa = (s.sec i).tPpa) : s'.Ready d held' where
  locks := hlocks
  page i hi := by
    have hmem : (s'.sec i).hasMem = (s.sec i).hasMem := h.secs.hasMem i
    rw [hpage i] at hi ⊢
    rw [hmem]
    exact hr.page i hi
  grain lpa hm := by
    rw [h.hidxToGrain]
    exact hr.grain lpa ((h.mapped_iff lpa).mp hm)

theorem getHt_yields (hr : s.Ready d none) {lpa : ℕ} (hlt : d.idx lpa < d.nrValidTpages) :
    Yields (s.getHt d lpa) (fun _ => False) (fun s' => SameTable s s' ∧ s'.flash = s.flash ∧
      s'.Ready d (some (d.idx lpa))) := by
  have hfree : (s.cache.secs (d.idx lpa)).outgoing = false := hr.locks (d.idx lpa)
  simp only [getHt, Cache.getHt, Cache.lock, ensure_of hlt, ensure_of hfree, ok_bind, pure,
    Except.pure]
  have hsame : SameTable s (s.setCache (s.cache.setSec (d.idx lpa)
      { s.cache.secs (d.idx lpa) with outgoing := true })) :=
    SameTable.setSec rfl Iff.rfl rfl
  refine ⟨hsame, rfl, hr.of_sameTable hsame (fun i => ?_) fun i => ?_⟩
  · by_cases hi : i = d.idx lpa
    · simp [sec, setCache, hi]
    · have := hr.locks i
      simpa [sec, setCache, hi, Ne.symm hi] using this
  · by_cases hi : i = d.idx lpa
    · simp [sec, setCache, hi]
    · simp [sec, setCache, hi]

theorem sameTable_unlock (s : Shard) (lpa : ℕ) : SameTable s (s.unlock d lpa) :=
  SameTable.setCache (Cache.sameSecs_unlock _ _)

theorem Ready.unlock {lpa : ℕ} (hr : s.Ready d (some (d.idx lpa))) :
    (s.unlock d lpa).Ready d none := by
  refine hr.of_sameTable (sameTable_unlock s lpa) (fun i => ?_) fun i => ?_
  · by_cases hi : i = d.idx lpa
    · simp [Shard.unlock, Cache.unlock, sec, setCache, hi]
    · have := hr.locks i
      simpa [Shard.unlock, Cache.unlock, sec, setCache, hi, Ne.symm hi] using this
  · by_cases hi : i = d.idx lpa
    · simp [Shard.unlock, Cache.unlock, sec, setCache, hi]
    · simp [Shard.unlock, Cache.unlock, sec, setCache, hi]

/-- The state after a section that exists was loaded. -/
def loaded (s : Shard) (i : ℕ) : Shard :=
  let s := s.setSec i { s.sec i with cached := (s.sec i).hasMem }
  let s := s.setCache (s.cache.enqueue i)
  s.addCached (s.sec i).lenOnDisk

theorem secs_loaded (s : Shard) (i : ℕ) : (s.loaded i).cache.secs =
    Function.update s.cache.secs i { s.sec i with cached := (s.sec i).hasMem } := by
  unfold loaded addCached setCache Cache.enqueue
  dsimp only
  split <;> rfl

theorem sameTable_loaded (s : Shard) (i : ℕ) : SameTable s (s.loaded i) := by
  have h : SameTable s (s.setSec i { s.sec i with cached := (s.sec i).hasMem }) :=
    SameTable.setSec rfl Iff.rfl rfl
  exact (h.trans (SameTable.setCache (Cache.sameSecs_enqueue _ i))).trans
    (SameTable.addCached _ _)

theorem sec_loaded (s : Shard) (i j : ℕ) : (s.loaded i).sec j =
    if j = i then { s.sec i with cached := (s.sec i).hasMem } else s.sec j := by
  rw [sec, secs_loaded, Function.update_apply]
  rfl

/-- A section with a page is loaded unless it is cached. -/
theorem loadSection_yields (hr : s.Ready d held) {i : ℕ} (hi : (s.sec i).tPpa ≠ uintMax) :
    Yields (s.loadSection d i false) (fun _ => False)
      (fun s' => s' = if (s.sec i).cached then s else s.loaded i) := by
  obtain ⟨hmem, hlt⟩ := hr.page i hi
  unfold loadSection
  split
  · simp
  · have hone : s.getOne d i false = .ok (s.loaded i) := by
      simp only [getOne, getMappings, Bool.false_eq_true, if_false, ensure_of hi, ok_bind,
        Geometry.ppaToStruct, ensure_of hlt, pure, Except.pure]
      rfl
    have hcached : ((s.loaded i).sec i).cached = true := by
      rw [sec_loaded, if_pos rfl]
      exact hmem
    rw [hone, ok_bind, ensure_of hcached, ok_bind]
    exact rfl

theorem Ready.loaded (hr : s.Ready d held) (i : ℕ) : (s.loaded i).Ready d held := by
  refine hr.of_sameTable (sameTable_loaded s i) (fun j => ?_) fun j => ?_
  · rw [sec_loaded]
    split
    · rename_i hj
      rw [hj]
      exact hr.locks i
    · exact hr.locks j
  · rw [sec_loaded]
    split
    · rename_i hj
      rw [hj]
    · rfl

theorem flash_loaded (s : Shard) (i : ℕ) : (s.loaded i).flash = s.flash := rfl

theorem loadSection_spec (hr : s.Ready d held) {i : ℕ} (hi : (s.sec i).tPpa ≠ uintMax) :
    Yields (s.loadSection d i false) (fun _ => False)
      (fun s' => SameTable s s' ∧ s'.flash = s.flash ∧ s'.Ready d held) := by
  refine (loadSection_yields hr hi).post fun s' hs' => ?_
  subst hs'
  split
  · exact ⟨SameTable.refl s, rfl, hr⟩
  · exact ⟨sameTable_loaded s i, flash_loaded s i, hr.loaded i⟩

/-- The pair that a slot with a key shows. -/
def foundPair (d : Device) (s : Shard) (lpa : ℕ) (k : Bytes) (p : Pair) : Found where
  grain := (s.cache.hidxToGrain d lpa).1
  glen := s.flash.oob (s.cache.hidxToGrain d lpa).1 / 2 ^ 32
  mem := PairMem.bytes k p

/-- A mapped slot is compared with the key. -/
theorem retrieveAt_yields (hok : s.TableOk d) (hr : s.Ready d held) {lpa : ℕ} {k key : Bytes}
    {p : Pair} (hc : s.cell d lpa = .full k p) (vlen rOffset : ℕ) (forDel : Bool) :
    Yields (s.retrieveAt d lpa (s.cache.hidxToGrain d lpa).1 key vlen rOffset forDel)
      (LoopStops d s)
      (fun r => r = if k = key then some (s.foundPair d lpa k p) else none) := by
  obtain ⟨hm, hmem, hk, hv⟩ := hok.mapped_of_full hc
  by_cases hempty : p.value = []
  · have hstop : PairMem.vlenFromValue (PairMem.bytes k p) = .error .bug := by
      rw [PairMem.vlenFromValue_bytes hk hv, hempty]
      rfl
    unfold retrieveAt foundAt
    simp only [hmem, ok_bind, hstop]
    exact .inr ⟨rfl, lpa, k, p, hc, hempty⟩
  have hpos : 0 < p.value.length := List.length_pos_iff.mpr hempty
  unfold retrieveAt foundAt
  simp only [hmem, ok_bind, PairMem.vlenFromValue_bytes hk hv, ensure_of hpos, pure, Except.pure]
  refine ((Compare.retrieveAndCompare_yields (hr.grain lpa hm) hk).mono (fun e he => .inl he)
    fun _ h => h).bind fun eq heq => ?_
  subst heq
  simp [foundPair]

/-- What the probe loop of `__retrieve` ends with, in terms of the table. -/
def LookupSpec (d : Device) (s s' : Shard) (key : Bytes) : Hit → Prop
  | .miss held => Absent d.scheme (s.tab d) key ∧ s'.Ready d (held.map d.idx)
  | .slot lpa pos x => ∃ c p, FoundAt d.scheme (s.tab d) key c p ∧ lpa = d.scheme.slot key c ∧
      pos = (s.cache.hidxToGrain d lpa).2 ∧ x = s.foundPair d lpa key p ∧
      s'.Ready d (some (d.idx lpa))

/-- A step of the loop that goes on changes nothing that matters. -/
theorem LookupSpec.of_sameTable {s0 : Shard} {key : Bytes} {hit : Hit} (h : SameTable s0 s)
    (hf : s.flash = s0.flash) (hs : LookupSpec d s s' key hit) : LookupSpec d s0 s' key hit := by
  cases hit with
  | miss held => exact ⟨h.tab_eq ▸ hs.1, hs.2⟩
  | slot lpa pos x =>
    obtain ⟨c, p, hfound, hlpa, hpos, hx, hr⟩ := hs
    refine ⟨c, p, h.tab_eq ▸ hfound, hlpa, ?_, ?_, hr⟩
    · rw [hpos, h.hidxToGrain]
    · rw [hx, foundPair, foundPair, h.hidxToGrain, hf]

/-- The probe loop of `__retrieve` is the lookup of the table. It only stops in the page
walk of the comparison or at an empty value. -/
theorem retrieveLoop_yields (hfit : d.Fits) (hidx : d.Indexed) {key : Bytes}
    (vlen rOffset : ℕ) (forDel : Bool) {fuel cnt : ℕ} (hok : s.TableOk d)
    (hr : s.Ready d none) (hmax : s.maxTry < 2 ^ 31) (hcnt : cnt ≤ 2 ^ 31)
    (hfuel : 2 ^ 32 ≤ cnt + fuel) (hb : Before d.scheme (Cell.Passes key) (s.tab d) key cnt) :
    Yields (retrieveLoop d key vlen rOffset forDel fuel cnt s) (LoopStops d s)
      (fun r => SameTable s r.2 ∧ r.2.flash = s.flash ∧ LookupSpec d s r.2 key r.1) := by
  induction fuel generalizing s cnt with
  | zero => omega
  | succ fuel ih =>
    unfold retrieveLoop
    refine ((hfit.getHashIdx_yields key hcnt).mono nofun fun _ h => h).bind ?_
    rintro ⟨lpa, c⟩ (hnext : Device.NextIdx d key cnt lpa c)
    have hlt : d.idx lpa < d.nrValidTpages := by
      rw [hnext.slot]
      exact hidx _ _ hnext.usable.2
    refine ((getHt_yields hr hlt).mono nofun fun _ h => h).bind ?_
    rintro s1 ⟨hs1, hf1, hr1⟩
    have hgiveUp := hs1.maxTry
    -- the loop goes on behind a slot that a lookup passes
    have hnextRound : ∀ {s2 : Shard}, SameTable s s2 → s2.flash = s.flash →
        s2.Ready d (some (d.idx lpa)) → c ≤ s.maxTry → (s.cell d lpa).Passes key →
        Yields (retrieveLoop d key vlen rOffset forDel fuel (c + 1) (s2.unlock d lpa))
          (LoopStops d s)
          (fun r => SameTable s r.2 ∧ r.2.flash = s.flash ∧ LookupSpec d s r.2 key r.1) := by
      intro s2 hs2 hf2 hr2 hle hpass
      have hs3 := hs2.trans (sameTable_unlock (d := d) s2 lpa)
      refine (ih (hs3.tableOk hok) hr2.unlock (hs3.maxTry ▸ hmax) (by omega)
        (by have := hnext.le; omega) ?_).mono (fun e he => he.of_sameTable hs3) ?_
      · rw [hs3.tab_eq]
        exact hnext.before_succ hb hpass
      · rintro ⟨hit, s4⟩ ⟨h4, hf4, hspec⟩
        have hf3 : (s2.unlock d lpa).flash = s.flash := hf2
        exact ⟨hs3.trans h4, hf4.trans hf3, hspec.of_sameTable hs3 hf3⟩
    split
    · -- the count is behind the probe limit
      rename_i hgt
      refine ⟨hs1, hf1, ⟨c, hnext.usable, hnext.before hb, .inl ?_⟩, hr1⟩
      rwa [hgiveUp] at hgt
    rename_i hle
    rw [hgiveUp] at hle
    split
    · -- the section was never allocated
      rename_i hmiss
      have hcell : s.cell d lpa = .missing :=
        cell_missing ((hs1.secs.missing _).mp hmiss)
      refine hnextRound hs1 hf1 hr1 (by omega) ?_
      rw [hcell]
      trivial
    rename_i hhave
    refine ((loadSection_spec hr1 hhave).mono nofun fun _ h => h).bind ?_
    rintro s2 ⟨hs2, hf2, hr2⟩
    have hs := hs1.trans hs2
    have hf : s2.flash = s.flash := hf2.trans hf1
    have hhave2 : (s2.sec (d.idx lpa)).tPpa ≠ uintMax :=
      fun hc => hhave ((hs2.secs.missing _).mp hc)
    dsimp only
    split
    · -- an unmapped slot ends the lookup
      rename_i hgrain
      have hcell : s.cell d lpa = .empty := by
        rw [← hs.cell_eq]
        exact cell_empty hhave2 hgrain
      refine ⟨hs.trans (sameTable_unlock s2 lpa), hf, ⟨c, hnext.usable, hnext.before hb, .inr ?_⟩,
        hr2.unlock⟩
      rw [← hnext.slot]
      exact hcell
    · rename_i hgrain
      obtain ⟨k, p, hcell, -⟩ := (hs.tableOk hok).cell_full ⟨hhave2, hgrain⟩
      refine ((retrieveAt_yields (hs.tableOk hok) hr2 hcell vlen rOffset forDel).mono
        (fun e he => he.of_sameTable hs) fun _ h => h).bind ?_
      rintro r rfl
      rw [hs.cell_eq] at hcell
      by_cases hk : k = key
      · subst hk
        rw [if_pos rfl]
        refine ⟨hs, hf, c, p, ⟨hnext.usable, by simp only [tab]; omega, ?_, hnext.before hb⟩,
          hnext.slot, ?_, ?_, hr2⟩
        · rw [← hnext.slot]
          exact hcell
        · rw [hs.hidxToGrain]
        · rw [foundPair, foundPair, hs.hidxToGrain, hf]
      · rw [if_neg hk]
        refine hnextRound hs hf hr2 (by omega) ?_
        rw [hcell]
        exact hk

end Shard

end Virtkv
