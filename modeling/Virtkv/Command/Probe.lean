import Virtkv.Command.Lookup
import Virtkv.Lib.QuadraticProbe

/-!
# The probe sequence and the sections

Which slots `get_hash_idx` can return, and whether `init_cache` made a section for each
of them.
-/

namespace Virtkv

open Outcome

/-! ### The geometry of a capacity -/

/-- `BLK_SIZE`, `ONESHOT_PAGE_SIZE`, `NAND_CHANNELS` and `LUNS_PER_NAND_CH`. -/
def blkSize : ℕ := 128 * 1024
def oneshotPageSize : ℕ := 32 * 1024
def nandChannels : ℕ := 8
def lunsPerNandCh : ℕ := 8

/-- `DIV_ROUND_UP`. -/
def divRoundUp (n m : ℕ) : ℕ := (n + m - 1) / m

/-- `ssd_init_params`, for the one partition of the configuration. -/
def ssdInitParams (capacity : ℕ) : Geometry where
  nchs := nandChannels
  lunsPerCh := lunsPerNandCh
  blksPerPl := divRoundUp capacity (blkSize * lunsPerNandCh * nandChannels)
  oneshotpgsPerBlk := divRoundUp blkSize oneshotPageSize
  pgsPerOneshotpg := oneshotPageSize / pageSize

theorem ssdInitParams_ttPgs (capacity : ℕ) :
    (ssdInitParams capacity).ttPgs = 2048 * (ssdInitParams capacity).blksPerPl := by
  have hblk : (ssdInitParams capacity).pgsPerBlk = 32 := rfl
  unfold Geometry.ttPgs Geometry.pgsPerCh Geometry.pgsPerLun
  rw [hblk]
  change 32 * (ssdInitParams capacity).blksPerPl * 8 * 8 = _
  omega

theorem ssdInitParams_blksPerPl_pos {capacity : ℕ} (h : 0 < capacity) :
    0 < (ssdInitParams capacity).blksPerPl := by
  change 0 < divRoundUp capacity (128 * 1024 * 8 * 8)
  unfold divRoundUp
  omega

namespace Device

variable {d : Device}

/-! ### Slots the sequence reaches -/

/-- The counts a collision loop stops at: it asks for the next index until a slot is
free. -/
inductive Visits (d : Device) (hash : ℕ) : ℕ → ℕ → Prop where
  | first {lpa c : ℕ} : d.getHashIdx hash 0 = .ok (lpa, c) → Visits d hash lpa c
  | next {lpa c lpa' c' : ℕ} : Visits d hash lpa c → d.getHashIdx hash (c + 1) = .ok (lpa', c') →
      Visits d hash lpa' c'

/-- `get_hash_idx` returns the first usable count. -/
theorem getHashIdx_eq {hash cnt c : ℕ} (hle : cnt ≤ c) (hlt : c < 2 ^ 32)
    (hc : d.epp < d.probe hash c) (hskip : ∀ i, cnt ≤ i → i < c → d.probe hash i ≤ d.epp) :
    d.getHashIdx hash cnt = .ok (d.probe hash c, c) := by
  obtain ⟨⟨lpa, c'⟩, hr⟩ := @getHashIdxLoop_exists d hash (2 ^ 32 - cnt) cnt c hle (by omega) hc
  obtain ⟨rfl, hgt, hle', -, hskip'⟩ := getHashIdxLoop_eq_ok hr
  have heq : c' = c := by
    rcases Nat.lt_trichotomy c' c with h | h | h
    · exact absurd (hskip c' hle' h) (Nat.not_le.mpr hgt)
    · exact h
    · exact absurd (hskip' c hle h) (Nat.not_le.mpr hc)
  subst heq
  exact hr

/-- Every usable count is visited. -/
theorem visits_of_usable {hash c : ℕ} (hlt : c < 2 ^ 32) (hc : d.epp < d.probe hash c) :
    d.Visits hash (d.probe hash c) c := by
  induction c using Nat.strong_induction_on with
  | _ c ih =>
    by_cases hbefore : ∃ i < c, d.epp < d.probe hash i
    · -- the last usable count before `c`
      obtain ⟨i, ⟨hi, hu⟩, hmax⟩ : ∃ i, (i < c ∧ d.epp < d.probe hash i) ∧
          ∀ j, i < j → j < c → d.probe hash j ≤ d.epp := by
        obtain ⟨i, hi, hu⟩ := hbefore
        refine ⟨Nat.findGreatest (fun j => j < c ∧ d.epp < d.probe hash j) c, ?_, ?_⟩
        · exact Nat.findGreatest_spec (P := fun j => j < c ∧ d.epp < d.probe hash j)
            hi.le ⟨hi, hu⟩
        · intro j hij hjc
          have hno := Nat.findGreatest_is_greatest hij hjc.le
          exact Nat.not_lt.mp fun hgt => hno ⟨hjc, hgt⟩
      exact .next (ih i hi (by omega) hu) (getHashIdx_eq hi hlt hc fun j hj => hmax j hj)
    · push Not at hbefore
      exact .first (getHashIdx_eq (Nat.zero_le _) hlt hc fun i _ hi => hbefore i hi)

/-- The probe sequence of every hash reaches every slot, and a collision loop that finds no
free slot before comes to every slot outside the first section. -/
theorem exists_probe_eq (d : Device) (heven : Even d.nrValidTentries)
    (hlow : 2 < d.nrValidTentries) (hhigh : d.nrValidTentries ≤ 2 ^ 31) {hash slot : ℕ}
    (hhash : hash < 2 ^ 32) (hpos : 1 ≤ slot) (hle : slot ≤ d.nrValidTentries - 1) :
    ∃ c < 2 ^ 31, (hash + c + c * c) % 2 ^ 32 % (d.nrValidTentries - 1) + 1 = slot ∧
      (d.epp < slot → d.Visits hash slot c) := by
  have hodd : Odd (d.nrValidTentries - 1) := Nat.Even.sub_odd (by omega) heven odd_one
  obtain ⟨c, hc, hslot⟩ := QuadraticProbe.exists_count (w := 31) (h := hash) (s := slot - 1) hodd
    (by omega) (by omega) hhash
  have hprobe : d.probe hash c = slot := by
    rw [probe, hslot]
    omega
  refine ⟨c, hc, hprobe, fun hgt => ?_⟩
  have hv := @visits_of_usable d hash c (by omega) (by rwa [hprobe])
  rwa [hprobe] at hv

/-- A device with two sections of 1024 slots. -/
def twoSections : Device where
  build := .original
  geo := { nchs := 1, lunsPerCh := 1, blksPerPl := 8, oneshotpgsPerBlk := 4, pgsPerOneshotpg := 8 }
  maxCached := 0
  hash _ := 0

/-- A slot of the second section is reached from hash 5. -/
theorem exists_probe_eq_twoSections :
    ∃ c < 2 ^ 31, (5 + c + c * c) % 2 ^ 32 % (twoSections.nrValidTentries - 1) + 1 = 1500 ∧
      twoSections.Visits 5 1500 c := by
  obtain ⟨c, hc, hprobe, hvisits⟩ := @exists_probe_eq twoSections (by decide) (by decide)
    (by decide) 5 1500 (by decide) (by decide) (by decide)
  exact ⟨c, hc, hprobe, hvisits (by decide)⟩

/-! ### Sections for all slots -/

theorem probe_le (h : 1 < d.nrValidTentries) (hash c : ℕ) :
    d.probe hash c ≤ d.nrValidTentries - 1 := by
  have hmod := Nat.mod_lt ((hash + c + c * c) % 2 ^ 32)
    (show 0 < d.nrValidTentries - 1 by omega)
  unfold probe
  omega

/-- The last slot is the home of a hash. -/
theorem probe_last (h : 2 < d.nrValidTentries) (hlt : d.nrValidTentries < 2 ^ 32) :
    d.probe (d.nrValidTentries - 2) 0 = d.nrValidTentries - 1 := by
  unfold probe
  rw [show d.nrValidTentries - 2 + 0 + 0 * 0 = d.nrValidTentries - 2 by omega,
    Nat.mod_eq_of_lt (show d.nrValidTentries - 2 < 2 ^ 32 by omega),
    Nat.mod_eq_of_lt (show d.nrValidTentries - 2 < d.nrValidTentries - 1 by omega)]
  omega

theorem nrValid_original {capacity : ℕ} (hb : d.build = .original)
    (hgeo : d.geo = ssdInitParams capacity) :
    d.epp = 1024 ∧ d.nrValidTentries = 16384 * d.geo.blksPerPl ∧
      d.nrValidTpages = 16 * d.geo.blksPerPl := by
  have htt : d.geo.ttPgs = 2048 * d.geo.blksPerPl := by
    rw [hgeo]
    exact ssdInitParams_ttPgs capacity
  have hgpp : d.gpp = 8 := by rw [gpp, hb]; rfl
  have hepp : d.epp = 1024 := by rw [epp, hb]; rfl
  unfold nrValidTentries nrValidTpages
  rw [hb, htt, hgpp, hepp]
  dsimp only
  refine ⟨rfl, ?_, ?_⟩ <;> omega

theorem nrValid_plus {capacity : ℕ} (hb : d.build = .plus)
    (hgeo : d.geo = ssdInitParams capacity) :
    d.epp = 480 ∧ d.nrValidTentries = 131072 * d.geo.blksPerPl + 64 ∧
      d.nrValidTpages = 131072 * d.geo.blksPerPl / 480 + 1 := by
  have htt : d.geo.ttPgs = 2048 * d.geo.blksPerPl := by
    rw [hgeo]
    exact ssdInitParams_ttPgs capacity
  have hgpp : d.gpp = 64 := by rw [gpp, hb]; rfl
  have hepp : d.epp = 480 := by rw [epp, hb]; rfl
  unfold nrValidTentries nrValidTpages
  rw [hb, htt, hgpp, hepp]
  dsimp only
  refine ⟨rfl, ?_, ?_⟩ <;> omega

/-- The last slot has a section, up to the rounding of the Plus build: it adds one section
and one page of entries. -/
theorem idx_last_lt_iff {capacity : ℕ} (hcap : 0 < capacity)
    (hgeo : d.geo = ssdInitParams capacity) :
    d.idx (d.nrValidTentries - 1) < d.nrValidTpages ↔
      d.build = .original ∨ d.geo.blksPerPl % 15 ≠ 14 := by
  have hpos : 0 < d.geo.blksPerPl := by
    rw [hgeo]
    exact ssdInitParams_blksPerPl_pos hcap
  unfold idx
  cases hb : d.build with
  | original =>
    obtain ⟨hepp, hent, hpages⟩ := nrValid_original hb hgeo
    rw [hepp, hent, hpages]
    exact iff_of_true (by omega) (.inl rfl)
  | plus =>
    obtain ⟨hepp, hent, hpages⟩ := nrValid_plus hb hgeo
    rw [hepp, hent, hpages]
    constructor
    · intro h
      exact .inr (by omega)
    · intro h
      have hmod : d.geo.blksPerPl % 15 ≠ 14 := h.resolve_left nofun
      -- the entries beyond whole sections, before the extra page of entries
      have hsplit : 131072 * d.geo.blksPerPl =
          480 * (4096 * (d.geo.blksPerPl / 15) + 273 * (d.geo.blksPerPl % 15)) +
            32 * (d.geo.blksPerPl % 15) := by omega
      rw [hsplit]
      generalize 4096 * (d.geo.blksPerPl / 15) + 273 * (d.geo.blksPerPl % 15) = m
      omega

end Device

theorem Cache.getHt_ne_badAccess {d : Device} (c : Cache) {lpa : ℕ}
    (h : d.idx lpa < d.nrValidTpages) : c.getHt d lpa ≠ .error .badAccess := by
  intro herr
  simp only [getHt, lock, ensure_of h, ok_bind] at herr
  by_cases hlock : (c.secs (d.idx lpa)).outgoing = false
  · rw [ensure_of hlock] at herr
    cases herr
  · simp [ensure, hlock] at herr

namespace Device

variable {d : Device}

/-- Every index `get_hash_idx` returns names a section, exactly for the Original build and
for the Plus builds whose number of blocks is not 14 modulo 15. -/
theorem getHashIdx_indexed_iff {capacity : ℕ} (hcap : 0 < capacity)
    (hgeo : d.geo = ssdInitParams capacity) (hgrains : d.geo.ttPgs * d.gpp < 2 ^ 31) :
    (∀ hash cnt lpa cnt', hash < 2 ^ 32 → d.getHashIdx hash cnt = .ok (lpa, cnt') →
      d.epp < lpa ∧ d.idx lpa < d.nrValidTpages ∧
        ∀ c : Cache, c.getHt d lpa ≠ .error .badAccess) ↔
      d.build = .original ∨ d.geo.blksPerPl % 15 ≠ 14 := by
  rw [← idx_last_lt_iff hcap hgeo]
  have hpos : 0 < d.geo.blksPerPl := by
    rw [hgeo]
    exact ssdInitParams_blksPerPl_pos hcap
  have hsize : d.epp + 1 < d.nrValidTentries ∧ d.nrValidTentries < 2 ^ 32 := by
    have hgpp : d.nrValidTentries ≤ d.geo.ttPgs * d.gpp + 64 := by
      unfold nrValidTentries
      have hle : d.gpp ≤ 64 := by unfold gpp; cases d.build <;> decide
      split <;> omega
    cases hb : d.build with
    | original =>
      obtain ⟨hepp, hent, -⟩ := nrValid_original hb hgeo
      omega
    | plus =>
      obtain ⟨hepp, hent, -⟩ := nrValid_plus hb hgeo
      omega
  have hepp := d.epp_pos
  constructor
  · intro h
    have hlast := probe_last (d := d) (by omega) hsize.2
    have hidx := @getHashIdx_eq d (d.nrValidTentries - 2) 0 0 le_rfl (Nat.two_pow_pos 32)
      (by rw [hlast]; omega) (fun i _ hi => absurd hi (Nat.not_lt_zero i))
    rw [hlast] at hidx
    exact (h _ _ _ _ (by omega) hidx).2.1
  · intro hlast hash cnt lpa cnt' _ hidx
    obtain ⟨rfl, hgt, -⟩ := getHashIdxLoop_eq_ok hidx
    have hlt : d.idx (d.probe hash cnt') < d.nrValidTpages :=
      (Nat.div_le_div_right (probe_le (by omega) hash cnt')).trans_lt hlast
    exact ⟨hgt, hlt, fun c => c.getHt_ne_badAccess hlt⟩

/-- A Plus device of the given capacity. -/
def plusOf (capacity : ℕ) : Device where
  build := .plus
  geo := ssdInitParams capacity
  maxCached := 0
  hash _ := 0

/-- Every index has a section with 15 blocks. -/
theorem getHashIdx_indexed_120MB :
    (plusOf (120 * 2 ^ 20)).nrValidTpages = 4097 ∧ ∀ hash cnt lpa cnt', hash < 2 ^ 32 →
      (plusOf (120 * 2 ^ 20)).getHashIdx hash cnt = .ok (lpa, cnt') →
      (plusOf (120 * 2 ^ 20)).epp < lpa ∧
        (plusOf (120 * 2 ^ 20)).idx lpa < (plusOf (120 * 2 ^ 20)).nrValidTpages ∧
        ∀ c : Cache, c.getHt (plusOf (120 * 2 ^ 20)) lpa ≠ .error .badAccess :=
  ⟨by decide, (@getHashIdx_indexed_iff (plusOf (120 * 2 ^ 20)) (120 * 2 ^ 20)
    (by decide) rfl (by decide)).mpr (.inr (by decide))⟩

/-- With 14 blocks the last 31 indices lie in a section that `init_cache` did not make. -/
theorem getHashIdx_not_indexed_112MB :
    (plusOf (112 * 2 ^ 20)).geo.ttPgs * (plusOf (112 * 2 ^ 20)).gpp < 2 ^ 31 ∧
      (plusOf (112 * 2 ^ 20)).getHashIdx 1835070 0 = .ok (1835071, 0) ∧
      (plusOf (112 * 2 ^ 20)).idx 1835071 = 3823 ∧
      (plusOf (112 * 2 ^ 20)).nrValidTpages = 3823 ∧
      ∀ c : Cache, c.getHt (plusOf (112 * 2 ^ 20)) 1835071 = .error .badAccess := by
  refine ⟨by decide, ?_, by decide, by decide, fun c => rfl⟩
  exact getHashIdx_eq (c := 0) le_rfl (by decide) (by decide) (by omega)

end Device

end Virtkv
