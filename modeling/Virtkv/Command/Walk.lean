import Virtkv.Command.Lookup
import Virtkv.Flash.Fill

/-!
# The page walk of a read

Behind a matching key `__retrieve_and_compare` walks over the pages the request asks for,
beginning with the page behind the pair's first one, and stops the machine when it leaves
the line. How far it goes depends on the request alone, not on the pair. `Stays` says of a
request that the walk ends inside the line, and the comparison returns exactly then.
-/

namespace Virtkv

open Outcome

namespace Compare

variable {d : Device} {l r : ℕ}

/-! ### The loop over the pages -/

/-- Pages of different blocks are never read together. -/
theorem blk_of_isSameFlashPage {p q : Ppa} (h : isSameFlashPage d p q = true) : p.blk = q.blk := by
  simp only [isSameFlashPage, decide_eq_true_eq] at h
  exact h.2.2.1

/-- `__skip_ppas` inside a line is `peek_next_page`. -/
theorem skipPpa_pageAt (hw : d.geo.Wf) (hr : r + 1 < d.geo.pgsPerLine) :
    skipPpa d (d.geo.pageAt l r) = .ok (d.geo.pageAt l (r + 1)) := by
  have hchlt : (d.geo.pageAt l r).ch < d.geo.nchs := Nat.mod_lt _ hw.nchs_pos
  have hlunlt : (d.geo.pageAt l r).lun < d.geo.lunsPerCh := Nat.mod_lt _ hw.luns_pos
  unfold skipPpa
  dsimp only
  split
  · rename_i hpage
    rw [Geometry.pageAt_succ_of_page hw fun h => hpage ((Geometry.pg_succ_mod hw l r).mpr h)]
  rename_i hpage
  have h := (Geometry.pg_succ_mod hw l r).mp (not_not.mp hpage)
  rw [ensure_of hchlt, ok_bind]
  split
  · rename_i hch
    rw [Geometry.pageAt_succ_of_ch hw h hch]
    rfl
  rename_i hch
  rw [ensure_of hlunlt, ok_bind]
  split
  · rename_i hlun
    rw [Geometry.pageAt_succ_of_lun hw h (not_not.mp hch) hlun]
    rfl
  rename_i hlun
  have hend := Geometry.row_end (l := l) hw (by omega) h (not_not.mp hch) (not_not.mp hlun)
  rw [if_pos (fun heq => absurd (hend.mp heq) (by omega)),
    (Geometry.pageAt_succ_of_row hw h (not_not.mp hch) (not_not.mp hlun)).1]
  rfl

/-- From the last page of a line `__skip_ppas` goes to the next block. -/
theorem skipPpa_last (hw : d.geo.Wf) (hr : r + 1 = d.geo.pgsPerLine) :
    skipPpa d (d.geo.pageAt l r) =
      .ok { ch := 0, lun := 0, blk := l + 1, pg := d.geo.pgsPerBlk } := by
  obtain ⟨h, hch, hlun⟩ := Geometry.last_digits hw l hr
  have hrow := (Geometry.row_end hw (by omega) h hch hlun).mpr hr
  unfold skipPpa
  dsimp only
  rw [if_neg (fun hc => hc ((Geometry.pg_succ_mod hw l r).mpr h)),
    ensure_of (show (d.geo.pageAt l r).ch < d.geo.nchs by omega), ok_bind,
    if_neg (fun hc => hc hch), ensure_of (show (d.geo.pageAt l r).lun < d.geo.lunsPerCh by omega),
    ok_bind, if_neg (fun hc => hc hlun), if_neg (fun hc => hc hrow), hrow]
  rfl

/-- Outside the line the next round stops. -/
theorem walkLoop_outside {fuel rem off : ℕ} {toRead nextRead : Ppa} (hne : toRead.blk ≠ l)
    (hrem : 0 < rem) : walkLoop d l fuel toRead nextRead off rem ≠ .ok () := by
  cases fuel with
  | zero => exact nofun
  | succ fuel =>
    intro h
    rw [walkLoop, if_neg (by omega)] at h
    simp only [bind_eq_ok, ensure_eq_ok] at h
    obtain ⟨-, heq, -⟩ := h
    exact hne heq

/-- The loop returns exactly if all its pages are in the line. -/
theorem walkLoop_eq_ok_iff (hw : d.geo.Wf) (fuel : ℕ) {rem off : ℕ} {toRead : Ppa}
    (hblk : toRead.blk = l) (hr : r < d.geo.pgsPerLine) (hoff : off < d.gpp) (hrem : 0 < rem)
    (hfuel : d.geo.pgsPerLine < r + fuel) :
    walkLoop d l fuel toRead (d.geo.pageAt l r) off rem = .ok () ↔
      r + d.pagesOf off rem ≤ d.geo.pgsPerLine := by
  induction fuel generalizing r rem off toRead with
  | zero => omega
  | succ fuel ih =>
    have hmod : off % d.gpp = off := Nat.mod_eq_of_lt hoff
    have hpos := d.build_gpp_pos
    rw [walkLoop, if_neg (by omega), hmod]
    dsimp only
    rw [ensure_of hblk, ok_bind]
    by_cases hlast : off + rem ≤ d.gpp
    · rw [if_pos (by omega), Device.pagesOf_one hrem hlast]
      simp only [true_iff, pure, Except.pure]
      omega
    have hsz : min rem (d.gpp - off) = d.gpp - off := by omega
    rw [if_neg (by omega), hsz, Device.pagesOf_succ hoff (by omega)]
    have hrest : 0 < rem - (d.gpp - off) := by omega
    have hpages : 0 < d.pagesOf 0 (rem - (d.gpp - off)) := Nat.div_pos (by omega) hpos
    by_cases hend : r + 1 = d.geo.pgsPerLine
    · rw [Geometry.peekNextPage_last hw hend, ok_bind]
      have hdiff : isSameFlashPage d toRead { ch := 0, lun := 0, blk := l + 1, pg := 0 } ≠ true := by
        intro h
        have hnext : toRead.blk = l + 1 := blk_of_isSameFlashPage h
        omega
      rw [if_neg hdiff]
      constructor
      · intro h
        exact absurd h (walkLoop_outside (by simp) hrest)
      · intro h
        omega
    · rw [Geometry.peekNextPage_pageAt hw (by omega), ok_bind]
      have hblk' : (if isSameFlashPage d toRead (d.geo.pageAt l (r + 1)) = true then toRead
          else d.geo.pageAt l (r + 1)).blk = l := by
        split
        · exact hblk
        · rfl
      rw [ih hblk' (by omega) hpos hrest (by omega)]
      omega

/-! ### What a request asks for -/

/-- The bytes that a request asks for behind the pair's first page, in `int` arithmetic. -/
def bytesBehind (readOffset readLen : ℕ) : ℤ :=
  toInt (if readOffset ≤ pageSize then (readLen : ℤ) - (pageSize - readOffset % pageSize : ℕ)
    else readLen)

/-- So many bytes in grains, rounded up if the number of whole grains is no multiple of the
grain size. -/
def roundedGrains (d : Device) (bytes : ℕ) : ℕ :=
  bytes / d.gu + if bytes / d.gu % d.gu ≠ 0 then 1 else 0

/-- The request ends on page `r`, where the pair begins, or behind this page it asks for
less than a grain and not for two grains less than nothing, or for pages of the line. -/
def Stays (d : Device) (r readOffset readLen : ℕ) : Prop :=
  (readOffset + readLen) % 2 ^ 32 ≤ pageSize ∨
    -2 * (d.gu : ℤ) < bytesBehind readOffset readLen ∧
      (bytesBehind readOffset readLen < d.gu ∨
        r + d.pagesOf (if readOffset ≤ pageSize then 0 else readOffset % pageSize / d.gu)
          (roundedGrains d (bytesBehind readOffset readLen).toNat) < d.geo.pgsPerLine)

theorem toInt_bounds (x : ℤ) : -2 ^ 31 ≤ toInt x ∧ toInt x < 2 ^ 31 := by
  have hle := @Int.le_bmod x (2 ^ 32) (by decide)
  have hlt := @Int.bmod_lt x (2 ^ 32) (by decide)
  simp only [toInt]
  omega

/-- `int` division of a number of bytes that is not negative. -/
theorem walkGrains_natCast {n : ℕ} (hn : n < 2 ^ 31) : walkGrains d n = roundedGrains d n := by
  have hle : n / d.gu ≤ n := Nat.div_le_self _ _
  unfold walkGrains roundedGrains
  dsimp only
  rw [← Int.ofNat_tdiv, ← Int.ofNat_tmod]
  generalize n / d.gu = q at hle ⊢
  split <;> split <;> omega

/-- It rounds towards zero, also below it. -/
theorem walkGrains_neg {n : ℕ} (hn : n ≤ 2 ^ 31) :
    walkGrains d (-n) =
      if n < 2 * d.gu then 0
      else 2 ^ 32 - n / d.gu + if n / d.gu % d.gu ≠ 0 then 1 else 0 := by
  have hgu : 2 ≤ d.gu := by
    unfold Device.gu
    cases d.build <;> decide
  have hle : n / d.gu ≤ n := Nat.div_le_self _ _
  unfold walkGrains
  dsimp only
  rw [Int.neg_tdiv, Int.neg_tmod, ← Int.ofNat_tdiv, ← Int.ofNat_tmod]
  by_cases hfew : n < 2 * d.gu
  · -- Minus one grain is rounded up to none.
    have hq : n / d.gu < 2 := Nat.div_lt_of_lt_mul (by omega)
    have hmod : n / d.gu % d.gu = n / d.gu := Nat.mod_eq_of_lt (by omega)
    rw [if_pos hfew, hmod]
    generalize n / d.gu = q at hq ⊢
    split <;> omega
  · have hq : 2 ≤ n / d.gu := (Nat.le_div_iff_mul_le (by omega)).mpr (by omega)
    rw [if_neg hfew]
    generalize n / d.gu = q at hle hq ⊢
    split <;> split <;> omega

/-- The walk has pages to read, and all of them are in the line. -/
theorem walkLoop_behind_iff (hw : d.geo.Wf) {rem off : ℕ} (hr : r < d.geo.pgsPerLine)
    (hoff : off < d.gpp) :
    (∃ q, skipPpa d (d.geo.pageAt l r) = .ok q ∧
        walkLoop d l (d.geo.pgsPerLine + 2) q q off rem = .ok ()) ↔
      rem = 0 ∨ r + d.pagesOf off rem < d.geo.pgsPerLine := by
  by_cases hrem : rem = 0
  · have hskip : ∃ q, skipPpa d (d.geo.pageAt l r) = .ok q := by
      by_cases hend : r + 1 = d.geo.pgsPerLine
      · exact ⟨_, skipPpa_last hw hend⟩
      · exact ⟨_, skipPpa_pageAt hw (by omega)⟩
    obtain ⟨q, hq⟩ := hskip
    refine iff_of_true ⟨q, hq, ?_⟩ (.inl hrem)
    rw [walkLoop, if_pos hrem]
  have hpages : 0 < d.pagesOf off rem :=
    Nat.div_pos (by omega) d.build_gpp_pos
  by_cases hend : r + 1 = d.geo.pgsPerLine
  · rw [skipPpa_last hw hend]
    constructor
    · rintro ⟨q, hq, hloop⟩
      cases hq
      exact absurd hloop (walkLoop_outside (by simp) (by omega))
    · intro h
      omega
  · rw [skipPpa_pageAt hw (by omega)]
    simp only [Except.ok.injEq, exists_eq_left']
    rw [walkLoop_eq_ok_iff hw (d.geo.pgsPerLine + 2) (Geometry.pageAt_blk _ _ _) (by omega) hoff
      (by omega) (by omega)]
    omega

/-- A negative number of bytes, if it is not rounded to zero, is far more than a line. -/
theorem not_lt_of_walkGrains_neg (r off : ℕ) {n : ℕ} (hn : n ≤ 2 ^ 31) (hfew : 2 * d.gu ≤ n)
    (hline : d.grainsPerLine < 2 ^ 31) :
    walkGrains d (-n) ≠ 0 ∧ ¬ r + d.pagesOf off (walkGrains d (-n)) < d.geo.pgsPerLine := by
  have hpos := d.build_gpp_pos
  have hgu : 64 ≤ d.gu := by
    unfold Device.gu
    cases d.build <;> decide
  have hq : n / d.gu ≤ 2 ^ 25 :=
    calc n / d.gu ≤ n / 64 := Nat.div_le_div_left hgu (by omega)
      _ ≤ 2 ^ 25 := by omega
  have hge : 2 ^ 31 ≤ walkGrains d (-n) := by
    rw [walkGrains_neg hn, if_neg (by omega)]
    omega
  refine ⟨by omega, ?_⟩
  have : d.geo.pgsPerLine ≤ d.pagesOf off (walkGrains d (-n)) := by
    rw [Device.pagesOf, Nat.le_div_iff_mul_le hpos]
    have : d.geo.pgsPerLine * d.gpp < 2 ^ 31 := hline
    omega
  omega

theorem walkGrains_stays_iff {off : ℕ} {x : ℤ} (hx : -2 ^ 31 ≤ x ∧ x < 2 ^ 31)
    (hline : d.grainsPerLine < 2 ^ 31) :
    walkGrains d x = 0 ∨ r + d.pagesOf off (walkGrains d x) < d.geo.pgsPerLine ↔
      -2 * (d.gu : ℤ) < x ∧
        (x < d.gu ∨ r + d.pagesOf off (roundedGrains d x.toNat) < d.geo.pgsPerLine) := by
  have hgu := d.gu_pos
  rcases Int.le_total 0 x with hpos | hneg
  · obtain ⟨n, rfl⟩ := Int.eq_ofNat_of_zero_le hpos
    have hzero : roundedGrains d n = 0 ↔ n < d.gu := by
      unfold roundedGrains
      constructor
      · intro h
        exact (Nat.div_eq_zero_iff_lt hgu).mp (Nat.add_eq_zero_iff.mp h).1
      · intro h
        simp [Nat.div_eq_of_lt h]
    rw [walkGrains_natCast (by omega), Int.toNat_natCast, hzero]
    omega
  · obtain ⟨n, hn⟩ := Int.eq_ofNat_of_zero_le (Int.neg_nonneg_of_nonpos hneg)
    have hx' : x = -n := by omega
    subst hx'
    by_cases hfew : n < 2 * d.gu
    · rw [walkGrains_neg (by omega), if_pos hfew]
      refine iff_of_true (.inl rfl) ⟨by omega, .inl (by omega)⟩
    · obtain ⟨h0, hlt⟩ := not_lt_of_walkGrains_neg r off (by omega)
        (not_lt.mp hfew) hline
      refine iff_of_false (not_or.mpr ⟨h0, hlt⟩) ?_
      omega

theorem pageWalk_eq_ok_iff (hw : d.geo.Wf) (hline : d.grainsPerLine < 2 ^ 31)
    (hr : r < d.geo.pgsPerLine) {readOffset readLen : ℕ}
    (hlong : ¬ (readOffset + readLen) % 2 ^ 32 ≤ pageSize) :
    pageWalk d (d.geo.pageAt l r) readOffset (toInt readLen) false = .ok () ↔
      Stays d r readOffset readLen := by
  have hlen : (if readOffset ≤ pageSize then
      toInt (toInt readLen - (pageSize - readOffset % pageSize : ℕ)) else toInt readLen) =
      bytesBehind readOffset readLen := by
    unfold bytesBehind
    split
    · exact Int.bmod_sub_bmod
    · rfl
  have hoff : (if readOffset ≤ pageSize then pageSize else readOffset) % pageSize / d.gu =
      if readOffset ≤ pageSize then 0 else readOffset % pageSize / d.gu := by
    split
    · rw [Nat.mod_self, Nat.zero_div]
    · rfl
  have hlt : (if readOffset ≤ pageSize then 0 else readOffset % pageSize / d.gu) < d.gpp := by
    split
    · exact d.build_gpp_pos
    · refine Nat.div_lt_of_lt_mul ?_
      rw [Nat.mul_comm, d.gpp_mul_gu]
      exact Nat.mod_lt _ (by decide)
  have hx : -2 ^ 31 ≤ bytesBehind readOffset readLen ∧ bytesBehind readOffset readLen < 2 ^ 31 :=
    toInt_bounds _
  rw [Stays, or_iff_right hlong, ← walkGrains_stays_iff hx hline,
    ← walkLoop_behind_iff (l := l) hw hr hlt]
  unfold pageWalk
  dsimp only
  rw [hlen, hoff]
  simp only [Bool.false_eq_true, if_false, bind_eq_ok, Geometry.pageAt_blk]

/-- Reading a pair that begins on page `x / gpp` of a line: for another key there is no walk,
for its own key the comparison returns exactly if the request stays in the line. -/
theorem retrieveAndCompare_returns_iff (hw : d.geo.Wf) (hline : d.grainsPerLine < 2 ^ 31)
    {x : ℕ} (hl : l < d.geo.ttLines) (hx : x < d.grainsPerLine) {k : Bytes} (p : Pair)
    (hk : k.length ≤ maxKlen) (key : Bytes) (readLen readOffset : ℕ) :
    retrieveAndCompare d (d.grainAt l x) (PairMem.bytes k p) key readLen readOffset false =
        .ok (decide (k = key)) ↔
      (k = key → Stays d (x / d.gpp) readOffset readLen) := by
  have hpage : d.geo.ppaToStruct (d.gIdx (d.grainAt l x)) = .ok (d.geo.pageAt l (x / d.gpp)) := by
    rw [Device.gIdx_grainAt]
    exact (Device.pageAt_div_valid hw hl hx).ppaToStruct_pgNo hw
  rw [retrieveAndCompare, hpage, ok_bind, keyMatches_bytes hk, ok_bind]
  by_cases hkey : k = key
  · simp only [hkey, decide_true, not_true_eq_false, if_false, true_implies]
    by_cases hshort : (readOffset + readLen) % 2 ^ 32 ≤ pageSize
    · rw [if_pos hshort]
      exact iff_of_true rfl (.inl hshort)
    · rw [if_neg hshort, ← pageWalk_eq_ok_iff hw hline (Device.div_lt_pgsPerLine hx) hshort]
      cases pageWalk d (d.geo.pageAt l (x / d.gpp)) readOffset (toInt readLen) false with
      | error e => exact iff_of_false nofun nofun
      | ok u => exact iff_of_true rfl rfl
  · refine iff_of_true ?_ fun h => absurd h hkey
    simp only [hkey, decide_false]
    rfl

/-- The header's geometry, with 64 lines of 2048 pages. -/
def headerGeometry : Geometry where
  nchs := 8
  lunsPerCh := 8
  blksPerPl := 64
  oneshotpgsPerBlk := 4
  pgsPerOneshotpg := 8

def headerDevice : Device where
  build := .original
  geo := headerGeometry
  maxCached := 1
  hash _ := 0

theorem headerGeometry_wf : headerGeometry.Wf := by
  constructor <;> decide

theorem retrieveAndCompare_wholePair :
    Stays headerDevice 1 0 5000 ∧
      retrieveAndCompare headerDevice (headerDevice.grainAt 0 8)
        (PairMem.bytes [1] ⟨List.replicate 5000 7, []⟩) [1] 5000 0 false = .ok true := by
  have hstays : Stays headerDevice 1 0 5000 := by
    unfold Stays
    decide
  exact ⟨hstays, (retrieveAndCompare_returns_iff headerGeometry_wf (by decide) (by decide)
    (by decide) ⟨List.replicate 5000 7, []⟩ (by decide) [1] 5000 0).mpr fun _ => hstays⟩

theorem retrieveAndCompare_secondPage :
    retrieveAndCompare headerDevice (headerDevice.grainAt 0 8)
      (PairMem.bytes [1] ⟨List.replicate 5000 7, []⟩) [1] 2048 4096 false = .error .pageWalk := by
  decide +kernel

end Compare

end Virtkv
