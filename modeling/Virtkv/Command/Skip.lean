import Virtkv.Command.Walk
import Virtkv.Flash.Width

/-!
# Skipping pages

`__skip_ppas` steps over the first pages of a pair that does not begin to be read at its
start. It is a second copy of `peek_next_page`, in which the page field is not set back behind
the last page of a block: from there on the walk is in the next block, at pages behind its
end, until the 16 bits of the field overflow.

## Main results

- `skipPpa_eq` — inside a line a step at the width of the fields is the step of the page walk
- `skipPpas_agrees_iff` — the walk agrees with `peek_next_page` exactly if it ends in its line
-/

namespace Virtkv.Word

open Outcome

variable {g : Geometry} {p : Ppa}

/-- `__skip_ppas`. -/
def skipPpas (g : Geometry) (p : Ppa) (readOffset : ℕ) : Except Fault Ppa :=
  let pgCnt := readOffset / pageSize
  repeatStep (skipPpa g) pgCnt p

/-- Both walks end, at the same page. -/
def Agrees (g : Geometry) (p : Ppa) (readOffset : ℕ) : Prop :=
  ∃ q, skipPpas g p readOffset = .ok q ∧
    repeatStep (peekNextPage g) (readOffset / pageSize) p = .ok q

/-! ### The rows of `__skip_ppas` -/

/-- The rows of `__skip_ppas` from line `l` on. They are counted up to the width of the page
field, and the block goes up whenever the end of a block is met. -/
def skipBase (g : Geometry) (t : ℕ) : ℕ := t * g.pgsPerOneshotpg % 2 ^ 16
def skipBlk (g : Geometry) (l t : ℕ) : ℕ :=
  (l + (t * g.pgsPerOneshotpg + (2 ^ 16 - g.pgsPerBlk)) / 2 ^ 16) % 2 ^ 16

theorem row_le_pgsPerBlk {t : ℕ} (ht : t < g.oneshotpgsPerBlk) :
    (t + 1) * g.pgsPerOneshotpg ≤ g.pgsPerBlk := by
  rw [pgsPerBlk_eq_mul]
  exact Nat.mul_le_mul_right _ ht

/-- The quotient goes up exactly where the remainder is 0. -/
theorem div_succ_step {z q : ℕ} (hq : q < 2 ^ 16) (hpos : 0 < q) (hz : q ≤ z)
    (hrem : z % 2 ^ 16 ≠ 0 → q ≤ z % 2 ^ 16) :
    z / 2 ^ 16 = if z % 2 ^ 16 = 0 then (z - q) / 2 ^ 16 + 1 else (z - q) / 2 ^ 16 := by
  split
  · omega
  · rename_i hne
    have := hrem hne
    omega

/-- Rows begin at multiples of a one-shot page as long as the field has not overflowed, and for
good if its width is such a multiple. -/
theorem skip_nextRow (hw : g.Positive) (h : g.FitsFields) (l : ℕ) {t : ℕ}
    (ht : (t + 1) * g.pgsPerOneshotpg ≤ 2 ^ 16 ∨ g.pgsPerOneshotpg ∣ 2 ^ 16) :
    NextRow g (fun p => { p with blk := (p.blk + 1) % 2 ^ 16 }) (skipBase g)
      (skipBlk g l) t := by
  have hpos := hw.pgs_pos
  have hq := h.pgs_lt
  have hblk := h.pgsPerBlk_lt
  have hsucc : (t + 1) * g.pgsPerOneshotpg = t * g.pgsPerOneshotpg + g.pgsPerOneshotpg := by
    rw [Nat.add_mul, Nat.one_mul]
  have hnext : (skipBase g t + g.pgsPerOneshotpg) % 2 ^ 16 = skipBase g (t + 1) := by
    rw [skipBase, skipBase, Nat.mod_add_mod, hsucc]
  -- `z` counts the bytes to the next end of a block
  obtain ⟨z, hz⟩ : ∃ z, z = (t + 1) * g.pgsPerOneshotpg + (2 ^ 16 - g.pgsPerBlk) := ⟨_, rfl⟩
  have hprev : t * g.pgsPerOneshotpg + (2 ^ 16 - g.pgsPerBlk) = z - g.pgsPerOneshotpg := by omega
  have hend : skipBase g (t + 1) = g.pgsPerBlk ↔ z % 2 ^ 16 = 0 := by
    rw [skipBase, hz]
    omega
  have hfacts : skipBase g t % g.pgsPerOneshotpg = 0 ∧
      skipBase g t + g.pgsPerOneshotpg ≤ 2 ^ 16 ∧
      (z % 2 ^ 16 ≠ 0 → g.pgsPerOneshotpg ≤ z % 2 ^ 16) := by
    rcases ht with ht | ⟨c, hc⟩
    · have hbase : skipBase g t = t * g.pgsPerOneshotpg := Nat.mod_eq_of_lt (by omega)
      rw [hbase]
      refine ⟨Nat.mul_mod_left _ _, by omega, ?_⟩
      intro hne
      by_cases hle : (t + 1) * g.pgsPerOneshotpg ≤ g.pgsPerBlk
      · omega
      · -- behind the end of the block there is at least one row
        have hdvd : g.pgsPerOneshotpg ∣ (t + 1) * g.pgsPerOneshotpg - g.pgsPerBlk :=
          Nat.dvd_sub (Nat.dvd_mul_left _ _) ⟨_, rfl⟩
        have := Nat.le_of_dvd (by omega) hdvd
        omega
    · have hdvd : g.pgsPerOneshotpg ∣ 2 ^ 16 := ⟨c, hc⟩
      have hbase : g.pgsPerOneshotpg ∣ skipBase g t :=
        (Nat.dvd_mod_iff hdvd).mpr (Nat.dvd_mul_left _ _)
      have hzdvd : g.pgsPerOneshotpg ∣ z % 2 ^ 16 := by
        rw [Nat.dvd_mod_iff hdvd, hz]
        apply Nat.dvd_add (Nat.dvd_mul_left _ _)
        exact Nat.dvd_sub hdvd ⟨_, rfl⟩
      refine ⟨Nat.mod_eq_zero_of_dvd hbase, ?_, ?_⟩
      · -- the width and the row are multiples, and the row begins below the width
        have hlt : skipBase g t < 2 ^ 16 := Nat.mod_lt _ (by decide)
        have := Nat.le_of_dvd (by omega) (Nat.dvd_sub hdvd hbase)
        omega
      · intro hne
        exact Nat.le_of_dvd (by omega) hzdvd
  obtain ⟨haligned, hle, hrem⟩ := hfacts
  have hdiv := div_succ_step hq hpos (by omega) hrem
  have hblkSucc : skipBlk g l (t + 1) = (l + z / 2 ^ 16) % 2 ^ 16 := by rw [skipBlk, hz]
  have hblkPrev : skipBlk g l t = (l + (z - g.pgsPerOneshotpg) / 2 ^ 16) % 2 ^ 16 := by
    rw [skipBlk, hprev]
  refine ⟨haligned, hle, ?_, ?_⟩
  · intro hne
    rw [hnext] at hne ⊢
    rw [hblkSucc, hblkPrev, hdiv, if_neg (fun hc => hne (hend.mpr hc))]
    exact ⟨rfl, rfl⟩
  · intro heq
    rw [hnext] at heq
    rw [hblkSucc, hblkPrev, hdiv, if_pos (hend.mp heq), heq]
    simp only [Nat.mod_add_mod, Nat.add_assoc]

theorem skipBlk_of_lt (hw : g.Positive) (h : g.FitsFields) {l t : ℕ} (hl : l < g.blksPerPl)
    (ht : t < g.oneshotpgsPerBlk) : skipBase g t = t * g.pgsPerOneshotpg ∧ skipBlk g l t = l := by
  have hpos := hw.pgs_pos
  have hblk := h.pgsPerBlk_lt
  have hl' := lt_trans hl h.blks_lt
  have hle := row_le_pgsPerBlk ht
  rw [Nat.add_mul, Nat.one_mul] at hle
  refine ⟨Nat.mod_eq_of_lt (by omega), ?_⟩
  rw [skipBlk, Nat.div_eq_of_lt (by omega), Nat.add_zero, Nat.mod_eq_of_lt hl']

theorem pageAt_eq_pageOn_skip (hw : g.Positive) (h : g.FitsFields) {l r : ℕ}
    (hl : l < g.blksPerPl) (hr : g.rowOf r < g.oneshotpgsPerBlk) :
    g.pageAt l r = pageOn g (skipBase g) (skipBlk g l) r := by
  obtain ⟨hbase, hblk⟩ := skipBlk_of_lt hw h hl hr
  simp only [Geometry.pageAt, pageOn, hbase, hblk]
  rfl

/-- `__skip_ppas` any number of times, up to the end of the line or beyond. -/
theorem repeat_skipPpa (hw : g.Positive) (h : g.FitsFields) {l r n : ℕ} (hl : l < g.blksPerPl)
    (hr : g.rowOf r < g.oneshotpgsPerBlk)
    (hn : (∀ k < n, (g.rowOf (r + k) + 1) * g.pgsPerOneshotpg ≤ 2 ^ 16) ∨
      g.pgsPerOneshotpg ∣ 2 ^ 16) :
    repeatStep (skipPpa g) n (g.pageAt l r) =
      .ok (pageOn g (skipBase g) (skipBlk g l) (r + n)) := by
  rw [pageAt_eq_pageOn_skip hw h hl hr]
  apply repeatStep_eq n
  intro k hk
  apply nextPage_pageOn hw h
  exact skip_nextRow hw h l (hn.imp_left fun hn => hn k hk)

/-- Inside a line a step at the width of the fields is the step of the page walk. -/
theorem skipPpa_eq {d : Device} (hw : d.geo.Wf) (h : d.geo.FitsFields) {l r : ℕ}
    (hl : l < d.geo.blksPerPl) (hr : r + 1 < d.geo.pgsPerLine) :
    skipPpa d.geo (d.geo.pageAt l r) = Compare.skipPpa d (d.geo.pageAt l r) := by
  have hrow : d.geo.rowOf r < d.geo.oneshotpgsPerBlk := Geometry.rowOf_lt hw (by omega)
  have hnext : d.geo.rowOf (r + 1) < d.geo.oneshotpgsPerBlk := Geometry.rowOf_lt hw hr
  rw [Compare.skipPpa_pageAt hw hr, pageAt_eq_pageOn_skip hw.positive h hl hrow,
    pageAt_eq_pageOn_skip hw.positive h hl hnext]
  have hle := row_le_pgsPerBlk hrow
  have hblk := h.pgsPerBlk_lt
  exact nextPage_pageOn hw.positive h (skip_nextRow hw.positive h l (Or.inl (by omega)))

/-! ### Behind the end of the line -/

/-- The rows of the two walks meet in the first line only: of the 65536 values of the page
field `__skip_ppas` uses all, `peek_next_page` those of a block. -/
theorem rows_ne {B T l m a : ℕ} (hB : 0 < B) (hB' : B < 2 ^ 16) (hT : T < B + 2 ^ 20)
    (hend : B ≤ T) (hm : m = (T + (2 ^ 16 - B)) / 2 ^ 16) (ha : a = T / B)
    (hpg : T % 2 ^ 16 = T % B) : (l + m) % 2 ^ 16 ≠ (l + a) % 2 ^ 16 := by
  intro hblk
  have hdiv := Nat.div_add_mod' T B
  have hmod := Nat.mod_lt T hB
  rw [← ha] at hdiv
  have ha1 : 1 ≤ a := by
    rw [ha]
    exact Nat.div_pos hend hB
  -- both counters of blocks, in bytes
  have hmul : a * B = 2 ^ 16 * m := by omega
  have hlt : m < a := by
    by_contra hle
    have : a * B < 2 ^ 16 * m :=
      calc a * B < a * 2 ^ 16 := Nat.mul_lt_mul_of_pos_left hB' ha1
        _ ≤ m * 2 ^ 16 := Nat.mul_le_mul_right _ (by omega)
        _ = 2 ^ 16 * m := Nat.mul_comm _ _
    omega
  obtain ⟨j, hj⟩ : ∃ j, a = m + 2 ^ 16 * j := ⟨(a - m) / 2 ^ 16, by omega⟩
  have hj1 : 1 ≤ j := by omega
  have hmB : m * B + 2 ^ 16 * (j * B) = 2 ^ 16 * m := by
    rw [← hmul, hj]
    ring
  have hBj : B ≤ j * B := Nat.le_mul_of_pos_left B hj1
  -- few blocks fit a walk, so the block is small, and `m * B` is no multiple of the width
  have hm18 : m ≤ 19 := by omega
  have hB19 : B ≤ 19 := by omega
  have hsmall : m * B ≤ 19 * 19 := Nat.mul_le_mul hm18 hB19
  have hpos : 0 < m * B := Nat.mul_pos (by omega) hB
  omega

/-- The rows a walk of `n` pages can reach. -/
theorem rowOf_add_le (hw : g.Positive) {r n : ℕ} (hr : g.rowOf r < g.oneshotpgsPerBlk) :
    g.rowOf (r + n) * g.pgsPerOneshotpg ≤ g.pgsPerBlk + n := by
  rw [Geometry.rowOf_lt_iff hw, Geometry.pgsPerLine_eq] at hr
  have hpos : 0 < g.pgsPerOneshotpg * (g.nchs * g.lunsPerCh) :=
    Nat.mul_pos hw.pgs_pos (Nat.mul_pos hw.nchs_pos hw.luns_pos)
  have hrow : g.rowOf (r + n) ≤
      g.oneshotpgsPerBlk + n / (g.pgsPerOneshotpg * (g.nchs * g.lunsPerCh)) := by
    rw [Geometry.rowOf, Nat.div_div_eq_div_mul, Nat.div_div_eq_div_mul, ← Nat.mul_add_div hpos]
    apply Nat.div_le_div_right
    have heq : g.oneshotpgsPerBlk * g.lunsPerCh * g.nchs * g.pgsPerOneshotpg =
        g.pgsPerOneshotpg * (g.nchs * g.lunsPerCh) * g.oneshotpgsPerBlk := by ring
    omega
  calc g.rowOf (r + n) * g.pgsPerOneshotpg
      ≤ (g.oneshotpgsPerBlk + n / (g.pgsPerOneshotpg * (g.nchs * g.lunsPerCh)))
          * g.pgsPerOneshotpg := Nat.mul_le_mul_right _ hrow
    _ = g.pgsPerBlk + n / g.pgsPerOneshotpg / (g.nchs * g.lunsPerCh) * g.pgsPerOneshotpg := by
        rw [Nat.add_mul, pgsPerBlk_eq_mul, Nat.div_div_eq_div_mul]
    _ ≤ g.pgsPerBlk + n / g.pgsPerOneshotpg * g.pgsPerOneshotpg := by
        apply Nat.add_le_add_left
        exact Nat.mul_le_mul_right _ (Nat.div_le_self _ _)
    _ ≤ g.pgsPerBlk + n := Nat.add_le_add_left (Nat.div_mul_le_self _ _) _

/-- The rows of a walk keep to multiples of a one-shot page: the width of the page field is one,
or the walk is too short for the field to overflow. -/
def Aligned (g : Geometry) (readOffset : ℕ) : Prop :=
  g.pgsPerOneshotpg ∣ 2 ^ 16 ∨
    g.pgsPerBlk + readOffset / pageSize + g.pgsPerOneshotpg ≤ 2 ^ 16

/-- The walk of `__skip_ppas` ends where that of `peek_next_page` does if it ends in its line;
and only then if its rows keep to multiples of a one-shot page. -/
theorem skipPpas_agrees_iff (g : Geometry) (hw : g.Positive) (h : g.FitsFields) (p : Ppa)
    (hp : g.Valid p) (readOffset : ℕ) (hoff : readOffset < 2 ^ 32) :
    (g.lineRank p + readOffset / pageSize < g.pgsPerLine → Agrees g p readOffset) ∧
      (Aligned g readOffset →
        (Agrees g p readOffset ↔ g.lineRank p + readOffset / pageSize < g.pgsPerLine)) := by
  have hrank := Geometry.lineRank_lt hw hp
  have hrow := (Geometry.rowOf_lt_iff hw).mpr hrank
  have hpeek := repeat_peekNextPage hw h hp.blk hrow (readOffset / pageSize)
  have hskip := @repeat_skipPpa g hw h p.blk _ (readOffset / pageSize) hp.blk hrow
  rw [(Geometry.pageAt_lineRank hw hp).1] at hpeek hskip
  -- inside the line both walks go through the pages in the order of their ranks
  have hif : g.lineRank p + readOffset / pageSize < g.pgsPerLine → Agrees g p readOffset := by
    intro hn
    refine ⟨_, hskip (Or.inl fun k hk => ?_), ?_⟩
    · have hle := row_le_pgsPerBlk ((Geometry.rowOf_lt_iff hw).mpr
        (show g.lineRank p + k < g.pgsPerLine by omega))
      have hblk := h.pgsPerBlk_lt
      omega
    · rw [hpeek, ← pageAt_eq_pageOn_peek h hp.blk ((Geometry.rowOf_lt_iff hw).mpr hn),
        pageAt_eq_pageOn_skip hw h hp.blk ((Geometry.rowOf_lt_iff hw).mpr hn)]
  refine ⟨hif, fun haligned => ⟨?_, hif⟩⟩
  rintro ⟨q, hq, hq'⟩
  -- the rows of the skipping walk stay multiples of a one-shot page
  have hwalk : (∀ k < readOffset / pageSize,
      (g.rowOf (g.lineRank p + k) + 1) * g.pgsPerOneshotpg ≤ 2 ^ 16) ∨
      g.pgsPerOneshotpg ∣ 2 ^ 16 := by
    rcases haligned with hdvd | hshort
    · exact Or.inr hdvd
    · left
      intro k hk
      have := rowOf_add_le (n := k) hw hrow
      rw [Nat.add_mul]
      omega
  rw [skipPpas, hskip hwalk, Except.ok.injEq] at hq
  rw [hpeek, Except.ok.injEq, ← hq] at hq'
  -- the two ends have one block and one page number
  have hblk := congrArg Ppa.blk hq'
  have hpg := congrArg Ppa.pg hq'
  simp only [pageOn, peekBase, peekBlk, skipBase, skipBlk, Nat.add_right_cancel_iff]
    at hblk hpg
  rw [← Geometry.rowOf_lt_iff hw]
  by_contra hge
  generalize ht : g.rowOf (g.lineRank p + readOffset / pageSize) = t at hblk hpg hge
  have hreach := rowOf_add_le (n := readOffset / pageSize) hw hrow
  have hsteps : readOffset / pageSize < 2 ^ 20 := by
    rw [pageSize]
    omega
  have hmul := pgsPerBlk_eq_mul g
  have hrowMod : t * g.pgsPerOneshotpg % g.pgsPerBlk =
      t % g.oneshotpgsPerBlk * g.pgsPerOneshotpg := by
    rw [hmul, Nat.mul_mod_mul_right]
  have hrowDiv : t * g.pgsPerOneshotpg / g.pgsPerBlk = t / g.oneshotpgsPerBlk := by
    rw [hmul, Nat.mul_div_mul_right _ _ hw.pgs_pos]
  -- past the line the page number of the skipping walk was not reset
  have hend : g.pgsPerBlk ≤ t * g.pgsPerOneshotpg := by
    rw [hmul]
    exact Nat.mul_le_mul_right _ (by omega)
  rw [ht] at hreach
  have hpos : 0 < g.pgsPerBlk := Nat.mul_pos hw.pgs_pos hw.oneshots_pos
  apply rows_ne (l := p.blk) hpos h.pgsPerBlk_lt (by omega) hend rfl rfl
  · rw [hrowMod, hpg]
  · rw [hrowDiv, hblk]

/-- One channel with one LUN, and two blocks of four one-shot pages of a page. -/
def smallGeometry : Geometry where
  nchs := 1
  lunsPerCh := 1
  blksPerPl := 2
  oneshotpgsPerBlk := 4
  pgsPerOneshotpg := 1

theorem smallGeometry_positive : smallGeometry.Positive := by
  constructor <;> decide

theorem smallGeometry_fitsFields : smallGeometry.FitsFields where
  nchs_lt := by decide
  luns_lt := by decide
  blks_lt := by decide
  oneshots_lt := by decide
  pgs_lt := by decide
  pgsPerBlk_lt := by decide

theorem skipPpas_agrees_iff_small :
    (Agrees smallGeometry ⟨0, 0, 0, 1⟩ 8192 ↔
      smallGeometry.lineRank ⟨0, 0, 0, 1⟩ + 8192 / pageSize < smallGeometry.pgsPerLine) :=
  (skipPpas_agrees_iff smallGeometry smallGeometry_positive smallGeometry_fitsFields ⟨0, 0, 0, 1⟩
    ⟨by decide, by decide, by decide, by decide⟩ 8192 (by decide)).2 (Or.inl (by decide))

/-- From the last page of a block `__skip_ppas` goes to a page the next block does not have. -/
theorem skipPpas_not_agrees :
    ¬ ∀ (g : Geometry) (p : Ppa) (readOffset : ℕ), g.Positive → g.FitsFields → g.Valid p →
      readOffset < 2 ^ 32 → Agrees g p readOffset := by
  intro h
  obtain ⟨q, hq, hq'⟩ := h smallGeometry ⟨0, 0, 0, 3⟩ 4096 smallGeometry_positive
    smallGeometry_fitsFields ⟨by decide, by decide, by decide, by decide⟩ (by decide)
  have hskip : skipPpas smallGeometry ⟨0, 0, 0, 3⟩ 4096 = .ok ⟨0, 0, 1, 4⟩ := by decide
  have hpeek : repeatStep (peekNextPage smallGeometry) (4096 / pageSize) ⟨0, 0, 0, 3⟩ =
      .ok ⟨0, 0, 1, 0⟩ := by decide
  rw [hskip, Except.ok.injEq] at hq
  rw [hpeek, Except.ok.injEq, ← hq] at hq'
  exact absurd hq' (by decide)

end Virtkv.Word
