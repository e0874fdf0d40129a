import Mathlib.Tactic.NormNum
import Virtkv.Flash.Order

/-!
# The widths of page addresses

`struct ppa` has 8-bit fields for channel and LUN and 16-bit fields for block and page, a
page number is a 32-bit number, and `ssd_init_params` multiplies `int`s before it stores
`unsigned long`s. Here are the functions on page addresses at these widths. For a geometry
that `Fits` them they are the functions on numbers without a bound.
-/

namespace Virtkv

open Outcome

/-- The value that the fields of `struct ppa` keep. -/
def Ppa.narrow (p : Ppa) : Ppa where
  ch := p.ch % 2 ^ 8
  lun := p.lun % 2 ^ 8
  blk := p.blk % 2 ^ 16
  pg := p.pg % 2 ^ 16

namespace Word

/-- The `int` and the `unsigned long` that a number is stored in. -/
def int (x : ℤ) : ℤ := x.bmod (2 ^ 32)
def ulong (x : ℤ) : ℕ := (x % 2 ^ 64).toNat

/-- `struct ssdparams`, the counts of pages. -/
structure SsdParams where
  pgsPerBlk : ℤ
  pgsPerLun : ℕ
  pgsPerCh : ℕ
  ttPgs : ℕ

/-- `ssd_init_params`; a LUN has one plane. -/
def ssdInitParams (g : Geometry) : SsdParams :=
  let pgsPerBlk := int (g.pgsPerOneshotpg * g.oneshotpgsPerBlk)
  let pgsPerPl := ulong (int (pgsPerBlk * g.blksPerPl))
  let pgsPerLun := pgsPerPl
  let pgsPerCh := ulong (pgsPerLun * g.lunsPerCh)
  { pgsPerBlk := pgsPerBlk
    pgsPerLun := pgsPerLun
    pgsPerCh := pgsPerCh
    ttPgs := ulong (pgsPerCh * g.nchs) }

variable (g : Geometry)

/-- `ppa2pgidx`; a `ppa_t` has 32 bits. -/
def ppa2pgidx (p : Ppa) : Except Fault ℕ := do
  let spp := ssdInitParams g
  let pgidx := ulong (p.ch * spp.pgsPerCh + p.lun * spp.pgsPerLun + int (p.blk * spp.pgsPerBlk)
    + p.pg) % 2 ^ 32
  ensure (pgidx < spp.ttPgs) .bug
  return pgidx

/-- `ppa_to_struct`. -/
def ppaToStruct (ppa : ℕ) : Except Fault Ppa := do
  let spp := ssdInitParams g
  let p : Ppa :=
    { ch := ppa / spp.pgsPerCh % spp.pgsPerCh
      lun := ppa % spp.pgsPerCh / spp.pgsPerLun
      blk := ppa % spp.pgsPerLun / ulong spp.pgsPerBlk
      pg := ppa % ulong spp.pgsPerBlk }
  ensure (ppa < spp.ttPgs) .bug
  return p.narrow

/-- The page behind a page in the order of writing. `wrap` is what becomes of the address
behind the last page of a block; there the page field has been counted up to the end. -/
def nextPage (wrap : Ppa → Ppa) (p : Ppa) : Except Fault Ppa := do
  let p := { p with pg := (p.pg + 1) % 2 ^ 16 }
  if p.pg % g.pgsPerOneshotpg ≠ 0 then return p
  let p := { p with pg := (p.pg + (2 ^ 16 - g.pgsPerOneshotpg % 2 ^ 16)) % 2 ^ 16 }
  ensure (p.ch < g.nchs) .bug
  let p := { p with ch := (p.ch + 1) % 2 ^ 8 }
  if p.ch ≠ g.nchs then return p
  let p := { p with ch := 0 }
  ensure (p.lun < g.lunsPerCh) .bug
  let p := { p with lun := (p.lun + 1) % 2 ^ 8 }
  if p.lun ≠ g.lunsPerCh then return p
  let p := { p with lun := 0, pg := (p.pg + g.pgsPerOneshotpg) % 2 ^ 16 }
  if (p.pg : ℤ) ≠ (ssdInitParams g).pgsPerBlk then return p
  return wrap p

/-- `peek_next_page`. -/
def peekNextPage (p : Ppa) : Except Fault Ppa :=
  nextPage g (fun p => { p with pg := 0, blk := (p.blk + 1) % 2 ^ 16 }) p

/-- One round of the loop of `__skip_ppas`: the page field is left at the end. -/
def skipPpa (p : Ppa) : Except Fault Ppa :=
  nextPage g (fun p => { p with blk := (p.blk + 1) % 2 ^ 16 }) p

end Word

namespace Geometry

/-- The counts of the geometry have values that the fields of `struct ppa` can hold. -/
structure Representable (g : Geometry) : Prop where
  nchs_lt : g.nchs < 2 ^ 8
  luns_lt : g.lunsPerCh < 2 ^ 8
  blks_lt : g.blksPerPl < 2 ^ 16
  oneshots_lt : g.oneshotpgsPerBlk < 2 ^ 16
  pgs_lt : g.pgsPerOneshotpg < 2 ^ 16

/-- The pages of a block can be held by the page field as well. -/
structure FitsFields (g : Geometry) : Prop extends g.Representable where
  pgsPerBlk_lt : g.pgsPerBlk < 2 ^ 16

/-- The pages of a plane are an `int`, and every page number is a `ppa_t`. -/
structure Fits (g : Geometry) : Prop extends g.FitsFields where
  pgsPerPl_lt : g.pgsPerBlk * g.blksPerPl < 2 ^ 31
  ttPgs_le : g.ttPgs ≤ 2 ^ 32

/-- No count of the geometry is zero. -/
structure Positive (g : Geometry) : Prop where
  nchs_pos : 0 < g.nchs
  luns_pos : 0 < g.lunsPerCh
  blks_pos : 0 < g.blksPerPl
  oneshots_pos : 0 < g.oneshotpgsPerBlk
  pgs_pos : 0 < g.pgsPerOneshotpg

theorem Wf.positive {g : Geometry} (h : g.Wf) : g.Positive :=
  ⟨h.nchs_pos, h.luns_pos, h.blks_pos, h.oneshots_pos, h.pgs_pos⟩

end Geometry

namespace Word

variable {g : Geometry} {p : Ppa}

theorem int_of_lt {n : ℕ} (h : n < 2 ^ 31) : int n = n := by
  apply Int.bmod_eq_of_le <;> omega

theorem ulong_of_lt {n : ℕ} (h : n < 2 ^ 64) : ulong n = n := by
  rw [ulong, ← Int.toNat_natCast n]
  congr 1
  omega

theorem int_pgsPerBlk (h : g.FitsFields) :
    int (g.pgsPerOneshotpg * g.oneshotpgsPerBlk) = g.pgsPerBlk := by
  rw [← Nat.cast_mul]
  exact int_of_lt (lt_trans h.pgsPerBlk_lt (by decide))

theorem pgsPerBlk_eq (h : g.FitsFields) : (ssdInitParams g).pgsPerBlk = g.pgsPerBlk := by
  simp only [ssdInitParams]
  exact int_pgsPerBlk h

theorem ssdInitParams_eq (h : g.Fits) :
    ssdInitParams g =
      { pgsPerBlk := g.pgsPerBlk, pgsPerLun := g.pgsPerLun, pgsPerCh := g.pgsPerCh
        ttPgs := g.ttPgs } := by
  have hblk := int_pgsPerBlk h.toFitsFields
  have hlun : ulong (int (g.pgsPerBlk * g.blksPerPl)) = g.pgsPerLun := by
    rw [← Nat.cast_mul, int_of_lt h.pgsPerPl_lt]
    exact ulong_of_lt (lt_trans h.pgsPerPl_lt (by decide))
  have hch_lt : g.pgsPerCh < 2 ^ 31 * 2 ^ 8 := Nat.mul_lt_mul'' h.pgsPerPl_lt h.luns_lt
  have hch : ulong (g.pgsPerLun * g.lunsPerCh) = g.pgsPerCh := by
    rw [← Nat.cast_mul]
    exact ulong_of_lt (lt_trans hch_lt (by norm_num))
  have htt : ulong (g.pgsPerCh * g.nchs) = g.ttPgs := by
    rw [← Nat.cast_mul]
    exact ulong_of_lt (lt_of_le_of_lt h.ttPgs_le (by norm_num))
  simp only [ssdInitParams, hblk, hlun, hch, htt]

/-- Nothing of a valid address is lost in the fields. -/
theorem narrow_eq (h : g.FitsFields) (hp : g.Valid p) : p.narrow = p := by
  have hch := lt_trans hp.ch h.nchs_lt
  have hlun := lt_trans hp.lun h.luns_lt
  have hblk := lt_trans hp.blk h.blks_lt
  have hpg := lt_trans hp.pg h.pgsPerBlk_lt
  simp only [Ppa.narrow, Nat.mod_eq_of_lt hch, Nat.mod_eq_of_lt hlun, Nat.mod_eq_of_lt hblk,
    Nat.mod_eq_of_lt hpg]

theorem ppa2pgidx_eq (h : g.Fits) (hp : g.Valid p) : ppa2pgidx g p = g.ppa2pgidx p := by
  have hblk : p.blk * g.pgsPerBlk < 2 ^ 31 :=
    calc p.blk * g.pgsPerBlk ≤ g.blksPerPl * g.pgsPerBlk :=
          Nat.mul_le_mul_right _ (le_of_lt hp.blk)
      _ = g.pgsPerBlk * g.blksPerPl := Nat.mul_comm _ _
      _ < 2 ^ 31 := h.pgsPerPl_lt
  have hlt : p.ch * g.pgsPerCh + p.lun * g.pgsPerLun + p.blk * g.pgsPerBlk + p.pg < 2 ^ 32 :=
    lt_of_lt_of_le hp.pgNo_lt h.ttPgs_le
  have hint : int ((p.blk : ℤ) * g.pgsPerBlk) = (p.blk * g.pgsPerBlk : ℕ) := by
    rw [← Nat.cast_mul]
    exact int_of_lt hblk
  have hidx : ulong ((p.ch : ℤ) * g.pgsPerCh + p.lun * g.pgsPerLun
      + (p.blk * g.pgsPerBlk : ℕ) + p.pg) % 2 ^ 32 =
      p.ch * g.pgsPerCh + p.lun * g.pgsPerLun + p.blk * g.pgsPerBlk + p.pg := by
    rw [← Nat.cast_mul, ← Nat.cast_mul, ← Nat.cast_add, ← Nat.cast_add, ← Nat.cast_add,
      ulong_of_lt (lt_trans hlt (by decide)), Nat.mod_eq_of_lt hlt]
  simp only [ppa2pgidx, ssdInitParams_eq h, hint, hidx, Geometry.ppa2pgidx]

/-- The fields `ppa_to_struct` computes are those of a page. -/
theorem valid_of_lt (hw : g.Wf) {pgidx : ℕ} (hlt : pgidx < g.ttPgs) :
    g.Valid
      { ch := pgidx / g.pgsPerCh % g.pgsPerCh, lun := pgidx % g.pgsPerCh / g.pgsPerLun
        blk := pgidx % g.pgsPerLun / g.pgsPerBlk, pg := pgidx % g.pgsPerBlk } where
  ch := lt_of_le_of_lt (Nat.mod_le _ _) (Nat.div_lt_of_lt_mul hlt)
  lun := Nat.div_lt_of_lt_mul (Nat.mod_lt _ hw.pgsPerCh_pos)
  blk := hw.lineOf_lt pgidx
  pg := Nat.mod_lt _ hw.pgsPerBlk_pos

theorem ppaToStruct_eq (hw : g.Wf) (h : g.Fits) (pgidx : ℕ) :
    ppaToStruct g pgidx = g.ppaToStruct pgidx := by
  by_cases hlt : pgidx < g.ttPgs
  · have hblk := ulong_of_lt (lt_trans h.pgsPerBlk_lt (show 2 ^ 16 < 2 ^ 64 by decide))
    simp only [ppaToStruct, ssdInitParams_eq h, hblk,
      narrow_eq h.toFitsFields (valid_of_lt hw hlt), Geometry.ppaToStruct]
  · simp only [ppaToStruct, ssdInitParams_eq h, Geometry.ppaToStruct, ensure, if_neg hlt,
      error_bind]

/-! ### Rows of one-shot pages -/

/-- The address number `n` of a walk. The channel, the LUN and the page in the one-shot page
count up; `base` and `blk` say where the rows of one-shot pages lie. -/
def pageOn (g : Geometry) (base blk : ℕ → ℕ) (n : ℕ) : Ppa where
  ch := n / g.pgsPerOneshotpg % g.nchs
  lun := n / g.pgsPerOneshotpg / g.nchs % g.lunsPerCh
  blk := blk (g.rowOf n)
  pg := base (g.rowOf n) + n % g.pgsPerOneshotpg

/-- What happens to the address behind row `t`. -/
structure NextRow (g : Geometry) (wrap : Ppa → Ppa) (base blk : ℕ → ℕ) (t : ℕ) : Prop where
  aligned : base t % g.pgsPerOneshotpg = 0
  base_le : base t + g.pgsPerOneshotpg ≤ 2 ^ 16
  next : (base t + g.pgsPerOneshotpg) % 2 ^ 16 ≠ g.pgsPerBlk →
    base (t + 1) = (base t + g.pgsPerOneshotpg) % 2 ^ 16 ∧ blk (t + 1) = blk t
  wrap : (base t + g.pgsPerOneshotpg) % 2 ^ 16 = g.pgsPerBlk →
    wrap { ch := 0, lun := 0, blk := blk t, pg := g.pgsPerBlk } =
      { ch := 0, lun := 0, blk := blk (t + 1), pg := base (t + 1) }

/-! The four ways a step can go. -/

section Step

variable {wrap : Ppa → Ppa}

theorem nextPage_of_page (hpg : (p.pg + 1) % 2 ^ 16 % g.pgsPerOneshotpg ≠ 0) :
    nextPage g wrap p = .ok { p with pg := (p.pg + 1) % 2 ^ 16 } := by
  simp only [nextPage]
  rw [if_pos hpg]
  rfl

variable {first : ℕ} (hpg : (p.pg + 1) % 2 ^ 16 % g.pgsPerOneshotpg = 0)
  (hfirst : ((p.pg + 1) % 2 ^ 16 + (2 ^ 16 - g.pgsPerOneshotpg % 2 ^ 16)) % 2 ^ 16 = first)
  (hch : p.ch < g.nchs)

include hpg hfirst hch

theorem nextPage_of_ch (hne : (p.ch + 1) % 2 ^ 8 ≠ g.nchs) :
    nextPage g wrap p = .ok { p with pg := first, ch := (p.ch + 1) % 2 ^ 8 } := by
  simp only [nextPage]
  rw [if_neg (not_not.mpr hpg), ensure_of hch, ok_bind, if_pos hne, hfirst]
  rfl

variable (hlastCh : (p.ch + 1) % 2 ^ 8 = g.nchs) (hlun : p.lun < g.lunsPerCh)

include hlastCh hlun

theorem nextPage_of_lun (hne : (p.lun + 1) % 2 ^ 8 ≠ g.lunsPerCh) :
    nextPage g wrap p = .ok { p with pg := first, ch := 0, lun := (p.lun + 1) % 2 ^ 8 } := by
  simp only [nextPage]
  rw [if_neg (not_not.mpr hpg), ensure_of hch, ok_bind, if_neg (not_not.mpr hlastCh),
    ensure_of hlun, ok_bind, if_pos hne, hfirst]
  rfl

variable (hlastLun : (p.lun + 1) % 2 ^ 8 = g.lunsPerCh)

include hlastLun

theorem nextPage_of_row (hne : ((first + g.pgsPerOneshotpg) % 2 ^ 16 : ℕ) ≠
      (ssdInitParams g).pgsPerBlk) :
    nextPage g wrap p =
      .ok { p with pg := (first + g.pgsPerOneshotpg) % 2 ^ 16, ch := 0, lun := 0 } := by
  subst hfirst
  simp only [nextPage]
  rw [if_neg (not_not.mpr hpg), ensure_of hch, ok_bind, if_neg (not_not.mpr hlastCh),
    ensure_of hlun, ok_bind, if_neg (not_not.mpr hlastLun), if_pos hne]
  rfl

theorem nextPage_of_end (heq : ((first + g.pgsPerOneshotpg) % 2 ^ 16 : ℕ) =
      (ssdInitParams g).pgsPerBlk) :
    nextPage g wrap p =
      .ok (wrap { p with pg := (first + g.pgsPerOneshotpg) % 2 ^ 16, ch := 0, lun := 0 }) := by
  subst hfirst
  simp only [nextPage]
  rw [if_neg (not_not.mpr hpg), ensure_of hch, ok_bind, if_neg (not_not.mpr hlastCh),
    ensure_of hlun, ok_bind, if_neg (not_not.mpr hlastLun), if_neg (not_not.mpr heq)]
  rfl

end Step

/-- One step of a walk. -/
theorem nextPage_pageOn (hw : g.Positive) (h : g.FitsFields) {wrap : Ppa → Ppa}
    {base blk : ℕ → ℕ} {n : ℕ} (hrow : NextRow g wrap base blk (g.rowOf n)) :
    nextPage g wrap (pageOn g base blk n) = .ok (pageOn g base blk (n + 1)) := by
  obtain ⟨haligned, hle, hnext, hwrap⟩ := hrow
  have hmod := Nat.mod_lt n hw.pgs_pos
  have hch : (pageOn g base blk n).ch < g.nchs := Nat.mod_lt _ hw.nchs_pos
  have hlun : (pageOn g base blk n).lun < g.lunsPerCh := Nat.mod_lt _ hw.luns_pos
  have hnchs := h.nchs_lt
  have hluns := h.luns_lt
  have hq := h.pgs_lt
  have hpgdef : (pageOn g base blk n).pg = base (g.rowOf n) + n % g.pgsPerOneshotpg := rfl
  by_cases hpage : n % g.pgsPerOneshotpg + 1 = g.pgsPerOneshotpg
  swap
  · -- the next page of the same one-shot page
    obtain ⟨hm, hd⟩ := Geometry.succ_digits hw.pgs_pos hpage
    have hpg : ((pageOn g base blk n).pg + 1) % 2 ^ 16 =
        base (g.rowOf n) + (n + 1) % g.pgsPerOneshotpg := by
      rw [hpgdef, Nat.mod_eq_of_lt (by omega), hm, Nat.add_assoc]
    have hne : ((pageOn g base blk n).pg + 1) % 2 ^ 16 % g.pgsPerOneshotpg ≠ 0 := by
      rw [hpg, Nat.add_mod, haligned, Nat.zero_add, Nat.mod_mod, Nat.mod_mod, hm]
      omega
    rw [nextPage_of_page hne, hpg]
    simp only [pageOn, Geometry.rowOf, hd]
  obtain ⟨hm, hd⟩ := Geometry.carry_digits hw.pgs_pos hpage
  have hend : ((pageOn g base blk n).pg + 1) % 2 ^ 16 % g.pgsPerOneshotpg = 0 := by
    rw [hpgdef, Nat.add_assoc, hpage]
    by_cases hfull : base (g.rowOf n) + g.pgsPerOneshotpg = 2 ^ 16
    · rw [hfull, Nat.mod_self, Nat.zero_mod]
    · have hlt : base (g.rowOf n) + g.pgsPerOneshotpg < 2 ^ 16 := by omega
      rw [Nat.mod_eq_of_lt hlt, Nat.add_mod_right, haligned]
  have hfirst : (((pageOn g base blk n).pg + 1) % 2 ^ 16 +
      (2 ^ 16 - g.pgsPerOneshotpg % 2 ^ 16)) % 2 ^ 16 = base (g.rowOf n) := by
    rw [hpgdef, Nat.add_assoc, hpage, Nat.mod_eq_of_lt hq]
    omega
  by_cases hch' : (pageOn g base blk n).ch + 1 = g.nchs
  swap
  · -- the next channel
    obtain ⟨hm', hd'⟩ := Geometry.succ_digits hw.nchs_pos hch'
    have hmod' : ((pageOn g base blk n).ch + 1) % 2 ^ 8 = (pageOn g base blk n).ch + 1 :=
      Nat.mod_eq_of_lt (by omega)
    rw [nextPage_of_ch hend hfirst hch (by omega), hmod']
    simp only [pageOn, Geometry.rowOf, hm, hd, hm', hd', Nat.add_zero]
  obtain ⟨hm', hd'⟩ := Geometry.carry_digits hw.nchs_pos hch'
  have hlastCh : ((pageOn g base blk n).ch + 1) % 2 ^ 8 = g.nchs := by
    rw [hch', Nat.mod_eq_of_lt hnchs]
  by_cases hlun' : (pageOn g base blk n).lun + 1 = g.lunsPerCh
  swap
  · -- the next LUN
    obtain ⟨hm'', hd''⟩ := Geometry.succ_digits hw.luns_pos hlun'
    have hmod' : ((pageOn g base blk n).lun + 1) % 2 ^ 8 = (pageOn g base blk n).lun + 1 :=
      Nat.mod_eq_of_lt (by omega)
    rw [nextPage_of_lun hend hfirst hch hlastCh hlun (by omega), hmod']
    simp only [pageOn, Geometry.rowOf, hm, hd, hm', hd', hm'', hd'', Nat.add_zero]
  -- the next row
  obtain ⟨hm'', hd''⟩ := Geometry.carry_digits hw.luns_pos hlun'
  have hlastLun : ((pageOn g base blk n).lun + 1) % 2 ^ 8 = g.lunsPerCh := by
    rw [hlun', Nat.mod_eq_of_lt hluns]
  have hrow : g.rowOf (n + 1) = g.rowOf n + 1 := by
    rw [Geometry.rowOf, hd, hd', hd'', Geometry.rowOf]
  have hnew : pageOn g base blk (n + 1) =
      { ch := 0, lun := 0, blk := blk (g.rowOf n + 1), pg := base (g.rowOf n + 1) } := by
    simp only [pageOn, hrow, hm, hd, hm', hd', hm'', Nat.add_zero]
  by_cases hblk : (base (g.rowOf n) + g.pgsPerOneshotpg) % 2 ^ 16 = g.pgsPerBlk
  · have hblk' : (((base (g.rowOf n) + g.pgsPerOneshotpg) % 2 ^ 16 : ℕ) : ℤ) =
        (ssdInitParams g).pgsPerBlk := by
      rw [pgsPerBlk_eq h, hblk]
    rw [nextPage_of_end hend hfirst hch hlastCh hlun hlastLun hblk', hnew, ← hwrap hblk, hblk]
    rfl
  · have hblk' : (((base (g.rowOf n) + g.pgsPerOneshotpg) % 2 ^ 16 : ℕ) : ℤ) ≠
        (ssdInitParams g).pgsPerBlk := by
      rw [pgsPerBlk_eq h]
      exact fun heq => hblk (Nat.cast_injective heq)
    obtain ⟨hbase, hsame⟩ := hnext hblk
    rw [nextPage_of_row hend hfirst hch hlastCh hlun hlastLun hblk', hnew, hbase, hsame]
    rfl

/-! ### Walks -/

/-- `count` steps. -/
def repeatStep (step : Ppa → Except Fault Ppa) : ℕ → Ppa → Except Fault Ppa
  | 0, p => .ok p
  | count + 1, p => do
    let p ← step p
    repeatStep step count p

/-- A walk whose steps are known. -/
theorem repeatStep_eq {step : Ppa → Except Fault Ppa} {f : ℕ → Ppa} {r : ℕ} (n : ℕ)
    (hstep : ∀ k < n, step (f (r + k)) = .ok (f (r + k + 1))) :
    repeatStep step n (f r) = .ok (f (r + n)) := by
  induction n generalizing r with
  | zero => rfl
  | succ n ih =>
    have hfirst := hstep 0 (Nat.succ_pos n)
    rw [Nat.add_zero] at hfirst
    rw [repeatStep, hfirst, ok_bind, ih]
    · rw [Nat.add_assoc, Nat.add_comm 1]
    · intro k hk
      have hnext := hstep (k + 1) (by omega)
      rwa [← Nat.add_assoc, Nat.add_right_comm r] at hnext

/-- The rows of `peek_next_page`, from line `l` on: line after line. -/
def peekBase (g : Geometry) (t : ℕ) : ℕ := t % g.oneshotpgsPerBlk * g.pgsPerOneshotpg
def peekBlk (g : Geometry) (l t : ℕ) : ℕ := (l + t / g.oneshotpgsPerBlk) % 2 ^ 16

theorem pgsPerBlk_eq_mul (g : Geometry) : g.pgsPerBlk = g.oneshotpgsPerBlk * g.pgsPerOneshotpg :=
  Nat.mul_comm _ _

theorem peek_nextRow (hw : g.Positive) (h : g.FitsFields) (l t : ℕ) :
    NextRow g (fun p => { p with pg := 0, blk := (p.blk + 1) % 2 ^ 16 }) (peekBase g)
      (peekBlk g l) t := by
  have hlt := Nat.mod_lt t hw.oneshots_pos
  have hblk := h.pgsPerBlk_lt
  have hbase : peekBase g t + g.pgsPerOneshotpg =
      (t % g.oneshotpgsPerBlk + 1) * g.pgsPerOneshotpg := by
    rw [peekBase, Nat.add_mul, Nat.one_mul]
  have hle : peekBase g t + g.pgsPerOneshotpg ≤ g.pgsPerBlk := by
    rw [hbase, pgsPerBlk_eq_mul]
    exact Nat.mul_le_mul_right _ hlt
  have hmod : (peekBase g t + g.pgsPerOneshotpg) % 2 ^ 16 = peekBase g t + g.pgsPerOneshotpg :=
    Nat.mod_eq_of_lt (by omega)
  refine ⟨Nat.mul_mod_left _ _, by omega, ?_, ?_⟩
  · -- the next row is in the same block
    intro hne
    have hrow : t % g.oneshotpgsPerBlk + 1 ≠ g.oneshotpgsPerBlk := by
      intro hrow
      rw [hmod, hbase, hrow, pgsPerBlk_eq_mul] at hne
      exact hne rfl
    obtain ⟨hm, hd⟩ := Geometry.succ_digits hw.oneshots_pos hrow
    rw [hmod, hbase]
    simp only [peekBase, peekBlk, hm, hd, and_self]
  · -- it is the first row of the next block
    intro heq
    have hrow : t % g.oneshotpgsPerBlk + 1 = g.oneshotpgsPerBlk := by
      rw [hmod, hbase, pgsPerBlk_eq_mul] at heq
      exact Nat.eq_of_mul_eq_mul_right hw.pgs_pos heq
    obtain ⟨hm, hd⟩ := Geometry.carry_digits hw.oneshots_pos hrow
    simp only [peekBase, peekBlk, hm, hd, Nat.zero_mul, Nat.mod_add_mod, Nat.add_assoc]

theorem pageAt_eq_pageOn_peek (h : g.FitsFields) {l r : ℕ}
    (hl : l < g.blksPerPl) (hr : g.rowOf r < g.oneshotpgsPerBlk) :
    g.pageAt l r = pageOn g (peekBase g) (peekBlk g l) r := by
  have hl' := lt_trans hl h.blks_lt
  simp only [Geometry.pageAt, pageOn, peekBase, peekBlk, Nat.mod_eq_of_lt hr,
    Nat.div_eq_of_lt hr, Nat.add_zero, Nat.mod_eq_of_lt hl']
  rfl

/-- `peek_next_page` any number of times. -/
theorem repeat_peekNextPage (hw : g.Positive) (h : g.FitsFields) {l r : ℕ} (hl : l < g.blksPerPl)
    (hr : g.rowOf r < g.oneshotpgsPerBlk) (n : ℕ) :
    repeatStep (peekNextPage g) n (g.pageAt l r) =
      .ok (pageOn g (peekBase g) (peekBlk g l) (r + n)) := by
  rw [pageAt_eq_pageOn_peek h hl hr]
  apply repeatStep_eq n
  intro k _
  exact nextPage_pageOn hw h (peek_nextRow hw h l _)

end Word

namespace Geometry

variable {g : Geometry}

/-! ### The rank of a page in its line -/

/-- The pages of its line that are written before a page. -/
def lineRank (g : Geometry) (p : Ppa) : ℕ :=
  ((p.pg / g.pgsPerOneshotpg * g.lunsPerCh + p.lun) * g.nchs + p.ch) * g.pgsPerOneshotpg
    + p.pg % g.pgsPerOneshotpg

theorem rowOf_lt_iff (hw : g.Positive) {r : ℕ} :
    g.rowOf r < g.oneshotpgsPerBlk ↔ r < g.pgsPerLine := by
  rw [rowOf, Nat.div_lt_iff_lt_mul hw.luns_pos, Nat.div_lt_iff_lt_mul hw.nchs_pos,
    Nat.div_lt_iff_lt_mul hw.pgs_pos, pgsPerLine_eq]

/-- A number with the digits `a` and `b`. -/
theorem digits_div_mod {a b n : ℕ} (hb : b < n) : (a * n + b) / n = a ∧ (a * n + b) % n = b := by
  constructor
  · rw [Nat.add_comm, Nat.add_mul_div_right _ _ (by omega), Nat.div_eq_of_lt hb, Nat.zero_add]
  · rw [Nat.mul_add_mod_self_right, Nat.mod_eq_of_lt hb]

theorem pageAt_lineRank (hw : g.Positive) {p : Ppa} (hp : g.Valid p) :
    g.pageAt p.blk (g.lineRank p) = p ∧ g.rowOf (g.lineRank p) = p.pg / g.pgsPerOneshotpg := by
  obtain ⟨hd, hm⟩ := digits_div_mod
    (a := (p.pg / g.pgsPerOneshotpg * g.lunsPerCh + p.lun) * g.nchs + p.ch)
    (Nat.mod_lt p.pg hw.pgs_pos)
  obtain ⟨hd', hm'⟩ := digits_div_mod (a := p.pg / g.pgsPerOneshotpg * g.lunsPerCh + p.lun) hp.ch
  obtain ⟨hd'', hm''⟩ := digits_div_mod (a := p.pg / g.pgsPerOneshotpg) hp.lun
  have hpg := Nat.div_add_mod' p.pg g.pgsPerOneshotpg
  constructor
  · simp only [pageAt, lineRank, hd, hm, hd', hm', hd'', hm'', hpg]
  · simp only [rowOf, lineRank, hd, hd', hd'']

theorem lineRank_lt (hw : g.Positive) {p : Ppa} (hp : g.Valid p) :
    g.lineRank p < g.pgsPerLine := by
  have hpg := hp.pg
  rw [← rowOf_lt_iff hw, (pageAt_lineRank hw hp).2, Nat.div_lt_iff_lt_mul hw.pgs_pos,
    ← Word.pgsPerBlk_eq_mul]
  exact hpg

end Geometry

end Virtkv
