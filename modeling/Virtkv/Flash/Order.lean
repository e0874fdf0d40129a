import Virtkv.Flash.Defs
import Mathlib.Data.Finset.Prod
import Mathlib.Data.Finset.Card
import Mathlib.Tactic.Ring

/-!
# The order in which the pages of a line are written

`peek_next_page` and `advance_write_pointer` step through a line page by page: the pages
of a one-shot page first, then the channels, then the LUNs, then the next row of one-shot
pages. `pageAt l r` is the page with number `r` in this order; page numbers and page
addresses determine each other.
-/

namespace Virtkv

open Outcome

namespace Geometry

/-- No count of the geometry is zero, and a channel has at least as many pages as there
are channels. -/
structure Wf (g : Geometry) : Prop where
  nchs_pos : 0 < g.nchs
  luns_pos : 0 < g.lunsPerCh
  blks_pos : 0 < g.blksPerPl
  oneshots_pos : 0 < g.oneshotpgsPerBlk
  pgs_pos : 0 < g.pgsPerOneshotpg
  nchs_le : g.nchs ≤ g.pgsPerCh

/-- The page address has the fields of a page. -/
structure Valid (g : Geometry) (p : Ppa) : Prop where
  ch : p.ch < g.nchs
  lun : p.lun < g.lunsPerCh
  blk : p.blk < g.blksPerPl
  pg : p.pg < g.pgsPerBlk

theorem valid_iff {g : Geometry} {p : Ppa} : g.Valid p ↔
    p.ch < g.nchs ∧ p.lun < g.lunsPerCh ∧ p.blk < g.blksPerPl ∧ p.pg < g.pgsPerBlk :=
  ⟨fun h => ⟨h.ch, h.lun, h.blk, h.pg⟩, fun ⟨hch, hlun, hblk, hpg⟩ => ⟨hch, hlun, hblk, hpg⟩⟩

instance (g : Geometry) (p : Ppa) : Decidable (g.Valid p) := decidable_of_iff' _ valid_iff

/-- The number of a page, as `ppa2pgidx` computes it. -/
def pgNo (g : Geometry) (p : Ppa) : ℕ :=
  p.ch * g.pgsPerCh + p.lun * g.pgsPerLun + p.blk * g.pgsPerBlk + p.pg

/-- The page of line `l` that is written as number `r`. -/
def pageAt (g : Geometry) (l r : ℕ) : Ppa where
  ch := r / g.pgsPerOneshotpg % g.nchs
  lun := r / g.pgsPerOneshotpg / g.nchs % g.lunsPerCh
  blk := l
  pg := r / g.pgsPerOneshotpg / g.nchs / g.lunsPerCh * g.pgsPerOneshotpg + r % g.pgsPerOneshotpg

/-- The line of a page number. -/
def lineOf (g : Geometry) (pgidx : ℕ) : ℕ := pgidx % g.pgsPerLun / g.pgsPerBlk

variable {g : Geometry}

namespace Wf

theorem pgsPerBlk_pos (h : g.Wf) : 0 < g.pgsPerBlk := Nat.mul_pos h.pgs_pos h.oneshots_pos

theorem pgsPerLun_pos (h : g.Wf) : 0 < g.pgsPerLun := Nat.mul_pos h.pgsPerBlk_pos h.blks_pos

theorem pgsPerCh_pos (h : g.Wf) : 0 < g.pgsPerCh := Nat.mul_pos h.pgsPerLun_pos h.luns_pos

theorem pgsPerLine_pos (h : g.Wf) : 0 < g.pgsPerLine :=
  Nat.mul_pos (Nat.mul_pos h.luns_pos h.nchs_pos) h.pgsPerBlk_pos

end Wf

/-! ### Page numbers -/

namespace Valid

variable {p : Ppa}

/-- The part of a page number below the LUN. -/
theorem blk_part_lt (h : g.Valid p) : p.blk * g.pgsPerBlk + p.pg < g.pgsPerLun :=
  calc p.blk * g.pgsPerBlk + p.pg
      < p.blk * g.pgsPerBlk + g.pgsPerBlk := Nat.add_lt_add_left h.pg _
    _ = (p.blk + 1) * g.pgsPerBlk := by ring
    _ ≤ g.blksPerPl * g.pgsPerBlk := Nat.mul_le_mul_right _ h.blk
    _ = g.pgsPerLun := Nat.mul_comm _ _

/-- The part of a page number below the channel. -/
theorem lun_part_lt (h : g.Valid p) :
    p.lun * g.pgsPerLun + p.blk * g.pgsPerBlk + p.pg < g.pgsPerCh := by
  have hblk := h.blk_part_lt
  calc p.lun * g.pgsPerLun + p.blk * g.pgsPerBlk + p.pg
      < p.lun * g.pgsPerLun + g.pgsPerLun := by omega
    _ = (p.lun + 1) * g.pgsPerLun := by ring
    _ ≤ g.lunsPerCh * g.pgsPerLun := Nat.mul_le_mul_right _ h.lun
    _ = g.pgsPerCh := Nat.mul_comm _ _

theorem pgNo_lt (h : g.Valid p) : g.pgNo p < g.ttPgs := by
  have hlun := h.lun_part_lt
  calc g.pgNo p
      = p.ch * g.pgsPerCh + (p.lun * g.pgsPerLun + p.blk * g.pgsPerBlk + p.pg) := by
        rw [pgNo, Nat.add_assoc, Nat.add_assoc, Nat.add_assoc]
    _ < p.ch * g.pgsPerCh + g.pgsPerCh := by omega
    _ = (p.ch + 1) * g.pgsPerCh := by ring
    _ ≤ g.nchs * g.pgsPerCh := Nat.mul_le_mul_right _ h.ch
    _ = g.ttPgs := Nat.mul_comm _ _

theorem ppa2pgidx_eq (h : g.Valid p) : g.ppa2pgidx p = .ok (g.pgNo p) := by
  have hlt := h.pgNo_lt
  unfold pgNo at hlt
  rw [ppa2pgidx, ensure_of hlt, ok_bind]
  rfl

theorem pgNo_div_ch (h : g.Valid p) : g.pgNo p / g.pgsPerCh = p.ch := by
  have hlun := h.lun_part_lt
  rw [pgNo, Nat.add_assoc, Nat.add_assoc, ← Nat.add_assoc (p.lun * _), Nat.add_comm,
    Nat.add_mul_div_right _ _ (by omega), Nat.div_eq_of_lt hlun, Nat.zero_add]

theorem pgNo_mod_ch (h : g.Valid p) :
    g.pgNo p % g.pgsPerCh = p.lun * g.pgsPerLun + p.blk * g.pgsPerBlk + p.pg := by
  have hlun := h.lun_part_lt
  rw [pgNo, Nat.add_assoc, Nat.add_assoc, ← Nat.add_assoc (p.lun * _), Nat.add_comm,
    Nat.add_mul_mod_self_right, Nat.mod_eq_of_lt hlun]

theorem pgNo_mod_lun (h : g.Valid p) :
    g.pgNo p % g.pgsPerLun = p.blk * g.pgsPerBlk + p.pg := by
  have hblk := h.blk_part_lt
  have hdvd : g.pgsPerLun ∣ g.pgsPerCh := ⟨_, rfl⟩
  rw [← Nat.mod_mod_of_dvd _ hdvd, h.pgNo_mod_ch, Nat.add_assoc, Nat.add_comm,
    Nat.add_mul_mod_self_right, Nat.mod_eq_of_lt hblk]

theorem lineOf_pgNo (h : g.Valid p) : g.lineOf (g.pgNo p) = p.blk := by
  have hpg := h.pg
  rw [lineOf, h.pgNo_mod_lun, Nat.add_comm, Nat.add_mul_div_right _ _ (by omega),
    Nat.div_eq_of_lt hpg, Nat.zero_add]

theorem pgNo_mod_blk (h : g.Valid p) : g.pgNo p % g.pgsPerBlk = p.pg := by
  have hdvd : g.pgsPerBlk ∣ g.pgsPerLun := ⟨_, rfl⟩
  rw [← Nat.mod_mod_of_dvd _ hdvd, h.pgNo_mod_lun, Nat.add_comm, Nat.add_mul_mod_self_right,
    Nat.mod_eq_of_lt h.pg]

theorem pgNo_div_lun (h : g.Valid p) : g.pgNo p % g.pgsPerCh / g.pgsPerLun = p.lun := by
  have hblk := h.blk_part_lt
  rw [h.pgNo_mod_ch, Nat.add_assoc, Nat.add_comm, Nat.add_mul_div_right _ _ (by omega),
    Nat.div_eq_of_lt hblk, Nat.zero_add]

/-- `ppa_to_struct` finds the address of a page number. -/
theorem ppaToStruct_pgNo (hw : g.Wf) (h : g.Valid p) : g.ppaToStruct (g.pgNo p) = .ok p := by
  have hch : g.pgNo p / g.pgsPerCh % g.pgsPerCh = p.ch := by
    rw [h.pgNo_div_ch, Nat.mod_eq_of_lt (lt_of_lt_of_le h.ch hw.nchs_le)]
  have hline := h.lineOf_pgNo
  unfold lineOf at hline
  rw [ppaToStruct, ensure_of h.pgNo_lt, ok_bind, hch, h.pgNo_div_lun, hline, h.pgNo_mod_blk]
  rfl

/-- Pages with the same number are the same. -/
theorem pgNo_inj {q : Ppa} (hw : g.Wf) (h : g.Valid p) (h' : g.Valid q)
    (heq : g.pgNo p = g.pgNo q) : p = q := by
  have h1 := h.ppaToStruct_pgNo hw
  rw [heq, h'.ppaToStruct_pgNo hw] at h1
  cases h1
  rfl

end Valid

theorem ppaToStruct_blk {pgidx : ℕ} {p : Ppa} (h : g.ppaToStruct pgidx = .ok p) :
    p.blk = g.lineOf pgidx ∧ pgidx < g.ttPgs := by
  simp only [ppaToStruct, bind_eq_ok, ensure_eq_ok] at h
  obtain ⟨-, hlt, h⟩ := h
  cases h
  exact ⟨rfl, hlt⟩

theorem ppaToStruct_of_lt {pgidx : ℕ} (h : pgidx < g.ttPgs) :
    ∃ p, g.ppaToStruct pgidx = .ok p ∧ p.blk = g.lineOf pgidx := by
  rw [ppaToStruct, ensure_of h, ok_bind]
  exact ⟨_, rfl, rfl⟩

theorem Wf.lineOf_lt (h : g.Wf) (pgidx : ℕ) : g.lineOf pgidx < g.blksPerPl :=
  Nat.div_lt_of_lt_mul (Nat.mod_lt _ h.pgsPerLun_pos)

/-! ### The order of the pages -/

section Order

/-- Counting on in the lower of two digits. -/
theorem succ_digits {q n : ℕ} (hn : 0 < n) (h : q % n + 1 ≠ n) :
    (q + 1) % n = q % n + 1 ∧ (q + 1) / n = q / n := by
  have hlt := Nat.mod_lt q hn
  have heq : q + 1 = (q % n + 1) + q / n * n := by
    have := Nat.div_add_mod q n
    rw [Nat.mul_comm] at this
    omega
  constructor
  · rw [heq, Nat.add_mul_mod_self_right, Nat.mod_eq_of_lt (by omega)]
  · rw [heq, Nat.add_mul_div_right _ _ hn, Nat.div_eq_of_lt (by omega), Nat.zero_add]

/-- The lower of two digits is at its end. -/
theorem carry_digits {q n : ℕ} (hn : 0 < n) (h : q % n + 1 = n) :
    (q + 1) % n = 0 ∧ (q + 1) / n = q / n + 1 := by
  have heq : q + 1 = (q / n + 1) * n := by
    have := Nat.div_add_mod q n
    rw [Nat.mul_comm] at this
    rw [Nat.add_mul]
    omega
  constructor
  · rw [heq, Nat.mul_mod_left]
  · rw [heq, Nat.mul_div_cancel _ hn]

/-- The rows of one-shot pages before page `r`. -/
def rowOf (g : Geometry) (r : ℕ) : ℕ := r / g.pgsPerOneshotpg / g.nchs / g.lunsPerCh

theorem pgsPerLine_eq (g : Geometry) :
    g.pgsPerLine = g.oneshotpgsPerBlk * g.lunsPerCh * g.nchs * g.pgsPerOneshotpg := by
  unfold pgsPerLine blksPerLine pgsPerBlk
  ring

theorem rowOf_lt (hw : g.Wf) {r : ℕ} (hr : r < g.pgsPerLine) : g.rowOf r < g.oneshotpgsPerBlk := by
  rw [pgsPerLine_eq] at hr
  unfold rowOf
  rw [Nat.div_lt_iff_lt_mul hw.luns_pos, Nat.div_lt_iff_lt_mul hw.nchs_pos,
    Nat.div_lt_iff_lt_mul hw.pgs_pos]
  exact hr

@[simp] theorem pageAt_blk (g : Geometry) (l r : ℕ) : (g.pageAt l r).blk = l := rfl

theorem pageAt_pg (g : Geometry) (l r : ℕ) :
    (g.pageAt l r).pg = g.rowOf r * g.pgsPerOneshotpg + r % g.pgsPerOneshotpg := rfl

theorem pageAt_valid (hw : g.Wf) {l r : ℕ} (hl : l < g.blksPerPl) (hr : r < g.pgsPerLine) :
    g.Valid (g.pageAt l r) where
  ch := Nat.mod_lt _ hw.nchs_pos
  lun := Nat.mod_lt _ hw.luns_pos
  blk := hl
  pg := by
    have hrow := rowOf_lt hw hr
    have hmod := Nat.mod_lt r hw.pgs_pos
    rw [pageAt_pg]
    calc g.rowOf r * g.pgsPerOneshotpg + r % g.pgsPerOneshotpg
        < g.rowOf r * g.pgsPerOneshotpg + g.pgsPerOneshotpg := by omega
      _ = (g.rowOf r + 1) * g.pgsPerOneshotpg := by ring
      _ ≤ g.oneshotpgsPerBlk * g.pgsPerOneshotpg := Nat.mul_le_mul_right _ hrow
      _ = g.pgsPerBlk := Nat.mul_comm _ _

/-- The number of a page in its line is determined by its address. -/
theorem pageAt_inj (hw : g.Wf) {l l' r r' : ℕ} (h : g.pageAt l r = g.pageAt l' r') :
    l = l' ∧ r = r' := by
  have hch := congrArg Ppa.ch h
  have hlun := congrArg Ppa.lun h
  have hpg := congrArg Ppa.pg h
  refine ⟨congrArg Ppa.blk h, ?_⟩
  rw [pageAt_pg, pageAt_pg] at hpg
  have hmod : r % g.pgsPerOneshotpg = r' % g.pgsPerOneshotpg := by
    have := congrArg (· % g.pgsPerOneshotpg) hpg
    simpa [Nat.mul_add_mod_self_right] using this
  have hrow : g.rowOf r = g.rowOf r' := by
    rw [hmod] at hpg
    exact Nat.eq_of_mul_eq_mul_right hw.pgs_pos (by omega)
  have hq : r / g.pgsPerOneshotpg / g.nchs = r' / g.pgsPerOneshotpg / g.nchs := by
    rw [← Nat.div_add_mod (r / g.pgsPerOneshotpg / g.nchs) g.lunsPerCh,
      ← Nat.div_add_mod (r' / g.pgsPerOneshotpg / g.nchs) g.lunsPerCh]
    unfold rowOf at hrow
    simp only [pageAt] at hlun
    rw [hrow, hlun]
  have hp : r / g.pgsPerOneshotpg = r' / g.pgsPerOneshotpg := by
    rw [← Nat.div_add_mod (r / g.pgsPerOneshotpg) g.nchs,
      ← Nat.div_add_mod (r' / g.pgsPerOneshotpg) g.nchs]
    simp only [pageAt] at hch
    rw [hq, hch]
  rw [← Nat.div_add_mod r g.pgsPerOneshotpg, ← Nat.div_add_mod r' g.pgsPerOneshotpg, hp, hmod]

theorem pg_succ_mod (hw : g.Wf) (l r : ℕ) :
    ((g.pageAt l r).pg + 1) % g.pgsPerOneshotpg = 0 ↔
      r % g.pgsPerOneshotpg + 1 = g.pgsPerOneshotpg := by
  have hlt := Nat.mod_lt r hw.pgs_pos
  rw [pageAt_pg, Nat.add_assoc, Nat.mul_add_mod_self_right]
  constructor
  · intro h
    by_contra hne
    rw [Nat.mod_eq_of_lt (by omega)] at h
    omega
  · intro h
    rw [h, Nat.mod_self]

/-- The next page of the same one-shot page. -/
theorem pageAt_succ_of_page (hw : g.Wf) {l r : ℕ}
    (h : r % g.pgsPerOneshotpg + 1 ≠ g.pgsPerOneshotpg) :
    g.pageAt l (r + 1) = { g.pageAt l r with pg := (g.pageAt l r).pg + 1 } := by
  obtain ⟨hm, hd⟩ := succ_digits hw.pgs_pos h
  simp only [pageAt, hm, hd, Nat.add_assoc]

/-- The next channel. -/
theorem pageAt_succ_of_ch (hw : g.Wf) {l r : ℕ}
    (h : r % g.pgsPerOneshotpg + 1 = g.pgsPerOneshotpg)
    (hch : (g.pageAt l r).ch + 1 ≠ g.nchs) :
    g.pageAt l (r + 1) =
      { g.pageAt l r with
        pg := (g.pageAt l r).pg + 1 - g.pgsPerOneshotpg, ch := (g.pageAt l r).ch + 1 } := by
  obtain ⟨hm, hd⟩ := carry_digits hw.pgs_pos h
  obtain ⟨hm', hd'⟩ := succ_digits hw.nchs_pos hch
  simp only [pageAt, hm, hd, hm', hd', Ppa.mk.injEq, true_and]
  omega

/-- The next LUN. -/
theorem pageAt_succ_of_lun (hw : g.Wf) {l r : ℕ}
    (h : r % g.pgsPerOneshotpg + 1 = g.pgsPerOneshotpg)
    (hch : (g.pageAt l r).ch + 1 = g.nchs) (hlun : (g.pageAt l r).lun + 1 ≠ g.lunsPerCh) :
    g.pageAt l (r + 1) =
      { g.pageAt l r with
        pg := (g.pageAt l r).pg + 1 - g.pgsPerOneshotpg, ch := 0
        lun := (g.pageAt l r).lun + 1 } := by
  obtain ⟨hm, hd⟩ := carry_digits hw.pgs_pos h
  obtain ⟨hm', hd'⟩ := carry_digits hw.nchs_pos hch
  obtain ⟨hm'', hd''⟩ := succ_digits hw.luns_pos hlun
  simp only [pageAt, hm, hd, hm', hd', hm'', hd'', Ppa.mk.injEq, true_and]
  omega

/-- The next row of one-shot pages. -/
theorem pageAt_succ_of_row (hw : g.Wf) {l r : ℕ}
    (h : r % g.pgsPerOneshotpg + 1 = g.pgsPerOneshotpg)
    (hch : (g.pageAt l r).ch + 1 = g.nchs) (hlun : (g.pageAt l r).lun + 1 = g.lunsPerCh) :
    g.pageAt l (r + 1) =
      { g.pageAt l r with
        pg := (g.pageAt l r).pg + 1 - g.pgsPerOneshotpg + g.pgsPerOneshotpg, ch := 0, lun := 0 } ∧
      g.rowOf (r + 1) = g.rowOf r + 1 := by
  obtain ⟨hm, hd⟩ := carry_digits hw.pgs_pos h
  obtain ⟨hm', hd'⟩ := carry_digits hw.nchs_pos hch
  obtain ⟨hm'', hd''⟩ := carry_digits hw.luns_pos hlun
  constructor
  · simp only [pageAt, hm, hd, hm', hd', hm'', hd'', Ppa.mk.injEq, true_and]
    rw [Nat.add_mul]
    omega
  · simp only [rowOf, hd, hd', hd'']

/-- The line ends with the last page of its last row. -/
theorem row_end (hw : g.Wf) {l r : ℕ} (hr : r < g.pgsPerLine)
    (h : r % g.pgsPerOneshotpg + 1 = g.pgsPerOneshotpg)
    (hch : (g.pageAt l r).ch + 1 = g.nchs) (hlun : (g.pageAt l r).lun + 1 = g.lunsPerCh) :
    (g.pageAt l r).pg + 1 - g.pgsPerOneshotpg + g.pgsPerOneshotpg = g.pgsPerBlk ↔
      r + 1 = g.pgsPerLine := by
  obtain ⟨-, hd⟩ := carry_digits hw.pgs_pos h
  obtain ⟨-, hd'⟩ := carry_digits hw.nchs_pos hch
  obtain ⟨-, hd''⟩ := carry_digits hw.luns_pos hlun
  have hrow := rowOf_lt hw hr
  -- the next page would be the first of row `rowOf r + 1`
  have hr1 : r + 1 = (g.rowOf r + 1) * g.lunsPerCh * g.nchs * g.pgsPerOneshotpg := by
    have e1 := Nat.div_add_mod (r + 1) g.pgsPerOneshotpg
    have e2 := Nat.div_add_mod ((r + 1) / g.pgsPerOneshotpg) g.nchs
    have e3 := Nat.div_add_mod ((r + 1) / g.pgsPerOneshotpg / g.nchs) g.lunsPerCh
    rw [(carry_digits hw.pgs_pos h).1] at e1
    rw [hd, (carry_digits hw.nchs_pos hch).1] at e2
    rw [hd, hd', (carry_digits hw.luns_pos hlun).1, hd''] at e3
    rw [hd, ← e2, hd', ← e3] at e1
    rw [← e1, rowOf]
    ring
  have hpg : (g.pageAt l r).pg + 1 - g.pgsPerOneshotpg + g.pgsPerOneshotpg =
      (g.rowOf r + 1) * g.pgsPerOneshotpg := by
    rw [pageAt_pg, Nat.add_mul]
    omega
  have hblk : g.pgsPerBlk = g.oneshotpgsPerBlk * g.pgsPerOneshotpg := Nat.mul_comm _ _
  rw [hpg, hr1, pgsPerLine_eq, hblk]
  constructor
  · intro heq
    rw [Nat.eq_of_mul_eq_mul_right hw.pgs_pos heq]
  · intro heq
    have h1 := Nat.eq_of_mul_eq_mul_right hw.pgs_pos heq
    have h2 := Nat.eq_of_mul_eq_mul_right hw.nchs_pos h1
    rw [Nat.eq_of_mul_eq_mul_right hw.luns_pos h2]

/-- The digits of the last page of a line. -/
theorem last_digits (hw : g.Wf) (l : ℕ) {r : ℕ} (hr : r + 1 = g.pgsPerLine) :
    r % g.pgsPerOneshotpg + 1 = g.pgsPerOneshotpg ∧ (g.pageAt l r).ch + 1 = g.nchs ∧
      (g.pageAt l r).lun + 1 = g.lunsPerCh := by
  rw [pgsPerLine_eq] at hr
  have h1 : r % g.pgsPerOneshotpg + 1 = g.pgsPerOneshotpg := by
    by_contra hne
    have := (succ_digits hw.pgs_pos hne).1
    rw [hr, Nat.mul_mod_left] at this
    omega
  have hq : r / g.pgsPerOneshotpg + 1 = g.oneshotpgsPerBlk * g.lunsPerCh * g.nchs := by
    rw [← (carry_digits hw.pgs_pos h1).2, hr, Nat.mul_div_cancel _ hw.pgs_pos]
  have h2 : (g.pageAt l r).ch + 1 = g.nchs := by
    by_contra hne
    have := (succ_digits hw.nchs_pos hne).1
    rw [hq, Nat.mul_mod_left] at this
    omega
  have hq' : r / g.pgsPerOneshotpg / g.nchs + 1 = g.oneshotpgsPerBlk * g.lunsPerCh := by
    rw [← (carry_digits hw.nchs_pos h2).2, hq, Nat.mul_div_cancel _ hw.nchs_pos]
  refine ⟨h1, h2, ?_⟩
  by_contra hne
  have := (succ_digits hw.luns_pos hne).1
  rw [hq', Nat.mul_mod_left] at this
  omega

/-- `peek_next_page` inside a line. -/
theorem peekNextPage_pageAt (hw : g.Wf) {l r : ℕ} (hr : r + 1 < g.pgsPerLine) :
    g.peekNextPage (g.pageAt l r) = .ok (g.pageAt l (r + 1)) := by
  have hchlt : (g.pageAt l r).ch < g.nchs := Nat.mod_lt _ hw.nchs_pos
  have hlunlt : (g.pageAt l r).lun < g.lunsPerCh := Nat.mod_lt _ hw.luns_pos
  unfold peekNextPage
  dsimp only
  split
  · rename_i hpage
    rw [pageAt_succ_of_page hw fun h => hpage ((pg_succ_mod hw l r).mpr h)]
  rename_i hpage
  have h := (pg_succ_mod hw l r).mp (not_not.mp hpage)
  rw [ensure_of hchlt, ok_bind]
  split
  · rename_i hch
    rw [pageAt_succ_of_ch hw h hch]
    rfl
  rename_i hch
  rw [ensure_of hlunlt, ok_bind]
  split
  · rename_i hlun
    rw [pageAt_succ_of_lun hw h (not_not.mp hch) hlun]
    rfl
  rename_i hlun
  have hend := row_end (l := l) hw (by omega) h (not_not.mp hch) (not_not.mp hlun)
  rw [if_pos (fun heq => absurd (hend.mp heq) (by omega)),
    (pageAt_succ_of_row hw h (not_not.mp hch) (not_not.mp hlun)).1]
  rfl

/-- Behind the last page of a line `peek_next_page` goes to the next block. -/
theorem peekNextPage_last (hw : g.Wf) {l r : ℕ} (hr : r + 1 = g.pgsPerLine) :
    g.peekNextPage (g.pageAt l r) = .ok { ch := 0, lun := 0, blk := l + 1, pg := 0 } := by
  obtain ⟨h, hch, hlun⟩ := last_digits hw l hr
  unfold peekNextPage
  dsimp only
  rw [if_neg (fun hc => hc ((pg_succ_mod hw l r).mpr h)),
    ensure_of (show (g.pageAt l r).ch < g.nchs by omega), ok_bind, if_neg (fun hc => hc hch),
    ensure_of (show (g.pageAt l r).lun < g.lunsPerCh by omega), ok_bind,
    if_neg (fun hc => hc hlun),
    if_neg (fun hc => hc ((row_end hw (by omega) h hch hlun).mpr hr))]
  rfl

theorem lastPgInLine_pageAt (hw : g.Wf) {l r : ℕ} (hr : r < g.pgsPerLine) :
    g.lastPgInLine (g.pageAt l r) = true ↔ r + 1 = g.pgsPerLine := by
  simp only [lastPgInLine, lastPgInWordline, lastPgInCh, lastPgInLun, lastPgInBlk,
    Bool.and_eq_true, decide_eq_true_eq]
  have hpgs := hw.pgs_pos
  have hnchs := hw.nchs_pos
  have hluns := hw.luns_pos
  have hblk := hw.pgsPerBlk_pos
  have hmod : (g.pageAt l r).pg % g.pgsPerOneshotpg = r % g.pgsPerOneshotpg := by
    rw [pageAt_pg, Nat.mul_add_mod_self_right, Nat.mod_mod]
  have hpg : ∀ _ : r % g.pgsPerOneshotpg + 1 = g.pgsPerOneshotpg,
      g.pgsPerOneshotpg ≤ (g.pageAt l r).pg + 1 := by
    intro h
    rw [pageAt_pg]
    omega
  rw [hmod]
  constructor
  · rintro ⟨⟨⟨h, hch⟩, hlun⟩, hb⟩
    have h' : r % g.pgsPerOneshotpg + 1 = g.pgsPerOneshotpg := by omega
    refine (row_end (l := l) hw hr h' (by omega) (by omega)).mp ?_
    have := hpg h'
    omega
  · intro hend
    obtain ⟨h, hch, hlun⟩ := last_digits hw l hend
    have hrow := (row_end hw hr h hch hlun).mpr hend
    have := hpg h
    exact ⟨⟨⟨by omega, by omega⟩, by omega⟩, by omega⟩

end Order

/-! ### Counting the pages of a line -/

/-- A line has at most `pgsPerLine` pages. -/
theorem card_line_le (hw : g.Wf) (l : ℕ) :
    ((Finset.range g.ttPgs).filter fun q => g.lineOf q = l).card ≤ g.pgsPerLine := by
  have hmaps : ∀ q ∈ (Finset.range g.ttPgs).filter fun q => g.lineOf q = l,
      (q / g.pgsPerLun, q % g.pgsPerBlk) ∈
        Finset.range g.blksPerLine ×ˢ Finset.range g.pgsPerBlk := by
    intro q hq
    rw [Finset.mem_filter, Finset.mem_range] at hq
    rw [Finset.mem_product, Finset.mem_range, Finset.mem_range]
    refine ⟨?_, Nat.mod_lt _ hw.pgsPerBlk_pos⟩
    rw [Nat.div_lt_iff_lt_mul hw.pgsPerLun_pos]
    calc q < g.ttPgs := hq.1
      _ = g.blksPerLine * g.pgsPerLun := by unfold ttPgs pgsPerCh blksPerLine; ring
  have hinj : Set.InjOn (fun q => (q / g.pgsPerLun, q % g.pgsPerBlk))
      ((Finset.range g.ttPgs).filter fun q => g.lineOf q = l : Finset ℕ) := by
    intro q hq q' hq' heq
    rw [Finset.mem_coe, Finset.mem_filter] at hq hq'
    obtain ⟨h1, h2⟩ := Prod.mk.inj heq
    have hdvd : g.pgsPerBlk ∣ g.pgsPerLun := ⟨_, rfl⟩
    have hmod : q % g.pgsPerLun = q' % g.pgsPerLun := by
      rw [← Nat.div_add_mod (q % g.pgsPerLun) g.pgsPerBlk,
        ← Nat.div_add_mod (q' % g.pgsPerLun) g.pgsPerBlk, Nat.mod_mod_of_dvd _ hdvd,
        Nat.mod_mod_of_dvd _ hdvd, h2]
      have hl := hq.2.trans hq'.2.symm
      unfold lineOf at hl
      rw [hl]
    rw [← Nat.div_add_mod q g.pgsPerLun, ← Nat.div_add_mod q' g.pgsPerLun, h1, hmod]
  have hcard := Finset.card_le_card_of_injOn _ hmaps hinj
  rwa [Finset.card_product, Finset.card_range, Finset.card_range] at hcard

end Geometry

namespace Flash

variable {d : Device} {f : Flash} {io : IoType} {l r : ℕ}

/-- Inside a line the write pointer goes to the next page. -/
theorem advanceWritePointer_pageAt (hw : d.geo.Wf) (hwp : f.wp io = d.geo.pageAt l r)
    (hr : r + 1 < d.geo.pgsPerLine) :
    f.advanceWritePointer d io = .ok (f.setWp io (d.geo.pageAt l (r + 1))) := by
  have hchlt : (d.geo.pageAt l r).ch < d.geo.nchs := Nat.mod_lt _ hw.nchs_pos
  have hlunlt : (d.geo.pageAt l r).lun < d.geo.lunsPerCh := Nat.mod_lt _ hw.luns_pos
  have hpglt : (d.geo.pageAt l r).pg < d.geo.pgsPerBlk :=
    (Geometry.pageAt_valid (l := 0) hw hw.blks_pos (by omega)).pg
  unfold advanceWritePointer
  dsimp only
  rw [hwp, ensure_of hpglt, ok_bind]
  split
  · rename_i hpage
    rw [Geometry.pageAt_succ_of_page hw fun h => hpage ((Geometry.pg_succ_mod hw l r).mpr h)]
    rfl
  rename_i hpage
  have h := (Geometry.pg_succ_mod hw l r).mp (not_not.mp hpage)
  rw [ensure_of hchlt, ok_bind]
  split
  · rename_i hch
    rw [Geometry.pageAt_succ_of_ch hw h hch]
    rfl
  rename_i hch
  rw [ensure_of hlunlt, ok_bind]
  split
  · rename_i hlun
    rw [Geometry.pageAt_succ_of_lun hw h (not_not.mp hch) hlun]
    rfl
  rename_i hlun
  have hend := Geometry.row_end (l := l) hw (by omega) h (not_not.mp hch) (not_not.mp hlun)
  rw [if_pos (fun heq => absurd (hend.mp heq) (by omega)),
    (Geometry.pageAt_succ_of_row hw h (not_not.mp hch) (not_not.mp hlun)).1]
  rfl

/-- Behind the last page the line is retired. -/
theorem advanceWritePointer_last (hw : d.geo.Wf) (hwp : f.wp io = d.geo.pageAt l r)
    (hr : r + 1 = d.geo.pgsPerLine) : f.advanceWritePointer d io = f.nextLine d io := by
  obtain ⟨h, hch, hlun⟩ := Geometry.last_digits hw l hr
  have hpglt : (d.geo.pageAt l r).pg < d.geo.pgsPerBlk :=
    (Geometry.pageAt_valid (l := 0) hw hw.blks_pos (by omega)).pg
  unfold advanceWritePointer
  dsimp only
  rw [hwp, ensure_of hpglt, ok_bind,
    if_neg (fun hc => hc ((Geometry.pg_succ_mod hw l r).mpr h)),
    ensure_of (show (d.geo.pageAt l r).ch < d.geo.nchs by omega), ok_bind,
    if_neg (fun hc => hc hch),
    ensure_of (show (d.geo.pageAt l r).lun < d.geo.lunsPerCh by omega), ok_bind,
    if_neg (fun hc => hc hlun),
    if_neg (fun hc => hc ((Geometry.row_end hw (by omega) h hch hlun).mpr hr))]

end Flash

end Virtkv
