import Virtkv.Flash.Take
import Virtkv.Flash.Width
import Virtkv.Gc.Defs

/-!
# The pages of a line

The pages of a line are enumerated in four places: by the write pointer, by the look-ahead of
`peek_next_page`, by the index arithmetic of `ppa2pgidx` and `ppa_to_struct`, and by the loops
of the garbage collector. For a geometry whose page numbers are `ppa_t`s the four agree.

A one-shot page can consist of several flash pages here, as in some of the configurations of
the header.

## Main results

- `handOut_line` — the write pointer hands out every page of a line once
- `mem_visited` — the collector visits the pages of its line
- `consistent_of_fits` — the page geometry is consistent
-/

namespace Virtkv

open Outcome

/-- How one-shot pages divide into flash pages. -/
structure FlashPages (g : Geometry) where
  pgsPerFlashpg : ℕ
  perOneshotpg : ℕ
  pgs_eq : g.pgsPerOneshotpg = perOneshotpg * pgsPerFlashpg

namespace FlashPages

variable {g : Geometry} (fp : FlashPages g)

/-- `flashpgs_per_blk`. -/
def flashpgsPerBlk : ℕ := fp.perOneshotpg * g.oneshotpgsPerBlk

theorem pgsPerBlk_eq : g.pgsPerBlk = fp.flashpgsPerBlk * fp.pgsPerFlashpg := by
  rw [Geometry.pgsPerBlk, fp.pgs_eq, flashpgsPerBlk]
  ring

/-- A flash page is a one-shot page. -/
def whole (g : Geometry) : FlashPages g where
  pgsPerFlashpg := g.pgsPerOneshotpg
  perOneshotpg := 1
  pgs_eq := (Nat.one_mul _).symm

end FlashPages

namespace Word

/-- `get_new_page`. -/
def getNewPage (f : Flash) (io : IoType) : Ppa := (f.getNewPage io).narrow

/-- `get_new_page` and `advance_write_pointer`, again and again. -/
def handOut (d : Device) (io : IoType) : ℕ → Flash → Except Fault (List Ppa × Flash)
  | 0, f => .ok ([], f)
  | n + 1, f => do
    let p := getNewPage f io
    let f ← f.advanceWritePointer d io
    let (ps, f) ← handOut d io n f
    return (p :: ps, f)

/-- The loop of `clean_one_flashpg`: the pages it looks at. -/
def flashPage : ℕ → Ppa → List Ppa
  | 0, _ => []
  | n + 1, p => p :: flashPage n { p with pg := (p.pg + 1) % 2 ^ 16 }

/-- The loops of `do_gc`: the pages `clean_one_flashpg` looks at. -/
def visited {g : Geometry} (fp : FlashPages g) (line : ℕ) : List Ppa :=
  (List.range fp.flashpgsPerBlk).flatMap fun flashpg =>
    (List.range g.nchs).flatMap fun ch =>
      (List.range g.lunsPerCh).flatMap fun lun =>
        let ppa : Ppa := { ch := ch, lun := lun, blk := line, pg := flashpg * fp.pgsPerFlashpg }
        flashPage fp.pgsPerFlashpg ppa.narrow

/-! ### The write pointer -/

section HandOut

variable {d : Device} {f : Flash} {io : IoType} {l r : ℕ}

theorem setWp_setWp (p q : Ppa) : (f.setWp io p).setWp io q = f.setWp io q := by
  rw [Flash.setWp, Flash.setWp, Flash.setWp]
  dsimp only
  rw [Function.update_idem]

/-- Inside a line the pages are handed out in their order, and nothing but the write pointer
changes. -/
theorem handOut_inside (hw : d.geo.Wf) (h : d.geo.FitsFields) (hl : l < d.geo.blksPerPl) (n : ℕ)
    (hwp : f.wp io = d.geo.pageAt l r) (hn : r + n < d.geo.pgsPerLine) :
    handOut d io n f =
      .ok ((List.range n).map fun k => d.geo.pageAt l (r + k),
        f.setWp io (d.geo.pageAt l (r + n))) := by
  induction n generalizing f r with
  | zero =>
    have hself : f.setWp io (f.wp io) = f := by
      rw [Flash.setWp, Function.update_eq_self]
    rw [handOut, List.range_zero, List.map_nil, Nat.add_zero, ← hwp, hself]
  | succ n ih =>
    have hpage : getNewPage f io = d.geo.pageAt l r := by
      rw [getNewPage, Flash.getNewPage, hwp]
      exact narrow_eq h (Geometry.pageAt_valid hw hl (by omega))
    have hnext : (f.setWp io (d.geo.pageAt l (r + 1))).wp io = d.geo.pageAt l (r + 1) :=
      Function.update_self ..
    rw [handOut, Flash.advanceWritePointer_pageAt hw hwp (by omega), ok_bind,
      ih hnext (by omega), ok_bind, hpage, setWp_setWp, List.range_succ_eq_map, List.map_cons,
      List.map_map, Nat.add_zero]
    have hpages : (List.range n).map (fun k => d.geo.pageAt l (r + 1 + k)) =
        (List.range n).map ((fun k => d.geo.pageAt l (r + k)) ∘ Nat.succ) := by
      apply List.map_congr_left
      intro k _
      rw [Function.comp_apply, Nat.add_assoc, Nat.add_comm 1]
    rw [hpages, show r + 1 + n = r + (n + 1) by omega]
    rfl

/-- The pages of a line in the order of writing. -/
def linePages (g : Geometry) (l : ℕ) : List Ppa := (List.range g.pgsPerLine).map (g.pageAt l)

variable {g : Geometry}

theorem linePages_nodup (hw : g.Wf) (l : ℕ) : (linePages g l).Nodup := by
  apply List.Nodup.map _ List.nodup_range
  intro r r' h
  exact (Geometry.pageAt_inj hw h).2

theorem mem_linePages (hw : g.Wf) (hl : l < g.blksPerPl) {p : Ppa} :
    p ∈ linePages g l ↔ g.Valid p ∧ p.blk = l := by
  rw [linePages, List.mem_map]
  constructor
  · rintro ⟨r, hr, rfl⟩
    exact ⟨Geometry.pageAt_valid hw hl (List.mem_range.mp hr), rfl⟩
  · rintro ⟨hp, rfl⟩
    exact ⟨g.lineRank p, List.mem_range.mpr (Geometry.lineRank_lt hw.positive hp),
      (Geometry.pageAt_lineRank hw.positive hp).1⟩

/-- Inside a line a step at the width of the fields is the step on numbers. -/
theorem peekNextPage_eq (hw : g.Wf) (h : g.FitsFields) (hl : l < g.blksPerPl)
    (hr : r + 1 < g.pgsPerLine) :
    peekNextPage g (g.pageAt l r) = g.peekNextPage (g.pageAt l r) := by
  have hrow : g.rowOf r < g.oneshotpgsPerBlk := Geometry.rowOf_lt hw (by omega)
  have hnext : g.rowOf (r + 1) < g.oneshotpgsPerBlk := Geometry.rowOf_lt hw hr
  rw [Geometry.peekNextPage_pageAt hw hr, pageAt_eq_pageOn_peek h hl hrow,
    pageAt_eq_pageOn_peek h hl hnext]
  exact nextPage_pageOn hw.positive h (peek_nextRow hw.positive h l _)

theorem linePages_isChain (hw : g.Wf) (h : g.FitsFields) (hl : l < g.blksPerPl) :
    (linePages g l).IsChain fun p q => peekNextPage g p = .ok q := by
  rw [linePages, List.isChain_map, List.isChain_iff_getElem]
  intro r hr
  rw [List.length_range] at hr
  rw [List.getElem_range, List.getElem_range, peekNextPage_eq hw h hl hr,
    Geometry.peekNextPage_pageAt hw hr]

/-- From a fresh line on, `pgsPerLine` steps hand out the pages of the line; only behind the
last of them another line is taken. -/
structure HandsOut (d : Device) (f : Flash) (io : IoType) (l : ℕ) (ps : List Ppa) (f' : Flash) :
    Prop where
  runs : handOut d io (d.geo.pgsPerLine - 1) f = .ok (ps, f')
  same_line : ∃ p, f' = f.setWp io p
  next_line : f'.advanceWritePointer d io = f'.nextLine d io
  nodup : (ps ++ [getNewPage f' io]).Nodup
  mem_iff : ∀ p, p ∈ ps ++ [getNewPage f' io] ↔ d.geo.Valid p ∧ p.blk = l
  peeks : (ps ++ [getNewPage f' io]).IsChain fun p q => peekNextPage d.geo p = .ok q

theorem handOut_line (hw : d.geo.Wf) (h : d.geo.FitsFields) (hl : l < d.geo.blksPerPl)
    (hfresh : f.wp io = { ch := 0, lun := 0, blk := l, pg := 0 }) :
    ∃ ps f', HandsOut d f io l ps f' := by
  have hpos := hw.pgsPerLine_pos
  rw [← Geometry.pageAt_zero d.geo l] at hfresh
  have hrun := handOut_inside hw h hl (d.geo.pgsPerLine - 1) hfresh (by omega)
  simp only [Nat.zero_add] at hrun
  have hwp : (f.setWp io (d.geo.pageAt l (d.geo.pgsPerLine - 1))).wp io =
      d.geo.pageAt l (d.geo.pgsPerLine - 1) := Function.update_self ..
  have hpage : getNewPage (f.setWp io (d.geo.pageAt l (d.geo.pgsPerLine - 1))) io =
      d.geo.pageAt l (d.geo.pgsPerLine - 1) := by
    rw [getNewPage, Flash.getNewPage, hwp]
    exact narrow_eq h (Geometry.pageAt_valid hw hl (by omega))
  have hall : (List.range (d.geo.pgsPerLine - 1)).map (fun k => d.geo.pageAt l k) ++
      [d.geo.pageAt l (d.geo.pgsPerLine - 1)] = linePages d.geo l := by
    rw [linePages, show d.geo.pgsPerLine = d.geo.pgsPerLine - 1 + 1 by omega, List.range_succ,
      List.map_append, List.map_singleton, Nat.add_sub_cancel]
  -- all pages but the last advance inside the line; the last step takes another line
  refine ⟨_, _, hrun, ⟨_, rfl⟩, ?_, ?_, ?_, ?_⟩
  · exact Flash.advanceWritePointer_last hw hwp (by omega)
  · rw [hpage, hall]
    exact linePages_nodup hw l
  · intro p
    rw [hpage, hall]
    exact mem_linePages hw hl
  · rw [hpage, hall]
    exact linePages_isChain hw h hl

end HandOut

/-! ### The collector -/

section Visited

variable {g : Geometry} {fp : FlashPages g} {l : ℕ}

theorem flashPage_eq {n : ℕ} {p : Ppa} (h : p.pg + n ≤ 2 ^ 16) :
    flashPage n p = (List.range n).map fun i => { p with pg := p.pg + i } := by
  induction n generalizing p with
  | zero => rfl
  | succ n ih =>
    rw [flashPage, List.range_succ_eq_map, List.map_cons, List.map_map, Nat.add_zero]
    congr 1
    cases n with
    | zero => rfl
    | succ n =>
      have hpg : (p.pg + 1) % 2 ^ 16 = p.pg + 1 := Nat.mod_eq_of_lt (by omega)
      rw [hpg, ih (by dsimp only; omega)]
      apply List.map_congr_left
      intro i _
      rw [Function.comp_apply, Nat.add_assoc, Nat.add_comm 1]

/-- The flash page number `k` of a block, in numbers. -/
theorem flashPage_narrow (h : g.FitsFields) (hl : l < g.blksPerPl) {k ch lun : ℕ}
    (hk : k < fp.flashpgsPerBlk) (hch : ch < g.nchs) (hlun : lun < g.lunsPerCh) :
    flashPage fp.pgsPerFlashpg
        (Ppa.narrow { ch := ch, lun := lun, blk := l, pg := k * fp.pgsPerFlashpg }) =
      (List.range fp.pgsPerFlashpg).map fun i =>
        { ch := ch, lun := lun, blk := l, pg := k * fp.pgsPerFlashpg + i } := by
  have hpg : k * fp.pgsPerFlashpg + fp.pgsPerFlashpg ≤ g.pgsPerBlk :=
    calc k * fp.pgsPerFlashpg + fp.pgsPerFlashpg = (k + 1) * fp.pgsPerFlashpg := by ring
      _ ≤ fp.flashpgsPerBlk * fp.pgsPerFlashpg := Nat.mul_le_mul_right _ hk
      _ = g.pgsPerBlk := fp.pgsPerBlk_eq.symm
  have hch' := lt_trans hch h.nchs_lt
  have hlun' := lt_trans hlun h.luns_lt
  have hl' := lt_trans hl h.blks_lt
  have hblk := h.pgsPerBlk_lt
  have hpg' : k * fp.pgsPerFlashpg < 2 ^ 16 := by omega
  simp only [Ppa.narrow, Nat.mod_eq_of_lt hch', Nat.mod_eq_of_lt hlun', Nat.mod_eq_of_lt hl',
    Nat.mod_eq_of_lt hpg']
  exact flashPage_eq (by dsimp only; omega)

/-- The collector visits the pages of its line. -/
theorem mem_visited (hw : g.Wf) (h : g.FitsFields) (hl : l < g.blksPerPl) {p : Ppa} :
    p ∈ visited fp l ↔ g.Valid p ∧ p.blk = l := by
  have hpos : 0 < fp.pgsPerFlashpg := by
    have := hw.pgs_pos
    rw [fp.pgs_eq] at this
    exact Nat.pos_of_mul_pos_left this
  have hblk := fp.pgsPerBlk_eq
  simp only [visited, List.mem_flatMap, List.mem_range]
  constructor
  · rintro ⟨k, hk, ch, hch, lun, hlun, hp⟩
    rw [flashPage_narrow h hl hk hch hlun, List.mem_map] at hp
    obtain ⟨i, hi, rfl⟩ := hp
    rw [List.mem_range] at hi
    refine ⟨⟨hch, hlun, hl, ?_⟩, rfl⟩
    calc k * fp.pgsPerFlashpg + i < k * fp.pgsPerFlashpg + fp.pgsPerFlashpg := by omega
      _ = (k + 1) * fp.pgsPerFlashpg := by ring
      _ ≤ fp.flashpgsPerBlk * fp.pgsPerFlashpg := Nat.mul_le_mul_right _ hk
      _ = g.pgsPerBlk := hblk.symm
  · rintro ⟨hp, rfl⟩
    have hpg := hp.pg
    rw [hblk] at hpg
    have hk : p.pg / fp.pgsPerFlashpg < fp.flashpgsPerBlk :=
      (Nat.div_lt_iff_lt_mul hpos).mpr hpg
    refine ⟨p.pg / fp.pgsPerFlashpg, hk, p.ch, hp.ch, p.lun, hp.lun, ?_⟩
    rw [flashPage_narrow h hl hk hp.ch hp.lun, List.mem_map]
    refine ⟨p.pg % fp.pgsPerFlashpg, List.mem_range.mpr (Nat.mod_lt _ hpos), ?_⟩
    rw [Nat.div_add_mod']

/-- With flash pages that are one-shot pages, these are the pages of the collector's flash
pages. -/
theorem visited_whole (h : g.FitsFields) (hl : l < g.blksPerPl) :
    visited (FlashPages.whole g) l =
      (Gc.flashPages g l).flatMap fun x =>
        (List.range g.pgsPerOneshotpg).map fun i => { x.1 with pg := x.1.pg + i } := by
  have hcount : (FlashPages.whole g).flashpgsPerBlk = g.oneshotpgsPerBlk := Nat.one_mul _
  rw [visited, Gc.flashPages, hcount, List.flatMap_assoc]
  apply List.flatMap_congr
  intro k hk
  rw [List.flatMap_assoc]
  apply List.flatMap_congr
  intro ch hch
  rw [List.flatMap_map]
  apply List.flatMap_congr
  intro lun hlun
  rw [List.mem_range] at hk hch hlun
  have hk' : k < (FlashPages.whole g).flashpgsPerBlk := by rwa [hcount]
  exact flashPage_narrow h hl hk' hch hlun

end Visited

end Word

/-- The loop of `clean_one_flashpg` over given pages. -/
def Gc.cleanList (d : Device) (map : Bool) (blk : ℕ) :
    List Ppa → ℕ → ℕ → Gc.State → Except Fault (ℕ × Gc.State)
  | [], _, cnt, c => .ok (cnt, c)
  | q :: qs, k, cnt, c => do
    let pgidx ← d.geo.ppa2pgidx q
    let f ← Gc.noticeInvalid d c.shard.flash pgidx k
    let c := c.setShard (c.shard.setFlash f)
    match f.status pgidx with
    | .free => .error .bug
    | .valid => do
      let c ← Gc.cleanPageLoop d map blk pgidx (d.gpp + 1) 0 c
      Gc.cleanList d map blk qs (k + 1) (cnt + 1) c
    | .invalid => do
      ensure (d.build = .plus → f.pgInvCnt pgidx = d.gpp) .bug
      Gc.cleanList d map blk qs (k + 1) cnt c

/-- `clean_one_flashpg` works on the pages of its flash page. -/
theorem Gc.cleanPages_eq_cleanList (d : Device) (map : Bool) (p : Ppa) (n k cnt : ℕ)
    (c : Gc.State) :
    Gc.cleanPages d map p n k cnt c =
      Gc.cleanList d map p.blk ((List.range' k n).map fun i => { p with pg := p.pg + i }) k cnt
        c := by
  induction n generalizing k cnt c with
  | zero => rfl
  | succ n ih =>
    rw [List.range'_succ, List.map_cons, Gc.cleanPages, Gc.cleanList]
    refine bind_congr fun pgidx => bind_congr fun f => ?_
    dsimp only
    cases f.status pgidx with
    | free => rfl
    | valid => simp only [ih]
    | invalid => simp only [ih]

namespace Word

/-! ### Page numbers -/

/-- What the enumerations have in common. -/
structure Consistent (g : Geometry) : Prop where
  handsOut : ∀ (d : Device) (f : Flash) (io : IoType) (l : ℕ), d.geo = g → l < g.blksPerPl →
    f.wp io = { ch := 0, lun := 0, blk := l, pg := 0 } → ∃ ps f', HandsOut d f io l ps f'
  structOf : ∀ pgidx < (ssdInitParams g).ttPgs,
    ∃ p, g.Valid p ∧ ppaToStruct g pgidx = .ok p ∧ ppa2pgidx g p = .ok pgidx
  indexOf : ∀ p, g.Valid p →
    ∃ pgidx < (ssdInitParams g).ttPgs, ppa2pgidx g p = .ok pgidx ∧ ppaToStruct g pgidx = .ok p
  visits : ∀ (fp : FlashPages g) (l : ℕ), l < g.blksPerPl →
    ∀ p, p ∈ visited fp l ↔ g.Valid p ∧ p.blk = l

/-- Every page number is that of the page `ppa_to_struct` finds. -/
theorem ppa2pgidx_ppaToStruct {g : Geometry} (hw : g.Wf) (h : g.Fits) {pgidx : ℕ}
    (hlt : pgidx < g.ttPgs) :
    ∃ p, g.Valid p ∧ ppaToStruct g pgidx = .ok p ∧ ppa2pgidx g p = .ok pgidx := by
  have hp := valid_of_lt hw hlt
  have hch : pgidx / g.pgsPerCh % g.pgsPerCh = pgidx / g.pgsPerCh := by
    apply Nat.mod_eq_of_lt
    exact lt_of_lt_of_le (Nat.div_lt_of_lt_mul hlt) hw.nchs_le
  have hlunDvd : g.pgsPerLun ∣ g.pgsPerCh := ⟨_, rfl⟩
  have hblkDvd : g.pgsPerBlk ∣ g.pgsPerLun := ⟨_, rfl⟩
  have hno : g.pgNo _ = pgidx :=
    calc g.pgNo { ch := pgidx / g.pgsPerCh % g.pgsPerCh, lun := pgidx % g.pgsPerCh / g.pgsPerLun
                  blk := pgidx % g.pgsPerLun / g.pgsPerBlk, pg := pgidx % g.pgsPerBlk }
        = pgidx / g.pgsPerCh * g.pgsPerCh + pgidx % g.pgsPerCh / g.pgsPerLun * g.pgsPerLun +
            pgidx % g.pgsPerLun / g.pgsPerBlk * g.pgsPerBlk + pgidx % g.pgsPerBlk := by
          rw [Geometry.pgNo, hch]
      _ = pgidx / g.pgsPerCh * g.pgsPerCh + pgidx % g.pgsPerCh / g.pgsPerLun * g.pgsPerLun +
            pgidx % g.pgsPerLun := by
          rw [Nat.add_assoc _ (_ / g.pgsPerBlk * _), ← Nat.mod_mod_of_dvd pgidx hblkDvd,
            Nat.div_add_mod']
      _ = pgidx / g.pgsPerCh * g.pgsPerCh + pgidx % g.pgsPerCh := by
          rw [Nat.add_assoc, ← Nat.mod_mod_of_dvd pgidx hlunDvd, Nat.div_add_mod']
      _ = pgidx := Nat.div_add_mod' _ _
  have hstruct := hp.ppaToStruct_pgNo hw
  rw [hno] at hstruct
  refine ⟨_, hp, ?_, ?_⟩
  · rw [ppaToStruct_eq hw h, hstruct]
  · rw [ppa2pgidx_eq h hp, hp.ppa2pgidx_eq, hno]

/-- The page geometry is consistent. -/
theorem consistent_of_fits (g : Geometry) (hw : g.Wf) (h : g.Fits) : Consistent g where
  handsOut d f io l hd hl hfresh := by
    subst hd
    exact handOut_line hw h.toFitsFields hl hfresh
  structOf pgidx hlt := by
    rw [ssdInitParams_eq h] at hlt
    exact ppa2pgidx_ppaToStruct hw h hlt
  indexOf p hp := by
    refine ⟨g.pgNo p, ?_, ?_, ?_⟩
    · rw [ssdInitParams_eq h]
      exact hp.pgNo_lt
    · rw [ppa2pgidx_eq h hp, hp.ppa2pgidx_eq]
    · rw [ppaToStruct_eq hw h, hp.ppaToStruct_pgNo hw]
  visits fp l hl p := mem_visited hw h.toFitsFields hl

/-! A channel with two LUNs, and the geometries that show the bounds to be needed. -/

def twoLuns : Geometry where
  nchs := 1
  lunsPerCh := 2
  blksPerPl := 3
  oneshotpgsPerBlk := 4
  pgsPerOneshotpg := 2

theorem consistent_of_fits_twoLuns : Consistent twoLuns := by
  refine consistent_of_fits twoLuns ?_ ?_
  · constructor <;> decide
  · refine ⟨⟨⟨?_, ?_, ?_, ?_, ?_⟩, ?_⟩, ?_, ?_⟩ <;> decide

/-- More than `2 ^ 32` pages: page numbers are cut off. -/
def manyPages : Geometry where
  nchs := 64
  lunsPerCh := 1
  blksPerPl := 65535
  oneshotpgsPerBlk := 256
  pgsPerOneshotpg := 8

/-- More than `2 ^ 16` pages in a block: page fields are cut off. -/
def longBlock : Geometry where
  nchs := 1
  lunsPerCh := 1
  blksPerPl := 1
  oneshotpgsPerBlk := 256
  pgsPerOneshotpg := 512

/-- More than `2 ^ 31` pages in a plane: the count is negative as an `int`. -/
def largePlane : Geometry where
  nchs := 1
  lunsPerCh := 1
  blksPerPl := 65535
  oneshotpgsPerBlk := 40000
  pgsPerOneshotpg := 1

theorem not_consistent :
    (manyPages.Wf ∧ manyPages.Representable ∧ ¬Consistent manyPages) ∧
      (longBlock.Wf ∧ longBlock.Representable ∧ ¬Consistent longBlock) ∧
      largePlane.Wf ∧ largePlane.Representable ∧ ¬Consistent largePlane := by
  refine ⟨⟨?_, ?_, ?_⟩, ⟨?_, ?_, ?_⟩, ?_, ?_, ?_⟩
  · constructor <;> decide
  · constructor <;> decide
  · -- the page with the number `2 ^ 32` has the number of the first page
    intro h
    obtain ⟨pgidx, -, hidx, hstruct⟩ := h.indexOf ⟨32, 0, 32, 0⟩
      ⟨by decide, by decide, by decide, by decide⟩
    have hzero : ppa2pgidx manyPages ⟨32, 0, 32, 0⟩ = .ok 0 := by decide +kernel
    rw [hzero, Except.ok.injEq] at hidx
    subst hidx
    have hfirst : ppaToStruct manyPages 0 = .ok ⟨0, 0, 0, 0⟩ := by decide +kernel
    rw [hfirst, Except.ok.injEq] at hstruct
    exact absurd hstruct (by decide)
  · constructor <;> decide
  · constructor <;> decide
  · -- page 65536 is taken for the first page
    intro h
    obtain ⟨p, -, hstruct, hidx⟩ := h.structOf 65536 (by decide +kernel)
    have hfirst : ppaToStruct longBlock 65536 = .ok ⟨0, 0, 0, 0⟩ := by decide +kernel
    rw [hfirst, Except.ok.injEq] at hstruct
    subst hstruct
    have hzero : ppa2pgidx longBlock ⟨0, 0, 0, 0⟩ = .ok 0 := by decide +kernel
    rw [hzero, Except.ok.injEq] at hidx
    exact absurd hidx (by decide)
  · constructor <;> decide
  · constructor <;> decide
  · -- a page number behind the last page passes the check
    intro h
    obtain ⟨p, hp, hstruct, -⟩ := h.structOf (65535 * 40000) (by decide +kernel)
    have hfirst : ppaToStruct largePlane (65535 * 40000) = .ok ⟨0, 0, 65535, 0⟩ := by
      decide +kernel
    rw [hfirst, Except.ok.injEq] at hstruct
    subst hstruct
    exact absurd hp.blk (by decide)

end Word

end Virtkv
