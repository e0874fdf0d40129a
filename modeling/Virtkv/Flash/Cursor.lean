import Virtkv.Flash.Waste
import Virtkv.Flash.Place

/-!
# Stripes and the page being filled

The pages of a line that lie on one LUN and in one row of one-shot pages form a stripe.
A pair stays on its stripe: if the rest of the stripe is too short, it is given up and the
pair starts on the next one. `Cursor` is the page a data writer is filling, with the grains
from its offset on unused; the write pointer is right behind it.
-/

namespace Virtkv

open Outcome

namespace Geometry

variable {g : Geometry} {l r : ℕ}

/-- The pages of a stripe. -/
def stripe (g : Geometry) : ℕ := g.pgsPerOneshotpg * g.nchs

/-- The number of the first page behind the stripe of page `r`. -/
def stripeEnd (g : Geometry) (r : ℕ) : ℕ := (r / g.stripe + 1) * g.stripe

/-- At least two LUNs, so that stripes that follow each other are on different LUNs. -/
structure Striped (g : Geometry) : Prop where
  wf : g.Wf
  luns : 2 ≤ g.lunsPerCh

/-- At least two LUNs, stripes of 64 pages, as in the header's configuration, and no
stripe longer than a LUN. -/
structure Wide (g : Geometry) : Prop where
  wf : g.Wf
  luns : 2 ≤ g.lunsPerCh
  stripe : 64 ≤ g.stripe
  stripe_le : g.stripe ≤ g.pgsPerLun

theorem Wide.striped (h : g.Wide) : g.Striped := ⟨h.wf, h.luns⟩

theorem Wf.stripe_pos (h : g.Wf) : 0 < g.stripe := Nat.mul_pos h.pgs_pos h.nchs_pos

theorem lun_pageAt (g : Geometry) (l r : ℕ) :
    (g.pageAt l r).lun = r / g.stripe % g.lunsPerCh := by
  show r / g.pgsPerOneshotpg / g.nchs % g.lunsPerCh = _
  rw [Nat.div_div_eq_div_mul, stripe]

theorem pgsPerLine_stripes (g : Geometry) :
    g.pgsPerLine = g.oneshotpgsPerBlk * g.lunsPerCh * g.stripe := by
  rw [pgsPerLine_eq, stripe]
  ring

theorem stripeEnd_le (hw : g.Wf) (hr : r < g.pgsPerLine) : g.stripeEnd r ≤ g.pgsPerLine := by
  rw [pgsPerLine_stripes] at hr ⊢
  refine Nat.mul_le_mul_right _ (Nat.succ_le_of_lt ?_)
  rwa [Nat.div_lt_iff_lt_mul hw.stripe_pos]

theorem lt_stripeEnd (hw : g.Wf) (r : ℕ) : r < g.stripeEnd r :=
  Nat.lt_mul_of_div_lt (Nat.lt_succ_self _) hw.stripe_pos

/-- Up to its end the pages are on the same stripe. -/
theorem div_stripe_of_lt {r' : ℕ} (h : r ≤ r') (h' : r' < g.stripeEnd r) :
    r' / g.stripe = r / g.stripe := by
  refine Nat.div_eq_of_lt_le ?_ h'
  exact (Nat.div_mul_le_self r g.stripe).trans h

theorem stripeEnd_of_lt {r' : ℕ} (h : r ≤ r') (h' : r' < g.stripeEnd r) :
    g.stripeEnd r' = g.stripeEnd r := by
  unfold stripeEnd
  rw [div_stripe_of_lt h h']

/-- The next page is on another LUN exactly at the end of a stripe. -/
theorem Striped.lun_succ (h : g.Striped) (l l' r : ℕ) :
    (g.pageAt l' (r + 1)).lun = (g.pageAt l r).lun ↔ r + 1 < g.stripeEnd r := by
  have hw := h.wf
  rw [lun_pageAt, lun_pageAt]
  constructor
  · intro heq
    by_contra hge
    have hlt := lt_stripeEnd hw r
    have hend : r + 1 = g.stripeEnd r := by omega
    rw [hend, stripeEnd, Nat.mul_div_cancel _ hw.stripe_pos] at heq
    have hluns := h.luns
    by_cases hc : r / g.stripe % g.lunsPerCh + 1 = g.lunsPerCh
    · have := (carry_digits (by omega) hc).1
      omega
    · have := (succ_digits (by omega) hc).1
      omega
  · intro hlt
    rw [div_stripe_of_lt (Nat.le_succ r) hlt]

theorem Wide.two_le (h : g.Wide) : 2 ≤ g.pgsPerLine := by
  have hs := h.stripe
  rw [pgsPerLine_stripes]
  refine le_trans ?_ (Nat.le_mul_of_pos_left g.stripe
    (Nat.mul_pos h.wf.oneshots_pos h.wf.luns_pos))
  omega

/-- A line has two stripes at least. -/
theorem Wide.two_stripes (h : g.Wide) : 2 * g.stripe ≤ g.pgsPerLine := by
  rw [pgsPerLine_stripes]
  refine Nat.mul_le_mul_right _ (h.luns.trans ?_)
  exact Nat.le_mul_of_pos_left _ h.wf.oneshots_pos

/-- Behind the last page of a line the LUN changes too. -/
theorem Striped.lun_last (h : g.Striped) (l : ℕ) (hr : r + 1 = g.pgsPerLine) :
    (g.pageAt l r).lun ≠ 0 := by
  have hlast := (last_digits h.wf l hr).2.2
  have hluns := h.luns
  omega

/-- The page with number 0 is the first one of line 0. -/
theorem pgNo_ne_zero (hw : g.Wf) (hl : l < g.blksPerPl) (hr : r < g.pgsPerLine) (h : l ≠ 0 ∨ r ≠ 0) :
    g.pgNo (g.pageAt l r) ≠ 0 := by
  intro hc
  have h0 : g.pgNo (g.pageAt 0 0) = 0 := by simp [pgNo, pageAt]
  have hv := pageAt_valid hw hl hr
  have hv0 := pageAt_valid hw hw.blks_pos hw.pgsPerLine_pos
  have := pageAt_inj hw (hv.pgNo_inj hw hv0 (hc.trans h0.symm))
  omega

/-- The page behind the last line is still a page number. -/
theorem Striped.behind_lt (h : g.Striped) (hl : l < g.blksPerPl) :
    0 * g.pgsPerCh + 0 * g.pgsPerLun + (l + 1) * g.pgsPerBlk + 0 < g.ttPgs := by
  have hw := h.wf
  have hle : (l + 1) * g.pgsPerBlk ≤ g.pgsPerLun :=
    (Nat.mul_le_mul_right _ hl).trans_eq (Nat.mul_comm _ _)
  have hlt : g.pgsPerLun * 1 < g.pgsPerLun * g.lunsPerCh :=
    Nat.mul_lt_mul_of_pos_left h.luns hw.pgsPerLun_pos
  have htt : g.pgsPerCh ≤ g.ttPgs := Nat.le_mul_of_pos_right _ hw.nchs_pos
  have hch : g.pgsPerCh = g.pgsPerLun * g.lunsPerCh := rfl
  omega

end Geometry

namespace Device

variable (d : Device)

/-- The pages that `rem` grains from offset `off` of a page on reach. -/
def pagesOf (off rem : ℕ) : ℕ := (off + rem + d.gpp - 1) / d.gpp

variable {d} {off rem : ℕ}

theorem pagesOf_one (hrem : 0 < rem) (h : off + rem ≤ d.gpp) : d.pagesOf off rem = 1 := by
  have hpos := d.build_gpp_pos
  rw [pagesOf, Nat.div_eq_iff (by omega)]
  omega

theorem pagesOf_succ (hoff : off < d.gpp) (h : d.gpp < off + rem) :
    d.pagesOf off rem = d.pagesOf 0 (rem - (d.gpp - off)) + 1 := by
  have hpos := d.build_gpp_pos
  rw [pagesOf, pagesOf, ← Nat.add_div_right _ hpos]
  congr 1
  omega

end Device

namespace Flash

variable {d : Device} {l r off : ℕ}

/-- `enough_space_in_line` looks for one page more than the grains need, on the same
stripe. -/
theorem enoughSpaceLoop_eq (hg : d.geo.Striped) (fuel : ℕ) {rem : ℕ} (hr : r < d.geo.pgsPerLine)
    (hoff : off < d.gpp) (hrem : 0 < rem) (hfuel : rem ≤ fuel) :
    enoughSpaceLoop d l (d.geo.pageAt l r).lun fuel (d.geo.pageAt l r) off rem =
      .ok (decide (r + d.pagesOf off rem < d.geo.stripeEnd r)) := by
  have hw := hg.wf
  induction fuel generalizing r off rem with
  | zero => omega
  | succ fuel ih =>
    rw [enoughSpaceLoop, if_neg (by omega)]
    have hone : 1 ≤ d.pagesOf off rem := by
      by_cases hle : off + rem ≤ d.gpp
      · exact (Device.pagesOf_one hrem hle).ge
      · rw [Device.pagesOf_succ hoff (by omega)]
        omega
    have hend := Geometry.stripeEnd_le hw hr
    rcases Nat.lt_or_eq_of_le (Nat.succ_le_of_lt hr) with hlt | heq
    · rw [Geometry.peekNextPage_pageAt hw hlt, ok_bind]
      by_cases hsame : r + 1 < d.geo.stripeEnd r
      · have hlun := (hg.lun_succ l l r).mpr hsame
        have hse := Geometry.stripeEnd_of_lt (Nat.le_succ r) hsame
        rw [if_neg (not_not.mpr hlun), Nat.mod_eq_of_lt hoff]
        by_cases hle : off + rem ≤ d.gpp
        · rw [Device.pagesOf_one hrem hle, decide_eq_true hsame,
            show rem - min rem (d.gpp - off) = 0 by omega]
          unfold enoughSpaceLoop
          cases fuel <;> simp
        · rw [show rem - min rem (d.gpp - off) = rem - (d.gpp - off) by omega, ← hlun,
            ih hlt d.build_gpp_pos (by omega) (by omega), Device.pagesOf_succ hoff (by omega), hse,
            Nat.succ_add_eq_add_succ]
      · rw [if_pos (fun hc => hsame ((hg.lun_succ l l r).mp hc))]
        rw [decide_eq_false (by omega)]
        rfl
    · rw [Geometry.peekNextPage_last hw heq, ok_bind, if_pos, decide_eq_false (by omega)]
      · rfl
      · exact fun hc => hg.lun_last l heq hc.symm

end Flash

/-! ### The page being filled -/

namespace Flash

variable {d : Device} {io : IoType} {f f' : Flash} {L L' : Grains} {home home' : ℕ → Place}
  {l r off : ℕ}

/-- Page `r` of line `l` is filled up to the offset. Behind the first stripe the line has
invalid grains, so it never gets to the full list. -/
structure Cursor (d : Device) (io : IoType) (f : Flash) (L : Grains) (home : ℕ → Place)
    (l r off : ℕ) : Prop where
  line_lt : l < d.geo.ttLines
  page_lt : r < d.geo.pgsPerLine
  off_lt : off < d.gpp
  nonzero : d.geo.pgNo (d.geo.pageAt l r) ≠ 0
  taken : f.status (d.geo.pgNo (d.geo.pageAt l r)) ≠ .free
  unused : ∀ j, off ≤ j → j < d.gpp → d.ppaToPga (d.geo.pgNo (d.geo.pageAt l r)) j ∉ L.used
  next : r + 1 < d.geo.pgsPerLine → f.wp io = d.geo.pageAt l (r + 1)
  wrap : r + 1 = d.geo.pgsPerLine → ∃ l', f.wp io = d.geo.pageAt l' 0
  kind : (f.lines l).map = io.isMap
  kept : home l ≠ .free ∧ ¬(home l).InHand
  behind : d.geo.stripe ≤ r → 0 < (f.lines l).igc

namespace Cursor

theorem page_valid (h : Cursor d io f L home l r off) (hw : d.geo.Wf) :
    d.geo.Valid (d.geo.pageAt l r) :=
  Geometry.pageAt_valid hw h.line_lt h.page_lt

theorem lineOf (h : Cursor d io f L home l r off) (hw : d.geo.Wf) :
    d.geo.lineOf (d.geo.pgNo (d.geo.pageAt l r)) = l :=
  (h.page_valid hw).lineOf_pgNo

theorem valid (h : Cursor d io f L home l r off) (hw : d.geo.Wf) (hinv : FlashInv d f L home) :
    f.status (d.geo.pgNo (d.geo.pageAt l r)) = .valid := by
  refine hinv.valid_of_unused (h.page_valid hw).pgNo_lt h.taken ?_ (Device.gIdx_ppaToPga h.off_lt)
    (h.unused off le_rfl h.off_lt)
  rw [h.lineOf hw]
  exact h.kept.2

/-- The write pointer stands on the next page. -/
theorem pointer (h : Cursor d io f L home l r off) (hw : d.geo.Wf) (hinv : FlashInv d f L home)
    (hr : r + 1 < d.geo.pgsPerLine) : (f.wp io).blk = l ∧ Pointer d f io (r + 1) := by
  obtain ⟨r', hr'⟩ := hinv.places.pointer io
  have hwp := h.next hr
  have hblk : (f.wp io).blk = l := by rw [hwp, Geometry.pageAt_blk]
  have hpage := hr'.page
  rw [hblk] at hpage
  obtain ⟨-, heq⟩ := Geometry.pageAt_inj hw (hwp.symm.trans hpage)
  exact ⟨hblk, heq ▸ hr'⟩

/-- The other writers do not touch the page. -/
theorem evolves {io' : IoType} (h : Cursor d io f L home l r off)
    (hev : Evolves d io' f f' home home') (hne : io ≠ io')
    (hused : ∀ g ∈ L'.used, g ∉ L.used → f.status (d.gIdx g) = .free) :
    Cursor d io f' L' home' l r off where
  line_lt := h.line_lt
  page_lt := h.page_lt
  off_lt := h.off_lt
  nonzero := h.nonzero
  taken := hev.status _ h.taken
  unused j hj hj' hc := by
    refine h.taken ?_
    have := hused _ hc (h.unused j hj hj')
    rwa [Device.gIdx_ppaToPga hj'] at this
  next hr := (hev.wp io hne).trans (h.next hr)
  wrap hr := by
    rw [hev.wp io hne]
    exact h.wrap hr
  kind := (hev.map l h.kept.1).trans h.kind
  kept := ⟨hev.taken l h.kept.1, fun hc => h.kept.2 ((hev.inHand_iff l).mp hc)⟩
  behind hr := lt_of_lt_of_le (h.behind hr) (hev.igc l h.line_lt)

end Cursor

/-- A page that was just handed out, before anything is put on it. -/
theorem Opens.cursor {p : Ppa} {pgidx : ℕ} (h : Opens d io f f' L' home' p pgidx l r)
    (hbehind : d.geo.stripe ≤ r → 0 < (f'.lines l).igc) : Cursor d io f' L' home' l r 0 where
  line_lt := h.line_lt
  page_lt := h.page_lt
  off_lt := d.build_gpp_pos
  nonzero := by
    rw [← h.page, ← h.number]
    exact h.nonzero
  taken := by
    rw [← h.page, ← h.number, h.valid]
    nofun
  unused j _ hj := by
    rw [← h.page, ← h.number]
    exact h.unused j hj
  next := h.next
  wrap := h.wrap
  kind := h.kind
  kept := h.kept
  behind := hbehind

/-! ### Giving up the rest of a stripe -/

/-- What a writer has done when it leaves a stripe. -/
structure LeavesStripe (d : Device) (io : IoType) (f f' : Flash) (L L' : Grains)
    (home home' : ℕ → Place) (l r : ℕ) : Prop where
  inv : FlashInv d f' L' home'
  evolves : Evolves d io f f' home home'
  wastes : Wastes d f f' L L'
  igc : 0 < (f'.lines l).igc
  wp : f'.wp io = d.geo.pageAt l (d.geo.stripeEnd r) ∨ ∃ l', f'.wp io = d.geo.pageAt l' 0
  near : ∀ g ∈ L'.used, g ∉ L.used →
    d.gIdx g = d.geo.pgNo (d.geo.pageAt l r) ∨ f.status (d.gIdx g) = .free

theorem clearRestLoop_yields (hg : d.geo.Wide) (fuel : ℕ) {rem credits : ℕ}
    (hinv : FlashInv d f L home) (hc : Cursor d io f L home l r off)
    (hfuel : d.geo.stripeEnd r - r < fuel)
    (hrem : (d.geo.stripeEnd r - r) * d.gpp ≤ rem) :
    Yields (clearRestLoop d io (d.geo.pageAt l r).lun fuel f (d.geo.pageAt l r) off rem credits)
      (· = .noFreeLine)
      (fun x => ∃ L' home', LeavesStripe d io f x.2 L L' home home' l r) := by
  have hw := hg.wf
  induction fuel generalizing f L home r off rem credits with
  | zero => omega
  | succ fuel ih =>
    have hlt := Geometry.lt_stripeEnd hw r
    have hend := Geometry.stripeEnd_le hw hc.page_lt
    have hoff := hc.off_lt
    have hgpp : d.gpp ≤ rem := by
      refine le_trans ?_ hrem
      exact Nat.le_mul_of_pos_left _ (by omega)
    have hv := hc.page_valid hw
    obtain ⟨f1, L1, home1, hdis, hinv1, hev1, hwaste1, hwp1, higc1, hused1⟩ :=
      hinv.discardFill io hw hoff hv.pgNo_lt (hc.valid hw hinv) hc.unused
    rw [hc.lineOf hw] at higc1
    have hlen : min rem (d.gpp - off % d.gpp) = d.gpp - off := by
      rw [Nat.mod_eq_of_lt hoff]
      omega
    obtain ⟨f0, hmark, hkill⟩ := bind_eq_ok.mp hdis
    have hnear1 : ∀ g ∈ L1.used, g ∉ L.used →
        d.gIdx g = d.geo.pgNo (d.geo.pageAt l r) := by
      intro g hg' hn
      rw [hused1] at hg'
      have hm := (Finset.mem_union.mp hg').resolve_left hn
      rw [Device.gIdx_of_mem_span _ hm, Device.gIdx_ppaToPga hoff]
      rw [Device.gOffset_ppaToPga hoff]
      omega
    rw [clearRestLoop, if_neg (not_not.mpr rfl), hv.ppa2pgidx_eq, ok_bind]
    simp only [hlen, hmark, hkill, ok_bind]
    set f2 := f1.fillOob d (d.geo.pgNo (d.geo.pageAt l r)) off uintMax with hf2
    have hwp2 : f2.wp = f.wp := hwp1
    have hstop : ∀ {q : Ppa} {c : ℕ}, q.lun ≠ (d.geo.pageAt l r).lun →
        (f.wp io = d.geo.pageAt l (d.geo.stripeEnd r) ∨ ∃ l', f.wp io = d.geo.pageAt l' 0) →
        Yields (clearRestLoop d io (d.geo.pageAt l r).lun fuel f2 q 0 (rem - (d.gpp - off)) c)
          (· = .noFreeLine)
          (fun x => ∃ L' home', LeavesStripe d io f x.2 L L' home home' l r) := by
      intro q c hlun hwp
      obtain ⟨n, rfl⟩ : ∃ n, fuel = n + 1 := ⟨fuel - 1, by omega⟩
      rw [clearRestLoop, if_pos hlun]
      exact ⟨L1, home1, hinv1, hev1, hwaste1, higc1, by rwa [hwp2],
        fun g hg' hn => .inl (hnear1 g hg' hn)⟩
    rcases Nat.lt_or_eq_of_le (Nat.succ_le_of_lt hc.page_lt) with hlt1 | heq
    · have hv1 := Geometry.pageAt_valid hw hc.line_lt hlt1
      rw [Geometry.peekNextPage_pageAt hw hlt1, ok_bind, hv1.ppa2pgidx_eq, ok_bind]
      by_cases hsame : r + 1 < d.geo.stripeEnd r
      · -- the next page is on the stripe
        have hlun := (hg.striped.lun_succ l l r).mpr hsame
        have hse : d.geo.stripeEnd (r + 1) = d.geo.stripeEnd r :=
          Geometry.stripeEnd_of_lt (Nat.le_succ r) hsame
        obtain ⟨hblk, hptr⟩ := hc.pointer hw hinv hlt1
        have hptr2 : Pointer d f2 io (r + 1) := by
          obtain ⟨r', hr'⟩ := hinv1.places.pointer io
          have hpage := hr'.page
          rw [hwp2, hblk, hc.next hlt1] at hpage
          obtain ⟨-, heq⟩ := Geometry.pageAt_inj hw hpage
          exact heq ▸ hr'
        have hadv := advance_yields hinv1 hw hptr2
        rw [hwp2, hc.next hlt1] at hadv
        rw [if_pos hlun]
        cases hf3 : f2.advanceWritePointer d io with
        | error e =>
          rw [hf3] at hadv
          exact hadv
        | ok f3 =>
          rw [hf3, ok_bind] at hadv
          rw [ok_bind]
          refine hadv.bind fun f4 ⟨home4, h4⟩ => ?_
          have hblk2 : (f2.wp io).blk = l := by rw [hwp2, hblk]
          rw [Geometry.pageAt_blk] at h4
          have hinv4 := h4.inv hw hinv1
          have hnz : d.geo.pgNo (d.geo.pageAt l (r + 1)) ≠ 0 :=
            Geometry.pgNo_ne_zero hw hc.line_lt hlt1 (.inr (Nat.succ_ne_zero r))
          have hdirty : Dirty d io f2 (r + 1) := fun _ _ => by
            rw [hblk2]
            exact higc1
          have hop := h4.opens hw hinv1 hdirty hnz
          rw [hblk2] at hop
          have hc4 : Cursor d io f4 L1 home4 l (r + 1) 0 := hop.cursor fun _ => by
            rw [h4.igc]
            exact higc1
          rw [← hlun]
          refine (ih hinv4 hc4 (by omega) ?_).post ?_
          · rw [hse]
            have hmul : (d.geo.stripeEnd r - r) * d.gpp =
                (d.geo.stripeEnd r - (r + 1)) * d.gpp + d.gpp := by
              rw [← Nat.succ_mul]
              congr 1
              omega
            omega
          · rintro ⟨c, f5⟩ ⟨L5, home5, h5⟩
            have hev4 := h4.evolves hinv1.places hdirty
            refine ⟨L5, home5, h5.inv, (hev1.trans hev4).trans h5.evolves,
              (hwaste1.trans (h4.wastes L1)).trans h5.wastes, h5.igc, hse ▸ h5.wp,
              fun g hg' hn => ?_⟩
            by_cases hm : g ∈ L1.used
            · exact .inl (hnear1 g hm hn)
            · refine .inr ?_
              by_contra hc'
              rcases h5.near g hg' hm with h' | h'
              · have hfree := h4.was_free
                rw [← h'] at hfree
                exact hev1.status _ hc' hfree
              · exact hev4.status _ (hev1.status _ hc') h'
      · have hend' : d.geo.stripeEnd r = r + 1 := by omega
        rw [if_neg (fun h => hsame ((hg.striped.lun_succ l l r).mp h)), pure_bind]
        refine hstop (fun h => hsame ((hg.striped.lun_succ l l r).mp h)) (.inl ?_)
        rw [hend']
        exact hc.next hlt1
    · rw [Geometry.peekNextPage_last hw heq, ok_bind, Geometry.ppa2pgidx, ensure_of, ok_bind]
      · have hlun := hg.striped.lun_last l heq
        rw [pure_bind, if_neg (fun h => hlun h.symm), pure_bind]
        exact hstop (fun h => hlun h.symm) (.inr (hc.wrap heq))
      · exact hg.striped.behind_lt hc.line_lt

/-- `clear_rest_of_line`. -/
theorem clearRestOfLine_yields (hg : d.geo.Wide) (hinv : FlashInv d f L home)
    (hc : Cursor d io f L home l r off) :
    Yields (f.clearRestOfLine d (d.geo.pageAt l r) off io) (· = .noFreeLine)
      (fun x => ∃ L' home', LeavesStripe d io f x.2 L L' home home' l r) := by
  have hw := hg.wf
  have hend := Geometry.stripeEnd_le hw hc.page_lt
  refine clearRestLoop_yields hg _ hinv hc (by omega) (Nat.mul_le_mul_right _ ?_)
  refine le_trans ?_ hg.stripe_le
  have := Nat.div_mul_le_self r d.geo.stripe
  rw [Geometry.stripeEnd, Nat.succ_mul]
  omega

/-- The rest of a stripe is given up and a new page is taken. -/
structure NewCursor (d : Device) (io : IoType) (f f' : Flash) (L L' : Grains)
    (home home' : ℕ → Place) (q l r : ℕ) : Prop where
  inv : FlashInv d f' L' home'
  evolves : Evolves d io f f' home home'
  wastes : Wastes d f f' L L'
  cursor : Cursor d io f' L' home' l r 0
  valid : f'.status (d.geo.pgNo (d.geo.pageAt l r)) = .valid
  fresh : f.status (d.geo.pgNo (d.geo.pageAt l r)) = .free
  near : ∀ g ∈ L'.used, g ∉ L.used → d.gIdx g = q ∨ f.status (d.gIdx g) = .free

theorem leaveStripe_yields (hg : d.geo.Wide) (hinv : FlashInv d f L home)
    (hc : Cursor d io f L home l r off) :
    Yields (do let (_, f) ← f.clearRestOfLine d (d.geo.pageAt l r) off io; f.newPage d io)
      (· = .noFreeLine) (fun (p, pgidx, f') => ∃ L' home' l' r', p = d.geo.pageAt l' r' ∧
        pgidx = d.geo.pgNo p ∧ NewCursor d io f f' L L' home home'
          (d.geo.pgNo (d.geo.pageAt l r)) l' r') := by
  have hw := hg.wf
  refine (clearRestOfLine_yields hg hinv hc).bind ?_
  rintro ⟨c, f1⟩ ⟨L1, home1, h1⟩
  obtain ⟨r1, hr1⟩ := h1.inv.places.pointer io
  have hdirty : Dirty d io f1 r1 := by
    intro _ hlast
    have htwo := hg.two_le
    have hpage := hr1.page
    rcases h1.wp with hwp | ⟨l', hwp⟩
    · rw [hwp, Geometry.pageAt_blk]
      exact h1.igc
    · rw [hwp] at hpage
      have := (Geometry.pageAt_inj hw hpage).2
      omega
  refine (newPage_yields h1.inv hw hr1 hdirty hg.two_le).post ?_
  rintro ⟨p, pgidx, f2⟩ ⟨L2, home2, l2, r2, hinv2, hev2, hwaste2, hop, hbehind, hnear⟩
  have hcur : Cursor d io f2 L2 home2 l2 r2 0 := by
    refine hop.cursor fun hr => ?_
    have hs := hw.stripe_pos
    rcases hbehind with ⟨rfl, rfl⟩ | h0 | higc
    · rcases h1.wp with hwp | ⟨l', hwp⟩
      · have hblk : (f1.wp io).blk = l := by rw [hwp, Geometry.pageAt_blk]
        rw [hblk]
        exact lt_of_lt_of_le h1.igc (hev2.igc l hc.line_lt)
      · have hpage := hr1.page
        rw [hwp] at hpage
        have := (Geometry.pageAt_inj hw hpage).2
        omega
    · omega
    · exact higc
  refine ⟨L2, home2, l2, r2, hop.page, hop.number, hinv2, h1.evolves.trans hev2,
    h1.wastes.trans hwaste2, hcur, ?_, ?_, fun g hg' hn => ?_⟩
  · rw [← hop.page, ← hop.number]
    exact hop.valid
  · rw [← hop.page, ← hop.number]
    by_contra hc'
    exact h1.evolves.status _ hc' hop.fresh
  · by_cases hm : g ∈ L1.used
    · exact h1.near g hm hn
    · obtain ⟨h0, hfree⟩ := hnear g hg' hm
      refine .inr ?_
      rw [h0]
      by_contra hc'
      exact h1.evolves.status _ hc' hfree

end Flash

end Virtkv
