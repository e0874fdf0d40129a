import Virtkv.Flash.Fill
import Virtkv.Flash.Init

/-!
# The pages of a pair

`__store` hands out pages one by one, behind its own check of the space in the stripe.
`writePages` is its loop with the pages it writes to, in order. The write pointer of the
user stands right behind the page being filled in every run, whatever else the firmware
does, so where a pair begins decides whether it stays in its line: the check looks for the
rest of one stripe only, and behind a skipped stripe nothing is checked again.
-/

namespace Virtkv

open Outcome

namespace Geometry

variable {g : Geometry} {l r : ℕ}

/-- The pages of a line from number `r` on. -/
def pagesFrom (g : Geometry) (l : ℕ) : ℕ → ℕ → List Ppa
  | _, 0 => []
  | r, k + 1 => g.pageAt l r :: pagesFrom g l (r + 1) k

theorem blk_of_mem_pagesFrom {k : ℕ} {p : Ppa} (h : p ∈ g.pagesFrom l r k) : p.blk = l := by
  induction k generalizing r with
  | zero => cases h
  | succ k ih =>
    rcases List.mem_cons.mp h with rfl | h
    · rfl
    · exact ih h

/-- Pages of a line follow each other. -/
theorem isChain_pagesFrom (hw : g.Wf) {k : ℕ} (h : r + k ≤ g.pgsPerLine) :
    (g.pagesFrom l r k).IsChain (fun p q => g.peekNextPage p = .ok q) := by
  induction k generalizing r with
  | zero => exact .nil
  | succ k ih =>
    cases k with
    | zero => exact .singleton _
    | succ k =>
      refine .cons_cons (peekNextPage_pageAt hw (by omega)) ?_
      exact ih (r := r + 1) (by omega)

/-- Page 0 of line 0 is never used. -/
def usable (l r : ℕ) : ℕ := if l = 0 ∧ r = 0 then 1 else r

theorem usable_lt (h2 : 2 ≤ g.pgsPerLine) (hr : r < g.pgsPerLine) : usable l r < g.pgsPerLine := by
  unfold usable
  split <;> omega

theorem usable_of_pos (l : ℕ) (hr : 0 < r) : usable l r = r := if_neg (by omega)

/-- A line has two pages at least. -/
theorem Striped.two_le (h : g.Striped) : 2 ≤ g.pgsPerLine :=
  calc 2 ≤ g.lunsPerCh * 1 := by rw [Nat.mul_one]; exact h.luns
    _ ≤ g.lunsPerCh * g.nchs := Nat.mul_le_mul_left _ h.wf.nchs_pos
    _ ≤ g.pgsPerLine := Nat.le_mul_of_pos_right _ h.wf.pgsPerBlk_pos

end Geometry

theorem Device.pagesOf_pos (d : Device) (off : ℕ) {rem : ℕ} (h : 0 < rem) :
    0 < d.pagesOf off rem :=
  Nat.div_pos (by omega) d.build_gpp_pos

theorem Device.le_pagesOf_mul (d : Device) (off rem : ℕ) :
    off + rem ≤ d.pagesOf off rem * d.gpp := by
  have hpos := d.build_gpp_pos
  have hmod := Nat.mod_lt (off + rem + d.gpp - 1) hpos
  have hdiv := Nat.div_add_mod (off + rem + d.gpp - 1) d.gpp
  rw [Nat.mul_comm] at hdiv
  unfold pagesOf
  omega

namespace Flash

variable {d : Device} {f f' : Flash} {io : IoType} {l r off : ℕ}

/-! ### The write pointers -/

/-- The write pointers and the free lines are the same. -/
structure KeepsPointers (f f' : Flash) : Prop where
  wp : f'.wp = f.wp
  freeLines : f'.freeLines = f.freeLines

namespace KeepsPointers

theorem refl (f : Flash) : KeepsPointers f f := ⟨rfl, rfl⟩

theorem trans {f'' : Flash} (h : KeepsPointers f f') (h' : KeepsPointers f' f'') :
    KeepsPointers f f'' :=
  ⟨h'.wp.trans h.wp, h'.freeLines.trans h.freeLines⟩

theorem addVictim (h : f.addVictim d l = .ok f') : KeepsPointers f f' := by
  simp only [Flash.addVictim, pqInsert, bind_eq_ok, ensure_eq_ok] at h
  obtain ⟨f1, ⟨-, -, h1⟩, h⟩ := h
  cases h1
  cases h
  exact ⟨rfl, rfl⟩

theorem retireLine (h : f.retireLine d l = .ok f') : KeepsPointers f f' := by
  unfold Flash.retireLine at h
  split at h
  · cases h
    exact ⟨rfl, rfl⟩
  · simp only [bind_eq_ok, ensure_eq_ok] at h
    obtain ⟨-, -, h⟩ := h
    exact addVictim h

theorem markPageValid {p : Ppa} (h : f.markPageValid d p = .ok f') : KeepsPointers f f' := by
  obtain ⟨-, -, -, rfl⟩ := markPageValid_eq_ok h
  exact ⟨rfl, rfl⟩

theorem markGrainValid {grain len : ℕ} (h : f.markGrainValid d grain len = .ok f') :
    KeepsPointers f f' := by
  simp only [Flash.markGrainValid, bitmapSet, bind_eq_ok] at h
  obtain ⟨p, -, -, -, -, -, -, -, h⟩ := h
  split at h
  · simp only [bind_eq_ok] at h
    obtain ⟨-, -, h⟩ := h
    cases h
    exact ⟨rfl, rfl⟩
  · cases h
    exact ⟨rfl, rfl⟩

theorem lowerVgc (f : Flash) (l len : ℕ) : KeepsPointers f (f.lowerVgc l len) := by
  unfold Flash.lowerVgc
  dsimp only
  split <;> exact ⟨rfl, rfl⟩

theorem demote {wasFull : Bool} (h : f.demote d l wasFull = .ok f') : KeepsPointers f f' := by
  unfold Flash.demote at h
  split at h
  · have hk := addVictim h
    exact ⟨hk.wp, hk.freeLines⟩
  · cases h
    exact refl f

theorem killGrain {grain page len : ℕ} (h : f.killGrain d grain page len = .ok f') :
    KeepsPointers f f' := by
  unfold Flash.killGrain at h
  split at h
  · simp only [bind_eq_ok] at h
    obtain ⟨-, -, h⟩ := h
    cases h
    exact ⟨rfl, rfl⟩
  · simp only [bind_eq_ok] at h
    obtain ⟨-, -, h⟩ := h
    split at h
    · simp only [markPageInvalid, bind_eq_ok] at h
      obtain ⟨-, -, -, -, h⟩ := h
      cases h
      exact ⟨rfl, rfl⟩
    · cases h
      exact ⟨rfl, rfl⟩

theorem markGrainInvalidPage {grain page len : ℕ} {wasFull wasFull' : Bool}
    (h : f.markGrainInvalidPage d l grain page len wasFull = .ok (wasFull', f')) :
    KeepsPointers f f' := by
  simp only [Flash.markGrainInvalidPage, bind_eq_ok] at h
  obtain ⟨-, -, -, -, -, -, -, -, -, -, -, -, -, -, f1, h1, -, -, f2, h2, h⟩ := h
  cases h
  have hlow := lowerVgc (f.addBlkIgc (blkOf d page) len) l len
  exact ((⟨hlow.wp, hlow.freeLines⟩ : KeepsPointers f _).trans (demote h1)).trans (killGrain h2)

theorem markGrainInvalidLoop {fuel : ℕ} {p : Ppa} {grain page rem : ℕ} {wasFull : Bool}
    (h : Flash.markGrainInvalidLoop d fuel f p grain page rem wasFull = .ok f') :
    KeepsPointers f f' := by
  induction fuel generalizing f p grain page rem wasFull with
  | zero => cases h
  | succ fuel ih =>
    simp only [Flash.markGrainInvalidLoop, bind_eq_ok] at h
    obtain ⟨⟨w, f1⟩, h1, h⟩ := h
    split at h
    · cases h
      exact markGrainInvalidPage h1
    · simp only [bind_eq_ok] at h
      obtain ⟨q, -, -, -, pg, -, h⟩ := h
      exact (markGrainInvalidPage h1).trans (ih h)

theorem markGrainInvalid {grain len : ℕ} (h : f.markGrainInvalid d grain len = .ok f') :
    KeepsPointers f f' := by
  simp only [Flash.markGrainInvalid, bind_eq_ok] at h
  obtain ⟨p, -, -, -, h⟩ := h
  exact markGrainInvalidLoop h

theorem tagSpill (f : Flash) (pgidx sz : ℕ) : KeepsPointers f (f.tagSpill d pgidx sz) := by
  unfold Flash.tagSpill
  split <;> exact ⟨rfl, rfl⟩

theorem spillLoop {fuel : ℕ} {p : Ppa} {rem : ℕ}
    (h : Flash.spillLoop d l fuel f p rem = .ok f') : KeepsPointers f f' := by
  induction fuel generalizing f p rem with
  | zero => cases h
  | succ fuel ih =>
    simp only [Flash.spillLoop, bind_eq_ok] at h
    obtain ⟨q, -, -, -, pgidx, -, h⟩ := h
    split at h
    · cases h
      exact tagSpill ..
    · exact (tagSpill ..).trans (ih h)

theorem tagPair {grain lpa glen : ℕ} (h : f.tagPair d grain lpa glen = .ok f') :
    KeepsPointers f f' := by
  unfold Flash.tagPair at h
  dsimp only at h
  split at h
  · simp only [bind_eq_ok] at h
    obtain ⟨p, -, h⟩ := h
    have hk := spillLoop h
    exact ⟨hk.wp, hk.freeLines⟩
  · cases h
    exact ⟨rfl, rfl⟩

end KeepsPointers

/-- The line the next free-line allocation takes. -/
def nextFree (f : Flash) : ℕ := f.freeLines.headD 0

/-- A writer's pointer stands right behind page `r`, on the next page of the line or on the
first page of another line. -/
structure PointsBehind (d : Device) (io : IoType) (f : Flash) (l r : ℕ) : Prop where
  next : r + 1 < d.geo.pgsPerLine → f.wp io = d.geo.pageAt l (r + 1)
  wrap : r + 1 = d.geo.pgsPerLine → ∃ l' < d.geo.ttLines, f.wp io = d.geo.pageAt l' 0

theorem PointsBehind.of_eq (h : PointsBehind d io f l r) (hwp : f'.wp io = f.wp io) :
    PointsBehind d io f' l r where
  next hr := hwp.trans (h.next hr)
  wrap hr := by
    rw [hwp]
    exact h.wrap hr

/-- What `advance_write_pointer` does to the pointer on page `r`. -/
structure Advances (d : Device) (io : IoType) (f f' : Flash) (l r : ℕ) : Prop where
  inside : r + 1 < d.geo.pgsPerLine →
    f'.wp io = d.geo.pageAt l (r + 1) ∧ f'.freeLines = f.freeLines
  last : r + 1 = d.geo.pgsPerLine →
    f'.wp io = d.geo.pageAt f.nextFree 0 ∧ f.nextFree < d.geo.ttLines

theorem Advances.behind (h : Advances d io f f' l r) : PointsBehind d io f' l r where
  next hr := (h.inside hr).1
  wrap hr := ⟨_, (h.last hr).2, (h.last hr).1⟩

theorem advances_of_advanceWritePointer (hw : d.geo.Wf) (hwp : f.wp io = d.geo.pageAt l r)
    (h : f.advanceWritePointer d io = .ok f') : Advances d io f f' l r where
  inside hr := by
    rw [advanceWritePointer_pageAt hw hwp hr] at h
    cases h
    exact ⟨Function.update_self .., rfl⟩
  last hr := by
    rw [advanceWritePointer_last hw hwp hr] at h
    simp only [nextLine, bind_eq_ok, ensure_eq_ok] at h
    obtain ⟨f1, h1, -, -, ⟨l', f2⟩, h2, -, hl', h⟩ := h
    cases h
    have hfree := (KeepsPointers.retireLine h1).freeLines
    unfold getNextFreeLine at h2
    split at h2
    · cases h2
    · rename_i ls heq
      cases h2
      have hnext : f.nextFree = l' := by
        rw [nextFree, ← hfree, heq]
        rfl
      rw [hnext, Geometry.pageAt_zero]
      exact ⟨Function.update_self .., hl'⟩

/-! ### Leaving a stripe -/

/-- The line that follows when the stripe of page `r` is the last one of its line. -/
def lineBehind (d : Device) (io : IoType) (f : Flash) (r : ℕ) : ℕ :=
  if r + 1 = d.geo.pgsPerLine then (f.wp io).blk else f.nextFree

/-- The pointer after the rest of the stripe of page `r` is given up. -/
structure PointsToStripe (d : Device) (io : IoType) (f f' : Flash) (l r : ℕ) : Prop where
  inside : d.geo.stripeEnd r < d.geo.pgsPerLine → f'.wp io = d.geo.pageAt l (d.geo.stripeEnd r)
  last : d.geo.stripeEnd r = d.geo.pgsPerLine →
    f'.wp io = d.geo.pageAt (lineBehind d io f r) 0 ∧ lineBehind d io f r < d.geo.ttLines

/-- On the last page of a stripe the pointer is there already. -/
theorem PointsBehind.pointsToStripe (h : PointsBehind d io f l r) (hwp : f'.wp io = f.wp io)
    (hend : d.geo.stripeEnd r = r + 1) : PointsToStripe d io f f' l r where
  inside hlt := by
    rw [hend] at hlt ⊢
    exact hwp.trans (h.next hlt)
  last heq := by
    rw [hend] at heq
    obtain ⟨l', hl', hwp'⟩ := h.wrap heq
    rw [lineBehind, if_pos heq, hwp, hwp']
    exact ⟨rfl, hl'⟩

/-- One page further on the same stripe. -/
theorem PointsToStripe.of_succ {f1 : Flash} (h : PointsToStripe d io f1 f' l (r + 1))
    (ha : Advances d io f f1 l (r + 1)) (hr : r + 1 < d.geo.stripeEnd r) :
    PointsToStripe d io f f' l r := by
  have hse := Geometry.stripeEnd_of_lt (Nat.le_succ r) hr
  refine ⟨fun hlt => ?_, fun heq => ?_⟩
  · rw [← hse] at hlt ⊢
    exact h.inside hlt
  · have hline : lineBehind d io f1 (r + 1) = lineBehind d io f r := by
      unfold lineBehind
      rw [if_neg (show r + 1 ≠ d.geo.pgsPerLine by omega)]
      by_cases hlast : r + 1 + 1 = d.geo.pgsPerLine
      · rw [if_pos hlast, (ha.last hlast).1]
        rfl
      · rw [if_neg hlast, nextFree, (ha.inside (by omega)).2]
        rfl
    rw [← hline]
    exact h.last (hse.trans heq)

theorem clearRestLoop_points (hg : d.geo.Striped) (fuel : ℕ) {rem credits credits' : ℕ}
    (hr : r < d.geo.pgsPerLine) (hb : PointsBehind d io f l r)
    (h : clearRestLoop d io (d.geo.pageAt l r).lun fuel f (d.geo.pageAt l r) off rem credits =
      .ok (credits', f')) :
    PointsToStripe d io f f' l r := by
  have hw := hg.wf
  induction fuel generalizing f r off rem credits with
  | zero => cases h
  | succ fuel ih =>
    have hlt := Geometry.lt_stripeEnd hw r
    have hend := Geometry.stripeEnd_le hw hr
    rw [clearRestLoop, if_neg (not_not.mpr rfl)] at h
    simp only [bind_eq_ok] at h
    obtain ⟨pgidx, -, f1, h1, f2, h2, q, hq, q', -, h⟩ := h
    have hkeep := (KeepsPointers.markGrainValid h1).trans (KeepsPointers.markGrainInvalid h2)
    -- the next page: on the stripe, or the loop ends
    have hstop : q.lun ≠ (d.geo.pageAt l r).lun → d.geo.stripeEnd r = r + 1 →
        PointsToStripe d io f f' l r := by
      intro hlun hse
      rw [if_neg hlun, pure_bind] at h
      cases fuel with
      | zero => cases h
      | succ fuel =>
        rw [clearRestLoop, if_pos hlun] at h
        cases h
        exact hb.pointsToStripe (by rw [← hkeep.wp]; rfl) hse
    rcases Nat.lt_or_eq_of_le (Nat.succ_le_of_lt hr) with hlt1 | heq
    · rw [Geometry.peekNextPage_pageAt hw hlt1] at hq
      cases hq
      by_cases hsame : r + 1 < d.geo.stripeEnd r
      · have hlun := (hg.lun_succ l l r).mpr hsame
        rw [if_pos hlun] at h
        simp only [bind_eq_ok] at h
        obtain ⟨f4, h4, f3, h3, h⟩ := h
        have hwp2 : (f2.fillOob d pgidx off uintMax).wp io = d.geo.pageAt l (r + 1) := by
          show f2.wp io = _
          rw [hkeep.wp]
          exact hb.next hlt1
        have ha := advances_of_advanceWritePointer hw hwp2 h4
        have hmark := KeepsPointers.markPageValid h3
        have ha3 : Advances d io f f3 l (r + 1) := by
          refine ⟨fun hr' => ?_, fun hr' => ?_⟩
          · rw [hmark.wp, hmark.freeLines, ← hkeep.freeLines]
            exact ha.inside hr'
          · rw [hmark.wp, nextFree, ← hkeep.freeLines]
            exact ha.last hr'
        rw [← hlun] at h
        exact (ih hlt1 ha3.behind h).of_succ ha3 hsame
      · exact hstop (fun hc => hsame ((hg.lun_succ l l r).mp hc)) (by omega)
    · rw [Geometry.peekNextPage_last hw heq] at hq
      cases hq
      exact hstop (fun hc => hg.lun_last l heq hc.symm) (by omega)

/-! ### New pages -/

theorem takePage_points (hw : d.geo.Wf) {p : Ppa} {pgidx : ℕ} (hl : l < d.geo.ttLines)
    (hr : r < d.geo.pgsPerLine) (hwp : f.wp io = d.geo.pageAt l r)
    (h : f.takePage d io = .ok (p, pgidx, f')) :
    p = d.geo.pageAt l r ∧ pgidx = d.geo.pgNo p ∧ Advances d io f f' l r := by
  simp only [takePage, getNewPage, hwp, bind_eq_ok] at h
  obtain ⟨q, hq, f1, h1, f2, h2, h⟩ := h
  rw [(Geometry.pageAt_valid hw hl hr).ppa2pgidx_eq] at hq
  cases hq
  cases h
  have ha := advances_of_advanceWritePointer hw hwp h1
  have hmark := KeepsPointers.markPageValid h2
  refine ⟨rfl, rfl, fun hr' => ?_, fun hr' => ?_⟩
  · rw [hmark.wp, hmark.freeLines]
    exact ha.inside hr'
  · rw [hmark.wp]
    exact ha.last hr'

/-- A new page is the one under the pointer, but never page 0. -/
theorem newPage_points (hw : d.geo.Wf) (h2 : 2 ≤ d.geo.pgsPerLine) {p : Ppa} {pgidx : ℕ}
    (hl : l < d.geo.ttLines) (hr : r < d.geo.pgsPerLine) (hwp : f.wp io = d.geo.pageAt l r)
    (h : f.newPage d io = .ok (p, pgidx, f')) :
    p = d.geo.pageAt l (Geometry.usable l r) ∧ pgidx = d.geo.pgNo p ∧ pgidx ≠ 0 ∧
      PointsBehind d io f' l (Geometry.usable l r) := by
  simp only [newPage, takePageLoop, bind_eq_ok] at h
  obtain ⟨⟨q, pg, f1⟩, htake, h⟩ := h
  obtain ⟨rfl, rfl, ha⟩ := takePage_points hw hl hr hwp htake
  by_cases h0 : l = 0 ∧ r = 0
  · obtain ⟨rfl, rfl⟩ := h0
    have hzero : d.geo.pgNo (d.geo.pageAt 0 0) = 0 := by simp [Geometry.pgNo, Geometry.pageAt]
    dsimp only at h
    rw [if_pos hzero] at h
    simp only [discardFrom, bind_eq_ok] at h
    obtain ⟨f3, ⟨f2, hval, hinv⟩, h⟩ := h
    have hkeep := (KeepsPointers.markGrainValid hval).trans (KeepsPointers.markGrainInvalid hinv)
    have hwp3 : f3.wp io = d.geo.pageAt 0 1 := by
      rw [hkeep.wp]
      exact (ha.inside (by omega)).1
    cases htt : d.geo.ttPgs with
    | zero =>
      rw [htt] at h
      cases h
    | succ n =>
      rw [htt] at h
      simp only [takePageLoop, bind_eq_ok] at h
      obtain ⟨⟨q, pg, f4⟩, htake', h⟩ := h
      obtain ⟨rfl, rfl, ha'⟩ := takePage_points hw hl (by omega) hwp3 htake'
      have hne := Geometry.pgNo_ne_zero hw hl (show 1 < d.geo.pgsPerLine by omega)
        (.inr Nat.one_ne_zero)
      dsimp only at h
      rw [if_neg hne] at h
      cases h
      exact ⟨rfl, rfl, hne, ha'.behind⟩
  · have hne := Geometry.pgNo_ne_zero hw hl hr (by omega)
    have huse : Geometry.usable l r = r := if_neg h0
    dsimp only at h
    rw [if_neg hne] at h
    cases h
    rw [huse]
    exact ⟨rfl, rfl, hne, ha.behind⟩

/-! ### The position of the user's writer -/

/-- The flash with the position of `__store`. -/
structure Writer where
  flash : Flash
  pos : UserPos

/-- The writer fills page `r` of line `l` from offset `off` on. -/
structure Writer.Filling (d : Device) (s : Writer) (l r off : ℕ) : Prop where
  line_lt : l < d.geo.ttLines
  page_lt : r < d.geo.pgsPerLine
  off_lt : off < d.gpp
  nonzero : d.geo.pgNo (d.geo.pageAt l r) ≠ 0
  pos : s.pos = d.userAt l r off
  behind : PointsBehind d .user s.flash l r

/-- The writer is at offset `off` of page `r` of line `l`. A byte offset of 0 stands for no
page: so it is at first, and the collector puts it back to 0 when it cleans the page being
filled. -/
structure Writer.At (d : Device) (s : Writer) (l r off : ℕ) : Prop where
  line_lt : l < d.geo.ttLines
  page_lt : r < d.geo.pgsPerLine
  off_lt : off < d.gpp
  page : s.pos.curPage = d.geo.pageAt l r
  behind : PointsBehind d .user s.flash l r
  offset : s.pos.offset = 0 ∧ off = 0 ∨ s.Filling d l r off

theorem Writer.Filling.at {s : Writer} (h : s.Filling d l r off) : s.At d l r off where
  line_lt := h.line_lt
  page_lt := h.page_lt
  off_lt := h.off_lt
  page := by rw [h.pos]; rfl
  behind := h.behind
  offset := .inr h

theorem Writer.Filling.of_wp {s : Writer} (h : s.Filling d l r off)
    (hwp : f.wp .user = s.flash.wp .user) : Writer.Filling d ⟨f, s.pos⟩ l r off :=
  ⟨h.line_lt, h.page_lt, h.off_lt, h.nonzero, h.pos, h.behind.of_eq hwp⟩

/-- The position does not depend on anything else of the flash. -/
theorem Writer.At.of_wp {s : Writer} (h : s.At d l r off)
    (hwp : f.wp .user = s.flash.wp .user) : Writer.At d ⟨f, s.pos⟩ l r off :=
  ⟨h.line_lt, h.page_lt, h.off_lt, h.page, h.behind.of_eq hwp,
    h.offset.imp_right fun hu => hu.of_wp hwp⟩

theorem Writer.Filling.offset_ne_zero {s : Writer} (h : s.Filling d l r off) :
    s.pos.offset ≠ 0 := by
  rw [h.pos]
  show d.geo.pgNo (d.geo.pageAt l r) * pageSize + off * d.gu ≠ 0
  have hne := h.nonzero
  have : 0 < d.geo.pgNo (d.geo.pageAt l r) * pageSize := Nat.mul_pos (by omega) (by decide)
  omega

theorem Writer.At.off_eq {s : Writer} (h : s.At d l r off) :
    d.gOffset (s.pos.offset / d.gu) = off := by
  rcases h.offset with ⟨h0, rfl⟩ | hu
  · rw [h0, Nat.zero_div]
    exact Nat.zero_mod _
  · rw [hu.pos, Device.userAt_div, Device.gOffset_ppaToPga h.off_lt]

/-- `__new_page`. -/
theorem newUserPage_at (hw : d.geo.Wf) (h2 : 2 ≤ d.geo.pgsPerLine) {u : UserPos}
    (hl : l < d.geo.ttLines) (hr : r < d.geo.pgsPerLine) (hwp : f.wp .user = d.geo.pageAt l r)
    (h : f.newUserPage d = .ok (u, f')) :
    Writer.Filling d ⟨f', u⟩ l (Geometry.usable l r) 0 := by
  simp only [newUserPage, bind_eq_ok] at h
  obtain ⟨⟨p, pgidx, f1⟩, hnew, h⟩ := h
  obtain ⟨rfl, rfl, hne, hb⟩ := newPage_points hw h2 hl hr hwp hnew
  cases h
  exact ⟨hl, Geometry.usable_lt h2 hr, d.build_gpp_pos, hne, by simp [Device.userAt], hb⟩

/-! ### Where a pair begins -/

/-- The number of the page on which a pair begins when the rest of the stripe of page `r` is
given up. -/
def restart (d : Device) (f : Flash) (r : ℕ) : ℕ :=
  if d.geo.stripeEnd r < d.geo.pgsPerLine then d.geo.stripeEnd r
  else Geometry.usable (lineBehind d .user f r) 0

/-- A pair of `n` grains fits the rest of the stripe, or it fits the rest of the line on
which it begins when the stripe is given up. -/
def Writer.Room (d : Device) (s : Writer) (n : ℕ) : Prop :=
  ∀ l r, s.pos.curPage = d.geo.pageAt l r → r < d.geo.pgsPerLine →
    r + d.pagesOf (d.gOffset (s.pos.offset / d.gu)) n < d.geo.stripeEnd r ∨
      restart d s.flash r + d.pagesOf 0 n ≤ d.geo.pgsPerLine

theorem firstUserPage_of_ne {u u' : UserPos} (h : u.offset ≠ 0)
    (hf : f.firstUserPage d u = .ok (u', f')) : u' = u ∧ f' = f := by
  rw [firstUserPage, if_neg h] at hf
  cases hf
  exact ⟨rfl, rfl⟩

/-- The page on which a pair begins behind a stripe that was given up. -/
theorem skipStripe_at (hg : d.geo.Striped) (h2 : 2 ≤ d.geo.pgsPerLine) {s : Writer}
    (hs : s.At d l r off) {credits : ℕ} {u : UserPos}
    (h : s.flash.skipStripe d s.pos = .ok (credits, u, f')) :
    ∃ l', Writer.Filling d ⟨f', u⟩ l' (restart d s.flash r) 0 := by
  have hw := hg.wf
  simp only [skipStripe, bind_eq_ok] at h
  obtain ⟨-, -, ⟨c, f1⟩, hclear, ⟨u2, f2⟩, hnew, h⟩ := h
  cases h
  rw [hs.page, clearRestOfLine] at hclear
  have hpts := clearRestLoop_points hg _ hs.page_lt hs.behind hclear
  have hend := Geometry.stripeEnd_le hw hs.page_lt
  rcases Nat.lt_or_eq_of_le hend with hlt | heq
  · have hpos : 0 < d.geo.stripeEnd r := by
      have := Geometry.lt_stripeEnd hw r
      omega
    have hnew' := newUserPage_at hw h2 hs.line_lt hlt (hpts.inside hlt) hnew
    rw [Geometry.usable_of_pos l hpos] at hnew'
    rw [restart, if_pos hlt]
    exact ⟨l, hnew'⟩
  · obtain ⟨hwp, hl'⟩ := hpts.last heq
    rw [restart, if_neg (by omega)]
    exact ⟨_, newUserPage_at hw h2 hl' (by omega) hwp hnew⟩

/-- Where room was found, the pair stays in the line it begins on. -/
theorem start_at (hg : d.geo.Striped) (h2 : 2 ≤ d.geo.pgsPerLine) {s : Writer}
    (hs : s.At d l r off) {n credits : ℕ} (hn : 0 < n) (hroom : s.Room d n) {u u' : UserPos}
    {f1 : Flash} (hskip : s.flash.skipUnlessFits d s.pos n = .ok (credits, u, f1))
    (hfirst : f1.firstUserPage d u = .ok (u', f')) :
    ∃ l' r' off', Writer.Filling d ⟨f', u'⟩ l' r' off' ∧
      r' + d.pagesOf off' n ≤ d.geo.pgsPerLine := by
  have hw := hg.wf
  have hend := Geometry.stripeEnd_le hw hs.page_lt
  have hroom := hroom l r hs.page hs.page_lt
  rw [hs.off_eq] at hroom
  simp only [skipUnlessFits, hs.off_eq, hs.page, enoughSpaceInLine, Geometry.pageAt_blk,
    enoughSpaceLoop_eq hg n hs.page_lt hs.off_lt hn le_rfl, ok_bind, decide_eq_true_eq] at hskip
  by_cases hfits : r + d.pagesOf off n < d.geo.stripeEnd r
  · rw [if_pos hfits] at hskip
    cases hskip
    have hpages := d.pagesOf_pos off hn
    rcases hs.offset with ⟨h0, rfl⟩ | hu
    · -- no page yet: the pair begins on the next one
      rw [firstUserPage, if_pos h0] at hfirst
      have hnext := hs.behind.next (by omega)
      have hat := newUserPage_at hw h2 hs.line_lt (by omega) hnext hfirst
      rw [Geometry.usable_of_pos l (Nat.succ_pos r)] at hat
      exact ⟨l, r + 1, 0, hat, by omega⟩
    · obtain ⟨rfl, rfl⟩ := firstUserPage_of_ne hu.offset_ne_zero hfirst
      exact ⟨l, r, off, hu, by omega⟩
  · rw [if_neg hfits] at hskip
    obtain ⟨l', hat⟩ := skipStripe_at hg h2 hs hskip
    obtain ⟨rfl, rfl⟩ := firstUserPage_of_ne hat.offset_ne_zero hfirst
    exact ⟨l', _, 0, hat, hroom.resolve_left hfits⟩

/-! ### The pages handed out to a pair -/

/-- `writeLoop` with the pages it writes to. -/
def writePages (d : Device) :
    ℕ → Flash → UserPos → ℕ → Except Fault (List Ppa × UserPos × Flash)
  | 0, _, _, _ => .error .hang
  | fuel + 1, f, u, rem => do
    let sz := min rem (pageSize - u.offset % pageSize)
    let f ← f.markGrainValid d (u.offset / d.gu) (d.grainsOf sz)
    let p := u.curPage
    let u := { u with offset := u.offset + d.grainsOf sz * d.gu }
    if rem - sz = 0 ∧ u.offset % pageSize ≠ 0 then return ([p], u, f)
    ensure (u.offset % pageSize = 0) .bug
    let (u, f) ← f.newUserPage d
    if rem - sz = 0 then return ([p], u, f)
    let (ps, u, f) ← writePages d fuel f u (rem - sz)
    return (p :: ps, u, f)

theorem writeLoop_eq_writePages (fuel : ℕ) (f : Flash) (u : UserPos) (rem : ℕ) :
    writeLoop d fuel f u rem = (do let (_, x) ← writePages d fuel f u rem; return x) := by
  induction fuel generalizing f u rem with
  | zero => rfl
  | succ fuel ih =>
    rw [writeLoop, writePages]
    simp only [ih, bind_assoc]
    refine bind_congr fun f1 => ?_
    split
    · rfl
    rw [bind_assoc]
    refine bind_congr fun _ => ?_
    rw [bind_assoc]
    refine bind_congr fun x => ?_
    split
    · rfl
    · simp only [bind_assoc, pure_bind]

/-- The page behind the one being filled. -/
theorem newUserPage_behind (hw : d.geo.Wf) (h2 : 2 ≤ d.geo.pgsPerLine) {u : UserPos}
    (hl : l < d.geo.ttLines) (hr : r < d.geo.pgsPerLine) (hb : PointsBehind d .user f l r)
    (h : f.newUserPage d = .ok (u, f')) :
    ∃ l' r', Writer.Filling d ⟨f', u⟩ l' r' 0 ∧
      (r + 1 < d.geo.pgsPerLine → l' = l ∧ r' = r + 1) := by
  rcases Nat.lt_or_eq_of_le (Nat.succ_le_of_lt hr) with hlt | heq
  · have hfill := newUserPage_at hw h2 hl hlt (hb.next hlt) h
    rw [Geometry.usable_of_pos l (Nat.succ_pos r)] at hfill
    exact ⟨l, r + 1, hfill, fun _ => ⟨rfl, rfl⟩⟩
  · obtain ⟨l', hl', hwp⟩ := hb.wrap heq
    exact ⟨l', _, newUserPage_at hw h2 hl' (by omega) hwp h, fun hlt => absurd heq (by omega)⟩

/-- Grains that fill page `r` up to an offset. -/
theorem userAt_offset_add (d : Device) (l r off n : ℕ) :
    (d.userAt l r off).offset + n * d.gu = (d.userAt l r (off + n)).offset := by
  simp only [Device.userAt, Nat.add_mul, Nat.add_assoc]

theorem userAt_full (d : Device) (l r : ℕ) : (d.userAt l r d.gpp).offset % pageSize = 0 := by
  show (_ * pageSize + d.gpp * d.gu) % pageSize = 0
  rw [d.gpp_mul_gu, Nat.mul_add_mod_self_right, Nat.mod_self]

/-- The pages of a pair that has room are consecutive pages of the line. -/
theorem writePages_at (hg : d.geo.Striped) (h2 : 2 ≤ d.geo.pgsPerLine) (fuel : ℕ) {rem : ℕ}
    {u u' : UserPos} {ps : List Ppa} (hs : Writer.Filling d ⟨f, u⟩ l r off) (hrem : 0 < rem)
    (hin : r + d.pagesOf off (d.grainsOf rem) ≤ d.geo.pgsPerLine)
    (h : writePages d fuel f u rem = .ok (ps, u', f')) :
    ps = d.geo.pagesFrom l r (d.pagesOf off (d.grainsOf rem)) ∧
      ∃ l' r' off', Writer.Filling d ⟨f', u'⟩ l' r' off' := by
  have hw := hg.wf
  induction fuel generalizing f u r off rem ps with
  | zero => cases h
  | succ fuel ih =>
    have hoff := hs.off_lt
    have hu : u = d.userAt l r off := hs.pos
    have hroom : pageSize - off * d.gu = (d.gpp - off) * d.gu := by
      rw [Nat.sub_mul, d.gpp_mul_gu]
    rw [writePages, hu, Device.userAt_mod l r hoff, hroom] at h
    simp only [bind_eq_ok, userAt_offset_add] at h
    obtain ⟨f1, h1, h⟩ := h
    have hb1 : PointsBehind d .user f1 l r :=
      hs.behind.of_eq (by rw [(KeepsPointers.markGrainValid h1).wp])
    have hpage : (d.userAt l r off).curPage = d.geo.pageAt l r := rfl
    rw [hpage] at h
    by_cases hlast : rem ≤ (d.gpp - off) * d.gu
    · -- the pair ends on this page
      have hn := Device.grainsOf_le hlast
      have hpos := d.grainsOf_pos hrem
      rw [min_eq_left hlast, Nat.sub_self] at h
      rw [Device.pagesOf_one hpos (by omega)]
      by_cases hfull : off + d.grainsOf rem = d.gpp
      · rw [hfull, if_neg (fun hc => hc.2 (userAt_full d l r))] at h
        simp only [bind_eq_ok, if_true] at h
        obtain ⟨-, -, ⟨u2, f2⟩, hnew, h⟩ := h
        cases h
        obtain ⟨l', r', hfill, -⟩ := newUserPage_behind hw h2 hs.line_lt hs.page_lt hb1 hnew
        exact ⟨rfl, l', r', 0, hfill⟩
      · have hlt : off + d.grainsOf rem < d.gpp := by omega
        rw [if_pos] at h
        · cases h
          exact ⟨rfl, l, r, off + d.grainsOf rem, hs.line_lt, hs.page_lt, hlt, hs.nonzero, rfl, hb1⟩
        · refine ⟨rfl, ?_⟩
          rw [Device.userAt_mod l r hlt]
          exact (Nat.mul_pos (by omega) d.gu_pos).ne'
    · -- it goes on behind the page
      have hlong : (d.gpp - off) * d.gu < rem := not_le.mp hlast
      have hsplit := Device.grainsOf_sub hlong
      have hrest := d.grainsOf_pos (show 0 < rem - (d.gpp - off) * d.gu by omega)
      have hpages : d.pagesOf off (d.grainsOf rem) =
          d.pagesOf 0 (d.grainsOf (rem - (d.gpp - off) * d.gu)) + 1 := by
        rw [Device.pagesOf_succ hoff (by omega), hsplit, Nat.add_sub_cancel_left]
      have hpos := d.pagesOf_pos 0 hrest
      rw [min_eq_right hlong.le, Device.grainsOf_mul, Nat.add_sub_cancel' hoff.le,
        if_neg (by omega)] at h
      simp only [bind_eq_ok] at h
      obtain ⟨-, -, ⟨u2, f2⟩, hnew, h⟩ := h
      dsimp only at h
      rw [if_neg (by omega)] at h
      simp only [bind_eq_ok] at h
      obtain ⟨⟨ps', u3, f3⟩, hrun, h⟩ := h
      cases h
      obtain ⟨l', r', hfill, hnext⟩ := newUserPage_behind hw h2 hs.line_lt hs.page_lt hb1 hnew
      obtain ⟨rfl, rfl⟩ := hnext (by omega)
      obtain ⟨rfl, hend⟩ := ih hfill (by omega) (by omega) hrun
      rw [hpages]
      exact ⟨rfl, hend⟩

/-! ### Giving up a pair -/

/-- The rounds of `mark_grain_invalid` over given pages of line `l`, without its walk from
page to page. -/
def invalidOver (d : Device) (l : ℕ) :
    List Ppa → Flash → ℕ → ℕ → Bool → Except Fault Flash
  | [], f, _, _, _ => .ok f
  | p :: ps, f, off, rem, wasFull => do
    let len := min rem (d.gpp - off)
    let (wasFull, f) ←
      f.markGrainInvalidPage d l (d.ppaToPga (d.geo.pgNo p) off) (d.geo.pgNo p) len wasFull
    invalidOver d l ps f 0 (rem - len) wasFull

/-- Inside a line the walk of `mark_grain_invalid` finds the pages in order. -/
theorem markGrainInvalidLoop_eq (hw : d.geo.Wf) (fuel : ℕ) {rem : ℕ} {wasFull : Bool}
    (hl : l < d.geo.ttLines) (hoff : off < d.gpp) (hrem : 0 < rem) (hfuel : rem ≤ fuel)
    (hin : r + d.pagesOf off rem ≤ d.geo.pgsPerLine) (f : Flash) :
    markGrainInvalidLoop d fuel f (d.geo.pageAt l r)
        (d.ppaToPga (d.geo.pgNo (d.geo.pageAt l r)) off) (d.geo.pgNo (d.geo.pageAt l r)) rem
        wasFull =
      invalidOver d l (d.geo.pagesFrom l r (d.pagesOf off rem)) f off rem wasFull := by
  induction fuel generalizing f r off rem wasFull with
  | zero => omega
  | succ fuel ih =>
    rw [markGrainInvalidLoop, Device.gOffset_ppaToPga hoff, Geometry.pageAt_blk]
    by_cases hlast : off + rem ≤ d.gpp
    · rw [Device.pagesOf_one hrem hlast]
      refine bind_congr fun x => ?_
      dsimp only
      rw [if_pos (by omega)]
      rfl
    · have hlen : min rem (d.gpp - off) = d.gpp - off := by omega
      have hpos := d.pagesOf_pos 0 (show 0 < rem - (d.gpp - off) by omega)
      rw [Device.pagesOf_succ hoff (by omega)] at hin ⊢
      rw [Geometry.pagesFrom, invalidOver, hlen]
      refine bind_congr fun x => ?_
      have hv := Geometry.pageAt_valid hw hl (show r + 1 < d.geo.pgsPerLine by omega)
      dsimp only
      rw [if_neg (by omega), Geometry.peekNextPage_pageAt hw (by omega), ok_bind,
        ensure_of (Geometry.pageAt_blk ..), ok_bind, hv.ppa2pgidx_eq, ok_bind]
      exact ih d.build_gpp_pos (by omega) (by omega) (by omega) x.2

/-- A pair inside a line is given up page by page, and no assertion of the walk fails. -/
theorem markGrainInvalid_eq (hw : d.geo.Wf) {n : ℕ} (hl : l < d.geo.ttLines) (hoff : off < d.gpp)
    (hn : 0 < n) (hin : r + d.pagesOf off n ≤ d.geo.pgsPerLine) (f : Flash) :
    f.markGrainInvalid d (d.ppaToPga (d.geo.pgNo (d.geo.pageAt l r)) off) n =
      invalidOver d l (d.geo.pagesFrom l r (d.pagesOf off n)) f off n false := by
  have hpos := d.pagesOf_pos off hn
  have hv := Geometry.pageAt_valid hw hl (show r < d.geo.pgsPerLine by omega)
  rw [markGrainInvalid, Device.gIdx_ppaToPga hoff, hv.ppaToStruct_pgNo hw, ok_bind, ensure_of,
    ok_bind, markGrainInvalidLoop_eq hw _ hl hoff hn (by omega) hin]
  intro hlong
  by_contra hc
  have hend := (Geometry.lastPgInLine_pageAt hw (by omega)).mp (Bool.eq_true_of_not_eq_false hc)
  rw [Device.pagesOf_succ hoff (by omega)] at hin
  have := d.pagesOf_pos 0 (show 0 < n - (d.gpp - off) by omega)
  omega

/-! ### Runs -/

/-- What `__store` hands out to a pair: where it begins, its pages, the credits and the
writer afterwards. -/
structure Handout where
  head : UserPos
  pages : List Ppa
  credits : ℕ
  next : Writer

/-- The pages for a pair of so many bytes. -/
def Writer.placePages (d : Device) (s : Writer) (bytes : ℕ) : Except Fault Handout := do
  let (credits, u, f) ← s.flash.skipUnlessFits d s.pos (d.grainsOf bytes)
  let (u, f) ← f.firstUserPage d u
  let (pages, u', f) ← writePages d (bytes + 1) f u bytes
  return { head := u, pages := pages, credits := credits, next := ⟨f, u'⟩ }

/-- `__store` takes these pages and writes the out-of-band words. -/
theorem placePair_eq_placePages (s : Writer) (lpa bytes : ℕ) :
    s.flash.placePair d s.pos lpa bytes = (do
      let x ← s.placePages d bytes
      let f ← x.next.flash.tagPair d (x.head.offset / d.gu) lpa (d.grainsOf bytes)
      return (x.head.offset / d.gu, x.credits, x.next.pos, f)) := by
  simp only [placePair, Writer.placePages, writeLoop_eq_writePages, bind_assoc, pure_bind]

/-- The pages of a pair of `n` grains are in one line and in the order of `peek_next_page`
from its head on. Neither the out-of-band words nor giving up the pair fail on a page of
another line. -/
structure Handout.InOneLine (d : Device) (x : Handout) (n : ℕ) : Prop where
  head : x.pages.head? = some x.head.curPage
  line : ∀ p ∈ x.pages, p.blk = x.head.curPage.blk
  order : x.pages.IsChain (fun p q => d.geo.peekNextPage p = .ok q)
  tag : ∀ lpa, ∃ f, x.next.flash.tagPair d (x.head.offset / d.gu) lpa n = .ok f
  invalid : ∀ f : Flash, f.markGrainInvalid d (x.head.offset / d.gu) n =
    invalidOver d x.head.curPage.blk x.pages f (d.gOffset (x.head.offset / d.gu)) n false

/-- A pair with room is in one line. -/
theorem Writer.At.placePages (hg : d.geo.Striped) (h2 : 2 ≤ d.geo.pgsPerLine) {s : Writer}
    (hs : s.At d l r off) {bytes : ℕ} (hb : 0 < bytes) (hroom : s.Room d (d.grainsOf bytes))
    {x : Handout} (h : s.placePages d bytes = .ok x) :
    x.InOneLine d (d.grainsOf bytes) ∧ ∃ l' r' off', x.next.Filling d l' r' off' := by
  have hw := hg.wf
  have hn := d.grainsOf_pos hb
  simp only [Writer.placePages, bind_eq_ok] at h
  obtain ⟨⟨c, u1, f1⟩, hskip, ⟨u2, f2⟩, hfirst, ⟨ps, u3, f3⟩, hwrite, h⟩ := h
  cases h
  obtain ⟨l', r', off', hfill, hin⟩ := start_at hg h2 hs hn hroom hskip hfirst
  obtain ⟨rfl, hend⟩ := writePages_at hg h2 _ hfill hb hin hwrite
  have hpos : u2 = d.userAt l' r' off' := hfill.pos
  have hpages := d.pagesOf_pos off' hn
  obtain ⟨k, hk⟩ := Nat.exists_eq_add_of_lt hpages
  refine ⟨⟨?_, fun p hp => ?_, Geometry.isChain_pagesFrom hw hin, fun lpa => ?_, fun f => ?_⟩, hend⟩
  · rw [hk, hpos, Nat.zero_add]
    rfl
  · rw [hpos]
    exact Geometry.blk_of_mem_pagesFrom hp
  · have hgrains : r' * d.gpp + off' + d.grainsOf bytes ≤ d.grainsPerLine := by
      have hle := d.le_pagesOf_mul off' (d.grainsOf bytes)
      calc r' * d.gpp + off' + d.grainsOf bytes
          ≤ r' * d.gpp + d.pagesOf off' (d.grainsOf bytes) * d.gpp := by omega
        _ = (r' + d.pagesOf off' (d.grainsOf bytes)) * d.gpp := (Nat.add_mul ..).symm
        _ ≤ d.geo.pgsPerLine * d.gpp := Nat.mul_le_mul_right _ hin
    obtain ⟨f', hf', -⟩ := tagPair_tagged hw f3 lpa hfill.line_lt hfill.off_lt hn hgrains
    rw [hpos, Device.userAt_div]
    exact ⟨f', hf'⟩
  · rw [hpos, Device.userAt_div, Device.gOffset_ppaToPga hfill.off_lt]
    exact markGrainInvalid_eq hw hfill.line_lt hfill.off_lt hn hin f

/-- The steps of the firmware, as the user's writer sees them: a pair that has room is
placed; anything that leaves the user's write pointer where it is happens to the flash; the
collector puts the offset back to 0. -/
inductive Writer.Step (d : Device) : Writer → Writer → Prop where
  | store {s : Writer} {lpa bytes grain credits : ℕ} {u : UserPos} {f : Flash} :
    0 < bytes → s.Room d (d.grainsOf bytes) →
      s.flash.placePair d s.pos lpa bytes = .ok (grain, credits, u, f) → Step d s ⟨f, u⟩
  | other {s : Writer} {f : Flash} : f.wp .user = s.flash.wp .user → Step d s ⟨f, s.pos⟩
  | reset {s : Writer} : Step d s ⟨s.flash, { s.pos with offset := 0 }⟩

/-- The writer of a fresh device. -/
def Writer.fresh (f : Flash) : Writer := ⟨f, ⟨0, ⟨0, 0, 0, 0⟩⟩⟩

/-- The writers that a run from `conv_init_ftl` on reaches. -/
inductive Writer.Reaches (d : Device) : Writer → Prop where
  | start {f : Flash} : Flash.init d = .ok f → Reaches d (fresh f)
  | step {s t : Writer} : Reaches d s → Step d s t → Reaches d t

theorem prepareWritePointer_wp (d : Device) (h : f.prepareWritePointer io = .ok f') :
    f'.wp = Function.update f.wp io (d.geo.pageAt f.nextFree 0) := by
  cases hl : f.freeLines with
  | nil =>
    rw [prepareWritePointer_nil hl] at h
    cases h
  | cons l ls =>
    rw [prepareWritePointer_cons hl] at h
    cases h
    rw [nextFree, hl, List.headD_cons, Geometry.pageAt_zero]
    rfl

/-- A fresh device: page 0 is given up and the pointer is behind it. -/
theorem init_wp (hw : d.geo.Wf) (h2 : 2 ≤ d.geo.pgsPerLine) (h : init d = .ok f) :
    f.wp .user = d.geo.pageAt 0 1 := by
  simp only [init, discardFrom, bind_eq_ok] at h
  obtain ⟨f1, h1, f2, h2', f3, h3, f4, h4, ⟨p, pgidx, f5⟩, htake, -, -, f6, hval, hinv⟩ := h
  have hfirst : nextFree (blank d) = 0 := by
    show (List.range d.geo.ttLines).headD 0 = 0
    cases d.geo.ttLines with
    | zero => rfl
    | succ n => rw [List.range_succ_eq_map, List.headD_cons]
  have hwp : f4.wp .user = d.geo.pageAt 0 0 := by
    rw [prepareWritePointer_wp d h4, prepareWritePointer_wp d h3, prepareWritePointer_wp d h2',
      prepareWritePointer_wp d h1, hfirst]
    rfl
  have hadv := (takePage_points hw hw.blks_pos (by omega) hwp htake).2.2
  have hkeep := (KeepsPointers.markGrainValid hval).trans (KeepsPointers.markGrainInvalid hinv)
  rw [hkeep.wp]
  exact (hadv.inside (by omega)).1

/-- In every run the writer is right behind what it wrote. -/
theorem Writer.Reaches.at (hg : d.geo.Striped) {s : Writer} (h : Reaches d s) :
    ∃ l r off, s.At d l r off := by
  have hw := hg.wf
  have h2 := hg.two_le
  induction h with
  | start hinit =>
    have hwp := init_wp hw h2 hinit
    refine ⟨0, 0, 0, hw.blks_pos, hw.pgsPerLine_pos, d.build_gpp_pos,
      (Geometry.pageAt_zero _ _).symm, ⟨fun _ => hwp, fun hc => absurd hc (by omega)⟩,
      .inl ⟨rfl, rfl⟩⟩
  | step _ hstep ih =>
    obtain ⟨l, r, off, hs⟩ := ih
    cases hstep with
    | store hb hroom hplace =>
      rw [placePair_eq_placePages] at hplace
      simp only [bind_eq_ok] at hplace
      obtain ⟨x, hx, f, htag, h⟩ := hplace
      cases h
      obtain ⟨-, l', r', off', hfill⟩ := hs.placePages hg h2 hb hroom hx
      have hwp := (KeepsPointers.tagPair htag).wp
      exact ⟨l', r', off', (hfill.of_wp (congrFun hwp _)).at⟩
    | other hwp => exact ⟨l, r, off, hs.of_wp hwp⟩
    | reset =>
      exact ⟨l, r, 0, hs.line_lt, hs.page_lt, d.build_gpp_pos, hs.page, hs.behind, .inl ⟨rfl, rfl⟩⟩

/-- In every run whose pairs have room, the pages of a pair that has room are in one line. -/
theorem Writer.Reaches.inOneLine (hg : d.geo.Striped) {s : Writer} (hs : Reaches d s) {bytes : ℕ}
    (hb : 0 < bytes) (hroom : s.Room d (d.grainsOf bytes)) {x : Handout}
    (h : s.placePages d bytes = .ok x) : x.InOneLine d (d.grainsOf bytes) := by
  obtain ⟨l, r, off, hat⟩ := hs.at hg
  exact (hat.placePages hg hg.two_le hb hroom h).1

/-- The small geometry of the header: one channel, two LUNs, lines of 32 pages. -/
def smallGeometry : Geometry where
  nchs := 1
  lunsPerCh := 2
  blksPerPl := 6
  oneshotpgsPerBlk := 2
  pgsPerOneshotpg := 8

def smallDevice : Device where
  build := .original
  geo := smallGeometry
  maxCached := 1
  hash _ := 0

theorem smallGeometry_striped : smallGeometry.Striped where
  wf := by constructor <;> decide
  luns := by decide

/-- The first pair on a fresh device. -/
def firstHandout (d : Device) (bytes : ℕ) : Except Fault Handout := do
  let f ← Flash.init d
  (Writer.fresh f).placePages d bytes

/-- The first pair, if it has 20 pages, begins on the second stripe and ends on the fourth. -/
theorem inOneLine_twentyPages :
    ∃ f x, Flash.init smallDevice = .ok f ∧
      (Writer.fresh f).placePages smallDevice (20 * pageSize) = .ok x ∧
      x.head.curPage = smallGeometry.pageAt 0 8 ∧ x.pages.length = 20 ∧
      x.InOneLine smallDevice 160 := by
  have hrun : (firstHandout smallDevice (20 * pageSize)).toOption.map
      (fun x => (x.head.curPage, x.pages.length)) = some (smallGeometry.pageAt 0 8, 20) := by
    decide +kernel
  cases hx : firstHandout smallDevice (20 * pageSize) with
  | error e =>
    rw [hx] at hrun
    cases hrun
  | ok x =>
    rw [hx] at hrun
    obtain ⟨hhead, hpages⟩ := Prod.mk.inj (Option.some.inj hrun)
    obtain ⟨f, hf, hplace⟩ := bind_eq_ok.mp hx
    have hroom : (Writer.fresh f).Room smallDevice (smallDevice.grainsOf (20 * pageSize)) := by
      intro l r hpage hr
      have hp : smallDevice.geo.pageAt 0 0 = smallDevice.geo.pageAt l r := hpage
      obtain ⟨rfl, rfl⟩ := Geometry.pageAt_inj smallGeometry_striped.wf hp
      -- the rest of the first stripe is too short, the rest of the line behind it is not
      refine .inr ?_
      rw [restart, if_pos (by decide)]
      decide
    exact ⟨f, x, hf, hplace, hhead, hpages, (Writer.Reaches.start hf).inOneLine
      smallGeometry_striped (by decide) hroom hplace⟩

/-- The first pair, if it has 25 pages, begins on the second stripe and leaves line 0; its
out-of-band words cannot be written. -/
theorem firstHandout_leaves_line :
    ∃ f x, Flash.init smallDevice = .ok f ∧
      (Writer.fresh f).placePages smallDevice (25 * pageSize) = .ok x ∧
      (∃ p ∈ x.pages, p.blk ≠ x.head.curPage.blk) ∧
      ∃ e, x.next.flash.tagPair smallDevice (x.head.offset / smallDevice.gu) 1025
        (smallDevice.grainsOf (25 * pageSize)) = .error e := by
  have hrun : (match firstHandout smallDevice (25 * pageSize) with
      | .error _ => false
      | .ok x => x.pages.any (fun p => p.blk ≠ x.head.curPage.blk) &&
          !(x.next.flash.tagPair smallDevice (x.head.offset / smallDevice.gu) 1025
              (smallDevice.grainsOf (25 * pageSize))).isOk) = true := by
    decide +kernel
  cases hx : firstHandout smallDevice (25 * pageSize) with
  | error e =>
    rw [hx] at hrun
    cases hrun
  | ok x =>
    rw [hx, Bool.and_eq_true, List.any_eq_true] at hrun
    obtain ⟨⟨p, hp, hne⟩, htag⟩ := hrun
    obtain ⟨f, hf, hplace⟩ := bind_eq_ok.mp hx
    refine ⟨f, x, hf, hplace, ⟨p, hp, by simpa using hne⟩, ?_⟩
    cases ht : x.next.flash.tagPair smallDevice (x.head.offset / smallDevice.gu) 1025
        (smallDevice.grainsOf (25 * pageSize)) with
    | error e => exact ⟨e, rfl⟩
    | ok f' =>
      rw [ht] at htag
      cases htag

end Flash

end Virtkv
