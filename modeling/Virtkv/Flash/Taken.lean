import Mathlib.Algebra.BigOperators.Group.Finset.Basic
import Mathlib.Algebra.BigOperators.Group.Finset.Piecewise
import Virtkv.Flash.Fill
import Virtkv.InvMapping.Defs

/-!
# Grains taken from free space

Every grain that is taken from free space is counted as valid or invalid in its line, so the
counters of the lines add up to the grains taken. For each function that hands out pages or
marks grains, this file says how many grains it takes. Nothing here frees a page, so page 0,
which initialisation gives up, is not handed out again.

## Main definitions

- `Flash.taken` — the grains taken from free space
- `Flash.Draws d f f' n` — `n` grains are taken between `f` and `f'`
-/

namespace Virtkv

open Outcome

namespace Flash

/-- The grains of all lines that are counted as valid or invalid. -/
def taken (d : Device) (f : Flash) : ℕ :=
  ∑ l ∈ Finset.range d.geo.ttLines, ((f.lines l).vgc + (f.lines l).igc)

/-- `n` grains are taken from free space, and page 0 does not become free. -/
structure Draws (d : Device) (f f' : Flash) (n : ℕ) : Prop where
  taken : f'.taken d = f.taken d + n
  status : f.status 0 ≠ .free → f'.status 0 ≠ .free

variable {d : Device} {f f' f'' : Flash} {n m : ℕ}

namespace Draws

theorem refl (f : Flash) : Draws d f f 0 := ⟨rfl, id⟩

theorem trans (h : Draws d f f' n) (h' : Draws d f' f'' m) : Draws d f f'' (n + m) where
  taken := by rw [h'.taken, h.taken, Nat.add_assoc]
  status := fun h0 => h'.status (h.status h0)

/-- Nothing is taken behind `h`. -/
theorem then_none (h : Draws d f f' n) (h' : Draws d f' f'' 0) : Draws d f f'' n := h.trans h'

theorem none_then (h : Draws d f f' 0) (h' : Draws d f' f'' n) : Draws d f f'' n := by
  have hall := h.trans h'
  rwa [Nat.zero_add] at hall

/-- The counters of the lines and the states of the pages stay as they are. -/
theorem of_eq (hl : ∀ l, (f'.lines l).vgc + (f'.lines l).igc = (f.lines l).vgc + (f.lines l).igc)
    (hs : f'.status = f.status) : Draws d f f' 0 where
  taken := Finset.sum_congr rfl fun l _ => hl l
  status := fun h0 => hs ▸ h0

end Draws

/-- The counters of one line change. -/
theorem taken_setLine {l : ℕ} {li : Line} (hl : l < d.geo.ttLines)
    (h : li.vgc + li.igc = (f.lines l).vgc + (f.lines l).igc + n) :
    (f.setLine l li).taken d = f.taken d + n := by
  have hmem : l ∈ Finset.range d.geo.ttLines := Finset.mem_range.mpr hl
  have hupd : (f.setLine l li).taken d = ∑ k ∈ Finset.range d.geo.ttLines,
      Function.update (fun k => (f.lines k).vgc + (f.lines k).igc) l (li.vgc + li.igc) k := by
    refine Finset.sum_congr rfl fun k _ => ?_
    rw [setLine]
    dsimp only
    by_cases hk : k = l
    · rw [hk, Function.update_self, Function.update_self]
    · rw [Function.update_of_ne hk, Function.update_of_ne hk]
  rw [hupd, Finset.sum_update_of_mem hmem, taken, ← Finset.add_sum_erase _ _ hmem,
    Finset.sdiff_singleton_eq_erase, h]
  omega

/-! ### Handing out pages -/

theorem draws_setStatus (f : Flash) (pgidx : ℕ) {st : PageStatus} (h : st ≠ .free) :
    Draws d f (f.setStatus pgidx st) 0 where
  taken := rfl
  status := by
    intro h0
    rw [setStatus]
    dsimp only
    rw [Function.update_apply]
    split
    · exact h
    · exact h0

theorem draws_markPageValid {p : Ppa} (h : f.markPageValid d p = .ok f') : Draws d f f' 0 := by
  simp only [markPageValid, bind_eq_ok] at h
  obtain ⟨pgidx, -, -, -, h⟩ := h
  cases h
  exact draws_setStatus f pgidx (by decide)

theorem draws_markPageInvalid {pgidx : ℕ} (h : f.markPageInvalid d pgidx = .ok f') :
    Draws d f f' 0 := by
  simp only [markPageInvalid, bind_eq_ok] at h
  obtain ⟨-, -, -, -, h⟩ := h
  cases h
  exact draws_setStatus f pgidx (by decide)

theorem draws_addVictim {l : ℕ} (h : f.addVictim d l = .ok f') : Draws d f f' 0 := by
  simp only [addVictim, pqInsert, bind_eq_ok] at h
  obtain ⟨f1, ⟨-, -, h1⟩, h⟩ := h
  cases h1
  cases h
  exact .of_eq (fun _ => rfl) rfl

theorem draws_openLine (f : Flash) (io : IoType) (l : ℕ) : Draws d f (f.openLine io l) 0 := by
  refine .of_eq (fun k => ?_) rfl
  rw [openLine, setWp, setLine]
  dsimp only
  rw [Function.update_apply]
  split
  · rename_i hk
    rw [hk]
  · rfl

theorem draws_nextLine {io : IoType} (h : f.nextLine d io = .ok f') : Draws d f f' 0 := by
  simp only [nextLine, bind_eq_ok] at h
  obtain ⟨f1, h1, -, -, ⟨l, f2⟩, h2, -, -, h⟩ := h
  cases h
  have hret : Draws d f f1 0 := by
    rw [retireLine] at h1
    split at h1
    · cases h1
      exact .of_eq (fun _ => rfl) rfl
    · simp only [bind_eq_ok] at h1
      obtain ⟨-, -, h1⟩ := h1
      exact draws_addVictim h1
  have hget : Draws d f1 f2 0 := by
    rw [getNextFreeLine] at h2
    split at h2
    · cases h2
    · cases h2
      exact .of_eq (fun _ => rfl) rfl
  exact (hret.trans hget).trans (draws_openLine f2 io l)

theorem draws_advanceWritePointer {io : IoType} (h : f.advanceWritePointer d io = .ok f') :
    Draws d f f' 0 := by
  have hwp : ∀ p, Draws d f (f.setWp io p) 0 := fun p => .of_eq (fun _ => rfl) rfl
  simp only [advanceWritePointer, bind_eq_ok] at h
  obtain ⟨-, -, h⟩ := h
  split at h
  · cases h
    exact hwp _
  simp only [bind_eq_ok] at h
  obtain ⟨-, -, h⟩ := h
  split at h
  · cases h
    exact hwp _
  simp only [bind_eq_ok] at h
  obtain ⟨-, -, h⟩ := h
  split at h
  · cases h
    exact hwp _
  split at h
  · cases h
    exact hwp _
  · exact draws_nextLine h

theorem draws_takePage {io : IoType} {p : Ppa} {pgidx : ℕ}
    (h : f.takePage d io = .ok (p, pgidx, f')) :
    Draws d f f' 0 ∧ (f.status 0 ≠ .free → pgidx ≠ 0) := by
  simp only [takePage, bind_eq_ok] at h
  obtain ⟨k, hk, f1, h1, f2, h2, h⟩ := h
  cases h
  have hadv := draws_advanceWritePointer h1
  refine ⟨hadv.trans (draws_markPageValid h2), fun h0 hzero => ?_⟩
  -- a page that is handed out is free
  simp only [markPageValid, hk, bind_eq_ok, ensure_eq_ok] at h2
  obtain ⟨k', hk', -, hfree, -⟩ := h2
  cases hk'
  exact hadv.status h0 (hzero ▸ hfree)

/-! ### Marking grains -/

/-- Grains that are marked valid are taken. -/
theorem draws_markGrainValid {grain len : ℕ} (h : f.markGrainValid d grain len = .ok f') :
    Draws d f f' len := by
  simp only [markGrainValid, bind_eq_ok] at h
  obtain ⟨p, hp, -, -, -, -, -, -, h⟩ := h
  have hblk : p.blk < d.geo.ttLines := by
    obtain ⟨hline, hlt⟩ := Geometry.ppaToStruct_blk hp
    have hpos : 0 < d.geo.pgsPerLun := by
      refine Nat.pos_of_ne_zero fun hz => ?_
      rw [Geometry.ttPgs, Geometry.pgsPerCh, hz, Nat.zero_mul, Nat.zero_mul] at hlt
      exact Nat.not_lt_zero _ hlt
    rw [hline]
    exact Nat.div_lt_of_lt_mul (Nat.mod_lt _ hpos)
  have hset : Draws d f ((f.addBlkVgc (blkOf d (d.gIdx grain)) len).setLine p.blk
      { f.lines p.blk with vgc := (f.lines p.blk).vgc + len }) len :=
    ⟨taken_setLine (f := f.addBlkVgc (blkOf d (d.gIdx grain)) len) hblk
      (Nat.add_right_comm ..), id⟩
  rw [bitmapSet] at h
  split at h
  · simp only [bind_eq_ok] at h
    obtain ⟨-, -, h⟩ := h
    cases h
    exact hset.then_none (.of_eq (fun _ => rfl) rfl)
  · cases h
    exact hset

theorem draws_killGrain {grain page len : ℕ} (h : f.killGrain d grain page len = .ok f') :
    Draws d f f' 0 := by
  rw [killGrain] at h
  split at h
  · simp only [bind_eq_ok] at h
    obtain ⟨-, -, h⟩ := h
    cases h
    exact .of_eq (fun _ => rfl) rfl
  · simp only [bind_eq_ok] at h
    obtain ⟨-, -, h⟩ := h
    have hadd : Draws d f (f.addInvCnt page len) 0 := .of_eq (fun _ => rfl) rfl
    split at h
    · exact hadd.trans (draws_markPageInvalid h)
    · cases h
      exact hadd

/-- The grains of a line change from valid to invalid. -/
theorem draws_lowerVgc {l len : ℕ} (h : len ≤ (f.lines l).vgc) :
    Draws d f (f.lowerVgc l len) 0 := by
  refine .of_eq (fun k => ?_) (by rw [lowerVgc]; split <;> rfl)
  have hlines : (f.lowerVgc l len).lines = Function.update f.lines l
      { f.lines l with vgc := (f.lines l).vgc - len, igc := (f.lines l).igc + len } := by
    rw [lowerVgc]
    dsimp only
    split <;> rfl
  rw [hlines, Function.update_apply]
  split
  · rename_i hk
    rw [hk]
    dsimp only
    omega
  · rfl

theorem draws_markGrainInvalidPage {l grain page len : ℕ} {was was' : Bool}
    (h : f.markGrainInvalidPage d l grain page len was = .ok (was', f')) : Draws d f f' 0 := by
  simp only [markGrainInvalidPage, bind_eq_ok, ensure_eq_ok] at h
  obtain ⟨-, -, -, -, -, -, -, -, -, -, -, -, -, hlen, f1, h1, -, -, f2, h2, h⟩ := h
  cases h
  have hadd : Draws d f (f.addBlkIgc (blkOf d page) len) 0 := .of_eq (fun _ => rfl) rfl
  have hlow := hadd.trans (draws_lowerVgc (f := f.addBlkIgc (blkOf d page) len) hlen)
  have hdem : Draws d ((f.addBlkIgc (blkOf d page) len).lowerVgc l len) f1 0 := by
    rw [demote] at h1
    split at h1
    · have hdel : Draws d ((f.addBlkIgc (blkOf d page) len).lowerVgc l len)
          (((f.addBlkIgc (blkOf d page) len).lowerVgc l len).delFull l) 0 :=
        .of_eq (fun _ => rfl) rfl
      exact hdel.trans (draws_addVictim h1)
    · cases h1
      exact .refl _
  exact (hlow.trans hdem).trans (draws_killGrain h2)

theorem draws_markGrainInvalidLoop {fuel : ℕ} {p : Ppa} {grain page rem : ℕ} {was : Bool}
    (h : markGrainInvalidLoop d fuel f p grain page rem was = .ok f') : Draws d f f' 0 := by
  induction fuel generalizing f p grain page rem was with
  | zero => cases h
  | succ fuel ih =>
    simp only [markGrainInvalidLoop, bind_eq_ok] at h
    obtain ⟨⟨was1, f1⟩, h1, h⟩ := h
    have hpage := draws_markGrainInvalidPage h1
    split at h
    · cases h
      exact hpage
    · simp only [bind_eq_ok] at h
      obtain ⟨q, -, -, -, k, -, h⟩ := h
      exact hpage.trans (ih h)

/-- Grains that become invalid were taken before. -/
theorem draws_markGrainInvalid {grain len : ℕ} (h : f.markGrainInvalid d grain len = .ok f') :
    Draws d f f' 0 := by
  simp only [markGrainInvalid, bind_eq_ok] at h
  obtain ⟨p, -, -, -, h⟩ := h
  exact draws_markGrainInvalidLoop h

theorem draws_setOob (f : Flash) (pgidx i v : ℕ) : Draws d f (f.setOob d pgidx i v) 0 :=
  .of_eq (fun _ => rfl) rfl

theorem draws_fillOob (f : Flash) (pgidx start v : ℕ) : Draws d f (f.fillOob d pgidx start v) 0 :=
  .of_eq (fun _ => rfl) rfl

/-- The rest of a page is taken when it is given up. -/
theorem draws_discardFrom {pgidx off : ℕ} (h : f.discardFrom d pgidx off = .ok f') :
    Draws d f f' (d.gpp - off) := by
  simp only [discardFrom, bind_eq_ok] at h
  obtain ⟨f1, h1, h2⟩ := h
  exact (draws_markGrainValid h1).then_none (draws_markGrainInvalid h2)

/-- A page that is handed out is not yet written, so no grain of it is taken. -/
theorem draws_newPage {io : IoType} {p : Ppa} {pgidx : ℕ} (h0 : f.status 0 ≠ .free)
    (h : f.newPage d io = .ok (p, pgidx, f')) : Draws d f f' 0 := by
  rw [newPage, takePageLoop] at h
  simp only [bind_eq_ok] at h
  obtain ⟨⟨p1, k, f1⟩, h1, h⟩ := h
  obtain ⟨htake, hne⟩ := draws_takePage h1
  rw [if_neg (hne h0)] at h
  cases h
  exact htake

/-- A loop of `clear_rest_of_line` returns what it was given and what it takes. -/
theorem draws_clearRestLoop {io : IoType} {lun fuel : ℕ} {p : Ppa} {gOff rem credits credits' : ℕ}
    (h : clearRestLoop d io lun fuel f p gOff rem credits = .ok (credits', f')) :
    ∃ k, credits' = credits + k ∧ Draws d f f' k := by
  induction fuel generalizing f p gOff rem credits with
  | zero => cases h
  | succ fuel ih =>
    rw [clearRestLoop] at h
    split at h
    · cases h
      exact ⟨0, rfl, .refl _⟩
    simp only [bind_eq_ok] at h
    obtain ⟨pgidx, -, f1, h1, f2, h2, q, -, k, -, h⟩ := h
    have hpage := ((draws_markGrainValid h1).then_none (draws_markGrainInvalid h2)).then_none
      (draws_fillOob f2 pgidx gOff uintMax)
    split at h
    · simp only [bind_eq_ok] at h
      obtain ⟨f3, h3, f4, h4, h⟩ := h
      have hnext := (draws_advanceWritePointer h3).trans (draws_markPageValid h4)
      obtain ⟨n, hn, hrest⟩ := ih h
      exact ⟨_, by rw [hn, Nat.add_assoc], (hpage.then_none hnext).trans hrest⟩
    · rw [pure_bind] at h
      obtain ⟨n, hn, hrest⟩ := ih h
      exact ⟨_, by rw [hn, Nat.add_assoc], hpage.trans hrest⟩

/-- The credits for the rest of a stripe are its grains. -/
theorem draws_clearRestOfLine {io : IoType} {p : Ppa} {gOff credits : ℕ}
    (h : f.clearRestOfLine d p gOff io = .ok (credits, f')) : Draws d f f' credits := by
  obtain ⟨k, hk, hdraws⟩ := draws_clearRestLoop h
  rwa [hk, Nat.zero_add]

/-! ### Placing a pair -/

theorem newUserPage_spec {u : UserPos} (h0 : f.status 0 ≠ .free)
    (h : f.newUserPage d = .ok (u, f')) : Draws d f f' 0 ∧ d.gu ∣ u.offset := by
  simp only [newUserPage, bind_eq_ok] at h
  obtain ⟨⟨p, pgidx, f1⟩, h1, h⟩ := h
  cases h
  exact ⟨draws_newPage h0 h1, ((Dvd.intro_left _ d.gpp_mul_gu).mul_left _)⟩

theorem skipUnlessFits_spec {u u' : UserPos} {glen credits : ℕ} (h0 : f.status 0 ≠ .free)
    (hu : d.gu ∣ u.offset) (h : f.skipUnlessFits d u glen = .ok (credits, u', f')) :
    Draws d f f' credits ∧ d.gu ∣ u'.offset := by
  simp only [skipUnlessFits, bind_eq_ok] at h
  obtain ⟨enough, -, h⟩ := h
  split at h
  · cases h
    exact ⟨.refl _, hu⟩
  · simp only [skipStripe, bind_eq_ok] at h
    obtain ⟨-, -, ⟨k, f1⟩, h1, ⟨u1, f2⟩, h2, h⟩ := h
    cases h
    have hclear := draws_clearRestOfLine h1
    obtain ⟨hnew, hdvd⟩ := newUserPage_spec (hclear.status h0) h2
    exact ⟨hclear.then_none hnew, hdvd⟩

theorem firstUserPage_spec {u u' : UserPos} (h0 : f.status 0 ≠ .free) (hu : d.gu ∣ u.offset)
    (h : f.firstUserPage d u = .ok (u', f')) : Draws d f f' 0 ∧ d.gu ∣ u'.offset := by
  rw [firstUserPage] at h
  split at h
  · exact newUserPage_spec h0 h
  · cases h
    exact ⟨.refl _, hu⟩

/-- The loop of `__store` takes the grains of its bytes: all parts but the last end with a
page. -/
theorem writeLoop_spec {fuel : ℕ} {u u' : UserPos} {rem : ℕ} (h0 : f.status 0 ≠ .free)
    (hu : d.gu ∣ u.offset) (h : writeLoop d fuel f u rem = .ok (u', f')) :
    Draws d f f' (d.grainsOf rem) ∧ d.gu ∣ u'.offset := by
  induction fuel generalizing f u rem with
  | zero => cases h
  | succ fuel ih =>
    simp only [writeLoop, bind_eq_ok] at h
    obtain ⟨f1, h1, h⟩ := h
    have hmark := draws_markGrainValid h1
    have hnext : ∀ n, d.gu ∣ u.offset + n * d.gu := by
      intro n
      exact (Nat.dvd_add_right hu).mpr ⟨n, Nat.mul_comm ..⟩
    split at h
    · rename_i hlast
      cases h
      have hrem : min rem (pageSize - u.offset % pageSize) = rem := by omega
      rw [hrem] at hmark ⊢
      exact ⟨hmark, hnext _⟩
    simp only [bind_eq_ok] at h
    obtain ⟨-, -, ⟨u2, f2⟩, h2, h⟩ := h
    obtain ⟨hnew, hdvd⟩ := newUserPage_spec (hmark.status h0) h2
    split at h
    · rename_i hdone
      cases h
      have hrem : min rem (pageSize - u.offset % pageSize) = rem := by omega
      rw [hrem] at hmark
      exact ⟨hmark.then_none hnew, hdvd⟩
    · rename_i hmore
      -- the part fills the page, and a page is a number of grains
      have hsz : min rem (pageSize - u.offset % pageSize) = pageSize - u.offset % pageSize := by
        omega
      obtain ⟨k, hk⟩ : d.gu ∣ pageSize - u.offset % pageSize := by
        have hpage : d.gu ∣ pageSize := Dvd.intro_left _ d.gpp_mul_gu
        exact Nat.dvd_sub hpage ((Nat.dvd_mod_iff hpage).mpr hu)
      obtain ⟨hrest, hdvd'⟩ := ih ((hmark.then_none hnew).status h0) hdvd h
      rw [hsz, hk, Nat.mul_comm] at hmark hrest hmore
      rw [Device.grainsOf_mul] at hmark
      rw [Device.grainsOf_sub (k := k) (by omega)]
      exact ⟨(hmark.then_none hnew).trans hrest, hdvd'⟩

theorem draws_spillLoop {blk fuel : ℕ} {p : Ppa} {rem : ℕ}
    (h : spillLoop d blk fuel f p rem = .ok f') : Draws d f f' 0 := by
  induction fuel generalizing f p rem with
  | zero => cases h
  | succ fuel ih =>
    simp only [spillLoop, bind_eq_ok] at h
    obtain ⟨q, -, -, -, pgidx, -, h⟩ := h
    have htag : ∀ sz, Draws d f (f.tagSpill d pgidx sz) 0 := by
      intro sz
      rw [tagSpill]
      split <;> exact .of_eq (fun _ => rfl) rfl
    split at h
    · cases h
      exact htag _
    · exact (htag _).trans (ih h)

theorem draws_tagPair {grain lpa glen : ℕ} (h : f.tagPair d grain lpa glen = .ok f') :
    Draws d f f' 0 := by
  rw [tagPair] at h
  have hset := draws_setOob (d := d) f (d.gIdx grain) (d.gOffset grain) (glen * 2 ^ 32 + lpa)
  split at h
  · simp only [bind_eq_ok] at h
    obtain ⟨p, -, h⟩ := h
    exact hset.trans (draws_spillLoop h)
  · cases h
    exact hset

/-- A pair takes its own grains and those of the stripe that is given up for it. -/
theorem placePair_spec {u u' : UserPos} {lpa bytes grain credits : ℕ} (h0 : f.status 0 ≠ .free)
    (hu : d.gu ∣ u.offset) (h : f.placePair d u lpa bytes = .ok (grain, credits, u', f')) :
    Draws d f f' (credits + d.grainsOf bytes) ∧ d.gu ∣ u'.offset := by
  simp only [placePair, bind_eq_ok] at h
  obtain ⟨⟨k, u1, f1⟩, h1, ⟨u2, f2⟩, h2, ⟨u3, f3⟩, h3, f4, h4, h⟩ := h
  cases h
  obtain ⟨hskip, hu1⟩ := skipUnlessFits_spec h0 hu h1
  obtain ⟨hfirst, hu2⟩ := firstUserPage_spec (hskip.status h0) hu1 h2
  have hskip' := hskip.then_none hfirst
  obtain ⟨hwrite, hu3⟩ := writeLoop_spec (hskip'.status h0) hu2 h3
  exact ⟨(hskip'.trans hwrite).then_none (draws_tagPair h4), hu3⟩

/-- A pair that fits gives up no stripe. -/
theorem placePair_of_fits {u u' : UserPos} {lpa bytes grain credits : ℕ}
    (hfits : enoughSpaceInLine d u.curPage (d.gOffset (u.offset / d.gu)) (d.grainsOf bytes) =
      .ok true)
    (h : f.placePair d u lpa bytes = .ok (grain, credits, u', f')) : credits = 0 := by
  simp only [placePair, skipUnlessFits, hfits, bind_eq_ok] at h
  obtain ⟨⟨k, u1, f1⟩, ⟨enough, henough, h1⟩, ⟨u2, f2⟩, -, ⟨u3, f3⟩, -, f4, -, h⟩ := h
  cases h
  cases henough
  cases h1
  rfl

/-! ### Mapping pages and pages of the log -/

/-- A page for the log: all its grains are taken. -/
theorem draws_flushPageLoop {fuel pgidx : ℕ} (h0 : f.status 0 ≠ .free)
    (h : InvLog.flushPageLoop d fuel f = .ok (pgidx, f')) : Draws d f f' d.gpp := by
  cases fuel with
  | zero => cases h
  | succ fuel =>
    simp only [InvLog.flushPageLoop, bind_eq_ok] at h
    obtain ⟨next, -, -, -, ⟨p, k, f1⟩, h1, f2, h2, h⟩ := h
    obtain ⟨htake, hne⟩ := draws_takePage h1
    rw [if_neg (hne h0)] at h
    cases h
    exact htake.none_then (draws_markGrainValid h2)

/-- Room in the buffer of a line costs the grains of the page the buffer is flushed to. -/
theorem draws_makeRoom {log log' : InvLog} {line need credits : ℕ} (h0 : f.status 0 ≠ .free)
    (h : InvLog.makeRoom d f log line need = .ok (credits, f', log')) : Draws d f f' credits := by
  rw [InvLog.makeRoom] at h
  split at h
  · simp only [InvLog.flush, bind_eq_ok] at h
    obtain ⟨⟨f1, log1⟩, ⟨⟨pgidx, f2⟩, h2, h1⟩, h⟩ := h
    cases h1
    cases h
    exact (draws_flushPageLoop h0 h2).then_none (.of_eq (fun _ => rfl) rfl)
  · cases h
    exact .refl _

/-- The credits for a record are the grains of the page it makes the log flush. -/
theorem draws_recordInvMapping {log log' : InvLog} {lpa ppa off len credits : ℕ}
    (h0 : f.status 0 ≠ .free)
    (h : InvLog.recordInvMapping d f log lpa ppa off len = .ok (credits, f', log')) :
    Draws d f f' credits := by
  simp only [InvLog.recordInvMapping, InvLog.recordAt, bind_eq_ok] at h
  obtain ⟨line, -, ⟨k, f1, log1⟩, h1, h⟩ := h
  cases h
  exact draws_makeRoom h0 h1

end Flash

end Virtkv
