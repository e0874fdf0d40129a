import Virtkv.Oob.Defs

/-!
# Pages and words

Pages are handed out when they are free, and then nothing on them has a holder. So every
word that a writer puts out of band, on the page it just got or behind what it wrote on the
page it is filling, goes to a grain without a holder.
-/

namespace Virtkv

open Outcome

namespace Flash

variable {d : Device} {io : IoType} {f f' f'' : Flash} {L L' : Grains} {o : Owner}

/-! ### Handing out pages -/

/-- Pages may have been handed out to a writer; no word was written. -/
structure Uses (io : IoType) (f f' : Flash) : Prop where
  taken : ∀ q, f.status q ≠ .free → f'.status q ≠ .free
  oob : f'.oob = f.oob
  wp : ∀ io', io' ≠ io → f'.wp io' = f.wp io'

/-- The writer got a page. -/
structure Hands (d : Device) (io : IoType) (f f' : Flash) (pgidx : ℕ) : Prop where
  uses : Uses io f f'
  was_free : f.status pgidx = .free
  taken : f'.status pgidx ≠ .free
  lt : pgidx < d.geo.ttPgs

theorem user_ne_map : IoType.user ≠ .map := by decide

theorem Uses.refl (io : IoType) (f : Flash) : Uses io f f := ⟨fun _ => id, rfl, fun _ _ => rfl⟩

theorem Uses.trans (h : Uses io f f') (h' : Uses io f' f'') : Uses io f f'' where
  taken q hq := h'.taken q (h.taken q hq)
  oob := h'.oob.trans h.oob
  wp io' hne := (h'.wp io' hne).trans (h.wp io' hne)

theorem Uses.of_keeps (hk : KeepsPages f f') (hp : KeepsPointers f f') : Uses io f f' where
  taken q hq hc := hq ((hk.free_iff q).mp hc)
  oob := hk.oob_eq
  wp _ _ := congrFun hp.wp _

theorem Uses.carries (h : Uses io f f') (L : Grains) : Carries d f f' L L where
  taken := h.taken
  word g _ := congrFun h.oob g
  owner _ _ := rfl
  placed hp g hg := h.taken _ (hp g hg)

theorem Uses.aside (h : Uses io f f') (hne : IoType.user ≠ io) (L : Grains) :
    CarriesAside d f f' L L where
  carries := h.carries L
  fresh _ hg := absurd rfl hg
  wp := h.wp .user hne

theorem Hands.after {pgidx : ℕ} (h : Hands d io f' f'' pgidx) (hu : Uses io f f') :
    Hands d io f f'' pgidx where
  uses := hu.trans h.uses
  was_free := by
    by_contra hc
    exact hu.taken _ hc h.was_free
  taken := h.taken
  lt := h.lt

theorem Hands.then {pgidx : ℕ} (h : Hands d io f f' pgidx) (hu : Uses io f' f'') :
    Hands d io f f'' pgidx where
  uses := h.uses.trans hu
  was_free := h.was_free
  taken := hu.taken _ h.taken
  lt := h.lt

/-- Nothing on the page has a holder. -/
theorem Hands.vacant {pgidx : ℕ} (h : Hands d io f f' pgidx) (hp : f.Placed d L) {j : ℕ}
    (hj : j < d.gpp) : L.owner (d.ppaToPga pgidx j) = none := by
  apply hp.vacant
  rw [Device.gIdx_ppaToPga hj]
  exact h.was_free

/-- What has a holder is on another page. -/
theorem Hands.gIdx_ne {pgidx : ℕ} (h : Hands d io f f' pgidx) (hp : f.Placed d L) {g : ℕ}
    (hg : L.owner g ≠ none) : d.gIdx g ≠ pgidx := by
  rintro rfl
  exact hg (hp.vacant h.was_free)

theorem uses_markGrainValid {grain len : ℕ} (h : f.markGrainValid d grain len = .ok f') :
    Uses io f f' :=
  .of_keeps (keepsPages_markGrainValid h) (.markGrainValid h)

theorem uses_markGrainInvalid {grain len : ℕ} (h : f.markGrainInvalid d grain len = .ok f') :
    Uses io f f' :=
  .of_keeps (keepsPages_markGrainInvalid h) (.markGrainInvalid h)

theorem uses_discardFrom {pgidx off : ℕ} (h : f.discardFrom d pgidx off = .ok f') :
    Uses io f f' := by
  simp only [discardFrom, bind_eq_ok] at h
  obtain ⟨f1, h1, h2⟩ := h
  exact (uses_markGrainValid h1).trans (uses_markGrainInvalid h2)

theorem uses_setWp (f : Flash) (p : Ppa) : Uses io f (f.setWp io p) :=
  ⟨fun _ => id, rfl, fun _ hne => Function.update_of_ne hne _ _⟩

theorem uses_nextLine (h : f.nextLine d io = .ok f') : Uses io f f' := by
  simp only [nextLine, bind_eq_ok] at h
  obtain ⟨f1, h1, -, -, ⟨l, f2⟩, h2, -, -, h⟩ := h
  cases h
  have hretire : Uses io f f1 := .of_keeps (keepsPages_retireLine h1) (.retireLine h1)
  have hnext : Uses io f1 f2 := by
    rw [getNextFreeLine] at h2
    split at h2
    · cases h2
    · cases h2
      exact ⟨fun _ => id, rfl, fun _ _ => rfl⟩
  have hopen : Uses io f2 (f2.openLine io l) :=
    ⟨fun _ => id, rfl, fun _ hne => Function.update_of_ne hne _ _⟩
  exact (hretire.trans hnext).trans hopen

theorem uses_advanceWritePointer (h : f.advanceWritePointer d io = .ok f') : Uses io f f' := by
  simp only [advanceWritePointer, bind_eq_ok] at h
  obtain ⟨-, -, h⟩ := h
  split at h
  · cases h
    exact uses_setWp f _
  simp only [bind_eq_ok] at h
  obtain ⟨-, -, h⟩ := h
  split at h
  · cases h
    exact uses_setWp f _
  simp only [bind_eq_ok] at h
  obtain ⟨-, -, h⟩ := h
  split at h
  · cases h
    exact uses_setWp f _
  split at h
  · cases h
    exact uses_setWp f _
  · exact uses_nextLine h

/-- `ppa2pgidx` of a page address. -/
theorem ppa2pgidx_eq_ok {p : Ppa} {pgidx : ℕ} (h : d.geo.ppa2pgidx p = .ok pgidx) :
    pgidx = d.geo.pgNo p ∧ pgidx < d.geo.ttPgs := by
  simp only [Geometry.ppa2pgidx, bind_eq_ok, ensure_eq_ok] at h
  obtain ⟨-, hlt, h⟩ := h
  cases h
  exact ⟨rfl, hlt⟩

/-- `mark_page_valid` takes the page for the writer. -/
theorem hands_markPageValid {p : Ppa} (h : f.markPageValid d p = .ok f') :
    Hands d io f f' (d.geo.pgNo p) := by
  obtain ⟨pgidx, hp, hs, rfl⟩ := markPageValid_eq_ok h
  obtain ⟨rfl, hlt⟩ := ppa2pgidx_eq_ok hp
  have hself : (f.setStatus (d.geo.pgNo p) .valid).status (d.geo.pgNo p) ≠ .free := by
    have hv : (f.setStatus (d.geo.pgNo p) .valid).status (d.geo.pgNo p) = .valid :=
      Function.update_self ..
    rw [hv]
    exact nofun
  refine ⟨⟨fun q hq => ?_, rfl, fun _ _ => rfl⟩, hs, hself, hlt⟩
  by_cases hqp : q = d.geo.pgNo p
  · rw [hqp]
    exact hself
  · have hsame : (f.setStatus (d.geo.pgNo p) .valid).status q = f.status q :=
      Function.update_of_ne hqp ..
    rw [hsame]
    exact hq

theorem hands_takePage {p : Ppa} {pgidx : ℕ} (h : f.takePage d io = .ok (p, pgidx, f')) :
    pgidx = d.geo.pgNo p ∧ Hands d io f f' pgidx := by
  simp only [takePage, bind_eq_ok] at h
  obtain ⟨q, hq, f1, h1, f2, h2, h⟩ := h
  cases h
  obtain ⟨rfl, -⟩ := ppa2pgidx_eq_ok hq
  exact ⟨rfl, (hands_markPageValid h2).after (uses_advanceWritePointer h1)⟩

theorem hands_newPage {p : Ppa} {pgidx : ℕ} (h : f.newPage d io = .ok (p, pgidx, f')) :
    pgidx = d.geo.pgNo p ∧ Hands d io f f' pgidx := by
  have hloop : ∀ {fuel : ℕ} {f : Flash}, takePageLoop d io fuel f = .ok (p, pgidx, f') →
      pgidx = d.geo.pgNo p ∧ Hands d io f f' pgidx := by
    intro fuel
    induction fuel with
    | zero =>
      intro f h
      cases h
    | succ fuel ih =>
      intro f h
      simp only [takePageLoop, bind_eq_ok] at h
      obtain ⟨⟨q, pg, f1⟩, h1, h⟩ := h
      obtain ⟨hpg, hhands⟩ := hands_takePage h1
      split at h
      · simp only [bind_eq_ok] at h
        obtain ⟨f2, h2, h⟩ := h
        obtain ⟨hp, hrest⟩ := ih h
        exact ⟨hp, (hrest.after (uses_discardFrom h2)).after hhands.uses⟩
      · cases h
        exact ⟨hpg, hhands⟩
  exact hloop h

/-! ### Words -/

/-- Consecutive grains of a page. -/
theorem exists_of_mem_span {pgidx off n g : ℕ}
    (hg : g ∈ Device.span (d.ppaToPga pgidx off) n) :
    ∃ j, off ≤ j ∧ j < off + n ∧ g = d.ppaToPga pgidx j := by
  rw [Device.mem_span, Device.ppaToPga] at hg
  refine ⟨g - pgidx * d.gpp, by omega, by omega, ?_⟩
  rw [Device.ppaToPga]
  omega

/-- The words of other pages are the same. -/
theorem oob_setOob_of_ne {pgidx i v g : ℕ} (hi : i < d.gpp) (h : d.gIdx g ≠ pgidx) :
    (f.setOob d pgidx i v).oob g = f.oob g := by
  have hne : g ≠ d.ppaToPga pgidx i := by
    rintro rfl
    exact h (Device.gIdx_ppaToPga hi)
  exact Function.update_of_ne hne _ _

theorem oob_fillOob_of_ne {pgidx start v g : ℕ} (h : d.gIdx g ≠ pgidx) :
    (f.fillOob d pgidx start v).oob g = f.oob g := by
  refine if_neg fun hc => h ?_
  have hlow := hc.1
  have hhigh := hc.2
  rw [Device.ppaToPga] at hlow hhigh
  refine Nat.div_eq_of_lt_le (by omega) ?_
  rw [Nat.succ_mul]
  exact hhigh

/-- The words in front of the rest of a page are the same. -/
theorem oob_fillOob_of_lt {pgidx start v j : ℕ} (h : j < start) :
    (f.fillOob d pgidx start v).oob (d.ppaToPga pgidx j) = f.oob (d.ppaToPga pgidx j) := by
  refine if_neg fun hc => ?_
  have hlow := hc.1
  rw [Device.ppaToPga, Device.ppaToPga] at hlow
  omega

/-- A word of a grain without a holder. -/
theorem carries_setOob {pgidx i v : ℕ} (hv : L.owner (d.ppaToPga pgidx i) = none) :
    Carries d f (f.setOob d pgidx i v) L L where
  taken _ hq := hq
  word g hg := by
    have hne : g ≠ d.ppaToPga pgidx i := by
      rintro rfl
      exact hg hv
    exact Function.update_of_ne hne _ _
  owner _ _ := rfl
  placed hp := hp

/-- The words of a page from an offset on, where nothing has a holder. -/
theorem carries_fillOob {pgidx start v : ℕ}
    (hv : ∀ j, start ≤ j → j < d.gpp → L.owner (d.ppaToPga pgidx j) = none) :
    Carries d f (f.fillOob d pgidx start v) L L where
  taken _ hq := hq
  word g hg := by
    show (if _ then v else f.oob g) = f.oob g
    rw [if_neg]
    rintro ⟨hle, hlt⟩
    rw [Device.ppaToPga] at hle hlt
    have heq : d.ppaToPga pgidx (g - pgidx * d.gpp) = g := by
      rw [Device.ppaToPga]
      omega
    refine hg ?_
    rw [← heq]
    exact hv _ (by omega) (by omega)
  owner _ _ := rfl
  placed hp := hp

/-- Grains on pages that were free and are not any more get a holder. -/
theorem CarriesAside.add {R : Finset ℕ} (h : CarriesAside d f f' L L) (hp : f.Placed d L)
    (hfree : ∀ g ∈ R, f.status (d.gIdx g) = .free)
    (htaken : ∀ g ∈ R, f'.status (d.gIdx g) ≠ .free) (o : Owner) :
    CarriesAside d f f' L (L.add R o) where
  carries :=
    { taken := h.carries.taken
      word := h.carries.word
      owner := fun g hg => by
        have hR : g ∉ R := fun hc => hg (hp.vacant (hfree g hc))
        rw [Ledger.owner_add, if_neg hR]
      placed := fun _ => hp.add h.carries.taken htaken o }
  fresh g hg := by
    by_cases hR : g ∈ R
    · exact hfree g hR
    · rw [Ledger.owner_add, if_neg hR] at hg
      exact absurd rfl hg
  wp := h.wp

/-! ### The rest of a stripe -/

/-- The rest of a stripe is marked word by word, from where nothing has a holder. -/
theorem carries_clearRestLoop {lun fuel : ℕ} {p : Ppa} {gOff rem credits credits' : ℕ}
    (hp : f.Placed d L)
    (hv : ∀ j, gOff ≤ j → j < d.gpp → L.owner (d.ppaToPga (d.geo.pgNo p) j) = none)
    (h : clearRestLoop d io lun fuel f p gOff rem credits = .ok (credits', f')) :
    Carries d f f' L L := by
  induction fuel generalizing f p gOff rem credits with
  | zero => cases h
  | succ fuel ih =>
    rw [clearRestLoop] at h
    split at h
    · cases h
      exact .refl _ L
    simp only [bind_eq_ok] at h
    obtain ⟨pgidx, hpg, f1, h1, f2, h2, q, -, q', -, h⟩ := h
    obtain ⟨rfl, -⟩ := ppa2pgidx_eq_ok hpg
    have hmark : Uses io f f2 := (uses_markGrainValid h1).trans (uses_markGrainInvalid h2)
    have hfill := (hmark.carries (d := d) L).trans (carries_fillOob (v := uintMax) hv)
    by_cases hlun : q.lun = lun
    · -- the next page is taken, so nothing on it has a holder
      rw [if_pos hlun] at h
      simp only [bind_eq_ok] at h
      obtain ⟨f3, h3, f4, h4, h⟩ := h
      have hhands : Hands d io _ f4 (d.geo.pgNo q) :=
        (hands_markPageValid h4).after (uses_advanceWritePointer h3)
      have hp3 := hfill.placed hp
      have hall := hfill.trans (hhands.uses.carries L)
      exact hall.trans (ih (hall.placed hp) (fun j _ hj => hhands.vacant hp3 hj) h)
    · rw [if_neg hlun, pure_bind] at h
      cases fuel with
      | zero => cases h
      | succ fuel =>
        rw [clearRestLoop, if_pos hlun] at h
        cases h
        exact hfill

/-! ### The user's writer -/

/-- A new page is open from its first grain on. -/
theorem open_newUserPage {u : UserPos} (hp : f.Placed d L) (h : f.newUserPage d = .ok (u, f')) :
    Uses .user f f' ∧ f'.Open d u L := by
  simp only [newUserPage, bind_eq_ok] at h
  obtain ⟨⟨p, pgidx, f1⟩, h1, h⟩ := h
  cases h
  obtain ⟨rfl, hhands⟩ := hands_newPage h1
  exact ⟨hhands.uses, hhands.taken, fun j _ hj => hhands.vacant hp hj⟩

theorem open_firstUserPage {u u' : UserPos} (hp : f.Placed d L) (ho : f.Open d u L)
    (h : f.firstUserPage d u = .ok (u', f')) : Carries d f f' L L ∧ f'.Open d u' L := by
  rw [firstUserPage] at h
  split at h
  · obtain ⟨hu, ho'⟩ := open_newUserPage hp h
    exact ⟨hu.carries L, ho'⟩
  · cases h
    exact ⟨.refl f L, ho⟩

theorem open_skipUnlessFits {u u' : UserPos} {n credits : ℕ} (hp : f.Placed d L)
    (ho : f.Open d u L) (h : f.skipUnlessFits d u n = .ok (credits, u', f')) :
    Carries d f f' L L ∧ f'.Open d u' L := by
  simp only [skipUnlessFits, bind_eq_ok] at h
  obtain ⟨enough, -, h⟩ := h
  split at h
  · cases h
    exact ⟨.refl f L, ho⟩
  · simp only [skipStripe, clearRestOfLine, bind_eq_ok] at h
    obtain ⟨-, -, ⟨c, f1⟩, h1, ⟨u2, f2⟩, h2, h⟩ := h
    cases h
    have hclear := carries_clearRestLoop hp ho.vacant h1
    obtain ⟨hu, ho'⟩ := open_newUserPage (hclear.placed hp) h2
    exact ⟨hclear.trans (hu.carries L), ho'⟩

/-- `R` was marked valid for a holder, from the position `u` to the position `u'`. -/
structure Writes (d : Device) (f f' : Flash) (L : Grains) (u' : UserPos) (R : Finset ℕ)
    (o : Owner) : Prop where
  vacant : ∀ g ∈ R, L.owner g = none
  taken : ∀ q, f.status q ≠ .free → f'.status q ≠ .free
  oob : f'.oob = f.oob
  placed : f'.Placed d (L.add R o)
  opened : f'.Open d u' (L.add R o)

/-- Writing goes on behind what was written. -/
theorem Writes.append {u u' : UserPos} {R R' : Finset ℕ} (h : Writes d f f' L u R o)
    (h' : Writes d f' f'' (L.add R o) u' R' o) : Writes d f f'' L u' (R ∪ R') o where
  vacant g hg := by
    rcases Finset.mem_union.mp hg with hR | hR'
    · exact h.vacant g hR
    · have hnone := h'.vacant g hR'
      rw [Ledger.owner_add] at hnone
      split at hnone
      · cases hnone
      · exact hnone
  taken q hq := h'.taken q (h.taken q hq)
  oob := h'.oob.trans h.oob
  placed := by
    rw [← Ledger.add_add]
    exact h'.placed
  opened := by
    rw [← Ledger.add_add]
    exact h'.opened

/-- A page that is full is followed by a new one. -/
theorem Writes.turn {u' : UserPos} {R : Finset ℕ} (hv : ∀ g ∈ R, L.owner g = none)
    (hu : Uses .user f f') (hp : f'.Placed d (L.add R o))
    (h : f'.newUserPage d = .ok (u', f'')) : Writes d f f'' L u' R o := by
  obtain ⟨hnew, ho⟩ := open_newUserPage hp h
  have hall := hu.trans hnew
  exact ⟨hv, hall.taken, hall.oob, (hnew.carries _).placed hp, ho⟩

variable {l r off n : ℕ}

theorem Open.vacant_userAt (ho : f.Open d (d.userAt l r off) L) (hoff : off < d.gpp) {j : ℕ}
    (hj : off ≤ j) (hlt : j < d.gpp) :
    L.owner (d.ppaToPga (d.geo.pgNo (d.geo.pageAt l r)) j) = none := by
  refine ho.vacant j ?_ hlt
  rw [Device.userAt_div, Device.gOffset_ppaToPga hoff]
  exact hj

/-- Grains of the page being filled. -/
theorem exists_of_mem_head (hoff : off < d.gpp) (hn : off + n ≤ d.gpp) {g : ℕ}
    (hg : g ∈ d.extent l (r * d.gpp + off) n) : ∃ j, off ≤ j ∧ j < off + n ∧
      g = d.ppaToPga (d.geo.pgNo (d.geo.pageAt l r)) j := by
  rw [extent_cursor d l r hoff hn] at hg
  exact exists_of_mem_span hg

/-- Grains of the open page get a holder. -/
theorem Open.placed_head (ho : f.Open d (d.userAt l r off) L) (hp : f.Placed d L)
    (hoff : off < d.gpp) (hn : off + n ≤ d.gpp) (hu : Uses io f f') :
    (∀ g ∈ d.extent l (r * d.gpp + off) n, L.owner g = none) ∧
      f'.Placed d (L.add (d.extent l (r * d.gpp + off) n) o) := by
  refine ⟨fun g hg => ?_, hp.add hu.taken (fun g hg => ?_) o⟩
  · obtain ⟨j, hj, hlt, rfl⟩ := exists_of_mem_head hoff hn hg
    exact ho.vacant_userAt hoff hj (by omega)
  · obtain ⟨j, -, hlt, rfl⟩ := exists_of_mem_head hoff hn hg
    rw [Device.gIdx_ppaToPga (by omega)]
    exact hu.taken _ ho.taken

/-- Behind them the page is still open. -/
theorem Open.behind (ho : f.Open d (d.userAt l r off) L) (hlt : off + n < d.gpp)
    (hu : Uses io f f') :
    f'.Open d (d.userAt l r (off + n)) (L.add (d.extent l (r * d.gpp + off) n) o) where
  taken := hu.taken _ ho.taken
  vacant j hj hjlt := by
    rw [Device.userAt_div, Device.gOffset_ppaToPga hlt] at hj
    have hnot : d.ppaToPga (d.geo.pgNo (d.geo.pageAt l r)) j ∉
        d.extent l (r * d.gpp + off) n := by
      intro hc
      obtain ⟨i, -, hi, heq⟩ := exists_of_mem_head (by omega) (by omega) hc
      rw [Device.ppaToPga, Device.ppaToPga] at heq
      omega
    show (L.add _ o).owner (d.ppaToPga (d.geo.pgNo (d.geo.pageAt l r)) j) = none
    rw [Ledger.owner_add, if_neg hnot]
    exact ho.vacant_userAt (by omega) (by omega) hjlt

/-- The loop of `__store` gives the grains of the pair their holder. -/
theorem writePages_writes (hg : d.geo.Striped) (fuel : ℕ) {rem : ℕ} {u u' : UserPos}
    {ps : List Ppa} (hs : Writer.Filling d ⟨f, u⟩ l r off) (hrem : 0 < rem)
    (hin : r + d.pagesOf off (d.grainsOf rem) ≤ d.geo.pgsPerLine) (hp : f.Placed d L)
    (ho : f.Open d u L) (o : Owner) (h : writePages d fuel f u rem = .ok (ps, u', f')) :
    Writes d f f' L u' (d.extent l (r * d.gpp + off) (d.grainsOf rem)) o := by
  have hw := hg.wf
  have h2 := hg.two_le
  induction fuel generalizing f u r off rem ps L with
  | zero => cases h
  | succ fuel ih =>
    have hoff := hs.off_lt
    have hu : u = d.userAt l r off := hs.pos
    subst hu
    have hroom : pageSize - off * d.gu = (d.gpp - off) * d.gu := by
      rw [Nat.sub_mul, d.gpp_mul_gu]
    rw [writePages, Device.userAt_mod l r hoff, hroom] at h
    simp only [bind_eq_ok, userAt_offset_add] at h
    obtain ⟨f1, h1, h⟩ := h
    have hmark : Uses .user f f1 := uses_markGrainValid h1
    have hb1 : PointsBehind d .user f1 l r :=
      hs.behind.of_eq (by rw [(KeepsPointers.markGrainValid h1).wp])
    by_cases hlast : rem ≤ (d.gpp - off) * d.gu
    · -- the pair ends on this page
      have hn := Device.grainsOf_le hlast
      obtain ⟨hv, hp1⟩ := ho.placed_head (n := d.grainsOf rem) (o := o) hp hoff (by omega) hmark
      rw [min_eq_left hlast, Nat.sub_self] at h
      by_cases hfull : off + d.grainsOf rem = d.gpp
      · rw [hfull, if_neg (fun hc => hc.2 (userAt_full d l r))] at h
        simp only [bind_eq_ok, if_true] at h
        obtain ⟨-, -, ⟨u2, f2⟩, hnew, h⟩ := h
        cases h
        exact .turn hv hmark hp1 hnew
      · have hlt : off + d.grainsOf rem < d.gpp := by omega
        have hpos := Nat.mul_pos (show 0 < off + d.grainsOf rem by
          have := d.grainsOf_pos hrem
          omega) d.gu_pos
        rw [if_pos ⟨rfl, by rw [Device.userAt_mod l r hlt]; exact hpos.ne'⟩] at h
        cases h
        exact ⟨hv, hmark.taken, hmark.oob, hp1, ho.behind hlt hmark⟩
    · -- it goes on behind the page
      have hlong : (d.gpp - off) * d.gu < rem := not_le.mp hlast
      have hsplit := Device.grainsOf_sub hlong
      have hrest := d.grainsOf_pos (show 0 < rem - (d.gpp - off) * d.gu by omega)
      have hpages : d.pagesOf off (d.grainsOf rem) =
          d.pagesOf 0 (d.grainsOf (rem - (d.gpp - off) * d.gu)) + 1 := by
        rw [Device.pagesOf_succ hoff (by omega), hsplit, Nat.add_sub_cancel_left]
      have hpos := d.pagesOf_pos 0 hrest
      obtain ⟨hv, hp1⟩ := ho.placed_head (n := d.gpp - off) (o := o) hp hoff (by omega) hmark
      rw [min_eq_right hlong.le, Device.grainsOf_mul, Nat.add_sub_cancel' hoff.le,
        if_neg (by omega)] at h
      simp only [bind_eq_ok] at h
      obtain ⟨-, -, ⟨u2, f2⟩, hnew, h⟩ := h
      dsimp only at h
      rw [if_neg (by omega)] at h
      simp only [bind_eq_ok] at h
      obtain ⟨⟨ps', u3, f3⟩, hrun, h⟩ := h
      cases h
      obtain ⟨l', r', hfill, hnext⟩ := newUserPage_behind hw h2 hs.line_lt hs.page_lt hb1 hnew
      obtain ⟨rfl, rfl⟩ := hnext (by omega)
      have hturn : Writes d f f2 L u2 (d.extent l' (r * d.gpp + off) (d.gpp - off)) o :=
        .turn hv hmark hp1 hnew
      have hall := hturn.append
        (ih hfill (by omega) (by omega) hturn.placed hturn.opened hrun)
      rw [hsplit, Device.extent_append,
        show r * d.gpp + off + (d.gpp - off) = (r + 1) * d.gpp + 0 by rw [Nat.succ_mul]; omega]
      exact hall

end Flash

end Virtkv
