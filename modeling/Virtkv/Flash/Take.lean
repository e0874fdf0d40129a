import Virtkv.Flash.Extent

/-!
# Handing out pages

`get_new_page`, `advance_write_pointer` and `mark_page_valid` hand out the page under a
write pointer. Behind the last page of a line the line is retired to the full list or the
victim queue and the next free line is opened; without a free line the code stops.
-/

namespace Virtkv

open Outcome

namespace Geometry

variable {g : Geometry}

theorem pageAt_zero (g : Geometry) (l : ℕ) :
    g.pageAt l 0 = { ch := 0, lun := 0, blk := l, pg := 0 } := by
  simp [pageAt]

/-- Pages of different lines or numbers are different. -/
theorem pgNo_pageAt_inj (hw : g.Wf) {l l' r r' : ℕ} (hl : l < g.blksPerPl)
    (hl' : l' < g.blksPerPl) (hr : r < g.pgsPerLine) (hr' : r' < g.pgsPerLine)
    (h : g.pgNo (g.pageAt l r) = g.pgNo (g.pageAt l' r')) : l = l' ∧ r = r' :=
  pageAt_inj hw ((pageAt_valid hw hl hr).pgNo_inj hw (pageAt_valid hw hl' hr') h)

end Geometry

namespace Flash

variable {d : Device} {f f' : Flash} {L : Grains} {home home' : ℕ → Place} {io : IoType}

/-- A used-up line went to the full list or to the victim queue. -/
inductive Retires (f f' : Flash) (l : ℕ) : Place → Prop
  | full (higc : (f.lines l).igc = 0) (hpq : f'.victimPq = f.victimPq)
      (hcnt : f'.victimLineCnt = f.victimLineCnt) (hfull : f'.fullLines = f.fullLines ++ [l])
      (hfcnt : f'.fullLineCnt = inc32 f.fullLineCnt) : Retires f f' l .full
  | victim (higc : (f.lines l).igc ≠ 0) (hpq : f'.victimPq = f.victimPq.insert f.pri l)
      (hcnt : f'.victimLineCnt = inc32 f.victimLineCnt) (hfull : f'.fullLines = f.fullLines)
      (hfcnt : f'.fullLineCnt = f.fullLineCnt) : Retires f f' l .victim

/-- The places after the page under a write pointer was handed out. -/
inductive Moves (d : Device) (f f' : Flash) (home : ℕ → Place) (io : IoType) (r : ℕ) :
    (ℕ → Place) → Prop
  | page (hr : r + 1 < d.geo.pgsPerLine) (hwp : f'.wp io = d.geo.pageAt (f.wp io).blk (r + 1))
      (hpq : f'.victimPq = f.victimPq) (hlists : SameLists f f') : Moves d f f' home io r home
  | line (hr : r + 1 = d.geo.pgsPerLine) (l : ℕ) (pl : Place) (hl : l < d.geo.ttLines)
      (hfree : f.freeLines = l :: f'.freeLines) (hcnt : f'.freeLineCnt = dec32 f.freeLineCnt)
      (hret : Retires f f' (f.wp io).blk pl) (hwp : f'.wp io = d.geo.pageAt l 0)
      (hmap : (f'.lines l).map = io.isMap) :
      Moves d f f' home io r
        (Function.update (Function.update home (f.wp io).blk pl) l (.current io))

/-- The page under a write pointer was handed out. -/
structure Takes (d : Device) (f f' : Flash) (home home' : ℕ → Place) (io : IoType) (r pgidx : ℕ) :
    Prop where
  pointer : Pointer d f io r
  page : pgidx = d.geo.pgNo (d.geo.pageAt (f.wp io).blk r)
  moves : Moves d f f' home io r home'
  status : f'.status = Function.update f.status pgidx .valid
  wp : ∀ io', io' ≠ io → f'.wp io' = f.wp io'
  oob : f'.oob = f.oob
  bitmap : f'.grainBitmap = f.grainBitmap
  pgInvCnt : f'.pgInvCnt = f.pgInvCnt
  blkVgc : f'.blkVgc = f.blkVgc
  blkIgc : f'.blkIgc = f.blkIgc
  vgc : ∀ l, (f'.lines l).vgc = (f.lines l).vgc
  igc : ∀ l, (f'.lines l).igc = (f.lines l).igc
  map : ∀ l, home l ≠ .free → (f'.lines l).map = (f.lines l).map

theorem Places.home_wp (h : f.Places d home) (io : IoType) : home (f.wp io).blk = .current io :=
  ((h.current io _).mp rfl).2

namespace Takes

variable {r pgidx : ℕ}

theorem page_lt (h : Takes d f f' home home' io r pgidx) (hw : d.geo.Wf) :
    pgidx < d.geo.ttPgs := by
  rw [h.page]
  exact (Geometry.pageAt_valid hw h.pointer.line_lt h.pointer.lt).pgNo_lt

theorem was_free (h : Takes d f f' home home' io r pgidx) : f.status pgidx = .free := by
  rw [h.page]
  exact (h.pointer.free_iff r h.pointer.lt).mpr le_rfl

theorem lineOf_page (h : Takes d f f' home home' io r pgidx) (hw : d.geo.Wf) :
    d.geo.lineOf pgidx = (f.wp io).blk := by
  rw [h.page, (Geometry.pageAt_valid hw h.pointer.line_lt h.pointer.lt).lineOf_pgNo]
  rfl

theorem valid (h : Takes d f f' home home' io r pgidx) : f'.status pgidx = .valid := by
  rw [h.status, Function.update_self]

theorem status_of_ne (h : Takes d f f' home home' io r pgidx) {q : ℕ} (hq : q ≠ pgidx) :
    f'.status q = f.status q := by
  rw [h.status, Function.update_of_ne hq]

theorem was_invalid {q : ℕ} (h : Takes d f f' home home' io r pgidx)
    (hq : f'.status q = .invalid) : f.status q = .invalid := by
  by_cases hqp : q = pgidx
  · rw [hqp, h.valid] at hq
    cases hq
  · rwa [h.status_of_ne hqp] at hq

theorem not_erased (h : Takes d f f' home home' io r pgidx) (hw : d.geo.Wf)
    (hpl : f.Places d home) : ¬d.Erased home (blkOf d pgidx) := by
  refine Device.not_erased ?_
  rw [h.lineOf_page hw, hpl.home_wp io]
  exact id

/-- Counters and pages are as before, with one more page in use. -/
theorem counts (h : Takes d f f' home home' io r pgidx) (hc : f.Counts d L home) :
    f'.Counts d L home where
  vgc l hl := (h.vgc l).trans (hc.vgc l hl)
  igc l hl := (h.igc l).trans (hc.igc l hl)
  blkVgc b he := by
    rw [h.blkVgc]
    exact hc.blkVgc b he
  blkIgc b he := by
    rw [h.blkIgc]
    exact hc.blkIgc b he
  invCnt hb q he := by
    rw [h.pgInvCnt]
    exact hc.invCnt hb q he
  erased b he := by
    rw [h.blkVgc, h.blkIgc]
    exact hc.erased b he
  erasedInv q he := by
    rw [h.pgInvCnt]
    exact hc.erasedInv q he

theorem pages (h : Takes d f f' home home' io r pgidx) (hw : d.geo.Wf) (hpl : f.Places d home)
    (hp : f.Pages d L home) : f'.Pages d L home where
  used_lt := hp.used_lt
  used_taken g hg he := by
    by_cases hq : d.gIdx g = pgidx
    · rw [hq, h.valid]
      nofun
    · rw [h.status_of_ne hq]
      exact hp.used_taken g hg he
  owner_used := hp.owner_used
  live_valid g hg he := by
    by_cases hq : d.gIdx g = pgidx
    · rw [hq, h.valid]
    · rw [h.status_of_ne hq]
      exact hp.live_valid g hg he
  bitmap g hg := hp.bitmap g (by rwa [h.bitmap] at hg)
  invalid hb q hq := by
    rw [h.pgInvCnt]
    exact hp.invalid hb q (h.was_invalid hq)
  erased q he := by
    rw [h.status_of_ne]
    · exact hp.erased q he
    · rintro rfl
      exact h.not_erased hw hpl he

/-- No grain of the page was in use. -/
theorem unused (h : Takes d f f' home home' io r pgidx) (hw : d.geo.Wf) (hpl : f.Places d home)
    (hp : f.Pages d L home) :
    ∀ g ∈ L.used, d.gIdx g ≠ pgidx := by
  intro g hg hc
  have htaken := hp.used_taken g hg
  rw [hc] at htaken
  exact htaken (h.not_erased hw hpl) h.was_free

end Takes

/-- Only the page under the write pointer changes its status. -/
theorem Takes.status_pageAt {r pgidx : ℕ} (h : Takes d f f' home home' io r pgidx) (hw : d.geo.Wf)
    {l i : ℕ} (hl : l < d.geo.ttLines) (hi : i < d.geo.pgsPerLine) :
    f'.status (d.geo.pgNo (d.geo.pageAt l i)) =
      if l = (f.wp io).blk ∧ i = r then .valid else f.status (d.geo.pgNo (d.geo.pageAt l i)) := by
  split
  · rename_i heq
    rw [heq.1, heq.2, ← h.page]
    exact h.valid
  · rename_i hne
    refine h.status_of_ne fun hc => hne ?_
    rw [h.page] at hc
    exact Geometry.pgNo_pageAt_inj hw hl h.pointer.line_lt hi h.pointer.lt hc

/-- A write pointer that was not moved. -/
theorem Takes.pointer_other {r pgidx : ℕ} (h : Takes d f f' home home' io r pgidx)
    (hw : d.geo.Wf) (hpl : f.Places d home) {io' : IoType} (hne : io' ≠ io) :
    ∃ r', Pointer d f' io' r' := by
  obtain ⟨r', hr'⟩ := hpl.pointer io'
  have hwp := h.wp io' hne
  have hline : (f.wp io').blk ≠ (f.wp io).blk := by
    intro hc
    have h1 := ((hpl.current io' _).mp rfl).2
    have h2 := ((hpl.current io _).mp rfl).2
    rw [hc, h2] at h1
    cases h1
    exact hne rfl
  refine ⟨r', hr'.lt, by rw [hwp]; exact hr'.line_lt, by rw [hwp]; exact hr'.page,
    fun i hi => ?_⟩
  rw [hwp, h.status_pageAt hw hr'.line_lt hi, if_neg (fun hc => hline hc.1)]
  exact hr'.free_iff i hi

/-- Places after a page that is not the last one of its line. -/
theorem Takes.places_page {r pgidx : ℕ} (h : Takes d f f' home home' io r pgidx) (hw : d.geo.Wf)
    (hpl : f.Places d home) (hr : r + 1 < d.geo.pgsPerLine)
    (hwp : f'.wp io = d.geo.pageAt (f.wp io).blk (r + 1)) (hpq : f'.victimPq = f.victimPq)
    (hlists : SameLists f f') : f'.Places d home := by
  have hblk : ∀ io', (f'.wp io').blk = (f.wp io').blk := by
    intro io'
    by_cases hne : io' = io
    · rw [hne, hwp]
      rfl
    · rw [h.wp io' hne]
  have hcur := hpl.home_wp io
  exact
    { pq := hpq ▸ hpl.pq
      victim := fun l => by rw [hpq]; exact hpl.victim l
      victimCnt := by rw [hpq, hlists.victimLineCnt]; exact hpl.victimCnt
      free := fun l => by rw [hlists.freeLines]; exact hpl.free l
      free_nodup := hlists.freeLines ▸ hpl.free_nodup
      freeCnt := by rw [hlists.freeLineCnt, hlists.freeLines]; exact hpl.freeCnt
      full := fun l => by rw [hlists.fullLines]; exact hpl.full l
      full_nodup := hlists.fullLines ▸ hpl.full_nodup
      fullCnt := by rw [hlists.fullLineCnt, hlists.fullLines]; exact hpl.fullCnt
      current := fun io' l => by rw [hblk]; exact hpl.current io' l
      pointer := fun io' => by
        by_cases hne : io' = io
        · subst hne
          refine ⟨r + 1, hr, by rw [hblk]; exact h.pointer.line_lt, by rw [hblk, hwp],
            fun i hi => ?_⟩
          rw [hblk, h.status_pageAt hw h.pointer.line_lt hi]
          by_cases hir : i = r
          · rw [if_pos ⟨rfl, hir⟩]
            exact ⟨nofun, fun hc => by omega⟩
          · rw [if_neg (fun hc => hir hc.2), h.pointer.free_iff i hi]
            omega
        · exact h.pointer_other hw hpl hne
      kind := fun io' => by
        rw [hblk, h.map]
        · exact hpl.kind io'
        · rw [((hpl.current io' _).mp rfl).2]
          nofun
      free_pages := fun l hl hh i hi => by
        rw [h.status_pageAt hw hl hi, if_neg]
        · exact hpl.free_pages l hl hh i hi
        · rintro ⟨rfl, -⟩
          rw [hcur] at hh
          cases hh
      used_up := fun l hl hh i hi he => by
        rw [h.status_pageAt hw hl hi]
        split
        · nofun
        · exact hpl.used_up l hl hh i hi he
      invalid := fun hb q hqt hq => hpl.invalid hb q hqt (h.was_invalid hq)
      reclaimable := fun l hl hh => by rw [h.igc]; exact hpl.reclaimable l hl hh }

/-- The full list and the queue after a line was retired. -/
theorem Places.retires (h : f.Places d home) {l : ℕ} {pl : Place} (hl : l < d.geo.ttLines)
    (hcur : home l = .current io) (hret : Retires f f' l pl) :
    pl.UsedUp ∧ pl ≠ .free ∧ pl.erased = ∅ ∧ f'.victimPq.Ok ∧
      (∀ z, f'.victimPq.pos z ≠ 0 ↔ z < d.geo.ttLines ∧ Function.update home l pl z = .victim) ∧
      f'.victimLineCnt = (f'.victimPq.size - 1) % 2 ^ 32 ∧
      (∀ z, z ∈ f'.fullLines ↔ z < d.geo.ttLines ∧ Function.update home l pl z = .full) ∧
      f'.fullLines.Nodup ∧ f'.fullLineCnt = f'.fullLines.length % 2 ^ 32 ∧
      (pl.Reclaimable → 0 < (f.lines l).igc) := by
  have hnfull : l ∉ f.fullLines := by
    intro hc
    rw [((h.full l).mp hc).2] at hcur
    cases hcur
  have hnvict : f.victimPq.pos l = 0 := by
    by_contra hc
    rw [((h.victim l).mp hc).2] at hcur
    cases hcur
  cases hret with
  | full higc hpq hcnt hfull hfcnt =>
    refine ⟨trivial, nofun, rfl, hpq ▸ h.pq, fun z => ?_, ?_, fun z => ?_, ?_, ?_, False.elim⟩
    · rw [hpq, h.victim z]
      by_cases hz : z = l
      · simp [hz, hcur]
      · rw [Function.update_of_ne hz]
    · rw [hcnt, hpq]
      exact h.victimCnt
    · rw [hfull, List.mem_append, List.mem_singleton, h.full z]
      by_cases hz : z = l
      · simp [hz, hl]
      · rw [Function.update_of_ne hz]
        simp [hz]
    · rw [hfull]
      exact List.nodup_append.mpr ⟨h.full_nodup, List.nodup_singleton l, fun a ha b hb hc => by
        rw [List.mem_singleton] at hb
        rw [hc, hb] at ha
        exact hnfull ha⟩
    · rw [hfcnt, h.fullCnt, hfull, inc32_mod, List.length_append, List.length_singleton]
  | victim higc hpq hcnt hfull hfcnt =>
    obtain ⟨hok, hsize, hmem⟩ := PQueue.Ok.insert f.pri h.pq hnvict
    refine ⟨trivial, nofun, rfl, hpq ▸ hok, fun z => ?_, ?_, fun z => ?_, ?_, ?_,
      fun _ => Nat.pos_of_ne_zero higc⟩
    · rw [hpq, hmem z, h.victim z]
      by_cases hz : z = l
      · simp [hz, hl]
      · rw [Function.update_of_ne hz]
        simp [hz]
    · have hsz := h.pq.size_pos
      rw [hcnt, h.victimCnt, hpq, hsize, inc32_mod]
      congr 1
      omega
    · rw [hfull, h.full z]
      by_cases hz : z = l
      · simp [hz, hcur]
      · rw [Function.update_of_ne hz]
    · rw [hfull]
      exact h.full_nodup
    · rw [hfcnt, hfull]
      exact h.fullCnt

/-- Places after the last page of a line. -/
theorem Takes.places_line {r pgidx l : ℕ} {pl : Place}
    (h : Takes d f f' home home' io r pgidx) (hw : d.geo.Wf) (hpl : f.Places d home)
    (hr : r + 1 = d.geo.pgsPerLine) (hfree : f.freeLines = l :: f'.freeLines)
    (hcnt : f'.freeLineCnt = dec32 f.freeLineCnt) (hret : Retires f f' (f.wp io).blk pl)
    (hwp : f'.wp io = d.geo.pageAt l 0) (hmap : (f'.lines l).map = io.isMap) :
    f'.Places d (Function.update (Function.update home (f.wp io).blk pl) l (.current io)) := by
  have hcur := hpl.home_wp io
  set l0 := (f.wp io).blk with hl0
  obtain ⟨hlt, hhome⟩ := (hpl.free l).mp (hfree ▸ List.mem_cons_self ..)
  have hne : l0 ≠ l := by
    intro hc
    rw [hc, hhome] at hcur
    cases hcur
  have hlt0 := h.pointer.line_lt
  obtain ⟨hup, hplfree, hpler, hpq, hvict, hvcnt, hfull, hfnd, hfcnt, hrec⟩ :=
    hpl.retires hlt0 hcur hret
  set home1 := Function.update home l0 pl with hhome1
  set home2 := Function.update home1 l (.current io) with hhome2
  have hat0 : home2 l0 = pl := by
    rw [hhome2, Function.update_of_ne hne, hhome1, Function.update_self]
  have hat : home2 l = .current io := by rw [hhome2, Function.update_self]
  have hother : ∀ z, z ≠ l → z ≠ l0 → home2 z = home z := by
    intro z hz hz0
    rw [hhome2, Function.update_of_ne hz, hhome1, Function.update_of_ne hz0]
  have h1l : home1 l = .free := by rw [hhome1, Function.update_of_ne (Ne.symm hne), hhome]
  -- for the lists only the retired line counts
  have hlists : ∀ z p, p ≠ Place.current io → p ≠ .free → (home2 z = p ↔ home1 z = p) := by
    intro z p hp hp'
    by_cases hz : z = l
    · rw [hz, hat, h1l]
      exact ⟨fun hc => absurd hc.symm hp, fun hc => absurd hc.symm hp'⟩
    · rw [hhome2, Function.update_of_ne hz]
  have hblk : ∀ io', io' ≠ io → (f'.wp io').blk = (f.wp io').blk := fun io' hio => by
    rw [h.wp io' hio]
  have hers : ∀ z, (home2 z).erased = (home z).erased := by
    intro z
    by_cases hz : z = l
    · rw [hz, hat, hhome]
      rfl
    by_cases hz0 : z = l0
    · rw [hz0, hat0, hpler, hcur]
      rfl
    rw [hother z hz hz0]
  have hstat : ∀ {z i : ℕ}, z < d.geo.ttLines → i < d.geo.pgsPerLine → z ≠ l0 →
      f'.status (d.geo.pgNo (d.geo.pageAt z i)) = f.status (d.geo.pgNo (d.geo.pageAt z i)) := by
    intro z i hz hi hz0
    rw [h.status_pageAt hw hz hi, if_neg (fun hc => hz0 hc.1)]
  exact
    { pq := hpq
      victim := fun z => by rw [hvict z, hlists z _ (by nofun) (by nofun)]
      victimCnt := hvcnt
      free := fun z => by
        have hnd := hpl.free_nodup
        rw [hfree, List.nodup_cons] at hnd
        by_cases hz : z = l
        · rw [hz, hat]
          exact ⟨fun hc => absurd hc hnd.1, fun hc => nomatch hc.2⟩
        by_cases hz0 : z = l0
        · rw [hz0, hat0]
          refine ⟨fun hc => ?_, fun hc => absurd hc.2 hplfree⟩
          have := ((hpl.free l0).mp (hfree ▸ List.mem_cons_of_mem _ hc)).2
          rw [hcur] at this
          cases this
        rw [hother z hz hz0, ← hpl.free z, hfree, List.mem_cons, or_iff_right hz]
      free_nodup := by
        have hnd := hpl.free_nodup
        rw [hfree, List.nodup_cons] at hnd
        exact hnd.2
      freeCnt := by rw [hcnt, hpl.freeCnt, hfree, List.length_cons, dec32_mod]
      full := fun z => by rw [hfull z, hlists z _ (by nofun) (by nofun)]
      full_nodup := hfnd
      fullCnt := hfcnt
      current := fun io' z => by
        by_cases hio : io' = io
        · subst hio
          rw [hwp]
          constructor
          · rintro rfl
            exact ⟨hlt, hat⟩
          · rintro ⟨hz, hc⟩
            by_contra hzl
            have hzl : z ≠ l := fun e => hzl e.symm
            by_cases hz0 : z = l0
            · rw [hz0, hat0] at hc
              rw [hc] at hup
              exact hup
            rw [hother z hzl hz0] at hc
            exact hz0 ((hpl.current io' z).mpr ⟨hz, hc⟩).symm
        · rw [hblk io' hio, hpl.current io' z]
          refine and_congr_right fun hz => ?_
          by_cases hzl : z = l
          · rw [hzl, hat, hhome]
            exact ⟨nofun, fun hc => absurd (Place.current.inj hc).symm hio⟩
          by_cases hz0 : z = l0
          · rw [hz0, hat0, hcur]
            constructor
            · intro hc
              exact absurd (Place.current.inj hc).symm hio
            · intro hc
              rw [hc] at hup
              exact hup.elim
          rw [hother z hzl hz0]
      pointer := fun io' => by
        by_cases hio : io' = io
        · subst hio
          refine ⟨0, hw.pgsPerLine_pos, by rw [hwp]; exact hlt, by rw [hwp, Geometry.pageAt_blk],
            fun i hi => ?_⟩
          rw [hwp, Geometry.pageAt_blk, hstat hlt hi (Ne.symm hne)]
          exact ⟨fun _ => Nat.zero_le _, fun _ => hpl.free_pages l hlt hhome i hi⟩
        · exact h.pointer_other hw hpl hio
      kind := fun io' => by
        by_cases hio : io' = io
        · rw [hio, hwp]
          exact hmap
        · rw [hblk io' hio, h.map _ (by rw [hpl.home_wp io']; nofun)]
          exact hpl.kind io'
      free_pages := fun z hz hh i hi => by
        have hzl : z ≠ l := by
          rintro rfl
          rw [hat] at hh
          cases hh
        have hz0 : z ≠ l0 := by
          rintro rfl
          rw [hat0] at hh
          exact hplfree hh
        rw [hother z hzl hz0] at hh
        rw [hstat hz hi hz0]
        exact hpl.free_pages z hz hh i hi
      used_up := fun z hz hh i hi he => by
        rw [Device.erased_congr hers] at he
        by_cases hzl : z = l
        · rw [hzl, hat] at hh
          exact hh.elim
        by_cases hz0 : z = l0
        · subst hz0
          rw [h.status_pageAt hw hz hi]
          split
          · nofun
          · rename_i hir
            rw [ne_eq, h.pointer.free_iff i hi]
            have : i ≠ r := fun hc => hir ⟨rfl, hc⟩
            omega
        rw [hother z hzl hz0] at hh
        rw [hstat hz hi hz0]
        exact hpl.used_up z hz hh i hi he
      invalid := fun hb q hqt hq => by
        have hand := hpl.invalid hb q hqt (h.was_invalid hq)
        rw [hother]
        · exact hand
        · intro hc
          rw [hc, hhome] at hand
          exact hand
        · intro hc
          rw [hc, hcur] at hand
          exact hand
      reclaimable := fun z hz hh => by
        rw [h.igc]
        by_cases hzl : z = l
        · rw [hzl, hat] at hh
          exact hh.elim
        by_cases hz0 : z = l0
        · rw [hz0, hat0] at hh
          rw [hz0]
          exact hrec hh
        rw [hother z hzl hz0] at hh
        exact hpl.reclaimable z hz hh }

/-- Handing out a page erases nothing. -/
theorem Takes.erased {r pgidx : ℕ} (h : Takes d f f' home home' io r pgidx)
    (hpl : f.Places d home) (z : ℕ) : (home' z).erased = (home z).erased := by
  cases h.moves with
  | page => rfl
  | line hr l pl hl hfree hcnt hret hwp hmap =>
    have hcur := hpl.home_wp io
    have hhome := ((hpl.free l).mp (hfree ▸ List.mem_cons_self ..)).2
    by_cases hz : z = l
    · rw [hz, Function.update_self, hhome]
      rfl
    rw [Function.update_of_ne hz]
    by_cases hz0 : z = (f.wp io).blk
    · rw [hz0, Function.update_self, (hpl.retires h.pointer.line_lt hcur hret).2.2.1, hcur]
      rfl
    · rw [Function.update_of_ne hz0]

/-- Handing out a page takes no line in hand and lets none go. -/
theorem Takes.hand_iff {r pgidx : ℕ} (h : Takes d f f' home home' io r pgidx)
    (hpl : f.Places d home) (z : ℕ) (bs : Finset ℕ) : home' z = .hand bs ↔ home z = .hand bs := by
  cases h.moves with
  | page => exact Iff.rfl
  | line hr l pl hl hfree hcnt hret hwp hmap =>
    have hcur := hpl.home_wp io
    have hhome := ((hpl.free l).mp (hfree ▸ List.mem_cons_self ..)).2
    by_cases hz : z = l
    · rw [hz, Function.update_self, hhome]
      exact ⟨nofun, nofun⟩
    rw [Function.update_of_ne hz]
    by_cases hz0 : z = (f.wp io).blk
    · rw [hz0, Function.update_self, hcur]
      cases hret <;> exact ⟨nofun, nofun⟩
    · rw [Function.update_of_ne hz0]

theorem Takes.places {r pgidx : ℕ} (h : Takes d f f' home home' io r pgidx) (hw : d.geo.Wf)
    (hpl : f.Places d home) : f'.Places d home' := by
  cases h.moves with
  | page hr hwp hpq hlists => exact h.places_page hw hpl hr hwp hpq hlists
  | line hr l pl hl hfree hcnt hret hwp hmap =>
    exact h.places_line hw hpl hr hfree hcnt hret hwp hmap

/-- Handing out a page keeps the invariant. -/
theorem Takes.inv {r pgidx : ℕ} (h : Takes d f f' home home' io r pgidx) (hw : d.geo.Wf)
    (hinv : FlashInv d f L home) : FlashInv d f' L home' := by
  have hers := Device.erased_congr (d := d) (h.erased hinv.places)
  exact ⟨(h.counts hinv.counts).congr hers, (h.pages hw hinv.places hinv.pages).congr hers,
    h.places hw hinv.places⟩

/-- How a line is retired. -/
theorem retireLine_ok {f1 : Flash} {l : ℕ} (h : f.retireLine d l = .ok f1) :
    ∃ pl, Retires f f1 l pl ∧
      f1 = { f with
        victimPq := f1.victimPq, victimLineCnt := f1.victimLineCnt
        fullLines := f1.fullLines, fullLineCnt := f1.fullLineCnt } := by
  unfold retireLine at h
  split at h
  · rename_i higc
    cases h
    exact ⟨_, .full higc rfl rfl rfl rfl, rfl⟩
  · rename_i higc
    simp only [addVictim, pqInsert, bind_eq_ok, ensure_eq_ok] at h
    obtain ⟨-, -, f2, ⟨-, -, h2⟩, h⟩ := h
    cases h2
    cases h
    exact ⟨_, .victim higc rfl rfl rfl rfl, rfl⟩

/-- `advance_write_pointer` retires the current line without a fault. -/
theorem retireLine_eq (hinv : FlashInv d f L home) (hw : d.geo.Wf) (io : IoType) :
    ∃ f1, f.retireLine d (f.wp io).blk = .ok f1 := by
  have hcur := hinv.places.home_wp io
  obtain ⟨r, hr⟩ := hinv.places.pointer io
  have hlt := hr.line_lt
  have hsum := hinv.tallied.vgc_add_igc_le hw hlt
  unfold retireLine
  split
  · exact ⟨_, rfl⟩
  · rename_i higc
    have hpos : f.victimPq.pos (f.wp io).blk = 0 := by
      by_contra hc
      rw [((hinv.places.victim _).mp hc).2] at hcur
      cases hcur
    obtain ⟨hok, hsize, hmem⟩ := PQueue.Ok.insert f.pri hinv.places.pq hpos
    have hroom : f.victimPq.size < d.geo.ttLines + 1 := by
      have hle := hok.size_le (n := d.geo.ttLines) fun z hz => by
        rcases (hmem z).mp hz with hz | rfl
        · exact ((hinv.places.victim z).mp hz).1
        · exact hlt
      omega
    rw [ensure_of (show (f.lines (f.wp io).blk).vgc < d.grainsPerLine by omega), ok_bind]
    simp only [addVictim, pqInsert, ensure_of hroom, ok_bind]
    exact ⟨_, rfl⟩

/-- What `advance_write_pointer` does behind the last page of a line. -/
structure OpensLine (d : Device) (f f' : Flash) (io : IoType) (l : ℕ) (pl : Place) : Prop where
  line_lt : l < d.geo.ttLines
  freeLines : f.freeLines = l :: f'.freeLines
  freeCnt : f'.freeLineCnt = dec32 f.freeLineCnt
  retires : Retires f f' (f.wp io).blk pl
  wp : f'.wp = Function.update f.wp io (d.geo.pageAt l 0)
  lines : f'.lines = Function.update f.lines l { f.lines l with map := io.isMap }
  status : f'.status = f.status
  oob : f'.oob = f.oob
  bitmap : f'.grainBitmap = f.grainBitmap
  pgInvCnt : f'.pgInvCnt = f.pgInvCnt
  blkVgc : f'.blkVgc = f.blkVgc
  blkIgc : f'.blkIgc = f.blkIgc

/-- What happened if `advance_write_pointer` returned behind the last page of a line. -/
theorem nextLine_ok (h : f.nextLine d io = .ok f') : ∃ l pl, OpensLine d f f' io l pl := by
  simp only [nextLine, bind_eq_ok, ensure_eq_ok] at h
  obtain ⟨f1, hret, -, -, ⟨l, f2⟩, hnext, -, hl, h⟩ := h
  obtain ⟨pl, hretires, hf1⟩ := retireLine_ok hret
  unfold getNextFreeLine at hnext
  split at hnext
  · cases hnext
  · rename_i l' ls hls
    cases hnext
    cases h
    refine ⟨l, pl, hl, ?_, ?_, ?_, ?_, ?_, ?_, ?_, ?_, ?_, ?_, ?_⟩
    · rw [hf1] at hls
      exact hls
    · show dec32 f1.freeLineCnt = _
      rw [hf1]
    · cases hretires with
      | full higc hpq hcnt hfull hfcnt => exact .full higc hpq hcnt hfull hfcnt
      | victim higc hpq hcnt hfull hfcnt => exact .victim higc hpq hcnt hfull hfcnt
    · show Function.update f1.wp io _ = _
      rw [hf1, Geometry.pageAt_zero]
    · show Function.update f1.lines l _ = _
      rw [hf1]
    · show f1.status = _
      rw [hf1]
    · show f1.oob = _
      rw [hf1]
    · show f1.grainBitmap = _
      rw [hf1]
    · show f1.pgInvCnt = _
      rw [hf1]
    · show f1.blkVgc = _
      rw [hf1]
    · show f1.blkIgc = _
      rw [hf1]

theorem nextLine_yields (hinv : FlashInv d f L home) (hw : d.geo.Wf) (io : IoType) :
    Yields (f.nextLine d io) (· = .noFreeLine) (fun f' => ∃ l pl, OpensLine d f f' io l pl) := by
  obtain ⟨r, hr⟩ := hinv.places.pointer io
  obtain ⟨f1, hret⟩ := retireLine_eq hinv hw io
  obtain ⟨-, -, hf1⟩ := retireLine_ok hret
  have hlt : (f.wp io).blk < d.geo.blksPerPl := hr.line_lt
  cases hrun : f.nextLine d io with
  | ok f' => exact nextLine_ok hrun
  | error e =>
    rw [nextLine, hret, ok_bind, ensure_of hlt, ok_bind] at hrun
    cases hls : f.freeLines with
    | nil =>
      have hls1 : f1.freeLines = [] := by rw [hf1, ← hls]
      rw [getNextFreeLine, hls1] at hrun
      cases hrun
      rfl
    | cons l ls =>
      have hls1 : f1.freeLines = l :: ls := by rw [hf1, ← hls]
      have hl : l < d.geo.blksPerPl :=
        ((hinv.places.free l).mp (hls ▸ List.mem_cons_self ..)).1
      rw [getNextFreeLine, hls1] at hrun
      simp only [ok_bind, ensure_of hl] at hrun
      cases hrun

/-- A page that is not the last one of its line was handed out. -/
theorem takes_page {r : ℕ} (hr : Pointer d f io r) (hlt : r + 1 < d.geo.pgsPerLine)
    (home : ℕ → Place) :
    Takes d f ((f.setWp io (d.geo.pageAt (f.wp io).blk (r + 1))).setStatus
      (d.geo.pgNo (d.geo.pageAt (f.wp io).blk r)) .valid) home home io r
      (d.geo.pgNo (d.geo.pageAt (f.wp io).blk r)) := by
  refine ⟨hr, rfl, .page hlt ?_ rfl ⟨rfl, rfl, rfl, rfl, rfl⟩, rfl,
    fun io' hne => ?_, rfl, rfl, rfl, rfl, rfl, fun _ => rfl, fun _ => rfl, fun _ _ => rfl⟩
  · exact Function.update_self _ _ _
  · exact Function.update_of_ne hne _ _

/-- The last page of a line was handed out. -/
theorem OpensLine.takes {f1 : Flash} {l r : ℕ} {pl : Place} (ho : OpensLine d f f1 io l pl)
    (hpl : f.Places d home) (hr : Pointer d f io r) (heq : r + 1 = d.geo.pgsPerLine) :
    Takes d f (f1.setStatus (d.geo.pgNo (d.geo.pageAt (f.wp io).blk r)) .valid) home
      (Function.update (Function.update home (f.wp io).blk pl) l (.current io)) io r
      (d.geo.pgNo (d.geo.pageAt (f.wp io).blk r)) := by
  have hlines : ∀ z, (f1.lines z).vgc = (f.lines z).vgc ∧ (f1.lines z).igc = (f.lines z).igc ∧
      (z ≠ l → (f1.lines z).map = (f.lines z).map) := by
    intro z
    rw [ho.lines]
    by_cases hz : z = l
    · subst hz
      simp
    · simp [hz]
  have hhome := ((hpl.free l).mp (ho.freeLines ▸ List.mem_cons_self ..)).2
  refine ⟨hr, rfl, .line heq l pl ho.line_lt ho.freeLines ho.freeCnt ?_ ?_ ?_,
    ?_, fun io' hne => ?_, ho.oob, ho.bitmap, ho.pgInvCnt, ho.blkVgc, ho.blkIgc,
    fun z => (hlines z).1, fun z => (hlines z).2.1, fun z hz => ?_⟩
  · cases ho.retires with
    | full higc hpq hcnt hfull hfcnt => exact .full higc hpq hcnt hfull hfcnt
    | victim higc hpq hcnt hfull hfcnt => exact .victim higc hpq hcnt hfull hfcnt
  · show f1.wp io = _
    rw [ho.wp, Function.update_self]
  · show (f1.lines l).map = _
    rw [ho.lines, Function.update_self]
  · show Function.update f1.status _ _ = _
    rw [ho.status]
  · show f1.wp io' = _
    rw [ho.wp, Function.update_of_ne hne]
  · refine (hlines z).2.2 ?_
    rintro rfl
    exact hz hhome

/-- `advance_write_pointer` and `mark_page_valid` of the page under the write pointer. -/
theorem advance_yields (hinv : FlashInv d f L home) (hw : d.geo.Wf) {r : ℕ}
    (hr : Pointer d f io r) :
    Yields (do let f' ← f.advanceWritePointer d io; f'.markPageValid d (f.wp io))
      (· = .noFreeLine) (fun f' => ∃ home', Takes d f f' home home' io r
        (d.geo.pgNo (d.geo.pageAt (f.wp io).blk r))) := by
  have hv := Geometry.pageAt_valid hw hr.line_lt hr.lt
  have hfree := (hr.free_iff r hr.lt).mpr le_rfl
  have hpage : d.geo.ppa2pgidx (f.wp io) = .ok (d.geo.pgNo (d.geo.pageAt (f.wp io).blk r)) := by
    conv_lhs => rw [hr.page]
    exact hv.ppa2pgidx_eq
  rcases Nat.lt_or_eq_of_le (Nat.succ_le_of_lt hr.lt) with hlt | heq
  · rw [advanceWritePointer_pageAt hw hr.page hlt, ok_bind]
    have hst : (f.setWp io (d.geo.pageAt (f.wp io).blk (r + 1))).status
        (d.geo.pgNo (d.geo.pageAt (f.wp io).blk r)) = .free := hfree
    simp only [markPageValid, hpage, ok_bind, ensure_of hst]
    exact ⟨home, takes_page hr hlt home⟩
  · rw [advanceWritePointer_last hw hr.page heq]
    refine (nextLine_yields hinv hw io).bind fun f1 hopened => ?_
    obtain ⟨l, pl, ho⟩ := hopened
    have hst : f1.status (d.geo.pgNo (d.geo.pageAt (f.wp io).blk r)) = .free := by
      rw [ho.status]
      exact hfree
    simp only [markPageValid, hpage, ok_bind, ensure_of hst]
    exact ⟨_, ho.takes hinv.places hr heq⟩

/-- `get_new_page`, `advance_write_pointer` and `mark_page_valid` only stop when there is no
free line. -/
theorem takePage_yields (hinv : FlashInv d f L home) (hw : d.geo.Wf) {r : ℕ}
    (hr : Pointer d f io r) :
    Yields (f.takePage d io) (· = .noFreeLine)
      (fun (p, pgidx, f') => p = d.geo.pageAt (f.wp io).blk r ∧
        ∃ home', Takes d f f' home home' io r pgidx) := by
  have hv := Geometry.pageAt_valid hw hr.line_lt hr.lt
  have hpage : d.geo.ppa2pgidx (f.wp io) = .ok (d.geo.pgNo (d.geo.pageAt (f.wp io).blk r)) := by
    conv_lhs => rw [hr.page]
    exact hv.ppa2pgidx_eq
  have hadv := advance_yields hinv hw hr
  simp only [takePage, getNewPage, hpage, ok_bind]
  cases hf : f.advanceWritePointer d io with
  | error e =>
    rw [hf] at hadv
    exact hadv
  | ok f1 =>
    rw [hf, ok_bind] at hadv
    rw [ok_bind]
    exact hadv.bind fun f' h => ⟨hr.page, h⟩

end Flash

end Virtkv
