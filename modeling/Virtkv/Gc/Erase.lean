import Virtkv.Gc.Select

/-!
# The life of a victim

A victim is taken out of the queue, its blocks are erased one by one, and the line goes
back to the free list. The ledger keeps the grains of the line until then.
-/

namespace Virtkv

open Outcome

namespace Geometry

variable {g : Geometry} {p : Ppa}

/-- The number of the block of a page. -/
def blkNo (g : Geometry) (p : Ppa) : ℕ := (p.ch * g.lunsPerCh + p.lun) * g.blksPerPl + p.blk

theorem pgNo_eq (g : Geometry) (p : Ppa) : g.pgNo p = g.blkNo p * g.pgsPerBlk + p.pg := by
  unfold pgNo blkNo pgsPerCh pgsPerLun
  ring

theorem Valid.pgNo_div_blk (h : g.Valid p) : g.pgNo p / g.pgsPerBlk = g.blkNo p := by
  have hpg := h.pg
  rw [pgNo_eq, Nat.add_comm, Nat.add_mul_div_right _ _ (by omega), Nat.div_eq_of_lt hpg,
    Nat.zero_add]

end Geometry

namespace Flash

variable {d : Device} {f f' : Flash} {L : Grains} {home : ℕ → Place} {l cur b : ℕ}
  {bs : Finset ℕ}

/-! ### Out of the queue -/

/-- A place that is not looked for in lists, queue and write pointers. -/
theorem update_hand_iff {pl : Place} (hpl : ¬pl.InHand) (hl : home l ≠ pl) (z : ℕ) :
    Function.update home l (.hand bs) z = pl ↔ home z = pl := by
  by_cases hz : z = l
  · rw [hz, Function.update_self]
    refine ⟨?_, fun hc => absurd hc hl⟩
    rintro rfl
    exact absurd trivial hpl
  · rw [Function.update_of_ne hz]

theorem Places.selects {v : Option ℕ} (h : f.Places d home) (hs : Selects f cur v f') :
    f'.Places d (v.elim home fun l => Function.update home l (.hand ∅)) := by
  cases hs with
  | none q hok hsame honly =>
    exact h.of_eq hok hsame ⟨rfl, rfl, rfl, rfl, rfl⟩ rfl (fun _ => Iff.rfl) (fun _ => rfl)
      (fun _ _ => .inl) fun _ _ => le_rfl
  | line l q hl hne hok hsize hpos =>
    obtain ⟨hlt, hhome⟩ := (h.victim l).mp hl
    have hiff : ∀ pl : Place, ¬pl.InHand → pl ≠ .victim → ∀ z,
        Function.update home l (.hand ∅) z = pl ↔ home z = pl := fun pl hpl hv z =>
      update_hand_iff hpl (by rw [hhome]; exact hv.symm) z
    have her : ∀ z, (Function.update home l (.hand ∅) z).erased = (home z).erased := by
      intro z
      by_cases hz : z = l
      · rw [hz, Function.update_self, hhome]
        rfl
      · rw [Function.update_of_ne hz]
    show Places d _ (Function.update home l (.hand ∅))
    refine
      { pq := hok
        victim := fun z => ?_
        victimCnt := ?_
        free := fun z => ?_
        free_nodup := h.free_nodup
        freeCnt := h.freeCnt
        full := fun z => ?_
        full_nodup := h.full_nodup
        fullCnt := h.fullCnt
        current := fun io z => ?_
        pointer := fun io => ?_
        kind := h.kind
        free_pages := fun z hz hh => ?_
        used_up := fun z hz hh i hi he => ?_
        invalid := fun hb q hqt hq => ?_
        reclaimable := fun z hz hh => ?_ }
    · show q.pos z ≠ 0 ↔ _
      rw [hpos z, h.victim z]
      by_cases hz : z = l
      · simp [hz]
      · simp [hz]
    · show dec32 f.victimLineCnt = (q.size - 1) % 2 ^ 32
      have hq := hok.size_pos
      have hsz : f.victimPq.size - 1 = q.size - 1 + 1 := by omega
      rw [h.victimCnt, hsz, dec32_mod]
    · rw [hiff .free id nofun]
      exact h.free z
    · rw [hiff .full id nofun]
      exact h.full z
    · rw [hiff (.current io) id nofun]
      exact h.current io z
    · obtain ⟨r, hr⟩ := h.pointer io
      exact ⟨r, hr.of_eq rfl fun _ => Iff.rfl⟩
    · rw [hiff .free id nofun] at hh
      exact h.free_pages z hz hh
    · rw [Device.erased_congr her] at he
      refine h.used_up z hz ?_ i hi he
      by_cases hzl : z = l
      · rw [hzl, hhome]
        trivial
      · rwa [Function.update_of_ne hzl] at hh
    · by_cases hzl : d.geo.lineOf q = l
      · rw [hzl, Function.update_self]
        trivial
      · rw [Function.update_of_ne hzl]
        exact h.invalid hb q hqt hq
    · show 0 < (f.lines z).igc
      refine h.reclaimable z hz ?_
      by_cases hzl : z = l
      · rw [hzl, hhome]
        trivial
      · rwa [Function.update_of_ne hzl] at hh

end Flash

/-- The choice of a victim keeps the invariant. -/
theorem FlashInv.selects {d : Device} {f f' : Flash} {L : Grains} {home : ℕ → Place} {cur : ℕ}
    {v : Option ℕ} (h : FlashInv d f L home) (hs : Flash.Selects f cur v f') :
    FlashInv d f' L (v.elim home fun l => Function.update home l (.hand ∅)) := by
  have hpl := h.places.selects hs
  have hframe : f'.lines = f.lines ∧ f'.status = f.status ∧ f'.blkVgc = f.blkVgc ∧
      f'.blkIgc = f.blkIgc ∧ f'.pgInvCnt = f.pgInvCnt ∧ f'.grainBitmap = f.grainBitmap := by
    cases hs <;> exact ⟨rfl, rfl, rfl, rfl, rfl, rfl⟩
  obtain ⟨hlines, hst, hbv, hbi, hic, hbit⟩ := hframe
  have her : ∀ z, ((v.elim home fun l => Function.update home l (.hand ∅)) z).erased =
      (home z).erased := by
    intro z
    cases hs with
    | none => rfl
    | line l q hl =>
      have hhome := ((h.places.victim l).mp hl).2
      show (Function.update home l (.hand ∅) z).erased = _
      by_cases hz : z = l
      · rw [hz, Function.update_self, hhome]
        rfl
      · rw [Function.update_of_ne hz]
  have hers := Device.erased_congr (d := d) her
  have hc : f'.Counts d L home := by
    refine ⟨?_, ?_, ?_, ?_, ?_, ?_, ?_⟩
    · rw [hlines]
      exact h.counts.vgc
    · rw [hlines]
      exact h.counts.igc
    · rw [hbv]
      exact h.counts.blkVgc
    · rw [hbi]
      exact h.counts.blkIgc
    · rw [hic]
      exact h.counts.invCnt
    · rw [hbv, hbi]
      exact h.counts.erased
    · rw [hic]
      exact h.counts.erasedInv
  have hp : f'.Pages d L home := by
    refine ⟨h.pages.used_lt, ?_, h.pages.owner_used, ?_, ?_, ?_, ?_⟩
    · rw [hst]
      exact h.pages.used_taken
    · rw [hst]
      exact h.pages.live_valid
    · rw [hbit]
      exact h.pages.bitmap
    · rw [hst, hic]
      exact h.pages.invalid
    · rw [hst]
      exact h.pages.erased
  exact ⟨hc.congr hers, hp.congr hers, hpl⟩

/-! ### Erased blocks -/

namespace Flash

variable {d : Device} {f f' : Flash} {L : Grains} {home : ℕ → Place} {l b : ℕ} {bs : Finset ℕ}

/-- Block `b` was erased and nothing else happened. -/
structure Wipes (d : Device) (f f' : Flash) (b : ℕ) : Prop where
  status : ∀ q, f'.status q = if blkOf d q = b then .free else f.status q
  pgInvCnt : ∀ q, f'.pgInvCnt q = if blkOf d q = b then 0 else f.pgInvCnt q
  oob : ∀ g, f'.oob g = if blkOf d (d.gIdx g) = b then 2 else f.oob g
  bitmap : ∀ g, f'.grainBitmap g = if blkOf d (d.gIdx g) = b then false else f.grainBitmap g
  blkVgc : f'.blkVgc = Function.update f.blkVgc b 0
  blkIgc : f'.blkIgc = Function.update f.blkIgc b 0
  lines : f'.lines = f.lines
  wp : f'.wp = f.wp
  victimPq : f'.victimPq = f.victimPq
  lists : SameLists f f'

/-- The pages of a block are a range. -/
theorem blkOf_eq_iff (hw : d.geo.Wf) (b q : ℕ) :
    b * d.geo.pgsPerBlk ≤ q ∧ q < b * d.geo.pgsPerBlk + d.geo.pgsPerBlk ↔ blkOf d q = b := by
  unfold blkOf
  rw [Nat.div_eq_iff hw.pgsPerBlk_pos]
  have := hw.pgsPerBlk_pos
  omega

/-- The grains of a range of pages are a range. -/
theorem gIdx_mem_iff (d : Device) (a n g : ℕ) :
    a * d.gpp ≤ g ∧ g < (a + n) * d.gpp ↔ a ≤ d.gIdx g ∧ d.gIdx g < a + n := by
  unfold Device.gIdx
  rw [Nat.le_div_iff_mul_le d.build_gpp_pos, Nat.div_lt_iff_lt_mul d.build_gpp_pos]

theorem markBlockFree_eq (hw : d.geo.Wf) {p : Ppa} (hp : d.geo.Valid p) :
    ∃ f', f.markBlockFree d p = .ok f' ∧ Wipes d f f' (d.geo.blkNo p) := by
  have hp0 : d.geo.Valid { p with pg := 0 } := ⟨hp.ch, hp.lun, hp.blk, hw.pgsPerBlk_pos⟩
  have hno : d.geo.pgNo { p with pg := 0 } = d.geo.blkNo p * d.geo.pgsPerBlk := by
    rw [Geometry.pgNo_eq]
    rfl
  have hblk : blkOf d (d.geo.pgNo { p with pg := 0 }) = d.geo.blkNo p := hp0.pgNo_div_blk
  rw [markBlockFree, hp0.ppa2pgidx_eq, ok_bind]
  refine ⟨_, rfl, fun q => ?_, fun q => ?_, fun g => ?_, fun g => ?_, ?_, ?_, rfl, rfl, rfl,
    ⟨rfl, rfl, rfl, rfl, rfl⟩⟩
  · show (if _ then _ else _) = _
    rw [hno, if_congr (blkOf_eq_iff hw _ q) rfl rfl]
  · show (if _ then _ else _) = _
    rw [hno, if_congr (blkOf_eq_iff hw _ q) rfl rfl]
  · show (if _ then _ else _) = _
    rw [hno, if_congr ((gIdx_mem_iff d _ _ g).trans (blkOf_eq_iff hw _ _)) rfl rfl]
  · show (if _ then _ else _) = _
    rw [hno, if_congr ((gIdx_mem_iff d _ _ g).trans (blkOf_eq_iff hw _ _)) rfl rfl]
  · rw [← hblk]
    rfl
  · rw [← hblk]
    rfl

/-- One more block of the line is erased. -/
theorem erased_insert (hhome : home l = .hand bs) (hb : b % d.geo.blksPerPl = l) (b' : ℕ) :
    d.Erased (Function.update home l (.hand (insert b bs))) b' ↔ d.Erased home b' ∨ b' = b := by
  unfold Device.Erased
  by_cases hl : b' % d.geo.blksPerPl = l
  · rw [hl, Function.update_self, hhome]
    show b' ∈ insert b bs ↔ b' ∈ bs ∨ b' = b
    rw [Finset.mem_insert, or_comm]
  · rw [Function.update_of_ne hl]
    refine ⟨.inl, fun h => h.resolve_right ?_⟩
    rintro rfl
    exact hl hb

end Flash

namespace FlashInv

variable {d : Device} {f f' : Flash} {L : Grains} {home : ℕ → Place} {l b : ℕ} {bs : Finset ℕ}

theorem counts_wipes (h : FlashInv d f L home) (hhome : home l = .hand bs)
    (hb : b % d.geo.blksPerPl = l) (hw : Flash.Wipes d f f' b) :
    f'.Counts d L (Function.update home l (.hand (insert b bs))) := by
  have her := Flash.erased_insert (d := d) hhome hb
  refine ⟨?_, ?_, fun z he => ?_, fun z he => ?_, fun hp q he => ?_, fun z he => ?_, fun q he => ?_⟩
  · rw [hw.lines]
    exact h.counts.vgc
  · rw [hw.lines]
    exact h.counts.igc
  · rw [her, not_or] at he
    rw [hw.blkVgc, Function.update_of_ne he.2]
    exact h.counts.blkVgc z he.1
  · rw [her, not_or] at he
    rw [hw.blkIgc, Function.update_of_ne he.2]
    exact h.counts.blkIgc z he.1
  · rw [her, not_or] at he
    rw [hw.pgInvCnt, if_neg he.2]
    exact h.counts.invCnt hp q he.1
  · rw [hw.blkVgc, hw.blkIgc]
    by_cases hz : z = b
    · rw [hz, Function.update_self, Function.update_self]
      exact ⟨rfl, rfl⟩
    · rw [Function.update_of_ne hz, Function.update_of_ne hz]
      exact h.counts.erased z (((her z).mp he).resolve_right hz)
  · rw [hw.pgInvCnt]
    split
    · rfl
    · rename_i hq
      exact h.counts.erasedInv q (((her _).mp he).resolve_right hq)

theorem pages_wipes (h : FlashInv d f L home) (hhome : home l = .hand bs)
    (hb : b % d.geo.blksPerPl = l) (hw : Flash.Wipes d f f' b) :
    f'.Pages d L (Function.update home l (.hand (insert b bs))) := by
  have her := Flash.erased_insert (d := d) hhome hb
  refine ⟨h.pages.used_lt, fun g hg he => ?_, h.pages.owner_used, fun g hg he => ?_,
    fun g hg => ?_, fun hp q hq => ?_, fun q he => ?_⟩
  · rw [her, not_or] at he
    rw [hw.status, if_neg he.2]
    exact h.pages.used_taken g hg he.1
  · rw [her, not_or] at he
    rw [hw.status, if_neg he.2]
    exact h.pages.live_valid g hg he.1
  · rw [hw.bitmap] at hg
    split at hg
    · cases hg
    · rename_i hne
      obtain ⟨hbo, ho, he⟩ := h.pages.bitmap g hg
      rw [her, not_or]
      exact ⟨hbo, ho, he, hne⟩
  · rw [hw.status] at hq
    split at hq
    · cases hq
    · rename_i hne
      rw [hw.pgInvCnt, if_neg hne]
      exact h.pages.invalid hp q hq
  · rw [hw.status]
    split
    · rfl
    · rename_i hne
      exact h.pages.erased q (((her _).mp he).resolve_right hne)

end FlashInv

namespace Flash

variable {d : Device} {f f' : Flash} {L : Grains} {home : ℕ → Place} {l b : ℕ} {bs : Finset ℕ}

/-- A write pointer does not stand on the line in hand. -/
theorem Places.pointer_of_status (h : f.Places d home) {bs : Finset ℕ} (hhome : home l = .hand bs)
    (hwp : f'.wp = f.wp) (hst : ∀ z i, z ≠ l → z < d.geo.ttLines → i < d.geo.pgsPerLine →
      f'.status (d.geo.pgNo (d.geo.pageAt z i)) = f.status (d.geo.pgNo (d.geo.pageAt z i)))
    (io : IoType) : ∃ r, Pointer d f' io r := by
  obtain ⟨r, hr⟩ := h.pointer io
  have hne : (f.wp io).blk ≠ l := by
    rintro rfl
    rw [h.home_wp io] at hhome
    cases hhome
  refine ⟨r, hr.lt, by rw [hwp]; exact hr.line_lt, by rw [hwp]; exact hr.page, fun i hi => ?_⟩
  rw [hwp, hst _ i hne hr.line_lt hi]
  exact hr.free_iff i hi

theorem Places.wipes (h : f.Places d home) (hwf : d.geo.Wf) (hhome : home l = .hand bs)
    (hb : b % d.geo.blksPerPl = l) (hw : Wipes d f f' b) :
    f'.Places d (Function.update home l (.hand (insert b bs))) := by
  have her := erased_insert (d := d) hhome hb
  have hiff : ∀ pl : Place, ¬pl.InHand → ∀ z,
      Function.update home l (.hand (insert b bs)) z = pl ↔ home z = pl := fun pl hpl z => by
    refine update_hand_iff hpl ?_ z
    rintro rfl
    rw [hhome] at hpl
    exact hpl trivial
  -- pages of other lines are as before
  have hother : ∀ z i, z ≠ l → z < d.geo.ttLines → i < d.geo.pgsPerLine →
      f'.status (d.geo.pgNo (d.geo.pageAt z i)) = f.status (d.geo.pgNo (d.geo.pageAt z i)) := by
    intro z i hz hzl hi
    rw [hw.status, if_neg]
    intro hc
    have hlo := d.lineOf_eq_blk (d.geo.pgNo (d.geo.pageAt z i))
    rw [hc, hb, (Geometry.pageAt_valid hwf hzl hi).lineOf_pgNo] at hlo
    exact hz hlo
  refine
    { pq := hw.victimPq ▸ h.pq
      victim := fun z => ?_
      victimCnt := ?_
      free := fun z => ?_
      free_nodup := hw.lists.freeLines ▸ h.free_nodup
      freeCnt := ?_
      full := fun z => ?_
      full_nodup := hw.lists.fullLines ▸ h.full_nodup
      fullCnt := ?_
      current := fun io z => ?_
      pointer := h.pointer_of_status hhome hw.wp hother
      kind := fun io => ?_
      free_pages := fun z hz hh i hi => ?_
      used_up := fun z hz hh i hi he => ?_
      invalid := fun hbo q hqt hq => ?_
      reclaimable := fun z hz hh => ?_ }
  · rw [hw.victimPq, hiff .victim id]
    exact h.victim z
  · rw [hw.lists.victimLineCnt, hw.victimPq]
    exact h.victimCnt
  · rw [hw.lists.freeLines, hiff .free id]
    exact h.free z
  · rw [hw.lists.freeLineCnt, hw.lists.freeLines]
    exact h.freeCnt
  · rw [hw.lists.fullLines, hiff .full id]
    exact h.full z
  · rw [hw.lists.fullLineCnt, hw.lists.fullLines]
    exact h.fullCnt
  · rw [hw.wp, hiff (.current io) id]
    exact h.current io z
  · rw [hw.wp, hw.lines]
    exact h.kind io
  · rw [hiff .free id] at hh
    rw [hw.status]
    split
    · rfl
    · exact h.free_pages z hz hh i hi
  · rw [her, not_or] at he
    rw [hw.status, if_neg he.2]
    refine h.used_up z hz ?_ i hi he.1
    by_cases hzl : z = l
    · rw [hzl, hhome]
      trivial
    · rwa [Function.update_of_ne hzl] at hh
  · rw [hw.status] at hq
    split at hq
    · cases hq
    · by_cases hzl : d.geo.lineOf q = l
      · rw [hzl, Function.update_self]
        trivial
      · rw [Function.update_of_ne hzl]
        exact h.invalid hbo q hqt hq
  · rw [hw.lines]
    refine h.reclaimable z hz ?_
    by_cases hzl : z = l
    · rw [hzl, hhome]
      trivial
    · rwa [Function.update_of_ne hzl] at hh

end Flash

/-- Erasing a block of the victim keeps the invariant. -/
theorem FlashInv.wipes {d : Device} {f f' : Flash} {L : Grains} {home : ℕ → Place} {l b : ℕ}
    {bs : Finset ℕ} (h : FlashInv d f L home) (hwf : d.geo.Wf) (hhome : home l = .hand bs)
    (hb : b % d.geo.blksPerPl = l) (hw : Flash.Wipes d f f' b) :
    FlashInv d f' L (Function.update home l (.hand (insert b bs))) :=
  ⟨h.counts_wipes hhome hb hw, h.pages_wipes hhome hb hw, h.places.wipes hwf hhome hb hw⟩

/-! ### Back to the free list -/

namespace Flash

variable {d : Device} {f : Flash} {L : Grains} {home : ℕ → Place} {l : ℕ} {bs : Finset ℕ}

/-- All blocks of the line are erased. -/
def AllErased (d : Device) (l : ℕ) (bs : Finset ℕ) : Prop :=
  ∀ q < d.geo.ttPgs, d.geo.lineOf q = l → blkOf d q ∈ bs

theorem lines_markLineFree (f : Flash) (l z : ℕ) : (f.markLineFree l).lines z =
    if z = l then { f.lines l with vgc := 0, igc := 0 } else f.lines z := by
  show Function.update f.lines l _ z = _
  by_cases hz : z = l
  · rw [hz, Function.update_self, if_pos rfl]
  · rw [Function.update_of_ne hz, if_neg hz]

theorem Places.freed (h : f.Places d home) (hwf : d.geo.Wf) (hl : l < d.geo.ttLines)
    (hhome : home l = .hand bs)
    (hfree : ∀ q < d.geo.ttPgs, d.geo.lineOf q = l → f.status q = .free) :
    (f.markLineFree l).Places d (Function.update home l .free) := by
  have hiff : ∀ pl : Place, ¬pl.InHand → pl ≠ .free → ∀ z,
      Function.update home l .free z = pl ↔ home z = pl := fun pl hpl hne z => by
    by_cases hz : z = l
    · rw [hz, Function.update_self, hhome]
      refine ⟨fun hc => absurd hc.symm hne, fun hc => ?_⟩
      rw [← hc] at hpl
      exact absurd trivial hpl
    · rw [Function.update_of_ne hz]
  have hlist : (f.markLineFree l).freeLines = f.freeLines ++ [l] := rfl
  have hnot : l ∉ f.freeLines := fun hc => by
    rw [((h.free l).mp hc).2] at hhome
    cases hhome
  refine
    { pq := h.pq
      victim := fun z => ?_
      victimCnt := h.victimCnt
      free := fun z => ?_
      free_nodup := ?_
      freeCnt := ?_
      full := fun z => ?_
      full_nodup := h.full_nodup
      fullCnt := h.fullCnt
      current := fun io z => ?_
      pointer := fun io => ?_
      kind := fun io => ?_
      free_pages := fun z hz hh i hi => ?_
      used_up := fun z hz hh i hi he => ?_
      invalid := fun hbo q hqt hq => ?_
      reclaimable := fun z hz hh => ?_ }
  · rw [hiff .victim id nofun]
    exact h.victim z
  · rw [hlist, List.mem_append, List.mem_singleton, h.free z]
    by_cases hz : z = l
    · simp [hz, hl]
    · simp [hz]
  · rw [hlist]
    refine List.nodup_append.mpr ⟨h.free_nodup, List.nodup_singleton l, fun a ha c hc heq => ?_⟩
    rw [List.mem_singleton] at hc
    rw [heq, hc] at ha
    exact hnot ha
  · show inc32 f.freeLineCnt = _
    rw [hlist, h.freeCnt, inc32_mod, List.length_append, List.length_singleton]
  · rw [hiff .full id nofun]
    exact h.full z
  · rw [hiff (.current io) id nofun]
    exact h.current io z
  · obtain ⟨r, hr⟩ := h.pointer io
    exact ⟨r, hr.of_eq rfl fun _ => Iff.rfl⟩
  · show ((f.markLineFree l).lines (f.wp io).blk).map = _
    rw [lines_markLineFree, if_neg]
    · exact h.kind io
    · rintro rfl
      rw [h.home_wp io] at hhome
      cases hhome
  · by_cases hz' : z = l
    · have hv := Geometry.pageAt_valid hwf hz hi
      exact hfree _ hv.pgNo_lt (hv.lineOf_pgNo.trans hz')
    · rw [Function.update_of_ne hz'] at hh
      exact h.free_pages z hz hh i hi
  · by_cases hz' : z = l
    · rw [hz', Function.update_self] at hh
      exact hh.elim
    · rw [Function.update_of_ne hz'] at hh
      refine h.used_up z hz hh i hi fun hc => he ?_
      have hlo := (Geometry.pageAt_valid hwf hz hi).lineOf_pgNo
      rw [Device.erased_iff, hlo] at hc ⊢
      rwa [Geometry.pageAt_blk, Function.update_of_ne hz']
  · by_cases hz' : d.geo.lineOf q = l
    · have : f.status q = .invalid := hq
      rw [hfree q hqt hz'] at this
      cases this
    · rw [Function.update_of_ne hz']
      exact h.invalid hbo q hqt hq
  · by_cases hz' : z = l
    · rw [hz', Function.update_self] at hh
      exact hh.elim
    · rw [lines_markLineFree, if_neg hz']
      rw [Function.update_of_ne hz'] at hh
      exact h.reclaimable z hz hh

end Flash

namespace FlashInv

variable {d : Device} {f : Flash} {L : Grains} {home : ℕ → Place} {l : ℕ} {bs : Finset ℕ}

theorem erased_of_hand (hhome : home l = .hand bs) (hall : Flash.AllErased d l bs) {q : ℕ}
    (hq : q < d.geo.ttPgs) (hl : d.geo.lineOf q = l) : d.Erased home (Flash.blkOf d q) := by
  rw [Device.erased_iff, hl, hhome]
  exact hall q hq hl

/-- A line in hand all of whose blocks are erased has no counted grain outside them. -/
theorem counts_freed (h : FlashInv d f L home) (hhome : home l = .hand bs)
    (hall : Flash.AllErased d l bs) :
    (f.markLineFree l).Counts d (L.erase (d.OnLine l)) (Function.update home l .free) := by
  -- a block of the line has no grain in use unless it is erased
  have hblk : ∀ b, b % d.geo.blksPerPl = l → ¬d.Erased home b → L.used.filter (d.OnBlk b) = ∅ := by
    intro b hb he
    refine Finset.filter_false_of_mem fun g hg hc => he ?_
    have hc : Flash.blkOf d (d.gIdx g) = b := hc
    have hline : d.geo.lineOf (d.gIdx g) = l := by rw [d.lineOf_eq_blk, hc, hb]
    rw [← hc]
    exact erased_of_hand hhome hall (Device.gIdx_lt (h.pages.used_lt g hg)) hline
  have hzero : ∀ b, b % d.geo.blksPerPl = l → f.blkVgc b = 0 ∧ f.blkIgc b = 0 := by
    intro b hb
    by_cases he : d.Erased home b
    · exact h.counts.erased b he
    · have hsum : L.live (d.OnBlk b) + L.dead (d.OnBlk b) = (L.used.filter (d.OnBlk b)).card :=
        Ledger.live_add_dead
      rw [hblk b hb he, Finset.card_empty] at hsum
      rw [h.counts.blkVgc b he, h.counts.blkIgc b he, hblk b hb he, Finset.card_empty]
      omega
  have hon : ∀ b, b % d.geo.blksPerPl = l → ∀ g, d.OnBlk b g → d.OnLine l g := by
    intro b hb g hg
    have hg : Flash.blkOf d (d.gIdx g) = b := hg
    show d.geo.lineOf (d.gIdx g) = l
    rw [d.lineOf_eq_blk, hg, hb]
  have hoff : ∀ b, b % d.geo.blksPerPl ≠ l → ∀ g, d.OnBlk b g → ¬d.OnLine l g := by
    intro b hb g hg hc
    have hg : Flash.blkOf d (d.gIdx g) = b := hg
    have hc : d.geo.lineOf (d.gIdx g) = l := hc
    rw [d.lineOf_eq_blk, hg] at hc
    exact hb hc
  have her : ∀ b, b % d.geo.blksPerPl ≠ l →
      (d.Erased (Function.update home l .free) b ↔ d.Erased home b) := by
    intro b hb
    unfold Device.Erased
    rw [Function.update_of_ne hb]
  have hnot : ∀ b, b % d.geo.blksPerPl = l → ¬d.Erased (Function.update home l .free) b := by
    intro b hb
    unfold Device.Erased
    rw [hb, Function.update_self]
    exact Finset.notMem_empty b
  have hlines : ∀ z, z ≠ l → ∀ g, d.OnLine z g → ¬d.OnLine l g :=
    fun z hz g hg hc => hz (Eq.trans (Eq.symm hg) hc)
  refine ⟨fun z hz => ?_, fun z hz => ?_, fun b he => ?_, fun b he => ?_, fun hp q he => ?_,
    fun b he => ?_, fun q he => ?_⟩
  · rw [Flash.lines_markLineFree]
    split
    · rename_i hzl
      exact (Ledger.counts_erase fun g hg => hzl ▸ hg).1.symm
    · rename_i hzl
      rw [Ledger.live_erase (hlines z hzl)]
      exact h.counts.vgc z hz
  · rw [Flash.lines_markLineFree]
    split
    · rename_i hzl
      exact (Ledger.counts_erase fun g hg => hzl ▸ hg).2.symm
    · rename_i hzl
      rw [Ledger.dead_erase (hlines z hzl)]
      exact h.counts.igc z hz
  · show f.blkVgc b = _
    by_cases hb : b % d.geo.blksPerPl = l
    · rw [(hzero b hb).1, Ledger.filter_erase_of_imp (hon b hb), Finset.card_empty]
    · rw [Ledger.filter_erase_of_not (hoff b hb)]
      exact h.counts.blkVgc b fun hc => he ((her b hb).mpr hc)
  · show f.blkIgc b = _
    by_cases hb : b % d.geo.blksPerPl = l
    · rw [(hzero b hb).2, (Ledger.counts_erase (hon b hb)).2]
    · rw [Ledger.dead_erase (hoff b hb)]
      exact h.counts.blkIgc b fun hc => he ((her b hb).mpr hc)
  · show f.pgInvCnt q = _
    have honp : ∀ g, d.OnPage q g → d.OnBlk (Flash.blkOf d q) g := fun g hg => by
      show d.gIdx g / _ = q / _
      rw [show d.gIdx g = q from hg]
    by_cases hb : Flash.blkOf d q % d.geo.blksPerPl = l
    · rw [(Ledger.counts_erase fun g hg => hon _ hb g (honp g hg)).2]
      by_cases he' : d.Erased home (Flash.blkOf d q)
      · exact h.counts.erasedInv q he'
      · have hempty : L.used.filter (d.OnPage q) = ∅ := by
          refine Finset.filter_false_of_mem fun g hg hc => ?_
          have := hblk _ hb he'
          exact absurd (Finset.mem_filter.mpr ⟨hg, honp g hc⟩) (this ▸ Finset.notMem_empty g)
        have hsum : L.live (d.OnPage q) + L.dead (d.OnPage q) = (L.used.filter (d.OnPage q)).card :=
          Ledger.live_add_dead
        rw [hempty, Finset.card_empty] at hsum
        rw [h.counts.invCnt hp q he']
        omega
    · rw [Ledger.dead_erase fun g hg => hoff _ hb g (honp g hg)]
      exact h.counts.invCnt hp q fun hc => he ((her _ hb).mpr hc)
  · by_cases hb : b % d.geo.blksPerPl = l
    · exact absurd he (hnot b hb)
    · exact h.counts.erased b ((her b hb).mp he)
  · by_cases hb : Flash.blkOf d q % d.geo.blksPerPl = l
    · exact absurd he (hnot _ hb)
    · exact h.counts.erasedInv q ((her _ hb).mp he)

theorem pages_freed (h : FlashInv d f L home) (hhome : home l = .hand bs)
    (hall : Flash.AllErased d l bs) :
    (f.markLineFree l).Pages d (L.erase (d.OnLine l)) (Function.update home l .free) := by
  have her : ∀ q, d.geo.lineOf q ≠ l →
      (d.Erased (Function.update home l .free) (Flash.blkOf d q) ↔
        d.Erased home (Flash.blkOf d q)) := by
    intro q hq
    rw [Device.erased_iff, Device.erased_iff, Function.update_of_ne hq]
  have howner : ∀ g, (L.erase (d.OnLine l)).owner g ≠ none →
      d.geo.lineOf (d.gIdx g) ≠ l ∧ L.owner g ≠ none := by
    intro g hg
    rw [Ledger.owner_erase] at hg
    split at hg
    · exact absurd rfl hg
    · rename_i hne
      exact ⟨hne, hg⟩
  refine ⟨fun g hg => ?_, fun g hg he => ?_, fun g hg => ?_, fun g hg he => ?_, fun g hg => ?_,
    h.pages.invalid, fun q he => ?_⟩
  · exact h.pages.used_lt g (Ledger.mem_used_erase.mp hg).1
  · obtain ⟨hu, hne⟩ := Ledger.mem_used_erase.mp hg
    exact h.pages.used_taken g hu fun hc => he ((her _ hne).mpr hc)
  · obtain ⟨hne, ho⟩ := howner g hg
    exact Ledger.mem_used_erase.mpr ⟨h.pages.owner_used g ho, hne⟩
  · obtain ⟨hne, ho⟩ := howner g hg
    exact h.pages.live_valid g ho fun hc => he ((her _ hne).mpr hc)
  · obtain ⟨hbo, ho, he⟩ := h.pages.bitmap g hg
    have hne : d.geo.lineOf (d.gIdx g) ≠ l := fun hc => he <|
      erased_of_hand hhome hall (Device.gIdx_lt (h.pages.used_lt g (h.pages.owner_used g ho))) hc
    refine ⟨hbo, ?_, fun hc => he ((her _ hne).mp hc)⟩
    rw [Ledger.owner_erase, if_neg (show ¬d.OnLine l g from hne)]
    exact ho
  · have hne : d.geo.lineOf q ≠ l := by
      intro hc
      rw [Device.erased_iff, hc, Function.update_self] at he
      exact Finset.notMem_empty _ he
    exact h.pages.erased q ((her q hne).mp he)

/-- A line all of whose blocks are erased goes back to the free list. -/
theorem freed (h : FlashInv d f L home) (hwf : d.geo.Wf) (hl : l < d.geo.ttLines)
    (hhome : home l = .hand bs) (hall : Flash.AllErased d l bs) :
    FlashInv d (f.markLineFree l) (L.erase (d.OnLine l)) (Function.update home l .free) :=
  ⟨h.counts_freed hhome hall, h.pages_freed hhome hall,
    h.places.freed hwf hl hhome fun q hq hlo =>
      h.pages.erased q (erased_of_hand hhome hall hq hlo)⟩

end FlashInv

end Virtkv
