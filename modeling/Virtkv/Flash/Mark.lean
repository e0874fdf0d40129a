import Virtkv.Flash.Inv

/-!
# Marking grains valid and invalid

`mark_grain_valid` takes grains of a page into use, `mark_grain_invalid` gives up grains
page by page. Both keep the invariant of the flash state; the ledger says which grains
changed hands.
-/

namespace Virtkv

open Outcome

namespace Flash

variable {d : Device} {f f' : Flash} {L : Grains} {home : ℕ → Place} {R : Finset ℕ}

/-- What marking grains of `R` leaves alone. -/
structure Touches (f f' : Flash) (R : Finset ℕ) : Prop where
  keeps : KeepsPages f f'
  wp : f'.wp = f.wp
  map : ∀ l, (f'.lines l).map = (f.lines l).map
  bits : ∀ g, g ∉ R → f'.grainBitmap g = f.grainBitmap g
  freeLines : f'.freeLines = f.freeLines

theorem Touches.refl (f : Flash) (R : Finset ℕ) : Touches f f R :=
  ⟨KeepsPages.refl f, rfl, fun _ => rfl, fun _ _ => rfl, rfl⟩

theorem Touches.trans {f'' : Flash} {R' : Finset ℕ} (h : Touches f f' R)
    (h' : Touches f' f'' R') : Touches f f'' (R ∪ R') where
  keeps := h.keeps.trans h'.keeps
  wp := h'.wp.trans h.wp
  map l := (h'.map l).trans (h.map l)
  bits g hg := by
    rw [Finset.mem_union, not_or] at hg
    rw [h'.bits g hg.2, h.bits g hg.1]
  freeLines := h'.freeLines.trans h.freeLines

/-! ### Places -/

/-- A write pointer only depends on the free pages. -/
theorem Pointer.of_eq {io : IoType} {r : ℕ} (h : Pointer d f io r) (hwp : f'.wp io = f.wp io)
    (hfree : ∀ q, f'.status q = .free ↔ f.status q = .free) : Pointer d f' io r where
  lt := h.lt
  line_lt := by
    rw [hwp]
    exact h.line_lt
  page := by
    rw [hwp]
    exact h.page
  free_iff i hi := by
    rw [hwp]
    exact (hfree _).trans (h.free_iff i hi)

/-- The lists of lines and their counters are the same. -/
structure SameLists (f f' : Flash) : Prop where
  freeLines : f'.freeLines = f.freeLines
  fullLines : f'.fullLines = f.fullLines
  freeLineCnt : f'.freeLineCnt = f.freeLineCnt
  fullLineCnt : f'.fullLineCnt = f.fullLineCnt
  victimLineCnt : f'.victimLineCnt = f.victimLineCnt

theorem SameLists.refl (f : Flash) : SameLists f f := ⟨rfl, rfl, rfl, rfl, rfl⟩

theorem SameLists.trans {f'' : Flash} (h : SameLists f f') (h' : SameLists f' f'') :
    SameLists f f'' :=
  ⟨h'.freeLines.trans h.freeLines, h'.fullLines.trans h.fullLines,
    h'.freeLineCnt.trans h.freeLineCnt, h'.fullLineCnt.trans h.fullLineCnt,
    h'.victimLineCnt.trans h.victimLineCnt⟩

/-- The lists and the queue decide where the lines are. -/
theorem Lists.of_eq (h : f.Lists d home) (hpq : f'.victimPq.Ok)
    (hsame : PQueue.SameElems f.victimPq f'.victimPq) (hlists : SameLists f f') :
    f'.Lists d home where
  pq := hpq
  victim l := (hsame.2 l).trans (h.victim l)
  victimCnt := by
    rw [hlists.victimLineCnt, hsame.1]
    exact h.victimCnt
  free l := by
    rw [hlists.freeLines]
    exact h.free l
  free_nodup := hlists.freeLines ▸ h.free_nodup
  freeCnt := by
    rw [hlists.freeLineCnt, hlists.freeLines]
    exact h.freeCnt
  full l := by
    rw [hlists.fullLines]
    exact h.full l
  full_nodup := hlists.fullLines ▸ h.full_nodup
  fullCnt := by
    rw [hlists.fullLineCnt, hlists.fullLines]
    exact h.fullCnt

/-- The places do not depend on the valid grains. -/
theorem Places.of_eq (h : f.Places d home) (hpq : f'.victimPq.Ok)
    (hsame : PQueue.SameElems f.victimPq f'.victimPq) (hlists : SameLists f f')
    (hwp : f'.wp = f.wp) (hk : ∀ q, f'.status q = .free ↔ f.status q = .free)
    (hmap : ∀ l, (f'.lines l).map = (f.lines l).map)
    (hinv : d.build = .original → ∀ q, f'.status q = .invalid →
      f.status q = .invalid ∨ (home (d.geo.lineOf q)).InHand)
    (higc : ∀ l < d.geo.ttLines, (f.lines l).igc ≤ (f'.lines l).igc) : f'.Places d home :=
  { h.lists.of_eq hpq hsame hlists with
    current := fun io l => by
      rw [hwp]
      exact h.current io l
    pointer := fun io => by
      obtain ⟨r, hr⟩ := h.pointer io
      exact ⟨r, hr.of_eq (by rw [hwp]) hk⟩
    kind := fun io => by
      rw [hwp, hmap]
      exact h.kind io
    free_pages := fun l hl hh i hi => (hk _).mpr (h.free_pages l hl hh i hi)
    used_up := fun l hl hh i hi he hc => h.used_up l hl hh i hi he ((hk _).mp hc)
    invalid := fun hb q hlt hq => (hinv hb q hq).elim (h.invalid hb q hlt) id
    reclaimable := fun l hl hh => lt_of_lt_of_le (h.reclaimable l hl hh) (higc l hl) }

/-! ### Valid grains -/

/-- The range is unused and lies on one page that was handed out. -/
structure Fresh (d : Device) (f : Flash) (L : Grains) (grain len : ℕ) : Prop where
  pos : 0 < len
  inPage : d.gOffset grain + len ≤ d.gpp
  page_lt : d.gIdx grain < d.geo.ttPgs
  valid : f.status (d.gIdx grain) = .valid
  unused : Disjoint L.used (Device.span grain len)

theorem mem_span_self {grain len : ℕ} (h : 0 < len) : grain ∈ Device.span grain len :=
  Device.mem_span.mpr ⟨le_rfl, by omega⟩

/-- A region that depends on the page only contains all of a range or nothing. -/
theorem card_filter_span {grain len : ℕ} {P : ℕ → Prop} [DecidablePred P] {p : Prop} [Decidable p]
    (h : ∀ g ∈ Device.span grain len, P g ↔ p) :
    ((Device.span grain len).filter P).card = if p then len else 0 := by
  split
  · rename_i hp
    rw [Finset.filter_true_of_mem fun g hg => (h g hg).mpr hp, Device.card_span]
  · rename_i hp
    rw [Finset.filter_false_of_mem fun g hg hc => hp ((h g hg).mp hc), Finset.card_empty]

section Span

variable {grain len : ℕ}

theorem card_span_onLine (hin : d.gOffset grain + len ≤ d.gpp) (l : ℕ) :
    ((Device.span grain len).filter (d.OnLine l)).card =
      if d.geo.lineOf (d.gIdx grain) = l then len else 0 :=
  card_filter_span fun g hg => by
    unfold Device.OnLine
    rw [Device.gIdx_of_mem_span hin hg]

theorem card_span_onBlk (hin : d.gOffset grain + len ≤ d.gpp) (b : ℕ) :
    ((Device.span grain len).filter (d.OnBlk b)).card =
      if blkOf d (d.gIdx grain) = b then len else 0 :=
  card_filter_span fun g hg => by
    unfold Device.OnBlk blkOf
    rw [Device.gIdx_of_mem_span hin hg]

theorem card_span_onPage (hin : d.gOffset grain + len ≤ d.gpp) (q : ℕ) :
    ((Device.span grain len).filter (d.OnPage q)).card =
      if d.gIdx grain = q then len else 0 :=
  card_filter_span fun g hg => by
    unfold Device.OnPage
    rw [Device.gIdx_of_mem_span hin hg]

end Span

/-- A line has no more valid and invalid grains than grains. -/
theorem Tallied.vgc_add_igc_le (h : f.Tallied d L home) (hw : d.geo.Wf) {l : ℕ}
    (hl : l < d.geo.ttLines) : (f.lines l).vgc + (f.lines l).igc ≤ d.grainsPerLine := by
  rw [h.counts.vgc l hl, h.counts.igc l hl, Ledger.live_add_dead]
  exact Device.card_onLine_le hw h.used_lt l

/-- The flash state after grains were marked valid. -/
def marked (d : Device) (f : Flash) (grain len : ℕ) : Flash :=
  let l := d.geo.lineOf (d.gIdx grain)
  let f := f.addBlkVgc (blkOf d (d.gIdx grain)) len
  let f := f.setLine l { f.lines l with vgc := (f.lines l).vgc + len }
  match d.build with
  | .original => f.setGrain grain true
  | .plus => f

theorem lines_marked (f : Flash) (grain len : ℕ) : (marked d f grain len).lines =
    Function.update f.lines (d.geo.lineOf (d.gIdx grain))
      { f.lines (d.geo.lineOf (d.gIdx grain)) with
        vgc := (f.lines (d.geo.lineOf (d.gIdx grain))).vgc + len } := by
  unfold marked
  cases d.build <;> rfl

theorem blkVgc_marked (f : Flash) (grain len : ℕ) : (marked d f grain len).blkVgc =
    Function.update f.blkVgc (blkOf d (d.gIdx grain)) (f.blkVgc (blkOf d (d.gIdx grain)) + len) := by
  unfold marked
  cases d.build <;> rfl

/-- Nothing but the counters and the bitmap changes. -/
theorem marked_frame (f : Flash) (grain len : ℕ) :
    (marked d f grain len).status = f.status ∧ (marked d f grain len).oob = f.oob ∧
      (marked d f grain len).wp = f.wp ∧ (marked d f grain len).victimPq = f.victimPq ∧
      SameLists f (marked d f grain len) ∧ (marked d f grain len).blkIgc = f.blkIgc ∧
      (marked d f grain len).pgInvCnt = f.pgInvCnt := by
  unfold marked
  cases d.build <;> exact ⟨rfl, rfl, rfl, rfl, ⟨rfl, rfl, rfl, rfl, rfl⟩, rfl, rfl⟩

theorem bitmap_marked (f : Flash) (grain len g : ℕ) : (marked d f grain len).grainBitmap g =
    if d.build = .original ∧ g = grain then true else f.grainBitmap g := by
  unfold marked
  cases d.build with
  | original => simp [setGrain, setLine, addBlkVgc, Function.update_apply]
  | plus => simp [setLine, addBlkVgc]

end Flash

namespace FlashInv

variable {d : Device} {f : Flash} {L : Grains} {home : ℕ → Place} {grain len : ℕ}

/-- A page that is valid was not erased. -/
theorem not_erased (h : FlashInv d f L home) (hf : f.Fresh d L grain len) :
    ¬d.Erased home (Flash.blkOf d (d.gIdx grain)) := by
  intro he
  have := h.pages.erased _ he
  rw [hf.valid] at this
  cases this

theorem markGrainValid_eq (h : FlashInv d f L home) (hw : d.geo.Wf)
    (hf : f.Fresh d L grain len) : f.markGrainValid d grain len = .ok (f.marked d grain len) := by
  obtain ⟨p, hp, hblk⟩ := Geometry.ppaToStruct_of_lt hf.page_lt
  have hl : d.geo.lineOf (d.gIdx grain) < d.geo.ttLines := hw.lineOf_lt _
  have hb : f.blkVgc (Flash.blkOf d (d.gIdx grain)) ≤ d.grainsPerBlk := by
    rw [h.counts.blkVgc _ (h.not_erased hf)]
    exact Flash.Pages.card_blk_le hw L _
  have hv : (f.lines p.blk).vgc ≤ d.grainsPerLine := by
    rw [hblk]
    have := h.tallied.vgc_add_igc_le hw hl
    omega
  simp only [Flash.markGrainValid, hp, ok_bind, ensure_of hf.valid, ensure_of hb, ensure_of hv]
  unfold Flash.bitmapSet Flash.marked
  rw [hblk]
  cases hbuild : d.build with
  | plus => rfl
  | original =>
    have hbit : f.grainBitmap grain = false := by
      by_contra hc
      rw [Bool.not_eq_false] at hc
      have hu := h.pages.owner_used grain (h.pages.bitmap grain hc).2.1
      exact Finset.disjoint_left.mp hf.unused hu (Flash.mem_span_self hf.pos)
    simp only
    rw [ensure_of (by simpa [Flash.setLine, Flash.addBlkVgc] using hbit), ok_bind]
    rfl

/-- Taking grains into use keeps the invariant. -/
theorem marked (h : FlashInv d f L home) (hf : f.Fresh d L grain len) (o : Owner) :
    FlashInv d (f.marked d grain len) (L.add (Device.span grain len) o) home := by
  obtain ⟨hst, -, hwp, hpq, hlists, higc, hinv⟩ := Flash.marked_frame (d := d) f grain len
  have hlines := Flash.lines_marked (d := d) f grain len
  have hself : grain ∈ Device.span grain len := Flash.mem_span_self hf.pos
  refine ⟨⟨fun l hl => ?_, fun l hl => ?_, fun b he => ?_, fun b he => ?_, fun hb q he => ?_,
      fun b he => ?_, fun q he => ?_⟩,
    ⟨fun g hg => ?_, fun g hg he => ?_, fun g hg => ?_, fun g hg he => ?_, fun g hg => ?_,
      fun hb q hq => ?_, fun q he => ?_⟩, ?_⟩
  · rw [hlines, Ledger.live_add hf.unused, Flash.card_span_onLine hf.inPage, ← h.counts.vgc l hl]
    by_cases heq : d.geo.lineOf (d.gIdx grain) = l
    · subst heq
      simp
    · simp [Function.update_of_ne (Ne.symm heq), heq]
  · rw [hlines, Ledger.dead_add hf.unused, ← h.counts.igc l hl]
    by_cases heq : l = d.geo.lineOf (d.gIdx grain)
    · subst heq
      simp
    · simp [Function.update_of_ne heq]
  · rw [Flash.blkVgc_marked, Ledger.card_used_add hf.unused, Flash.card_span_onBlk hf.inPage,
      ← h.counts.blkVgc b he]
    by_cases heq : Flash.blkOf d (d.gIdx grain) = b
    · subst heq
      simp
    · simp [Function.update_of_ne (Ne.symm heq), heq]
  · rw [higc, Ledger.dead_add hf.unused]
    exact h.counts.blkIgc b he
  · rw [hinv, Ledger.dead_add hf.unused]
    exact h.counts.invCnt hb q he
  · have hne : b ≠ Flash.blkOf d (d.gIdx grain) := by
      rintro rfl
      exact h.not_erased hf he
    rw [Flash.blkVgc_marked, higc, Function.update_of_ne hne]
    exact h.counts.erased b he
  · rw [hinv]
    exact h.counts.erasedInv q he
  · rw [Ledger.used_add, Finset.mem_union] at hg
    rcases hg with hg | hg
    · exact h.pages.used_lt g hg
    · refine Device.lt_ttGrains ?_
      rw [Device.gIdx_of_mem_span hf.inPage hg]
      exact hf.page_lt
  · rw [Ledger.used_add, Finset.mem_union] at hg
    rw [hst]
    rcases hg with hg | hg
    · exact h.pages.used_taken g hg he
    · rw [Device.gIdx_of_mem_span hf.inPage hg, hf.valid]
      nofun
  · rw [Ledger.used_add, Finset.mem_union]
    rw [Ledger.owner_add] at hg
    split at hg
    · rename_i hm
      exact .inr hm
    · exact .inl (h.pages.owner_used g hg)
  · rw [hst]
    rw [Ledger.owner_add] at hg
    split at hg
    · rename_i hm
      rw [Device.gIdx_of_mem_span hf.inPage hm]
      exact hf.valid
    · exact h.pages.live_valid g hg he
  · rw [Flash.bitmap_marked] at hg
    rw [Ledger.owner_add]
    split at hg
    · rename_i hc
      rw [hc.2, if_pos hself]
      exact ⟨hc.1, nofun, h.not_erased hf⟩
    · obtain ⟨hb, ho, he⟩ := h.pages.bitmap g hg
      refine ⟨hb, ?_, he⟩
      split
      · nofun
      · exact ho
  · rw [hst] at hq
    rw [hinv]
    exact h.pages.invalid hb q hq
  · rw [hst]
    exact h.pages.erased q he
  · have hkind : ∀ l, ((f.marked d grain len).lines l).map = (f.lines l).map ∧
        (f.lines l).igc ≤ ((f.marked d grain len).lines l).igc := by
      intro l
      rw [hlines]
      by_cases heq : l = d.geo.lineOf (d.gIdx grain)
      · subst heq
        simp
      · simp [Function.update_of_ne heq]
    exact h.places.of_eq (hpq ▸ h.places.pq) ⟨by rw [hpq], fun l => by rw [hpq]⟩ hlists hwp
      (fun q => by rw [hst]) (fun l => (hkind l).1) (fun _ q hq => .inl (by rwa [hst] at hq))
      fun l _ => (hkind l).2

end FlashInv

namespace Flash

variable {d : Device} {f : Flash}

theorem touches_marked (d : Device) (f : Flash) (grain : ℕ) {len : ℕ} (hpos : 0 < len) :
    Touches f (f.marked d grain len) (Device.span grain len) := by
  obtain ⟨hst, hoob, hwp, -, hlists, -⟩ := marked_frame (d := d) f grain len
  refine ⟨keepsPages_of_eq hst hoob, hwp, fun l => ?_, fun g hg => ?_, hlists.freeLines⟩
  · rw [lines_marked]
    by_cases heq : l = d.geo.lineOf (d.gIdx grain)
    · subst heq
      simp
    · simp [Function.update_of_ne heq]
  · rw [bitmap_marked, if_neg]
    rintro ⟨-, rfl⟩
    exact hg (mem_span_self hpos)

end Flash

/-! ### Invalid grains -/

namespace Flash

variable {d : Device} {f f' : Flash} {L : Grains} {home : ℕ → Place} {grain len l : ℕ}

/-- The range is valid and lies on one page; in ORIGINAL only its first grain is marked in
the bitmap. -/
structure Held (d : Device) (f : Flash) (L : Grains) (home : ℕ → Place) (grain len : ℕ) :
    Prop where
  pos : 0 < len
  inPage : d.gOffset grain + len ≤ d.gpp
  kept : ¬d.Erased home (blkOf d (d.gIdx grain))
  live : ∀ g ∈ Device.span grain len, L.owner g ≠ none
  bits : d.build = .original →
    ∀ g ∈ Device.span grain len, f.grainBitmap g = true ↔ g = grain

/-- The range is valid and lies on one page; in ORIGINAL its first grain is marked in the
bitmap. -/
structure LiveRange (d : Device) (f : Flash) (L : Grains) (home : ℕ → Place) (grain len : ℕ) :
    Prop where
  pos : 0 < len
  inPage : d.gOffset grain + len ≤ d.gpp
  kept : ¬d.Erased home (blkOf d (d.gIdx grain))
  live : ∀ g ∈ Device.span grain len, L.owner g ≠ none
  bit : d.build = .original → f.grainBitmap grain = true

theorem Held.liveRange (h : Held d f L home grain len) : LiveRange d f L home grain len where
  pos := h.pos
  inPage := h.inPage
  kept := h.kept
  live := h.live
  bit hb := (h.bits hb grain (mem_span_self h.pos)).mpr rfl

/-- Everything but the lists and the queue of lines is the same. -/
structure SameMarks (f f' : Flash) : Prop where
  lines : f'.lines = f.lines
  wp : f'.wp = f.wp
  freeLines : f'.freeLines = f.freeLines
  status : f'.status = f.status
  blkVgc : f'.blkVgc = f.blkVgc
  blkIgc : f'.blkIgc = f.blkIgc
  oob : f'.oob = f.oob
  bitmap : f'.grainBitmap = f.grainBitmap
  pgInvCnt : f'.pgInvCnt = f.pgInvCnt

/-- `vgc -= len; igc += len`: only the queue is different besides. -/
theorem lowerVgc_eq (f : Flash) (l len : ℕ) :
    ∃ q, f.lowerVgc l len = (f.setLine l
      { f.lines l with vgc := (f.lines l).vgc - len, igc := (f.lines l).igc + len }).setPq q := by
  unfold lowerVgc
  dsimp only
  split
  · exact ⟨_, rfl⟩
  · exact ⟨f.victimPq, rfl⟩

theorem igc_lowerVgc_pos (f : Flash) (l : ℕ) {len : ℕ} (hpos : 0 < len) :
    0 < ((f.lowerVgc l len).lines l).igc := by
  obtain ⟨q, hlow⟩ := lowerVgc_eq f l len
  rw [hlow]
  show 0 < (Function.update f.lines l _ l).igc
  rw [Function.update_self]
  exact Nat.lt_of_lt_of_le hpos (Nat.le_add_left _ _)

/-- `vgc -= len; igc += len` keeps the elements of the queue. -/
theorem lowerVgc_spec (f : Flash) (l len : ℕ) (hpq : f.victimPq.Ok) :
    ∃ q, f.lowerVgc l len = (f.setLine l
        { f.lines l with vgc := (f.lines l).vgc - len, igc := (f.lines l).igc + len }).setPq q ∧
      q.Ok ∧ PQueue.SameElems f.victimPq q := by
  unfold lowerVgc
  dsimp only
  split
  · rename_i hpos
    obtain ⟨hok, hsame⟩ := PQueue.Ok.changePriority
      (f.setLine l { f.lines l with
        vgc := (f.lines l).vgc - len, igc := (f.lines l).igc + len }).pri hpq hpos (0 < len)
    exact ⟨_, rfl, hok, hsame⟩
  · exact ⟨f.victimPq, rfl, hpq, rfl, fun _ => Iff.rfl⟩

/-- Giving up grains does not move a line by itself. -/
theorem Lists.lowered (h : f.Lists d home) (b l len : ℕ) :
    ((f.addBlkIgc b len).lowerVgc l len).Lists d home := by
  obtain ⟨q, hlow, hqok, hqsame⟩ := lowerVgc_spec (f.addBlkIgc b len) l len h.pq
  rw [hlow]
  exact h.of_eq hqok hqsame ⟨rfl, rfl, rfl, rfl, rfl⟩

theorem Places.lowered (h : f.Places d home) (b l len : ℕ) :
    ((f.addBlkIgc b len).lowerVgc l len).Places d home := by
  obtain ⟨q, hlow, hqok, hqsame⟩ := lowerVgc_spec (f.addBlkIgc b len) l len h.pq
  rw [hlow]
  refine h.of_eq hqok hqsame ⟨rfl, rfl, rfl, rfl, rfl⟩ rfl
    (fun _ => Iff.rfl) (fun z => ?_) (fun _ _ => .inl) fun z _ => ?_
  · show (Function.update f.lines l _ z).map = (f.lines z).map
    by_cases hz : z = l
    · rw [hz, Function.update_self]
      rfl
    · rw [Function.update_of_ne hz]
  · show (f.lines z).igc ≤ (Function.update f.lines l _ z).igc
    by_cases hz : z = l
    · rw [hz, Function.update_self]
      exact Nat.le_add_right _ _
    · rw [Function.update_of_ne hz]

/-- The place of a line that leaves the full list. -/
def demoted (home : ℕ → Place) (l : ℕ) (wasFull : Bool) : ℕ → Place :=
  if wasFull then Function.update home l .victim else home

theorem erased_update_full {home : ℕ → Place} {l : ℕ} (h : home l = .full) (z : ℕ) :
    (Function.update home l Place.victim z).erased = (home z).erased := by
  by_cases hz : z = l
  · rw [hz, Function.update_self, h]
    rfl
  · rw [Function.update_of_ne hz]

/-- The other places stay. -/
theorem update_victim_iff {home : ℕ → Place} {l z : ℕ} (hhome : home l = .full) (pl : Place)
    (hv : pl ≠ .victim) (hf : pl ≠ .full) :
    Function.update home l Place.victim z = pl ↔ home z = pl := by
  by_cases hz : z = l
  · rw [hz, Function.update_self, hhome]
    exact ⟨fun h => absurd h.symm hv, fun h => absurd h.symm hf⟩
  · rw [Function.update_of_ne hz]

theorem erased_demoted {home : ℕ → Place} {l : ℕ} {w : Bool} (h : w = true → home l = .full)
    (z : ℕ) : (demoted home l w z).erased = (home z).erased := by
  cases w with
  | false => rfl
  | true => exact erased_update_full (h rfl) z

/-- Counting up and down modulo `2 ^ 32`. -/
theorem inc32_mod (n : ℕ) : inc32 (n % 2 ^ 32) = (n + 1) % 2 ^ 32 := by
  have hmax : uintMax = 2 ^ 32 - 1 := rfl
  unfold inc32
  split <;> omega

theorem dec32_mod (n : ℕ) : dec32 ((n + 1) % 2 ^ 32) = n % 2 ^ 32 := by
  have hmax : uintMax = 2 ^ 32 - 1 := rfl
  unfold dec32
  split <;> omega

/-- Leaving the full list changes the lists and the queue only. -/
theorem demote_frame {w : Bool} (h : f.demote d l w = .ok f') : SameMarks f f' := by
  cases w with
  | false =>
    cases h
    exact ⟨rfl, rfl, rfl, rfl, rfl, rfl, rfl, rfl, rfl⟩
  | true =>
    simp only [demote, if_true, fullToVictim, addVictim, pqInsert, bind_eq_ok] at h
    obtain ⟨f1, ⟨-, -, h1⟩, h⟩ := h
    cases h1
    cases h
    exact ⟨rfl, rfl, rfl, rfl, rfl, rfl, rfl, rfl, rfl⟩

/-- A line that was full moves from the full list to the victim queue. -/
theorem Lists.demote (h : f.Lists d home) (hl : l < d.geo.ttLines) (wasFull : Bool)
    (hfull : wasFull = true → home l = .full) :
    ∃ f', f.demote d l wasFull = .ok f' ∧ f'.Lists d (demoted home l wasFull) := by
  cases wasFull with
  | false => exact ⟨f, rfl, h⟩
  | true =>
    have hhome := hfull rfl
    have hpos : f.victimPq.pos l = 0 := by
      by_contra hc
      rw [((h.victim l).mp hc).2] at hhome
      cases hhome
    obtain ⟨hok, hsize, hmem⟩ := PQueue.Ok.insert (f.delFull l).pri h.pq hpos
    have hvict : ∀ z, (f.victimPq.insert (f.delFull l).pri l).pos z ≠ 0 ↔
        z < d.geo.ttLines ∧ Function.update home l Place.victim z = .victim := by
      intro z
      rw [hmem z, h.victim z]
      by_cases hz : z = l
      · subst hz
        simp [hl]
      · simp [hz]
    have hroom : (f.delFull l).victimPq.size < d.geo.ttLines + 1 := by
      have hle := hok.size_le fun z hz => ((hvict z).mp hz).1
      rw [hsize] at hle
      exact hle
    have heq : f.demote d l true =
        .ok (((f.delFull l).setPq (f.victimPq.insert (f.delFull l).pri l)).setVictimCnt
          (inc32 f.victimLineCnt)) := by
      simp only [Flash.demote, if_true, fullToVictim, addVictim, pqInsert, ensure_of hroom, ok_bind]
      rfl
    have hfullmem : l ∈ f.fullLines := (h.full l).mpr ⟨hl, hhome⟩
    have hlen := List.length_erase_of_mem hfullmem
    have hlenpos := List.length_pos_of_mem hfullmem
    refine ⟨_, heq, ?_⟩
    simp only [demoted, if_true]
    refine
      { pq := hok
        victim := hvict
        victimCnt := ?_
        free := fun z => ?_
        free_nodup := h.free_nodup
        freeCnt := h.freeCnt
        full := fun z => ?_
        full_nodup := h.full_nodup.erase l
        fullCnt := ?_ }
    · have hsz := h.pq.size_pos
      show inc32 f.victimLineCnt = ((f.victimPq.insert (f.delFull l).pri l).size - 1) % 2 ^ 32
      rw [h.victimCnt, hsize, inc32_mod]
      congr 1
      omega
    · rw [update_victim_iff hhome .free (by rintro ⟨⟩) (by rintro ⟨⟩)]
      exact h.free z
    · show z ∈ f.fullLines.erase l ↔ _
      rw [h.full_nodup.mem_erase_iff, h.full z]
      by_cases hz : z = l
      · subst hz
        simp
      · simp [hz]
    · show dec32 f.fullLineCnt = (f.fullLines.erase l).length % 2 ^ 32
      obtain ⟨n, hn⟩ := Nat.exists_eq_add_of_lt hlenpos
      rw [h.fullCnt, hlen, hn, Nat.zero_add, dec32_mod, Nat.add_sub_cancel]

/-- The same with the pages and write pointers. -/
theorem demote_spec (h : f.Places d home) (hl : l < d.geo.ttLines) (wasFull : Bool)
    (hfull : wasFull = true → home l = .full) (higc : 0 < (f.lines l).igc) :
    ∃ f', f.demote d l wasFull = .ok f' ∧ SameMarks f f' ∧
      f'.Places d (demoted home l wasFull) := by
  obtain ⟨f', hdem, hlists⟩ := h.lists.demote hl wasFull hfull
  have hsame := demote_frame hdem
  refine ⟨f', hdem, hsame, ?_⟩
  cases wasFull with
  | false =>
    cases hdem
    exact h
  | true =>
    have hhome := hfull rfl
    have her : ∀ z, (Function.update home l Place.victim z).erased = (home z).erased :=
      erased_update_full hhome
    simp only [demoted, if_true] at hlists ⊢
    refine
      { hlists with
        current := fun io z => ?_
        pointer := fun io => ?_
        kind := fun io => ?_
        free_pages := fun z hz hh => ?_
        used_up := fun z hz hh i hi he => ?_
        invalid := fun hb q hqt hq => ?_
        reclaimable := fun z hz hh => ?_ }
    · rw [hsame.wp, update_victim_iff hhome (.current io) (by rintro ⟨⟩)
        (by rintro ⟨⟩)]
      exact h.current io z
    · obtain ⟨r, hr⟩ := h.pointer io
      exact ⟨r, hr.of_eq (by rw [hsame.wp]) fun q => by rw [hsame.status]⟩
    · rw [hsame.wp, hsame.lines]
      exact h.kind io
    · rw [update_victim_iff hhome .free (by rintro ⟨⟩) (by rintro ⟨⟩)] at hh
      rw [hsame.status]
      exact h.free_pages z hz hh
    · rw [Device.erased_congr her] at he
      rw [hsame.status]
      refine h.used_up z hz ?_ i hi he
      by_cases hzl : z = l
      · rw [hzl, hhome]
        trivial
      · rwa [Function.update_of_ne hzl] at hh
    · rw [hsame.status] at hq
      by_cases hzl : d.geo.lineOf q = l
      · have hand := h.invalid hb q hqt hq
        rw [hzl, hhome] at hand
        exact hand.elim
      · rw [Function.update_of_ne hzl]
        exact h.invalid hb q hqt hq
    · rw [hsame.lines]
      by_cases hzl : z = l
      · subst hzl
        exact higc
      · rw [Function.update_of_ne hzl] at hh
        exact h.reclaimable z hz hh

/-- What a round of `mark_grain_invalid` has done when it comes to the grains: `len` grains of
line `l` and block `b` are counted as invalid, and the line is in its list. -/
structure Lowered (f f' : Flash) (l b len : ℕ) : Prop where
  lines : f'.lines = Function.update f.lines l
    { f.lines l with vgc := (f.lines l).vgc - len, igc := (f.lines l).igc + len }
  blkIgc : f'.blkIgc = Function.update f.blkIgc b (f.blkIgc b + len)
  blkVgc : f'.blkVgc = f.blkVgc
  wp : f'.wp = f.wp
  freeLines : f'.freeLines = f.freeLines
  status : f'.status = f.status
  oob : f'.oob = f.oob
  bitmap : f'.grainBitmap = f.grainBitmap
  pgInvCnt : f'.pgInvCnt = f.pgInvCnt

theorem Lowered.of_demote {b : ℕ} {w : Bool}
    (h : ((f.addBlkIgc b len).lowerVgc l len).demote d l w = .ok f') : Lowered f f' l b len := by
  obtain ⟨q, hlow⟩ := lowerVgc_eq (f.addBlkIgc b len) l len
  rw [hlow] at h
  have hsame := demote_frame h
  exact ⟨hsame.lines, hsame.blkIgc, hsame.blkVgc, hsame.wp, hsame.freeLines, hsame.status,
    hsame.oob, hsame.bitmap, hsame.pgInvCnt⟩

theorem Lowered.line {b : ℕ} (h : Lowered f f' l b len) : f'.lines l =
    { f.lines l with vgc := (f.lines l).vgc - len, igc := (f.lines l).igc + len } := by
  rw [h.lines, Function.update_self]

/-- The flash state after the grain and page part of a round of `mark_grain_invalid`. -/
def killed (d : Device) (f : Flash) (grain page len : ℕ) : Flash :=
  match d.build with
  | .original => f.setGrain grain false
  | .plus =>
    if f.pgInvCnt page + len = d.gpp then (f.addInvCnt page len).setStatus page .invalid
    else f.addInvCnt page len

theorem killGrain_eq {page : ℕ} (hbit : d.build = .original → f.grainBitmap grain = true)
    (hst : f.status page = .valid) (hle : d.build = .plus → f.pgInvCnt page + len ≤ d.gpp) :
    f.killGrain d grain page len = .ok (f.killed d grain page len) := by
  unfold killGrain killed
  cases hb : d.build with
  | original =>
    simp only
    rw [ensure_of (hbit hb), ok_bind]
    rfl
  | plus =>
    have hcnt : (f.addInvCnt page len).pgInvCnt page = f.pgInvCnt page + len := by
      simp [addInvCnt]
    simp only
    rw [ensure_of (hle hb), ok_bind, hcnt]
    split
    · rename_i heq
      have hst' : (f.addInvCnt page len).status page = .valid := hst
      rw [markPageInvalid, ensure_of hst', ok_bind, ensure_of (fun _ => hcnt.trans heq), ok_bind]
      rfl
    · rfl

theorem killGrain_ok {page : ℕ} (h : f.killGrain d grain page len = .ok f') :
    f' = f.killed d grain page len := by
  unfold killGrain at h
  unfold killed
  cases hb : d.build with
  | original =>
    simp only [hb, bind_eq_ok, ensure_eq_ok] at h
    obtain ⟨-, -, h⟩ := h
    cases h
    rfl
  | plus =>
    simp only [hb, bind_eq_ok, ensure_eq_ok] at h
    obtain ⟨-, -, h⟩ := h
    have hcnt : (f.addInvCnt page len).pgInvCnt page = f.pgInvCnt page + len := by
      simp [addInvCnt]
    rw [hcnt] at h
    simp only
    split at h
    · rename_i heq
      rw [if_pos heq]
      simp only [markPageInvalid, bind_eq_ok, ensure_eq_ok] at h
      obtain ⟨-, -, -, -, h⟩ := h
      cases h
      rfl
    · rename_i hne
      rw [if_neg hne]
      cases h
      rfl

/-- What the grain and page part leaves alone. -/
theorem killed_frame (d : Device) (f : Flash) (grain page len : ℕ) :
    (f.killed d grain page len).lines = f.lines ∧ (f.killed d grain page len).wp = f.wp ∧
      SameLists f (f.killed d grain page len) ∧ (f.killed d grain page len).victimPq = f.victimPq ∧
      (f.killed d grain page len).blkVgc = f.blkVgc ∧
      (f.killed d grain page len).blkIgc = f.blkIgc ∧ (f.killed d grain page len).oob = f.oob := by
  unfold killed
  cases d.build with
  | original => exact ⟨rfl, rfl, ⟨rfl, rfl, rfl, rfl, rfl⟩, rfl, rfl, rfl, rfl⟩
  | plus =>
    simp only
    split <;> exact ⟨rfl, rfl, ⟨rfl, rfl, rfl, rfl, rfl⟩, rfl, rfl, rfl, rfl⟩

theorem bitmap_killed (d : Device) (f : Flash) (grain page len g : ℕ) :
    (f.killed d grain page len).grainBitmap g =
      if d.build = .original ∧ g = grain then false else f.grainBitmap g := by
  unfold killed
  cases d.build with
  | original => simp [setGrain, Function.update_apply]
  | plus =>
    simp only
    split <;> simp [addInvCnt, setStatus]

theorem pgInvCnt_killed (hb : d.build = .plus) (f : Flash) (grain page len q : ℕ) :
    (f.killed d grain page len).pgInvCnt q =
      f.pgInvCnt q + if page = q then len else 0 := by
  unfold killed
  rw [hb]
  have hq : (f.addInvCnt page len).pgInvCnt q = f.pgInvCnt q + if page = q then len else 0 := by
    by_cases h : q = page
    · subst h
      simp [addInvCnt]
    · simp [addInvCnt, h, Ne.symm h]
  simp only
  split
  · exact hq
  · exact hq

theorem status_killed (d : Device) (f : Flash) (grain page len q : ℕ) :
    (f.killed d grain page len).status q =
      if d.build = .plus ∧ f.pgInvCnt page + len = d.gpp ∧ q = page then .invalid
      else f.status q := by
  unfold killed
  cases d.build with
  | original => simp [setGrain]
  | plus =>
    simp only
    split
    · rename_i heq
      simp [setStatus, addInvCnt, heq, Function.update_apply]
    · rename_i hne
      simp [addInvCnt, hne]

theorem Lowered.touches_killed {f2 : Flash} {b page : ℕ} (h : Lowered f f2 l b len)
    (hpos : 0 < len) (hk : KeepsPages f (f2.killed d grain page len)) :
    Touches f (f2.killed d grain page len) (Device.span grain len) := by
  obtain ⟨kl, kwp, klists, -⟩ := killed_frame d f2 grain page len
  refine ⟨hk, kwp.trans h.wp, fun z => ?_, fun g hg => ?_, klists.freeLines.trans h.freeLines⟩
  · rw [kl, h.lines]
    by_cases hz : z = l
    · rw [hz, Function.update_self]
    · rw [Function.update_of_ne hz]
  · rw [bitmap_killed, if_neg, h.bitmap]
    rintro ⟨-, rfl⟩
    exact hg (mem_span_self hpos)

end Flash

namespace Flash.Tallied

variable {d : Device} {f f2 : Flash} {L : Grains} {home : ℕ → Place} {grain len l : ℕ}

/-- The grains of a valid range are in use. -/
theorem mem (h : f.Tallied d L home) (hh : f.LiveRange d L home grain len) :
    ∀ g ∈ Device.span grain len, g ∈ L.used ∧ L.owner g ≠ none :=
  fun g hg => ⟨h.owner_used g (hh.live g hg), hh.live g hg⟩

theorem page_lt (h : f.Tallied d L home) (hh : f.LiveRange d L home grain len) :
    d.gIdx grain < d.geo.ttPgs :=
  Device.gIdx_lt (h.used_lt _ (h.mem hh _ (mem_span_self hh.pos)).1)

theorem page_valid (h : f.Tallied d L home) (hh : f.LiveRange d L home grain len) :
    f.status (d.gIdx grain) = .valid :=
  h.live_valid _ (hh.live _ (mem_span_self hh.pos)) hh.kept

theorem le_live (h : f.Tallied d L home) (hh : f.LiveRange d L home grain len) {P : ℕ → Prop}
    [DecidablePred P] (hP : ∀ g ∈ Device.span grain len, P g) : len ≤ L.live P := by
  have hle := Ledger.card_le_live (P := P) fun g hg =>
    ⟨(h.mem hh g hg).1, (h.mem hh g hg).2, hP g hg⟩
  rwa [Device.card_span] at hle

/-! The range is counted on its line, on its block and on its page. -/

theorem le_vgc (h : f.Tallied d L home) (hw : d.geo.Wf) (hh : f.LiveRange d L home grain len) :
    len ≤ (f.lines (d.geo.lineOf (d.gIdx grain))).vgc := by
  rw [h.counts.vgc _ (hw.lineOf_lt _)]
  refine h.le_live hh fun g hg => ?_
  show d.geo.lineOf (d.gIdx g) = _
  rw [Device.gIdx_of_mem_span hh.inPage hg]

theorem add_blkIgc_le (h : f.Tallied d L home) (hw : d.geo.Wf)
    (hh : f.LiveRange d L home grain len) :
    len + f.blkIgc (blkOf d (d.gIdx grain)) ≤ f.blkVgc (blkOf d (d.gIdx grain)) ∧
      f.blkVgc (blkOf d (d.gIdx grain)) ≤ d.grainsPerBlk := by
  have hlive : len ≤ L.live (d.OnBlk (blkOf d (d.gIdx grain))) := h.le_live hh fun g hg => by
    show d.gIdx g / d.geo.pgsPerBlk = _
    rw [Device.gIdx_of_mem_span hh.inPage hg]
    rfl
  rw [h.counts.blkVgc _ hh.kept, h.counts.blkIgc _ hh.kept]
  refine ⟨?_, Pages.card_blk_le hw L _⟩
  rw [← Ledger.live_add_dead]
  exact Nat.add_le_add_right hlive _

theorem pgInvCnt_add_le (h : f.Tallied d L home) (hh : f.LiveRange d L home grain len)
    (hplus : d.build = .plus) : f.pgInvCnt (d.gIdx grain) + len ≤ d.gpp := by
  have hlive : len ≤ L.live (d.OnPage (d.gIdx grain)) :=
    h.le_live hh fun g hg => Device.gIdx_of_mem_span hh.inPage hg
  have hle := Pages.card_page_le (d := d) L (d.gIdx grain)
  rw [← Ledger.live_add_dead] at hle
  rw [h.counts.invCnt hplus _ hh.kept]
  omega

/-- The counters after a range was given up. -/
theorem counts_killed (h : f.Tallied d L home) (hh : f.LiveRange d L home grain len)
    (hl : l = d.geo.lineOf (d.gIdx grain))
    (hlow : Lowered f f2 l (blkOf d (d.gIdx grain)) len) :
    (f2.killed d grain (d.gIdx grain) len).Counts d (L.kill (Device.span grain len)) home := by
  have hmem := h.mem hh
  obtain ⟨klines, -, -, -, kblkVgc, kblkIgc, -⟩ := killed_frame d f2 grain (d.gIdx grain) len
  refine ⟨fun z hz => ?_, fun z hz => ?_, fun b he => ?_, fun b he => ?_, fun hb q he => ?_,
    fun b he => ?_, fun q he => ?_⟩
  · have hk := Ledger.live_kill (P := d.OnLine z) hmem
    rw [card_span_onLine hh.inPage, ← hl, ← h.counts.vgc z hz] at hk
    rw [klines, hlow.lines]
    by_cases hzl : z = l
    · subst hzl
      simp at hk ⊢
      omega
    · simp [Ne.symm hzl] at hk
      simp [Function.update_of_ne hzl, hk]
  · rw [Ledger.dead_kill hmem, card_span_onLine hh.inPage, ← hl, ← h.counts.igc z hz, klines,
      hlow.lines]
    by_cases hzl : z = l
    · subst hzl
      simp
    · simp [Function.update_of_ne hzl, Ne.symm hzl]
  · rw [kblkVgc, hlow.blkVgc]
    exact h.counts.blkVgc b he
  · rw [Ledger.dead_kill hmem, card_span_onBlk hh.inPage, ← h.counts.blkIgc b he, kblkIgc,
      hlow.blkIgc]
    by_cases hb : b = blkOf d (d.gIdx grain)
    · subst hb
      simp
    · simp [Function.update_of_ne hb, Ne.symm hb]
  · rw [Ledger.dead_kill hmem, card_span_onPage hh.inPage, ← h.counts.invCnt hb q he,
      pgInvCnt_killed hb, hlow.pgInvCnt]
  · have hne : b ≠ blkOf d (d.gIdx grain) := by
      rintro rfl
      exact hh.kept he
    rw [kblkVgc, kblkIgc, hlow.blkVgc, hlow.blkIgc, Function.update_of_ne hne]
    exact h.counts.erased b he
  · have hcnt := h.counts.erasedInv q he
    cases hb : d.build with
    | original =>
      unfold killed
      rw [hb, ← hcnt, ← hlow.pgInvCnt]
      rfl
    | plus =>
      have hne : d.gIdx grain ≠ q := by
        rintro rfl
        exact hh.kept he
      rw [pgInvCnt_killed hb, if_neg hne, hlow.pgInvCnt, hcnt]

/-- The pages of the other valid grains stay valid. -/
theorem live_valid_killed (h : f.Tallied d L home) (hh : f.LiveRange d L home grain len)
    (hs : f2.status = f.status) (hi : f2.pgInvCnt = f.pgInvCnt) :
    ∀ g, (L.kill (Device.span grain len)).owner g ≠ none →
      ¬d.Erased home (blkOf d (d.gIdx g)) →
      (f2.killed d grain (d.gIdx grain) len).status (d.gIdx g) = .valid := by
  intro g hg he
  rw [Ledger.owner_kill] at hg
  split at hg
  · exact absurd rfl hg
  rename_i hns
  rw [status_killed, if_neg, hs]
  · exact h.live_valid g hg he
  · -- a page all of whose grains are given up has no valid grain left
    rintro ⟨hplus, heq, hpage⟩
    have hdead := Ledger.dead_kill (P := d.OnPage (d.gIdx grain)) (h.mem hh)
    rw [card_span_onPage hh.inPage, if_pos rfl, ← h.counts.invCnt hplus _ hh.kept, ← hi,
      heq] at hdead
    have hle := Pages.card_page_le (d := d) (L.kill (Device.span grain len)) (d.gIdx grain)
    rw [← Ledger.live_add_dead, hdead] at hle
    have hlive : 1 ≤ (L.kill (Device.span grain len)).live (d.OnPage (d.gIdx grain)) := by
      have := Ledger.card_le_live (P := d.OnPage (d.gIdx grain)) (R := {g})
        (L := L.kill (Device.span grain len)) (fun a ha => by
          rw [Finset.mem_singleton] at ha
          subst ha
          refine ⟨h.owner_used a hg, ?_, hpage⟩
          rw [Ledger.owner_kill, if_neg hns]
          exact hg)
      simpa using this
    omega

theorem killed (h : f.Tallied d L home) (hh : f.LiveRange d L home grain len)
    (hl : l = d.geo.lineOf (d.gIdx grain))
    (hlow : Lowered f f2 l (blkOf d (d.gIdx grain)) len) :
    (f2.killed d grain (d.gIdx grain) len).Tallied d (L.kill (Device.span grain len)) home where
  counts := h.counts_killed hh hl hlow
  used_lt := h.used_lt
  owner_used g hg := by
    rw [Ledger.owner_kill] at hg
    split at hg
    · exact absurd rfl hg
    · exact h.owner_used g hg
  live_valid := h.live_valid_killed hh hlow.status hlow.pgInvCnt

/-- A round of `mark_grain_invalid` runs through if the line can leave the full list. -/
theorem round (h : f.Tallied d L home) (hw : d.geo.Wf) (hh : f.LiveRange d L home grain len)
    (hl : l = d.geo.lineOf (d.gIdx grain))
    (hdem : ((f.addBlkIgc (blkOf d (d.gIdx grain)) len).lowerVgc l len).demote d l
      (decide (d.grainsPerLine ≤ (f.lines l).vgc)) = .ok f2) :
    f.markGrainInvalidPage d l grain (d.gIdx grain) len false =
        .ok (decide (d.grainsPerLine ≤ (f.lines l).vgc), f2.killed d grain (d.gIdx grain) len) ∧
      Touches f (f2.killed d grain (d.gIdx grain) len) (Device.span grain len) := by
  have hlow := Lowered.of_demote hdem
  have hsum := h.vgc_add_igc_le hw (l := l) (hl ▸ hw.lineOf_lt _)
  have hpos := hh.pos
  have hvgc : len ≤ (f.lines l).vgc := hl ▸ h.le_vgc hw hh
  obtain ⟨hblk, hblk'⟩ := h.add_blkIgc_le hw hh
  have hkill : f2.killGrain d grain (d.gIdx grain) len =
      .ok (f2.killed d grain (d.gIdx grain) len) :=
    killGrain_eq (fun hbo => hlow.bitmap ▸ hh.bit hbo) (hlow.status ▸ h.page_valid hh)
      (fun hp => hlow.pgInvCnt ▸ h.pgInvCnt_add_le hh hp)
  refine ⟨?_, hlow.touches_killed hpos
    ((keepsPages_of_eq hlow.status hlow.oob).trans (keepsPages_killGrain hkill))⟩
  -- the assertions, in the order of the source
  simp only [markGrainInvalidPage, Bool.false_or, hdem, ok_bind, hkill]
  rw [ensure_of hpos, ensure_of (h.page_valid hh),
    ensure_of (show f.blkIgc (blkOf d (d.gIdx grain)) < d.grainsPerBlk by omega),
    ensure_of (show 0 < f.blkVgc (blkOf d (d.gIdx grain)) ∧
      f.blkVgc (blkOf d (d.gIdx grain)) ≤ d.grainsPerBlk by omega),
    ensure_of (show (f.lines l).igc < d.grainsPerLine by omega),
    ensure_of (show d.grainsPerLine ≤ (f.lines l).vgc → (f.lines l).igc = 0 by omega),
    ensure_of hvgc,
    ensure_of (show (f2.lines l).vgc ≤ d.grainsPerLine by rw [hlow.line]; simp only; omega)]
  rfl

end Flash.Tallied

namespace FlashInv

variable {d : Device} {f : Flash} {L : Grains} {home : ℕ → Place} {grain len l : ℕ}

/-- A line whose grains are all valid is on the full list. -/
theorem full_of_vgc (h : FlashInv d f L home) (hw : d.geo.Wf) (hl : l < d.geo.ttLines)
    (hfull : d.grainsPerLine ≤ (f.lines l).vgc) : home l = .full := by
  have hsum := h.tallied.vgc_add_igc_le hw hl
  have hcard : d.grainsPerLine ≤ (L.used.filter (d.OnLine l)).card := by
    rw [← Ledger.live_add_dead, ← h.counts.vgc l hl]
    omega
  have hpgs := hw.pgsPerLine_pos
  -- every page of a line that is not in hand was handed out
  have htaken : ¬(home l).InHand → ∀ i < d.geo.pgsPerLine,
      f.status (d.geo.pgNo (d.geo.pageAt l i)) ≠ .free := by
    intro hhand i hi
    have hv := Geometry.pageAt_valid hw hl hi
    refine h.pages.taken_of_card hw hcard hv.pgNo_lt hv.lineOf_pgNo (Device.not_erased ?_)
    rwa [hv.lineOf_pgNo]
  cases hhome : home l with
  | full => rfl
  | free =>
    exact absurd (h.places.free_pages l hl hhome 0 hpgs) (htaken (by rw [hhome]; exact id) 0 hpgs)
  | victim =>
    have := h.places.reclaimable l hl (by rw [hhome]; trivial)
    omega
  | hand bs =>
    have := h.places.reclaimable l hl (by rw [hhome]; trivial)
    omega
  | current io =>
    obtain ⟨r, hr⟩ := h.places.pointer io
    have hblk : (f.wp io).blk = l := (h.places.current io l).mpr ⟨hl, hhome⟩
    have hfree := (hr.free_iff r hr.lt).mpr le_rfl
    rw [hblk] at hfree
    exact absurd hfree (htaken (by rw [hhome]; exact id) r hr.lt)

/-- The pages after a range was given up. -/
theorem pages_killed (h : FlashInv d f L home) (hh : f.Held d L home grain len) {f2 : Flash}
    (hlow : Flash.Lowered f f2 l (Flash.blkOf d (d.gIdx grain)) len) :
    (f2.killed d grain (d.gIdx grain) len).Pages d (L.kill (Device.span grain len)) home := by
  have hlive := h.tallied.live_valid_killed hh.liveRange hlow.status hlow.pgInvCnt
  refine ⟨h.pages.used_lt, fun g hg he => ?_, fun g hg => ?_, hlive, fun g hg => ?_,
    fun hp q hq => ?_, fun q he => ?_⟩
  · rw [Flash.status_killed]
    split
    · nofun
    · rw [hlow.status]
      exact h.pages.used_taken g hg he
  · rw [Ledger.owner_kill] at hg
    split at hg
    · exact absurd rfl hg
    · exact h.pages.owner_used g hg
  · rw [Flash.bitmap_killed] at hg
    split at hg
    · cases hg
    · rename_i hne
      rw [hlow.bitmap] at hg
      obtain ⟨hbo, ho, hne'⟩ := h.pages.bitmap g hg
      have hns : g ∉ Device.span grain len :=
        fun hs => hne ⟨hbo, (hh.bits hbo g hs).mp hg⟩
      rw [Ledger.owner_kill, if_neg hns]
      exact ⟨hbo, ho, hne'⟩
  · rw [Flash.pgInvCnt_killed hp, hlow.pgInvCnt]
    rw [Flash.status_killed] at hq
    split at hq
    · rename_i hc
      rw [hc.2.2, if_pos rfl, ← hlow.pgInvCnt]
      exact hc.2.1
    · rw [hlow.status] at hq
      have hcnt := h.pages.invalid hp q hq
      have hne : d.gIdx grain ≠ q := by
        rintro rfl
        rw [h.tallied.page_valid hh.liveRange] at hq
        cases hq
      rw [if_neg hne, hcnt, Nat.add_zero]
  · rw [Flash.status_killed, if_neg, hlow.status]
    · exact h.pages.erased q he
    · rintro ⟨-, -, rfl⟩
      exact hh.kept he

/-- One round of `mark_grain_invalid`. -/
theorem invalidPage (h : FlashInv d f L home) (hw : d.geo.Wf) (hh : f.Held d L home grain len) :
    ∃ w f', f.markGrainInvalidPage d (d.geo.lineOf (d.gIdx grain)) grain (d.gIdx grain) len false =
        .ok (w, f') ∧
      FlashInv d f' (L.kill (Device.span grain len))
        (Flash.demoted home (d.geo.lineOf (d.gIdx grain)) w) ∧
      Flash.Touches f f' (Device.span grain len) ∧
      (w = true → home (d.geo.lineOf (d.gIdx grain)) = .full) := by
  set l := d.geo.lineOf (d.gIdx grain) with hl
  have hlt : l < d.geo.ttLines := hw.lineOf_lt _
  have hwfull : decide (d.grainsPerLine ≤ (f.lines l).vgc) = true → home l = .full :=
    fun hc => h.full_of_vgc hw hlt (of_decide_eq_true hc)
  obtain ⟨f2, hdem, hsame, hplaces2⟩ := Flash.demote_spec (h.places.lowered _ l len) hlt
    (decide (d.grainsPerLine ≤ (f.lines l).vgc)) hwfull (Flash.igc_lowerVgc_pos _ l hh.pos)
  have hlow := Flash.Lowered.of_demote hdem
  obtain ⟨hrun, htouch⟩ := h.tallied.round hw hh.liveRange hl hdem
  have hcounts := h.tallied.counts_killed hh.liveRange hl hlow
  obtain ⟨kl, kwp, klists, kpq, -⟩ := Flash.killed_frame d f2 grain (d.gIdx grain) len
  have hers := Device.erased_congr (d := d) (Flash.erased_demoted hwfull)
  refine ⟨_, f2.killed d grain (d.gIdx grain) len, hrun,
    ⟨hcounts.congr hers, (h.pages_killed hh hlow).congr hers, ?_⟩, htouch, hwfull⟩
  refine hplaces2.of_eq (kpq ▸ hplaces2.pq) ⟨by rw [kpq], fun z => by rw [kpq]⟩ klists kwp
    (fun q => ?_) (fun z => by rw [kl]) (fun hbo z hz => ?_) (fun z _ => by rw [kl])
  · rw [htouch.keeps.free_iff, hlow.status]
  · rw [Flash.status_killed, if_neg (fun hc => by rw [hbo] at hc; cases hc.1)] at hz
    exact .inl hz

/-- The lists and the counters of every state of the firmware are in order. -/
theorem booked (h : FlashInv d f L home) (hw : d.geo.Wf) : f.Booked d L home where
  tallied := h.tallied
  lists := h.places.lists
  full _ hl := h.full_of_vgc hw hl

end FlashInv

/-- One round of `mark_grain_invalid` keeps the lists and the counters in order. -/
theorem Flash.Booked.invalidPage {d : Device} {f : Flash} {L : Grains} {home : ℕ → Place}
    {grain len l : ℕ} (h : f.Booked d L home) (hw : d.geo.Wf)
    (hh : f.LiveRange d L home grain len) (hl : l = d.geo.lineOf (d.gIdx grain)) :
    ∃ w f', f.markGrainInvalidPage d l grain (d.gIdx grain) len false = .ok (w, f') ∧
      f'.Booked d (L.kill (Device.span grain len)) (Flash.demoted home l w) ∧
      Flash.Touches f f' (Device.span grain len) ∧ (w = true → home l = .full) := by
  have hlt : l < d.geo.ttLines := hl ▸ hw.lineOf_lt _
  have hwfull : decide (d.grainsPerLine ≤ (f.lines l).vgc) = true → home l = .full :=
    fun hc => h.full l hlt (of_decide_eq_true hc)
  obtain ⟨f2, hdem, hlists2⟩ := (h.lists.lowered _ l len).demote hlt _ hwfull
  have hlow := Flash.Lowered.of_demote hdem
  obtain ⟨hrun, htouch⟩ := h.tallied.round hw hh hl hdem
  obtain ⟨kl, -, klists, kpq, -⟩ := Flash.killed_frame d f2 grain (d.gIdx grain) len
  have hers := Device.erased_congr (d := d) (Flash.erased_demoted hwfull)
  refine ⟨_, f2.killed d grain (d.gIdx grain) len, hrun,
    ⟨(h.tallied.killed hh hl hlow).congr hers, ?_, fun z hz hvgc => ?_⟩, htouch, hwfull⟩
  · exact hlists2.of_eq (kpq ▸ hlists2.pq) ⟨by rw [kpq], fun z => by rw [kpq]⟩ klists
  · have hsum := h.tallied.vgc_add_igc_le hw hlt
    have hle : len ≤ (f.lines l).vgc := hl ▸ h.tallied.le_vgc hw hh
    have hpos := hh.pos
    rw [kl] at hvgc
    by_cases hzl : z = l
    · -- the line has an invalid grain now
      rw [hzl, hlow.line] at hvgc
      simp only at hvgc
      omega
    · rw [hlow.lines, Function.update_of_ne hzl] at hvgc
      unfold Flash.demoted
      split
      · rw [Function.update_of_ne hzl]
        exact h.full z hz hvgc
      · exact h.full z hz hvgc

end Virtkv
