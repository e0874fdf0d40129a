import Virtkv.Flash.Take

/-!
# Pages that are given up

Page 0 is never used, and what is left of a page or a stripe when a pair or a section
does not fit is marked valid and invalid again. `Wastes` says that nothing else happened:
owners and bitmap are the same, grains that were unused are in use now, and their
out-of-band words are untouched or fillers up to the end of the page. `Evolves` says what
all writers leave alone.
-/

namespace Virtkv

open Outcome

namespace Flash

variable {d : Device} {io : IoType} {f f' f'' : Flash} {L L' L'' : Grains}
  {home home' home'' : ℕ → Place}

/-- What handing out pages to `io` and marking grains leaves alone. -/
structure Evolves (d : Device) (io : IoType) (f f' : Flash) (home home' : ℕ → Place) : Prop where
  hand : ∀ l bs, home' l = .hand bs ↔ home l = .hand bs
  taken : ∀ l, home l ≠ .free → home' l ≠ .free
  map : ∀ l, home l ≠ .free → (f'.lines l).map = (f.lines l).map
  igc : ∀ l < d.geo.ttLines, (f.lines l).igc ≤ (f'.lines l).igc
  status : ∀ q, f.status q ≠ .free → f'.status q ≠ .free
  wp : ∀ io', io' ≠ io → f'.wp io' = f.wp io'
  full : ∀ l, home' l = .full → home l = .full ∨ (f'.lines l).map = true

namespace Evolves

theorem refl (d : Device) (io : IoType) (f : Flash) (home : ℕ → Place) :
    Evolves d io f f home home :=
  ⟨fun _ _ => Iff.rfl, fun _ => id, fun _ _ => rfl, fun _ _ => le_rfl, fun _ => id, fun _ _ => rfl,
    fun _ => .inl⟩

theorem trans (h : Evolves d io f f' home home') (h' : Evolves d io f' f'' home' home'') :
    Evolves d io f f'' home home'' where
  hand l bs := (h'.hand l bs).trans (h.hand l bs)
  taken l hl := h'.taken l (h.taken l hl)
  map l hl := (h'.map l (h.taken l hl)).trans (h.map l hl)
  igc l hl := (h.igc l hl).trans (h'.igc l hl)
  status q hq := h'.status q (h.status q hq)
  wp io' hne := (h'.wp io' hne).trans (h.wp io' hne)
  full l hl := by
    rcases h'.full l hl with h1 | h1
    · rcases h.full l h1 with h2 | h2
      · exact .inl h2
      · rw [← h'.map l (by rw [h1]; nofun)] at h2
        exact .inr h2
    · exact .inr h1

theorem inHand_iff (h : Evolves d io f f' home home') (l : ℕ) :
    (home' l).InHand ↔ (home l).InHand := by
  have key : ∀ p : Place, p.InHand ↔ ∃ bs, p = .hand bs := by
    intro p
    cases p <;> simp [Place.InHand]
  rw [key, key]
  exact exists_congr fun bs => h.hand l bs

end Evolves

/-- Only grains that were unused changed, and nobody holds them. -/
structure Wastes (d : Device) (f f' : Flash) (L L' : Grains) : Prop where
  used : L.used ⊆ L'.used
  owner : L'.owner = L.owner
  bits : f'.grainBitmap = f.grainBitmap
  oob : ∀ g, g ∈ L.used ∨ g ∉ L'.used → f'.oob g = f.oob g
  words : ∀ g ∈ L'.used, g ∉ L.used → f'.oob g = f.oob g ∨
    (f'.oob g = uintMax ∧
      ∀ g', d.gIdx g' = d.gIdx g → g ≤ g' → g' ∉ L.used ∧ g' ∈ L'.used)

namespace Wastes

theorem refl (d : Device) (f : Flash) (L : Grains) : Wastes d f f L L :=
  ⟨Finset.Subset.refl _, rfl, rfl, fun _ _ => rfl, fun _ h h' => absurd h h'⟩

theorem trans (h : Wastes d f f' L L') (h' : Wastes d f' f'' L' L'') : Wastes d f f'' L L'' where
  used := h.used.trans h'.used
  owner := h'.owner.trans h.owner
  bits := h'.bits.trans h.bits
  oob g hg := by
    rcases hg with hg | hg
    · rw [h'.oob g (.inl (h.used hg)), h.oob g (.inl hg)]
    · rw [h'.oob g (.inr hg), h.oob g (.inr fun hc => hg (h'.used hc))]
  words g hg hn := by
    by_cases hm : g ∈ L'.used
    · rw [h'.oob g (.inl hm)]
      rcases h.words g hm hn with hw | ⟨hw, hall⟩
      · exact .inl hw
      · refine .inr ⟨hw, fun g' hq hle => ?_⟩
        obtain ⟨h1, h2⟩ := hall g' hq hle
        exact ⟨h1, h'.used h2⟩
    · rw [← h.oob g (.inr hm)]
      rcases h'.words g hg hm with hw | ⟨hw, hall⟩
      · exact .inl hw
      · refine .inr ⟨hw, fun g' hq hle => ?_⟩
        obtain ⟨h1, h2⟩ := hall g' hq hle
        exact ⟨fun hc => h1 (h.used hc), h2⟩

end Wastes

/-! ### Single steps -/

/-- The last page of a data line is only handed out when the line has invalid grains. -/
def Dirty (d : Device) (io : IoType) (f : Flash) (r : ℕ) : Prop :=
  io.isMap = false → r + 1 = d.geo.pgsPerLine → 0 < (f.lines (f.wp io).blk).igc

/-- Handing out a page. -/
theorem Takes.evolves {r pgidx : ℕ} (h : Takes d f f' home home' io r pgidx)
    (hpl : f.Places d home) (hdirty : Dirty d io f r) : Evolves d io f f' home home' := by
  have hcur := hpl.home_wp io
  have hhome : ∀ z, home' z = home z ∨ (∀ bs, home z ≠ .hand bs) ∧ (∀ bs, home' z ≠ .hand bs) ∧
      home' z ≠ .free := by
    intro z
    cases h.moves with
    | page => exact .inl rfl
    | line hr l pl hl hfree hcnt hret hwp hmap =>
      have hl' := ((hpl.free l).mp (hfree ▸ List.mem_cons_self ..)).2
      by_cases hz : z = l
      · rw [hz, Function.update_self, hl']
        exact .inr ⟨nofun, nofun, nofun⟩
      rw [Function.update_of_ne hz]
      by_cases hz0 : z = (f.wp io).blk
      · rw [hz0, Function.update_self, hcur]
        cases hret with
        | full => exact .inr ⟨nofun, nofun, nofun⟩
        | victim => exact .inr ⟨nofun, nofun, nofun⟩
      · rw [Function.update_of_ne hz0]
        exact .inl rfl
  refine ⟨fun l bs => ?_, fun l hl => ?_, h.map, fun l _ => (h.igc l).ge, fun q hq => ?_, h.wp,
    fun z hz => ?_⟩
  · rcases hhome l with heq | ⟨h1, h2, -⟩
    · rw [heq]
    · exact ⟨fun hc => absurd hc (h2 bs), fun hc => absurd hc (h1 bs)⟩
  · rcases hhome l with heq | ⟨-, -, h3⟩
    · rwa [heq]
    · exact h3
  · by_cases hqp : q = pgidx
    · rw [hqp, h.valid]
      nofun
    · rwa [h.status_of_ne hqp]
  · cases hm : h.moves with
    | page => exact .inl hz
    | line hr l pl hl hfree hcnt hret hwp hmap =>
      by_cases hzl : z = l
      · rw [hzl, Function.update_self] at hz
        cases hz
      rw [Function.update_of_ne hzl] at hz
      by_cases hz0 : z = (f.wp io).blk
      · rw [hz0, Function.update_self] at hz
        right
        rw [hz0, h.map _ (by rw [hcur]; nofun), hpl.kind io]
        cases hio : io.isMap with
        | true => rfl
        | false =>
          have hpos := hdirty hio hr
          cases hret with
          | full higc => omega
          | victim => cases hz
      · rw [Function.update_of_ne hz0] at hz
        exact .inl hz

theorem Takes.wastes {r pgidx : ℕ} (h : Takes d f f' home home' io r pgidx) (L : Grains) :
    Wastes d f f' L L :=
  ⟨Finset.Subset.refl _, rfl, h.bitmap, fun g _ => congrFun h.oob g, fun _ hg hn => absurd hg hn⟩

/-- Giving up grains. -/
theorem evolves_of_touches {R : Finset ℕ} {l : ℕ} {w : Bool} (ht : Touches f f' R)
    (hw : w = true → home l = .full)
    (higc : ∀ l < d.geo.ttLines, (f.lines l).igc ≤ (f'.lines l).igc) :
    Evolves d io f f' home (demoted home l w) := by
  have hhome : ∀ z, demoted home l w z = home z ∨
      home z = .full ∧ demoted home l w z = .victim := by
    intro z
    cases w with
    | false => exact .inl rfl
    | true =>
      simp only [demoted, if_true]
      by_cases hz : z = l
      · rw [hz, Function.update_self]
        exact .inr ⟨hw rfl, rfl⟩
      · rw [Function.update_of_ne hz]
        exact .inl rfl
  refine ⟨fun z bs => ?_, fun z hz => ?_, fun z _ => ht.map z, higc, fun q hq => ?_,
    fun io' _ => by rw [ht.wp], fun z hz => ?_⟩
  · rcases hhome z with heq | ⟨h1, h2⟩
    · rw [heq]
    · rw [h1, h2]
      exact ⟨(by rintro ⟨⟩), (by rintro ⟨⟩)⟩
  · rcases hhome z with heq | ⟨h1, h2⟩
    · rwa [heq]
    · rw [h2]
      rintro ⟨⟩
  · rwa [ne_eq, ht.keeps.free_iff]
  · rcases hhome z with heq | ⟨h1, h2⟩
    · rw [heq] at hz
      exact .inl hz
    · exact .inl h1

end Flash

namespace FlashInv

variable {d : Device} {io : IoType} {f : Flash} {L : Grains} {home : ℕ → Place} {q off : ℕ}

/-- A page with an unused grain that was handed out is valid. -/
theorem valid_of_unused (h : FlashInv d f L home) (hq : q < d.geo.ttPgs)
    (hst : f.status q ≠ .free)
    (hhand : ¬(home (d.geo.lineOf q)).InHand) {g : ℕ} (hg : d.gIdx g = q) (hn : g ∉ L.used) :
    f.status q = .valid := by
  cases hs : f.status q with
  | valid => rfl
  | free => exact absurd hs hst
  | invalid =>
    cases hb : d.build with
    | original => exact absurd (h.places.invalid hb q hq hs) hhand
    | plus =>
      have hcnt := h.pages.invalid hb q hs
      rw [h.counts.invCnt hb q (Device.not_erased hhand)] at hcnt
      have hlt : (L.used.filter (d.OnPage q)).card < d.gpp := by
        have hle := Flash.Pages.card_page_le (d := d) { L with used := insert g L.used } q
        have hins : (insert g L.used).filter (d.OnPage q) =
            insert g (L.used.filter (d.OnPage q)) := by
          rw [Finset.filter_insert]
          exact if_pos hg
        rw [hins, Finset.card_insert_of_notMem] at hle
        · exact hle
        · exact fun hc => hn (Finset.mem_filter.mp hc).1
      have := Ledger.live_add_dead (L := L) (P := d.OnPage q)
      omega

/-- `mark_grain_valid` and `mark_grain_invalid` of the rest of a page. -/
theorem discardFrom (io : IoType) (h : FlashInv d f L home) (hw : d.geo.Wf) (hoff : off < d.gpp)
    (hq : q < d.geo.ttPgs) (hst : f.status q = .valid)
    (hun : ∀ j, off ≤ j → j < d.gpp → d.ppaToPga q j ∉ L.used) :
    ∃ f' home', f.discardFrom d q off = .ok f' ∧
      FlashInv d f' (L.waste (Device.span (d.ppaToPga q off) (d.gpp - off))) home' ∧
      Flash.Evolves d io f f' home home' ∧
      Flash.Wastes d f f' L (L.waste (Device.span (d.ppaToPga q off) (d.gpp - off))) ∧
      f'.wp = f.wp ∧ f'.oob = f.oob ∧ 0 < (f'.lines (d.geo.lineOf q)).igc := by
  set g := d.ppaToPga q off with hg
  have hpage : d.gIdx g = q := Device.gIdx_ppaToPga hoff
  have hoffg : d.gOffset g = off := Device.gOffset_ppaToPga hoff
  have hmem : ∀ x ∈ Device.span g (d.gpp - off), x ∉ L.used := by
    intro x hx
    rw [Device.mem_span] at hx
    have hxj : x = d.ppaToPga q (x - q * d.gpp) := by
      rw [hg, Device.ppaToPga] at hx
      rw [Device.ppaToPga]
      omega
    rw [hxj]
    rw [hg, Device.ppaToPga] at hx
    exact hun _ (by omega) (by omega)
  have hf : f.Fresh d L g (d.gpp - off) :=
    ⟨by omega, by omega, by rwa [hpage], by rwa [hpage],
      Finset.disjoint_right.mpr hmem⟩
  have hmark := h.markGrainValid_eq hw hf
  have hinv1 := h.marked hf .orphan
  have hown : ∀ x ∈ Device.span g (d.gpp - off),
      (L.add (Device.span g (d.gpp - off)) .orphan).owner x ≠ none := by
    intro x hx
    rw [Ledger.owner_add, if_pos hx]
    rintro ⟨⟩
  -- before the marking no grain of the range is in the bitmap
  have hbit0 : ∀ x ∈ Device.span g (d.gpp - off), f.grainBitmap x = false := by
    intro x hx
    by_contra hc
    rw [Bool.not_eq_false] at hc
    exact hmem x hx (h.pages.owner_used x (h.pages.bitmap x hc).2.1)
  have hheld : (f.marked d g (d.gpp - off)).Held d
      (L.add (Device.span g (d.gpp - off)) .orphan) home g (d.gpp - off) := by
    refine ⟨hf.pos, hf.inPage, h.not_erased hf, hown, fun hb x hx => ?_⟩
    rw [Flash.bitmap_marked]
    by_cases hxg : x = g
    · simp [hb, hxg]
    · simp [hxg, hbit0 x hx]
  obtain ⟨w, f', hkill, hinv2, htouch, hfull⟩ := hinv1.markGrainInvalid_one hw hheld
  rw [Ledger.kill_add] at hinv2
  have hmemR : ∀ x ∈ Device.span g (d.gpp - off),
      x ∈ (L.add (Device.span g (d.gpp - off)) .orphan).used ∧
        (L.add (Device.span g (d.gpp - off)) .orphan).owner x ≠ none := fun x hx =>
    ⟨Finset.mem_union_right _ hx, hown x hx⟩
  have hlt : d.geo.lineOf q < d.geo.ttLines := hw.lineOf_lt _
  obtain ⟨hst1, hoob1, hwp1, -⟩ := Flash.marked_frame (d := d) f g (d.gpp - off)
  have htouch1 := Flash.touches_marked d f g hf.pos
  have hoob : f'.oob = f.oob := by rw [htouch.keeps.2, hoob1]
  refine ⟨f', _, ?_, hinv2, ?_, ⟨Finset.subset_union_left, ?_, ?_, fun x _ => congrFun hoob x,
    fun x _ _ => .inl (congrFun hoob x)⟩, ?_, hoob, ?_⟩
  · rw [Flash.discardFrom, hmark, ok_bind]
    exact hkill
  · have hev1 : Flash.Evolves d io f (f.marked d g (d.gpp - off)) home home := by
      refine Flash.evolves_of_touches (l := 0) (w := false) htouch1 (by rintro ⟨⟩) fun l hl => ?_
      rw [h.counts.igc l hl, hinv1.counts.igc l hl, Ledger.dead_add hf.unused]
    refine hev1.trans (Flash.evolves_of_touches htouch hfull fun l hl => ?_)
    rw [hinv1.counts.igc l hl, hinv2.counts.igc l hl, ← Ledger.kill_add (o := .orphan),
      Ledger.dead_kill hmemR]
    exact Nat.le_add_right _ _
  · funext x
    rw [Ledger.owner_waste]
    split
    · rename_i hx
      by_contra hc
      exact hmem x hx (h.pages.owner_used x (Ne.symm hc))
    · rfl
  · funext x
    by_cases hx : x ∈ Device.span g (d.gpp - off)
    · rw [hbit0 x hx]
      by_contra hc
      rw [Bool.not_eq_false] at hc
      have := (hinv2.pages.bitmap x hc).2.1
      rw [Ledger.owner_waste, if_pos hx] at this
      exact this rfl
    · rw [htouch.bits x hx, htouch1.bits x hx]
  · rw [htouch.wp, hwp1]
  · rw [hinv2.counts.igc _ hlt, ← Ledger.kill_add (o := .orphan), Ledger.dead_kill hmemR,
      Flash.card_span_onLine hf.inPage, hpage, if_pos rfl]
    omega

/-- The out-of-band words are not part of the invariant. -/
theorem of_oob (h : FlashInv d f L home) (o : ℕ → ℕ) : FlashInv d { f with oob := o } L home where
  counts := ⟨h.counts.vgc, h.counts.igc, h.counts.blkVgc, h.counts.blkIgc, h.counts.invCnt,
    h.counts.erased, h.counts.erasedInv⟩
  pages := ⟨h.pages.used_lt, h.pages.used_taken, h.pages.owner_used, h.pages.live_valid,
    h.pages.bitmap, h.pages.invalid, h.pages.erased⟩
  places := h.places.of_eq h.places.pq ⟨rfl, fun _ => Iff.rfl⟩ ⟨rfl, rfl, rfl, rfl, rfl⟩ rfl
    (fun _ => Iff.rfl) (fun _ => rfl) (fun _ _ => .inl) (fun _ _ => le_rfl)

/-- The rest of a page is given up and its words are filled. -/
theorem discardFill (io : IoType) (h : FlashInv d f L home) (hw : d.geo.Wf) (hoff : off < d.gpp)
    (hq : q < d.geo.ttPgs) (hst : f.status q = .valid)
    (hun : ∀ j, off ≤ j → j < d.gpp → d.ppaToPga q j ∉ L.used) :
    ∃ f' L' home', f.discardFrom d q off = .ok f' ∧
      FlashInv d (f'.fillOob d q off uintMax) L' home' ∧
      Flash.Evolves d io f (f'.fillOob d q off uintMax) home home' ∧
      Flash.Wastes d f (f'.fillOob d q off uintMax) L L' ∧ f'.wp = f.wp ∧
      0 < (f'.lines (d.geo.lineOf q)).igc ∧
      L'.used = L.used ∪ Device.span (d.ppaToPga q off) (d.gpp - off) := by
  obtain ⟨f', home', hrun, hinv, hev, hwaste, hwp, hoob, higc⟩ :=
    h.discardFrom io hw hoff hq hst hun
  have hfill : ∀ g, (f'.fillOob d q off uintMax).oob g =
      if g ∈ Device.span (d.ppaToPga q off) (d.gpp - off) then uintMax else f.oob g := by
    intro g
    show (if _ ∧ _ then uintMax else f'.oob g) = _
    rw [hoob]
    refine if_congr ?_ rfl rfl
    rw [Device.mem_span, Device.ppaToPga, Device.ppaToPga]
    omega
  have hspan : ∀ g ∈ Device.span (d.ppaToPga q off) (d.gpp - off), g ∉ L.used ∧
      ∀ g', d.gIdx g' = d.gIdx g → g ≤ g' →
        g' ∈ Device.span (d.ppaToPga q off) (d.gpp - off) := by
    intro g hg
    have hin : d.gOffset (d.ppaToPga q off) + (d.gpp - off) ≤ d.gpp := by
      rw [Device.gOffset_ppaToPga hoff]
      omega
    have hpg := Device.gIdx_of_mem_span hin hg
    rw [Device.gIdx_ppaToPga hoff] at hpg
    rw [Device.mem_span, Device.ppaToPga] at hg
    constructor
    · have hg' : g = d.ppaToPga q (g - q * d.gpp) := by
        rw [Device.ppaToPga]
        omega
      rw [hg']
      exact hun _ (by omega) (by omega)
    · intro g' hpg' hle
      rw [hpg] at hpg'
      have hlt : g' < q * d.gpp + d.gpp := by
        rw [← hpg', Device.gIdx, ← Nat.succ_mul]
        exact Nat.lt_mul_of_div_lt (Nat.lt_succ_self _) d.build_gpp_pos
      rw [Device.mem_span, Device.ppaToPga]
      omega
  refine ⟨f', _, home', hrun, hinv.of_oob _,
    ⟨hev.hand, hev.taken, hev.map, hev.igc, hev.status, hev.wp, hev.full⟩,
    ⟨hwaste.used, hwaste.owner, hwaste.bits, fun g hg => ?_, fun g hg hn => ?_⟩, hwp, higc, rfl⟩
  · rw [hfill, if_neg]
    intro hc
    rcases hg with hg | hg
    · exact (hspan g hc).1 hg
    · exact hg (Finset.mem_union_right _ hc)
  · have hc : g ∈ Device.span (d.ppaToPga q off) (d.gpp - off) :=
      (Finset.mem_union.mp hg).resolve_left hn
    refine .inr ⟨by rw [hfill, if_pos hc], fun g' hpg hle => ?_⟩
    have hc' := (hspan g hc).2 g' hpg hle
    exact ⟨(hspan g' hc').1, Finset.mem_union_right _ hc'⟩

end FlashInv

/-! ### New pages -/

namespace Flash

variable {d : Device} {io : IoType} {f f' : Flash} {L L' : Grains} {home home' : ℕ → Place}

/-- A page that was just handed out, as number `r` of line `l`. -/
structure Opens (d : Device) (io : IoType) (f f' : Flash) (L' : Grains) (home' : ℕ → Place)
    (p : Ppa) (pgidx l r : ℕ) : Prop where
  page : p = d.geo.pageAt l r
  number : pgidx = d.geo.pgNo p
  line_lt : l < d.geo.ttLines
  page_lt : r < d.geo.pgsPerLine
  nonzero : pgidx ≠ 0
  fresh : f.status pgidx = .free
  valid : f'.status pgidx = .valid
  unused : ∀ j < d.gpp, d.ppaToPga pgidx j ∉ L'.used
  next : r + 1 < d.geo.pgsPerLine → f'.wp io = d.geo.pageAt l (r + 1)
  wrap : r + 1 = d.geo.pgsPerLine → ∃ l', f'.wp io = d.geo.pageAt l' 0
  kind : (f'.lines l).map = io.isMap
  kept : home' l ≠ .free ∧ ¬(home' l).InHand

/-- The page under a write pointer, when it is handed out. -/
theorem Takes.opens {r pgidx : ℕ} (h : Takes d f f' home home' io r pgidx) (hw : d.geo.Wf)
    (hinv : FlashInv d f L home) (hdirty : Dirty d io f r) (hne : pgidx ≠ 0) :
    Opens d io f f' L home' (d.geo.pageAt (f.wp io).blk r) pgidx (f.wp io).blk r := by
  have hev := h.evolves hinv.places hdirty
  have hcur := hinv.places.home_wp io
  have hnf : home (f.wp io).blk ≠ .free := by
    rw [hcur]
    nofun
  refine ⟨rfl, h.page, h.pointer.line_lt, h.pointer.lt, hne, h.was_free, h.valid, fun j hj hc => ?_,
    fun hr => ?_, fun hr => ?_, ?_, hev.taken _ hnf, ?_⟩
  · exact h.unused hw hinv.places hinv.pages _ hc (Device.gIdx_ppaToPga hj)
  · cases h.moves with
    | page _ hwp => exact hwp
    | line heq => omega
  · cases h.moves with
    | page hlt => omega
    | line heq l pl hl hfree hcnt hret hwp => exact ⟨l, hwp⟩
  · rw [hev.map _ hnf]
    exact hinv.places.kind io
  · rw [hev.inHand_iff, hcur]
    exact id

/-- A new page: page 0 is passed over. -/
theorem newPage_yields (hinv : FlashInv d f L home) (hw : d.geo.Wf) {r : ℕ}
    (hr : Pointer d f io r) (hdirty : Dirty d io f r) (htwo : 2 ≤ d.geo.pgsPerLine) :
    Yields (f.newPage d io) (· = .noFreeLine) (fun (p, pgidx, f') =>
      ∃ L' home' l r', FlashInv d f' L' home' ∧ Evolves d io f f' home home' ∧
        Wastes d f f' L L' ∧ Opens d io f f' L' home' p pgidx l r' ∧
        ((l = (f.wp io).blk ∧ r' = r) ∨ r' = 0 ∨ 0 < (f'.lines l).igc) ∧
        (∀ g ∈ L'.used, g ∉ L.used → d.gIdx g = 0 ∧ f.status 0 = .free)) := by
  have htt : ∃ n, d.geo.ttPgs + 1 = n + 1 + 1 := by
    have := (Geometry.pageAt_valid hw hw.blks_pos hw.pgsPerLine_pos).pgNo_lt
    exact ⟨d.geo.ttPgs - 1, by omega⟩
  obtain ⟨n, hn⟩ := htt
  rw [newPage, hn, takePageLoop]
  refine (takePage_yields hinv hw hr).bind ?_
  rintro ⟨p, pgidx, f1⟩ ⟨rfl, home1, h1⟩
  have hinv1 := h1.inv hw hinv
  dsimp only
  split
  · -- page 0 is marked and given up
    rename_i h0
    subst h0
    obtain ⟨f2, home2, hdis, hinv2, hev2, hwaste2, hwp2, -, higc⟩ :=
      hinv1.discardFrom io hw d.build_gpp_pos (h1.page_lt hw) h1.valid
        (fun j _ hj hc => h1.unused hw hinv.places hinv.pages _ hc (Device.gIdx_ppaToPga hj))
    rw [hdis, ok_bind, takePageLoop]
    obtain ⟨r2, hr2⟩ := hinv2.places.pointer io
    refine (takePage_yields hinv2 hw hr2).bind ?_
    rintro ⟨p, pgidx, f3⟩ ⟨rfl, home3, h3⟩
    have hev1 := h1.evolves hinv.places hdirty
    rw [h1.lineOf_page hw] at higc
    -- where the second page is
    have hr2or : r2 = 0 ∨ (f2.wp io).blk = (f.wp io).blk := by
      cases h1.moves with
      | page hlt hwp =>
        right
        rw [hwp2, hwp, Geometry.pageAt_blk]
      | line heq l pl hl hfree hcnt hret hwp hmap =>
        left
        have hp := hr2.page
        rw [hwp2, hwp] at hp
        exact (Geometry.pageAt_inj hw hp).2.symm
    have hdirty2 : Dirty d io f2 r2 := by
      intro _ hlast
      rcases hr2or with h0 | hblk
      · omega
      · rw [hblk]
        exact higc
    have hev : Evolves d io f f3 home home3 :=
      (hev1.trans hev2).trans (h3.evolves hinv2.places hdirty2)
    have hne : pgidx ≠ 0 := by
      rintro rfl
      exact hev2.status 0 (by rw [h1.valid]; nofun) h3.was_free
    have hop := h3.opens hw hinv2 hdirty2 hne
    dsimp only
    rw [if_neg hne]
    have hused : ∀ g ∈ (L.waste (Device.span (d.ppaToPga 0 0) (d.gpp - 0))).used, g ∉ L.used →
        d.gIdx g = 0 ∧ f.status 0 = .free := by
      intro g hg hnu
      have hm := (Finset.mem_union.mp hg).resolve_left hnu
      refine ⟨?_, h1.was_free⟩
      rw [Device.gIdx_of_mem_span _ hm, Device.gIdx_ppaToPga d.build_gpp_pos]
      rw [Device.gOffset_ppaToPga d.build_gpp_pos]
      omega
    refine ⟨_, home3, _, r2, h3.inv hw hinv2, hev,
      ((h1.wastes L).trans hwaste2).trans (h3.wastes _),
      { hop with fresh := ?_ }, ?_, hused⟩
    · by_contra hc
      exact (hev2.status _ (hev1.status _ hc)) hop.fresh
    · rcases hr2or with h0 | hblk
      · exact .inr (.inl h0)
      · refine .inr (.inr ?_)
        rw [h3.igc, hblk]
        exact higc
  · rename_i h0
    exact ⟨L, home1, _, r, hinv1, h1.evolves hinv.places hdirty, h1.wastes L,
      h1.opens hw hinv hdirty h0, .inl ⟨rfl, rfl⟩, fun g hg hnu => absurd hg hnu⟩

end Flash

end Virtkv
