import Virtkv.Flash.Mark

/-!
# Ranges over several pages

A pair can reach over several pages of its line. In the order in which the line is
written its grains are consecutive: `grainAt l x` is grain number `x` of line `l`, and
`extent l x len` are `len` grains from there on. `mark_grain_invalid` gives up a whole
extent, page by page.
-/

namespace Virtkv

open Outcome

namespace Device

variable (d : Device)

/-- Grain number `x` of a line, in the order of writing. -/
def grainAt (l x : ℕ) : ℕ := d.ppaToPga (d.geo.pgNo (d.geo.pageAt l (x / d.gpp))) (x % d.gpp)

/-- Consecutive grains of a line. -/
def extent (l x len : ℕ) : Finset ℕ := (Finset.Ico x (x + len)).image (d.grainAt l)

variable {d} {l x len : ℕ}

theorem mem_extent {g : ℕ} :
    g ∈ d.extent l x len ↔ ∃ y, x ≤ y ∧ y < x + len ∧ d.grainAt l y = g := by
  simp only [extent, Finset.mem_image, Finset.mem_Ico, and_assoc]

theorem gIdx_ppaToPga {q off : ℕ} (h : off < d.gpp) : d.gIdx (d.ppaToPga q off) = q := by
  rw [gIdx, ppaToPga, Nat.add_comm, Nat.add_mul_div_right _ _ d.build_gpp_pos,
    Nat.div_eq_of_lt h, Nat.zero_add]

theorem gOffset_ppaToPga {q off : ℕ} (h : off < d.gpp) : d.gOffset (d.ppaToPga q off) = off := by
  rw [gOffset, ppaToPga, Nat.add_comm, Nat.add_mul_mod_self_right, Nat.mod_eq_of_lt h]

theorem gIdx_grainAt (d : Device) (l x : ℕ) :
    d.gIdx (d.grainAt l x) = d.geo.pgNo (d.geo.pageAt l (x / d.gpp)) :=
  gIdx_ppaToPga (Nat.mod_lt _ d.build_gpp_pos)

theorem gOffset_grainAt (d : Device) (l x : ℕ) : d.gOffset (d.grainAt l x) = x % d.gpp :=
  gOffset_ppaToPga (Nat.mod_lt _ d.build_gpp_pos)

/-- A grain of the line is on one of its pages. -/
theorem div_lt_pgsPerLine (h : x < d.grainsPerLine) : x / d.gpp < d.geo.pgsPerLine :=
  Nat.div_lt_of_lt_mul (by rwa [Nat.mul_comm])

theorem pageAt_div_valid (hw : d.geo.Wf) (hl : l < d.geo.ttLines) (h : x < d.grainsPerLine) :
    d.geo.Valid (d.geo.pageAt l (x / d.gpp)) :=
  Geometry.pageAt_valid hw hl (div_lt_pgsPerLine h)

theorem lineOf_grainAt (hw : d.geo.Wf) (hl : l < d.geo.ttLines) (h : x < d.grainsPerLine) :
    d.geo.lineOf (d.gIdx (d.grainAt l x)) = l := by
  rw [gIdx_grainAt, (pageAt_div_valid hw hl h).lineOf_pgNo]
  rfl

/-- Different positions are different grains. -/
theorem grainAt_inj (hw : d.geo.Wf) {l' y : ℕ} (hl : l < d.geo.ttLines)
    (hl' : l' < d.geo.ttLines) (hx : x < d.grainsPerLine) (hy : y < d.grainsPerLine)
    (h : d.grainAt l x = d.grainAt l' y) : l = l' ∧ x = y := by
  have hpage := congrArg d.gIdx h
  have hoff := congrArg d.gOffset h
  rw [gIdx_grainAt, gIdx_grainAt] at hpage
  rw [gOffset_grainAt, gOffset_grainAt] at hoff
  have heq := (pageAt_div_valid hw hl hx).pgNo_inj hw (pageAt_div_valid hw hl' hy) hpage
  obtain ⟨h1, h2⟩ := Geometry.pageAt_inj hw heq
  exact ⟨h1, by rw [← Nat.div_add_mod x d.gpp, ← Nat.div_add_mod y d.gpp, h2, hoff]⟩

/-- Inside a page positions and grains go together. -/
theorem grainAt_add {i : ℕ} (h : x % d.gpp + i < d.gpp) :
    d.grainAt l (x + i) = d.grainAt l x + i := by
  have hdiv : (x + i) / d.gpp = x / d.gpp := by
    refine Nat.div_eq_of_lt_le ?_ ?_
    · exact (Nat.div_mul_le_self _ _).trans (Nat.le_add_right _ _)
    · rw [Nat.add_mul, Nat.mul_comm]
      have := Nat.div_add_mod x d.gpp
      omega
  have hmod : (x + i) % d.gpp = x % d.gpp + i := by
    rw [Nat.add_mod, Nat.mod_eq_of_lt (show i < d.gpp by omega), Nat.mod_eq_of_lt h]
  rw [grainAt, grainAt, hdiv, hmod, ppaToPga, ppaToPga, Nat.add_assoc]

/-! The first position behind the page of position `x`. -/

theorem pageEnd_eq (d : Device) (x : ℕ) :
    x + (d.gpp - x % d.gpp) = (x / d.gpp + 1) * d.gpp := by
  have hmod := Nat.mod_lt x d.build_gpp_pos
  have hdm := Nat.div_add_mod x d.gpp
  rw [Nat.add_mul, Nat.mul_comm]
  omega

theorem pageEnd_div (d : Device) (x : ℕ) : (x + (d.gpp - x % d.gpp)) / d.gpp = x / d.gpp + 1 := by
  rw [pageEnd_eq, Nat.mul_div_cancel _ d.build_gpp_pos]

theorem pageEnd_mod (d : Device) (x : ℕ) : (x + (d.gpp - x % d.gpp)) % d.gpp = 0 := by
  rw [pageEnd_eq, Nat.mul_mod_left]

/-- An extent that does not leave its page is a range of grains. -/
theorem extent_eq_span (h : x % d.gpp + len ≤ d.gpp) :
    d.extent l x len = span (d.grainAt l x) len := by
  ext g
  rw [mem_extent, mem_span]
  constructor
  · rintro ⟨y, h1, h2, rfl⟩
    obtain ⟨i, rfl⟩ := Nat.exists_eq_add_of_le h1
    rw [grainAt_add (by omega)]
    omega
  · rintro ⟨h1, h2⟩
    obtain ⟨i, rfl⟩ := Nat.exists_eq_add_of_le h1
    exact ⟨x + i, by omega, by omega, grainAt_add (by omega)⟩

theorem extent_append (d : Device) (l x m n : ℕ) :
    d.extent l x (m + n) = d.extent l x m ∪ d.extent l (x + m) n := by
  rw [extent, extent, extent, ← Finset.image_union, Finset.Ico_union_Ico_eq_Ico, Nat.add_assoc]
  · exact Nat.le_add_right _ _
  · exact Nat.le_add_right _ _

end Device

/-! ### Giving up a range -/

namespace Flash

variable {d : Device} {f f' : Flash} {L : Grains} {home : ℕ → Place} {l x len : ℕ}

/-- The extent is valid; in ORIGINAL its first grain on every page is marked in the
bitmap. -/
structure HeldExtent (d : Device) (f : Flash) (L : Grains) (home : ℕ → Place) (l x len : ℕ) :
    Prop where
  line_lt : l < d.geo.ttLines
  kept : ¬(home l).InHand
  pos : 0 < len
  inLine : x + len ≤ d.grainsPerLine
  live : ∀ y, x ≤ y → y < x + len → L.owner (d.grainAt l y) ≠ none
  bits : d.build = .original → ∀ y, x ≤ y → y < x + len →
    (f.grainBitmap (d.grainAt l y) = true ↔ y = x ∨ y % d.gpp = 0)

/-- The extent is valid; in ORIGINAL its first grain on every page is marked in the bitmap,
and other grains may be. -/
structure LiveExtent (d : Device) (f : Flash) (L : Grains) (home : ℕ → Place) (l x len : ℕ) :
    Prop where
  line_lt : l < d.geo.ttLines
  kept : ¬(home l).InHand
  pos : 0 < len
  inLine : x + len ≤ d.grainsPerLine
  live : ∀ y, x ≤ y → y < x + len → L.owner (d.grainAt l y) ≠ none
  bits : d.build = .original → ∀ y, x ≤ y → y < x + len → y = x ∨ y % d.gpp = 0 →
    f.grainBitmap (d.grainAt l y) = true

theorem HeldExtent.liveExtent (h : HeldExtent d f L home l x len) :
    LiveExtent d f L home l x len where
  line_lt := h.line_lt
  kept := h.kept
  pos := h.pos
  inLine := h.inLine
  live := h.live
  bits hb y hy hlt := (h.bits hb y hy hlt).mpr

/-- A grain of the part on the first page. -/
theorem mem_head {g : ℕ} (hg : g ∈ Device.span (d.grainAt l x) (min len (d.gpp - x % d.gpp))) :
    ∃ i, i < len ∧ x % d.gpp + i < d.gpp ∧ g = d.grainAt l (x + i) := by
  rw [Device.mem_span] at hg
  have hoff : x % d.gpp + (g - d.grainAt l x) < d.gpp := by omega
  refine ⟨g - d.grainAt l x, by omega, hoff, ?_⟩
  rw [Device.grainAt_add hoff]
  omega

/-- A position behind the first page is not in the part on it. -/
theorem notMem_head (hw : d.geo.Wf) (hl : l < d.geo.ttLines) (hin : x + len ≤ d.grainsPerLine)
    {y : ℕ} (hy : x + (d.gpp - x % d.gpp) ≤ y) (hlt : y < x + len) :
    d.grainAt l y ∉ d.extent l x (d.gpp - x % d.gpp) := by
  intro hc
  obtain ⟨z, hz, hzlt, heq⟩ := Device.mem_extent.mp hc
  have := (Device.grainAt_inj hw hl hl (by omega) (by omega) heq).2
  omega

/-- The part of an extent on its first page. -/
theorem LiveExtent.head (h : LiveExtent d f L home l x len) (hw : d.geo.Wf) :
    LiveRange d f L home (d.grainAt l x) (min len (d.gpp - x % d.gpp)) := by
  have hmod := Nat.mod_lt x d.build_gpp_pos
  have hpos := h.pos
  have hin := h.inLine
  refine ⟨by omega, ?_, Device.not_erased ?_, fun g hg => ?_, fun hb => ?_⟩
  · rw [Device.gOffset_grainAt]
    omega
  · rw [Device.lineOf_grainAt hw h.line_lt (by omega)]
    exact h.kept
  · obtain ⟨i, hi, -, rfl⟩ := mem_head hg
    exact h.live _ (by omega) (by omega)
  · exact h.bits hb x le_rfl (by omega) (.inl rfl)

theorem HeldExtent.head (h : HeldExtent d f L home l x len) (hw : d.geo.Wf) :
    Held d f L home (d.grainAt l x) (min len (d.gpp - x % d.gpp)) := by
  obtain ⟨hpos, hin, hkept, hlive, -⟩ := h.liveExtent.head hw
  refine ⟨hpos, hin, hkept, hlive, fun hb g hg => ?_⟩
  obtain ⟨i, hi, hlt, rfl⟩ := mem_head hg
  rw [h.bits hb (x + i) (by omega) (by omega), Device.grainAt_add hlt]
  have hmod : (x + i) % d.gpp = x % d.gpp + i := by
    rw [Nat.add_mod, Nat.mod_eq_of_lt (show i < d.gpp by omega), Nat.mod_eq_of_lt hlt]
  omega

/-- The part of an extent behind its first page. -/
theorem LiveExtent.tail (h : LiveExtent d f L home l x len) (hw : d.geo.Wf) {R : Finset ℕ}
    (hR : R = d.extent l x (d.gpp - x % d.gpp)) (hlen : d.gpp - x % d.gpp < len)
    (hbits : ∀ g, g ∉ R → f'.grainBitmap g = f.grainBitmap g) :
    LiveExtent d f' (L.kill R) home l (x + (d.gpp - x % d.gpp)) (len - (d.gpp - x % d.gpp)) := by
  have hin := h.inLine
  have hnot : ∀ y, x + (d.gpp - x % d.gpp) ≤ y → y < x + len → d.grainAt l y ∉ R :=
    fun y hy hlt => hR ▸ notMem_head hw h.line_lt hin hy hlt
  refine ⟨h.line_lt, h.kept, by omega, by omega, fun y hy hylt => ?_, fun hb y hy hylt hs => ?_⟩
  · rw [Ledger.owner_kill, if_neg (hnot y hy (by omega))]
    exact h.live y (by omega) (by omega)
  · rw [hbits _ (hnot y hy (by omega))]
    refine h.bits hb y (by omega) (by omega) (.inr ?_)
    rcases hs with rfl | h0
    · exact d.pageEnd_mod x
    · exact h0

theorem HeldExtent.tail (h : HeldExtent d f L home l x len) (hw : d.geo.Wf) {R : Finset ℕ}
    (hR : R = d.extent l x (d.gpp - x % d.gpp)) (hlen : d.gpp - x % d.gpp < len)
    (hbits : ∀ g, g ∉ R → f'.grainBitmap g = f.grainBitmap g) :
    HeldExtent d f' (L.kill R) home l (x + (d.gpp - x % d.gpp)) (len - (d.gpp - x % d.gpp)) := by
  obtain ⟨hline, hkept, hpos, hin, hlive, -⟩ := h.liveExtent.tail hw hR hlen hbits
  refine ⟨hline, hkept, hpos, hin, hlive, fun hb y hy hylt => ?_⟩
  have hmod := Nat.mod_lt x d.build_gpp_pos
  rw [hbits _ (hR ▸ notMem_head hw hline h.inLine hy (by omega)),
    h.bits hb y (by omega) (by omega)]
  constructor
  · rintro (rfl | h0)
    · omega
    · exact .inr h0
  · rintro (rfl | h0)
    · exact .inr (d.pageEnd_mod x)
    · exact .inr h0

end Flash

namespace FlashInv

variable {d : Device} {f : Flash} {L : Grains} {home : ℕ → Place} {grain len l x : ℕ}

/-- `mark_grain_invalid` of a range on one page. -/
theorem markGrainInvalid_one (h : FlashInv d f L home) (hw : d.geo.Wf)
    (hh : f.Held d L home grain len) :
    ∃ w f', f.markGrainInvalid d grain len = .ok f' ∧
      FlashInv d f' (L.kill (Device.span grain len))
        (Flash.demoted home (d.geo.lineOf (d.gIdx grain)) w) ∧
      Flash.Touches f f' (Device.span grain len) ∧
      (w = true → home (d.geo.lineOf (d.gIdx grain)) = .full) := by
  obtain ⟨p, hp, hblk⟩ := Geometry.ppaToStruct_of_lt (h.tallied.page_lt hh.liveRange)
  obtain ⟨w, f', hround, hinv, htouch, hfull⟩ := h.invalidPage hw hh
  refine ⟨w, f', ?_, hinv, htouch, hfull⟩
  have hin := hh.inPage
  have hmin : min len (d.gpp - d.gOffset grain) = len := by omega
  rw [Flash.markGrainInvalid]
  simp only [hp, ok_bind]
  rw [ensure_of (fun hc => absurd hc (by omega)), ok_bind, Flash.markGrainInvalidLoop]
  simp only [hmin, hblk, hround, ok_bind]
  rw [if_pos (Nat.sub_self len)]
  rfl

theorem markGrainInvalidLoop_extent (hw : d.geo.Wf) (fuel : ℕ) (h : FlashInv d f L home)
    (hh : f.HeldExtent d L home l x len) (hfuel : len < fuel)
    (hmulti : d.gpp < x % d.gpp + len → home l ≠ .full) :
    ∃ w f', Flash.markGrainInvalidLoop d fuel f (d.geo.pageAt l (x / d.gpp)) (d.grainAt l x)
        (d.geo.pgNo (d.geo.pageAt l (x / d.gpp))) len false = .ok f' ∧
      FlashInv d f' (L.kill (d.extent l x len)) (Flash.demoted home l w) ∧
      Flash.Touches f f' (d.extent l x len) ∧ (w = true → home l = .full) := by
  induction fuel generalizing f L x len with
  | zero => omega
  | succ fuel ih =>
    have hin := hh.inLine
    have hpos := hh.pos
    have hmod := Nat.mod_lt x d.build_gpp_pos
    have hlt : x < d.grainsPerLine := by omega
    have hhead := hh.head hw
    obtain ⟨w, f1, hround, hinv1, htouch1, hfull1⟩ := h.invalidPage hw hhead
    rw [Device.lineOf_grainAt hw hh.line_lt hlt] at hround hinv1 hfull1
    rw [Device.gIdx_grainAt] at hround
    replace hround : f.markGrainInvalidPage d (d.geo.pageAt l (x / d.gpp)).blk (d.grainAt l x)
      (d.geo.pgNo (d.geo.pageAt l (x / d.gpp))) (min len (d.gpp - x % d.gpp)) false =
        .ok (w, f1) := hround
    simp only [Flash.markGrainInvalidLoop, Device.gOffset_grainAt, hround, ok_bind]
    by_cases hlast : len ≤ d.gpp - x % d.gpp
    · have hmin : min len (d.gpp - x % d.gpp) = len := by omega
      rw [hmin] at hround hinv1 htouch1 ⊢
      have hext : d.extent l x len = Device.span (d.grainAt l x) len :=
        Device.extent_eq_span (by omega)
      rw [hext, if_pos (by omega)]
      exact ⟨w, f1, rfl, hinv1, htouch1, hfull1⟩
    · -- more pages follow, so the line was not full
      have hmin : min len (d.gpp - x % d.gpp) = d.gpp - x % d.gpp := by omega
      have hwf : w = false := by
        cases w with
        | false => rfl
        | true => exact absurd (hfull1 rfl) (hmulti (by omega))
      subst hwf
      rw [hmin] at hround hinv1 htouch1 ⊢
      have hext : d.extent l x (d.gpp - x % d.gpp) =
          Device.span (d.grainAt l x) (d.gpp - x % d.gpp) := Device.extent_eq_span (by omega)
      have hx' := d.pageEnd_div x
      have hx0 := d.pageEnd_mod x
      have hlt' : x + (d.gpp - x % d.gpp) < d.grainsPerLine := by omega
      have hr1 : x / d.gpp + 1 < d.geo.pgsPerLine := by
        rw [← hx']
        exact Device.div_lt_pgsPerLine hlt'
      rw [if_neg (by omega), Geometry.peekNextPage_pageAt hw hr1, ok_bind,
        ensure_of ((Geometry.pageAt_blk d.geo l _).trans (Geometry.pageAt_blk d.geo l _).symm),
        ok_bind,
        (Geometry.pageAt_valid hw hh.line_lt hr1).ppa2pgidx_eq, ok_bind]
      have htail := hh.tail hw hext.symm (by omega) htouch1.bits
      obtain ⟨w', f2, hrun, hinv2, htouch2, hfull2⟩ :=
        ih hinv1 htail (by omega) (fun _ => hmulti (by omega))
      have hgrain : d.grainAt l (x + (d.gpp - x % d.gpp)) =
          d.ppaToPga (d.geo.pgNo (d.geo.pageAt l (x / d.gpp + 1))) 0 := by
        rw [Device.grainAt, hx', hx0]
      rw [hx', hgrain] at hrun
      have hsplit : d.extent l x len = Device.span (d.grainAt l x) (d.gpp - x % d.gpp) ∪
          d.extent l (x + (d.gpp - x % d.gpp)) (len - (d.gpp - x % d.gpp)) := by
        rw [← hext, ← Device.extent_append]
        congr 1
        omega
      refine ⟨w', f2, hrun, ?_, ?_, hfull2⟩
      · rw [hsplit, ← Ledger.kill_kill]
        exact hinv2
      · rw [hsplit]
        exact htouch1.trans htouch2

/-- `mark_grain_invalid` of an extent. Over several pages the line must not be full. -/
theorem markGrainInvalid_extent (h : FlashInv d f L home) (hw : d.geo.Wf)
    (hh : f.HeldExtent d L home l x len) (hmulti : d.gpp < x % d.gpp + len → home l ≠ .full) :
    ∃ w f', f.markGrainInvalid d (d.grainAt l x) len = .ok f' ∧
      FlashInv d f' (L.kill (d.extent l x len)) (Flash.demoted home l w) ∧
      Flash.Touches f f' (d.extent l x len) ∧ (w = true → home l = .full) := by
  have hin := hh.inLine
  have hpos := hh.pos
  have hlt : x < d.grainsPerLine := by omega
  have hv := Device.pageAt_div_valid hw hh.line_lt hlt
  have hlast : d.gpp < len → d.geo.lastPgInLine (d.geo.pageAt l (x / d.gpp)) = false := by
    intro hlong
    rw [Bool.eq_false_iff]
    intro hc
    have hend := (Geometry.lastPgInLine_pageAt hw (Device.div_lt_pgsPerLine hlt)).mp hc
    have hle : (x / d.gpp + 1) * d.gpp < x + len := by
      have := Nat.div_mul_le_self x d.gpp
      rw [Nat.add_mul]
      omega
    rw [hend] at hle
    unfold Device.grainsPerLine at hin
    omega
  obtain ⟨w, f', hrun, hinv, htouch, hfull⟩ :=
    markGrainInvalidLoop_extent hw (len + 1) h hh (Nat.lt_succ_self _) hmulti
  refine ⟨w, f', ?_, hinv, htouch, hfull⟩
  rw [Flash.markGrainInvalid]
  simp only [Device.gIdx_grainAt, hv.ppaToStruct_pgNo hw, ok_bind]
  rw [ensure_of hlast, ok_bind]
  exact hrun

end FlashInv

end Virtkv
