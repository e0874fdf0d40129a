import Virtkv.Flash.Frame
import Virtkv.Flash.Order
import Virtkv.Lib.Ledger

/-!
# The invariant of the flash bookkeeping

Two ghosts go with a flash state: a ledger of the grains in use with the holder of each
valid one, and the place of every line. `FlashInv` says that the counters of lines,
blocks and pages count the ledger, that lists, queue and write pointers hold the lines
the places say, and that pages are handed out in order.
-/

namespace Virtkv

open Outcome

/-- What a valid grain belongs to: a pair, a section, an invalid-mapping page, or nothing
that is looked for any more. -/
inductive Owner where
  | pair (lpa : ℕ)
  | sec (i : ℕ)
  | log (pgidx : ℕ)
  | orphan
  deriving DecidableEq

/-- Where a line is. The collector has a line in its hands, with some of its blocks erased
already. -/
inductive Place where
  | free
  | full
  | victim
  | current (io : IoType)
  | hand (erased : Finset ℕ)
  deriving DecidableEq

namespace Place

/-- All pages of the line were handed out. -/
def UsedUp : Place → Prop
  | full | victim | hand _ => True
  | free | current _ => False

/-- The line has invalid grains. -/
def Reclaimable : Place → Prop
  | victim | hand _ => True
  | free | full | current _ => False

/-- The line is being collected. -/
def InHand : Place → Prop
  | hand _ => True
  | free | full | victim | current _ => False

/-- The erased blocks of a line. -/
def erased : Place → Finset ℕ
  | hand bs => bs
  | free | full | victim | current _ => ∅

end Place

/-- The grains in use and their holders. -/
abbrev Grains := Ledger ℕ Owner

namespace Device

variable (d : Device)

/-- The grain is in a line, in a block, on a page. -/
def OnLine (l g : ℕ) : Prop := d.geo.lineOf (d.gIdx g) = l
def OnBlk (b g : ℕ) : Prop := d.gIdx g / d.geo.pgsPerBlk = b
def OnPage (q g : ℕ) : Prop := d.gIdx g = q

instance (l : ℕ) : DecidablePred (d.OnLine l) := fun _ => inferInstanceAs (Decidable (_ = l))
instance (b : ℕ) : DecidablePred (d.OnBlk b) := fun _ => inferInstanceAs (Decidable (_ = b))
instance (q : ℕ) : DecidablePred (d.OnPage q) := fun _ => inferInstanceAs (Decidable (_ = q))

/-- All grains of the device. -/
def ttGrains : ℕ := d.geo.ttPgs * d.gpp

/-- The block was erased and its line is not free yet. -/
def Erased (home : ℕ → Place) (b : ℕ) : Prop := b ∈ (home (b % d.geo.blksPerPl)).erased

/-- A range of grains. -/
def span (grain len : ℕ) : Finset ℕ := Finset.Ico grain (grain + len)

end Device

namespace Flash

/-- The counters count the ledger. -/
structure Counts (d : Device) (f : Flash) (L : Grains) (home : ℕ → Place) : Prop where
  vgc : ∀ l < d.geo.ttLines, (f.lines l).vgc = L.live (d.OnLine l)
  igc : ∀ l < d.geo.ttLines, (f.lines l).igc = L.dead (d.OnLine l)
  blkVgc : ∀ b, ¬d.Erased home b → f.blkVgc b = (L.used.filter (d.OnBlk b)).card
  blkIgc : ∀ b, ¬d.Erased home b → f.blkIgc b = L.dead (d.OnBlk b)
  invCnt : d.build = .plus → ∀ q, ¬d.Erased home (blkOf d q) → f.pgInvCnt q = L.dead (d.OnPage q)
  erased : ∀ b, d.Erased home b → f.blkVgc b = 0 ∧ f.blkIgc b = 0
  erasedInv : ∀ q, d.Erased home (blkOf d q) → f.pgInvCnt q = 0

/-- Grains in use are on pages that were handed out, valid grains on valid pages, unless
their block was erased. -/
structure Pages (d : Device) (f : Flash) (L : Grains) (home : ℕ → Place) : Prop where
  used_lt : ∀ g ∈ L.used, g < d.ttGrains
  used_taken : ∀ g ∈ L.used, ¬d.Erased home (blkOf d (d.gIdx g)) → f.status (d.gIdx g) ≠ .free
  owner_used : ∀ g, L.owner g ≠ none → g ∈ L.used
  live_valid : ∀ g, L.owner g ≠ none → ¬d.Erased home (blkOf d (d.gIdx g)) →
    f.status (d.gIdx g) = .valid
  bitmap : ∀ g, f.grainBitmap g = true →
    d.build = .original ∧ L.owner g ≠ none ∧ ¬d.Erased home (blkOf d (d.gIdx g))
  invalid : d.build = .plus → ∀ q, f.status q = .invalid → f.pgInvCnt q = d.gpp
  erased : ∀ q, d.Erased home (blkOf d q) → f.status q = .free

/-- A write pointer stands on page `r` of its line, and the pages from there on are free. -/
structure Pointer (d : Device) (f : Flash) (io : IoType) (r : ℕ) : Prop where
  lt : r < d.geo.pgsPerLine
  line_lt : (f.wp io).blk < d.geo.ttLines
  page : f.wp io = d.geo.pageAt (f.wp io).blk r
  free_iff : ∀ i < d.geo.pgsPerLine,
    f.status (d.geo.pgNo (d.geo.pageAt (f.wp io).blk i)) = .free ↔ r ≤ i

/-- Lists, queue and write pointers hold the lines that the places say. -/
structure Places (d : Device) (f : Flash) (home : ℕ → Place) : Prop where
  pq : f.victimPq.Ok
  victim : ∀ l, f.victimPq.pos l ≠ 0 ↔ l < d.geo.ttLines ∧ home l = .victim
  victimCnt : f.victimLineCnt = (f.victimPq.size - 1) % 2 ^ 32
  free : ∀ l, l ∈ f.freeLines ↔ l < d.geo.ttLines ∧ home l = .free
  free_nodup : f.freeLines.Nodup
  freeCnt : f.freeLineCnt = f.freeLines.length % 2 ^ 32
  full : ∀ l, l ∈ f.fullLines ↔ l < d.geo.ttLines ∧ home l = .full
  full_nodup : f.fullLines.Nodup
  fullCnt : f.fullLineCnt = f.fullLines.length % 2 ^ 32
  current : ∀ io l, (f.wp io).blk = l ↔ l < d.geo.ttLines ∧ home l = .current io
  pointer : ∀ io, ∃ r, Pointer d f io r
  kind : ∀ io, (f.lines (f.wp io).blk).map = io.isMap
  free_pages : ∀ l < d.geo.ttLines, home l = .free →
    ∀ i < d.geo.pgsPerLine, f.status (d.geo.pgNo (d.geo.pageAt l i)) = .free
  used_up : ∀ l < d.geo.ttLines, (home l).UsedUp → ∀ i < d.geo.pgsPerLine,
    ¬d.Erased home (blkOf d (d.geo.pgNo (d.geo.pageAt l i))) →
    f.status (d.geo.pgNo (d.geo.pageAt l i)) ≠ .free
  invalid : d.build = .original → ∀ q < d.geo.ttPgs, f.status q = .invalid →
    (home (d.geo.lineOf q)).InHand
  reclaimable : ∀ l < d.geo.ttLines, (home l).Reclaimable → 0 < (f.lines l).igc

/-- The part of the counters and pages that giving up grains needs. -/
structure Tallied (d : Device) (f : Flash) (L : Grains) (home : ℕ → Place) : Prop where
  counts : f.Counts d L home
  used_lt : ∀ g ∈ L.used, g < d.ttGrains
  owner_used : ∀ g, L.owner g ≠ none → g ∈ L.used
  live_valid : ∀ g, L.owner g ≠ none → ¬d.Erased home (blkOf d (d.gIdx g)) →
    f.status (d.gIdx g) = .valid

/-- The part of the places that is about the lists of lines and the queue. -/
structure Lists (d : Device) (f : Flash) (home : ℕ → Place) : Prop where
  pq : f.victimPq.Ok
  victim : ∀ l, f.victimPq.pos l ≠ 0 ↔ l < d.geo.ttLines ∧ home l = .victim
  victimCnt : f.victimLineCnt = (f.victimPq.size - 1) % 2 ^ 32
  free : ∀ l, l ∈ f.freeLines ↔ l < d.geo.ttLines ∧ home l = .free
  free_nodup : f.freeLines.Nodup
  freeCnt : f.freeLineCnt = f.freeLines.length % 2 ^ 32
  full : ∀ l, l ∈ f.fullLines ↔ l < d.geo.ttLines ∧ home l = .full
  full_nodup : f.fullLines.Nodup
  fullCnt : f.fullLineCnt = f.fullLines.length % 2 ^ 32

theorem Places.lists {d : Device} {f : Flash} {home : ℕ → Place} (h : f.Places d home) :
    f.Lists d home := { h with }

/-- Each line is in one list, its counters count its grains, and a line whose grains are all
valid is on the full list. -/
structure Booked (d : Device) (f : Flash) (L : Grains) (home : ℕ → Place) : Prop where
  tallied : f.Tallied d L home
  lists : f.Lists d home
  full : ∀ l < d.geo.ttLines, d.grainsPerLine ≤ (f.lines l).vgc → home l = .full

end Flash

/-- The invariant of the flash state. -/
structure FlashInv (d : Device) (f : Flash) (L : Grains) (home : ℕ → Place) : Prop where
  counts : f.Counts d L home
  pages : f.Pages d L home
  places : f.Places d home

theorem FlashInv.tallied {d : Device} {f : Flash} {L : Grains} {home : ℕ → Place}
    (h : FlashInv d f L home) : f.Tallied d L home where
  counts := h.counts
  used_lt := h.pages.used_lt
  owner_used := h.pages.owner_used
  live_valid := h.pages.live_valid

/-! ### Counting grains -/

namespace Device

variable {d : Device}

theorem mem_span {grain len g : ℕ} : g ∈ span grain len ↔ grain ≤ g ∧ g < grain + len :=
  Finset.mem_Ico

@[simp] theorem card_span (grain len : ℕ) : (span grain len).card = len := by
  rw [span, Nat.card_Ico, Nat.add_sub_cancel_left]

theorem build_gpp_pos (d : Device) : 0 < d.gpp := by
  unfold gpp
  cases d.build <;> decide

/-- A range that does not leave its page. -/
theorem gIdx_of_mem_span {grain len g : ℕ} (hin : d.gOffset grain + len ≤ d.gpp)
    (hg : g ∈ span grain len) : d.gIdx g = d.gIdx grain := by
  rw [mem_span] at hg
  have hdm := Nat.div_add_mod grain d.gpp
  unfold gOffset at hin
  unfold gIdx
  refine Nat.div_eq_of_lt_le ?_ ?_
  · rw [Nat.mul_comm]
    omega
  · rw [Nat.add_mul, Nat.mul_comm]
    omega

theorem lt_ttGrains {g : ℕ} (h : d.gIdx g < d.geo.ttPgs) : g < d.ttGrains :=
  Nat.lt_mul_of_div_lt h d.build_gpp_pos

theorem gIdx_lt {g : ℕ} (h : g < d.ttGrains) : d.gIdx g < d.geo.ttPgs :=
  Nat.div_lt_of_lt_mul (by rwa [Nat.mul_comm])

/-- Grains are pages and offsets. -/
theorem grain_inj {g g' : ℕ} (h : d.gIdx g = d.gIdx g') (h' : d.gOffset g = d.gOffset g') :
    g = g' := by
  rw [← Nat.div_add_mod g d.gpp, ← Nat.div_add_mod g' d.gpp]
  unfold gIdx at h
  unfold gOffset at h'
  rw [h, h']

/-- A set of grains on a set of pages has at most as many grains as these pages. -/
theorem card_le_of_pages {R Q : Finset ℕ} (h : ∀ g ∈ R, d.gIdx g ∈ Q) :
    R.card ≤ Q.card * d.gpp := by
  have hmaps : ∀ g ∈ R, (d.gIdx g, d.gOffset g) ∈ Q ×ˢ Finset.range d.gpp := by
    intro g hg
    rw [Finset.mem_product, Finset.mem_range]
    exact ⟨h g hg, Nat.mod_lt _ d.build_gpp_pos⟩
  have hinj : Set.InjOn (fun g => (d.gIdx g, d.gOffset g)) (R : Set ℕ) := by
    intro g _ g' _ heq
    obtain ⟨h1, h2⟩ := Prod.mk.inj heq
    exact grain_inj h1 h2
  have hcard := Finset.card_le_card_of_injOn _ hmaps hinj
  rwa [Finset.card_product, Finset.card_range] at hcard

/-- No line has more grains than its pages have. -/
theorem card_onLine_le (hw : d.geo.Wf) {R : Finset ℕ} (h : ∀ g ∈ R, g < d.ttGrains) (l : ℕ) :
    (R.filter (d.OnLine l)).card ≤ d.grainsPerLine := by
  have hle := card_le_of_pages (d := d) (R := R.filter (d.OnLine l))
    (Q := (Finset.range d.geo.ttPgs).filter fun q => d.geo.lineOf q = l) (fun g hg => by
      rw [Finset.mem_filter] at hg
      rw [Finset.mem_filter, Finset.mem_range]
      exact ⟨gIdx_lt (h g hg.1), hg.2⟩)
  exact hle.trans (Nat.mul_le_mul_right _ (Geometry.card_line_le hw l))

/-- A set with as many grains of a line as there are has the first grain of every page. -/
theorem mem_of_card (hw : d.geo.Wf) {R : Finset ℕ} (h : ∀ g ∈ R, g < d.ttGrains) {l q : ℕ}
    (hcard : d.grainsPerLine ≤ (R.filter (d.OnLine l)).card) (hq : q < d.geo.ttPgs)
    (hl : d.geo.lineOf q = l) : q * d.gpp ∈ R := by
  set A := (Finset.range d.ttGrains).filter (d.OnLine l) with hA
  have hsub : R.filter (d.OnLine l) ⊆ A := by
    intro g hg
    rw [Finset.mem_filter] at hg
    exact Finset.mem_filter.mpr ⟨Finset.mem_range.mpr (h g hg.1), hg.2⟩
  have hAle : A.card ≤ d.grainsPerLine := card_onLine_le hw (fun g hg => Finset.mem_range.mp hg) l
  have heq := Finset.eq_of_subset_of_card_le hsub (hAle.trans hcard)
  have hmem : q * d.gpp ∈ A := by
    refine Finset.mem_filter.mpr ⟨Finset.mem_range.mpr ?_, ?_⟩
    · exact Nat.mul_lt_mul_of_pos_right hq d.build_gpp_pos
    · show d.geo.lineOf (q * d.gpp / d.gpp) = l
      rw [Nat.mul_div_cancel _ d.build_gpp_pos, hl]
  rw [← heq, Finset.mem_filter] at hmem
  exact hmem.1

/-- The line of a page is the line of its block. -/
theorem lineOf_eq_blk (d : Device) (q : ℕ) :
    d.geo.lineOf q = Flash.blkOf d q % d.geo.blksPerPl := by
  rw [Geometry.lineOf, Geometry.pgsPerLun, Flash.blkOf, Nat.mod_mul_right_div_self]

theorem erased_iff {home : ℕ → Place} {q : ℕ} :
    d.Erased home (Flash.blkOf d q) ↔ Flash.blkOf d q ∈ (home (d.geo.lineOf q)).erased := by
  rw [Erased, lineOf_eq_blk]

/-- Only lines in hand have erased blocks. -/
theorem not_erased {home : ℕ → Place} {q : ℕ} (h : ¬(home (d.geo.lineOf q)).InHand) :
    ¬d.Erased home (Flash.blkOf d q) := by
  rw [erased_iff]
  cases hh : home (d.geo.lineOf q) with
  | hand bs =>
    rw [hh] at h
    exact absurd trivial h
  | free => exact Finset.notMem_empty _
  | full => exact Finset.notMem_empty _
  | victim => exact Finset.notMem_empty _
  | current io => exact Finset.notMem_empty _

/-- The erased blocks only depend on the erased blocks of each line. -/
theorem erased_congr {home home' : ℕ → Place} (h : ∀ l, (home' l).erased = (home l).erased)
    (b : ℕ) : d.Erased home' b ↔ d.Erased home b := by
  rw [Erased, Erased, h]

end Device

namespace Flash

variable {d : Device} {f : Flash} {L : Grains} {home home' : ℕ → Place}

/-- Of the places the counters and pages only need the erased blocks. -/
theorem Counts.congr (h : f.Counts d L home) (he : ∀ b, d.Erased home' b ↔ d.Erased home b) :
    f.Counts d L home' where
  vgc := h.vgc
  igc := h.igc
  blkVgc b hb := h.blkVgc b (by rwa [← he])
  blkIgc b hb := h.blkIgc b (by rwa [← he])
  invCnt hp q hq := h.invCnt hp q (by rwa [← he])
  erased b hb := h.erased b (by rwa [← he])
  erasedInv q hq := h.erasedInv q (by rwa [← he])

theorem Pages.congr (h : f.Pages d L home) (he : ∀ b, d.Erased home' b ↔ d.Erased home b) :
    f.Pages d L home' where
  used_lt := h.used_lt
  used_taken g hg hb := h.used_taken g hg (by rwa [← he])
  owner_used := h.owner_used
  live_valid g hg hb := h.live_valid g hg (by rwa [← he])
  bitmap g hg := by
    rw [he]
    exact h.bitmap g hg
  invalid := h.invalid
  erased q hq := h.erased q (by rwa [← he])

theorem Tallied.congr (h : f.Tallied d L home) (he : ∀ b, d.Erased home' b ↔ d.Erased home b) :
    f.Tallied d L home' where
  counts := h.counts.congr he
  used_lt := h.used_lt
  owner_used := h.owner_used
  live_valid g hg hb := h.live_valid g hg (by rwa [← he])

end Flash

namespace Flash.Pages

variable {d : Device} {f : Flash} {L : Grains} {home : ℕ → Place}

theorem card_blk_le (hw : d.geo.Wf) (L : Grains) (b : ℕ) :
    (L.used.filter (d.OnBlk b)).card ≤ d.grainsPerBlk := by
  have hle := Device.card_le_of_pages (d := d) (R := L.used.filter (d.OnBlk b))
    (Q := Finset.Ico (b * d.geo.pgsPerBlk) ((b + 1) * d.geo.pgsPerBlk)) (fun g hg => by
      rw [Finset.mem_filter] at hg
      have hb : d.gIdx g / d.geo.pgsPerBlk = b := hg.2
      rw [Finset.mem_Ico, ← hb]
      exact ⟨Nat.div_mul_le_self _ _,
        Nat.lt_mul_of_div_lt (Nat.lt_succ_self _) hw.pgsPerBlk_pos⟩)
  rwa [Nat.card_Ico, Nat.add_mul, Nat.one_mul, Nat.add_sub_cancel_left] at hle

theorem card_page_le (L : Grains) (q : ℕ) : (L.used.filter (d.OnPage q)).card ≤ d.gpp := by
  have hle := Device.card_le_of_pages (d := d) (R := L.used.filter (d.OnPage q)) (Q := {q})
    (fun g hg => by
      rw [Finset.mem_filter] at hg
      exact Finset.mem_singleton.mpr hg.2)
  rwa [Finset.card_singleton, Nat.one_mul] at hle

/-- If all grains of a line are in use, all its pages were handed out. -/
theorem taken_of_card (h : f.Pages d L home) (hw : d.geo.Wf) {l q : ℕ}
    (hcard : d.grainsPerLine ≤ (L.used.filter (d.OnLine l)).card) (hq : q < d.geo.ttPgs)
    (hl : d.geo.lineOf q = l) (he : ¬d.Erased home (blkOf d q)) : f.status q ≠ .free := by
  -- the first grain of the page is in use
  have hmem := Device.mem_of_card hw h.used_lt hcard hq hl
  have hidx : d.gIdx (q * d.gpp) = q := Nat.mul_div_cancel _ d.build_gpp_pos
  have htaken := h.used_taken _ hmem
  rw [hidx] at htaken
  exact htaken he

end Flash.Pages

end Virtkv
