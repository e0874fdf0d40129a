import Virtkv.Flash.Span

/-!
# Giving up a range page by page

`mark_grain_invalid` of a range over several pages, against one call for each page of it.
The walk carries one flag through its rounds, that the line was full. A call for each page
looks at the line again each time, so the two do the same unless the line is full and the
range leaves its page: then every round of the walk puts the line into the victim queue.
-/

namespace Virtkv

open Outcome

namespace Device

variable {d : Device} {x n : ℕ}

/-- A range in a line reaches pages of the line only. -/
theorem add_pagesOf_le (h : x + n ≤ d.grainsPerLine) :
    x / d.gpp + d.pagesOf (x % d.gpp) n ≤ d.geo.pgsPerLine := by
  have hpos := d.build_gpp_pos
  have hdm := Nat.div_add_mod x d.gpp
  have hsum : x % d.gpp + n + d.gpp - 1 + d.gpp * (x / d.gpp) = x + n + d.gpp - 1 := by omega
  calc x / d.gpp + d.pagesOf (x % d.gpp) n
      = (x % d.gpp + n + d.gpp - 1 + d.gpp * (x / d.gpp)) / d.gpp := by
        rw [Nat.add_mul_div_left _ _ hpos, Nat.add_comm]
        rfl
    _ = (x + n + d.gpp - 1) / d.gpp := by rw [hsum]
    _ ≤ (d.geo.pgsPerLine * d.gpp + (d.gpp - 1)) / d.gpp :=
        Nat.div_le_div_right (by unfold grainsPerLine at h; omega)
    _ = d.geo.pgsPerLine := by
        rw [Nat.add_comm, Nat.add_mul_div_right _ _ hpos, Nat.div_eq_of_lt (by omega),
          Nat.zero_add]

end Device

theorem Geometry.length_pagesFrom (g : Geometry) (l r k : ℕ) : (g.pagesFrom l r k).length = k := by
  induction k generalizing r with
  | zero => rfl
  | succ k ih => rw [pagesFrom, List.length_cons, ih]

namespace Flash

variable {d : Device} {f f' : Flash} {L : Grains} {home : ℕ → Place} {l r x n off rem len : ℕ}

/-! ### One call for each page -/

/-- `mark_grain_invalid` once for each of the given pages. -/
def invalidEach (d : Device) : List Ppa → Flash → ℕ → ℕ → Except Fault Flash
  | [], f, _, _ => .ok f
  | p :: ps, f, off, rem => do
    let len := min rem (d.gpp - off)
    let f ← f.markGrainInvalid d (d.ppaToPga (d.geo.pgNo p) off) len
    invalidEach d ps f 0 (rem - len)

/-- `n` grains from position `x` of line `l` on, in order, one call for each page. -/
def invalidPortions (d : Device) (f : Flash) (l x n : ℕ) : Except Fault Flash :=
  invalidEach d (d.geo.pagesFrom l (x / d.gpp) (d.pagesOf (x % d.gpp) n)) f (x % d.gpp) n

/-- The same counters of lines and blocks, lists and their counts, and contents of the
queue. -/
structure SameBooks (f f' : Flash) : Prop where
  vgc : ∀ l, (f'.lines l).vgc = (f.lines l).vgc
  igc : ∀ l, (f'.lines l).igc = (f.lines l).igc
  blkVgc : f'.blkVgc = f.blkVgc
  blkIgc : f'.blkIgc = f.blkIgc
  lists : SameLists f f'
  queue : f.victimPq.entries.Perm f'.victimPq.entries

theorem SameBooks.refl (f : Flash) : SameBooks f f :=
  ⟨fun _ => rfl, fun _ => rfl, rfl, rfl, SameLists.refl f, .refl _⟩

/-- The call for the whole range and the calls for its pages return, with the same books. -/
def PortionsAgree (d : Device) (f : Flash) (l x n : ℕ) : Prop :=
  ∃ f1 f2, f.markGrainInvalid d (d.grainAt l x) n = .ok f1 ∧
    f.invalidPortions d l x n = .ok f2 ∧ SameBooks f1 f2

/-- One page. -/
theorem invalidPortions_one (f : Flash) (l : ℕ) (hn : 0 < n) (h : x % d.gpp + n ≤ d.gpp) :
    f.invalidPortions d l x n = f.markGrainInvalid d (d.grainAt l x) n := by
  have hmin : min n (d.gpp - x % d.gpp) = n := by omega
  rw [invalidPortions, Device.pagesOf_one hn h, Geometry.pagesFrom, invalidEach, hmin]
  exact bind_pure _

/-- More pages: the first one, and the rest of the range. -/
theorem invalidPortions_succ (f : Flash) (l : ℕ) (h : d.gpp < x % d.gpp + n) :
    f.invalidPortions d l x n = (do
      let f ← f.markGrainInvalid d (d.grainAt l x) (d.gpp - x % d.gpp)
      f.invalidPortions d l (x + (d.gpp - x % d.gpp)) (n - (d.gpp - x % d.gpp))) := by
  have hmod := Nat.mod_lt x d.build_gpp_pos
  have hmin : min n (d.gpp - x % d.gpp) = d.gpp - x % d.gpp := by omega
  rw [invalidPortions, Device.pagesOf_succ hmod h, Geometry.pagesFrom, invalidEach, hmin]
  refine bind_congr fun f1 => ?_
  rw [invalidPortions, d.pageEnd_div, d.pageEnd_mod]

/-- A call for grains of one page is one round. -/
theorem markGrainInvalid_page (hw : d.geo.Wf) (hl : l < d.geo.ttLines)
    (hr : r < d.geo.pgsPerLine) (hoff : off < d.gpp) (hin : off + len ≤ d.gpp) (f : Flash) :
    f.markGrainInvalid d (d.ppaToPga (d.geo.pgNo (d.geo.pageAt l r)) off) len = (do
      let (_, f) ← f.markGrainInvalidPage d l
        (d.ppaToPga (d.geo.pgNo (d.geo.pageAt l r)) off) (d.geo.pgNo (d.geo.pageAt l r)) len false
      return f) := by
  have hv := Geometry.pageAt_valid hw hl hr
  have hmin : min len (d.gpp - off) = len := by omega
  rw [markGrainInvalid, Device.gIdx_ppaToPga hoff, hv.ppaToStruct_pgNo hw, ok_bind,
    ensure_of (fun hc => absurd hc (by omega)), ok_bind, markGrainInvalidLoop,
    Device.gOffset_ppaToPga hoff, Geometry.pageAt_blk, hmin]
  refine bind_congr fun y => ?_
  dsimp only
  rw [if_pos (Nat.sub_self len)]

/-! ### The rounds -/

theorem size_lowerVgc (f : Flash) (l len : ℕ) :
    (f.lowerVgc l len).victimPq.size = f.victimPq.size := by
  unfold lowerVgc
  dsimp only
  split
  · exact PQueue.size_changePriority ..
  · rfl

theorem size_demote {w : Bool} (h : f.demote d l w = .ok f') :
    f'.victimPq.size = f.victimPq.size + if w then 1 else 0 := by
  cases w with
  | false =>
    cases h
    rfl
  | true =>
    simp only [demote, if_true, fullToVictim, addVictim, pqInsert, bind_eq_ok] at h
    obtain ⟨f1, ⟨-, -, h1⟩, h⟩ := h
    cases h1
    cases h
    exact PQueue.size_insert ..

/-- What a round does to the flag, to the valid grains of the line and to the number of
lines in the queue. -/
structure Rounds (d : Device) (f f' : Flash) (l len : ℕ) (w w' : Bool) : Prop where
  pos : 0 < len
  le : len ≤ (f.lines l).vgc
  flag : w' = (w || decide (d.grainsPerLine ≤ (f.lines l).vgc))
  vgc : (f'.lines l).vgc = (f.lines l).vgc - len
  size : f'.victimPq.size = f.victimPq.size + if w' then 1 else 0

theorem rounds_of_markGrainInvalidPage {grain page : ℕ} {w w' : Bool}
    (h : f.markGrainInvalidPage d l grain page len w = .ok (w', f')) : Rounds d f f' l len w w' := by
  simp only [markGrainInvalidPage, bind_eq_ok, ensure_eq_ok] at h
  obtain ⟨-, hpos, -, -, -, -, -, -, -, -, -, -, -, hle, f1, hdem, -, -, f2, hkill, h⟩ := h
  cases h
  have hlow := Lowered.of_demote hdem
  obtain ⟨kl, -, -, kpq, -⟩ := killed_frame d f1 grain page len
  rw [killGrain_ok hkill]
  refine ⟨hpos, hle, rfl, ?_, ?_⟩
  · rw [kl, hlow.line]
  · rw [kpq, size_demote hdem, size_lowerVgc]
    rfl

/-- A line is not full behind a round. -/
theorem Rounds.not_full {w w' : Bool} (h : Rounds d f f' l len w w')
    (hle : (f.lines l).vgc ≤ d.grainsPerLine) : (f'.lines l).vgc < d.grainsPerLine := by
  have := h.pos
  have := h.le
  rw [h.vgc]
  omega

/-- With the flag up every round puts the line into the queue. -/
theorem size_invalidOver_full {ps : List Ppa} (h : invalidOver d l ps f off rem true = .ok f') :
    f'.victimPq.size = f.victimPq.size + ps.length := by
  induction ps generalizing f off rem with
  | nil =>
    cases h
    rfl
  | cons p ps ih =>
    simp only [invalidOver, bind_eq_ok] at h
    obtain ⟨⟨w, f1⟩, hround, h⟩ := h
    have hr := rounds_of_markGrainInvalidPage hround
    have hw : w = true := hr.flag
    subst hw
    have hsize := hr.size
    rw [if_pos rfl] at hsize
    rw [ih h, hsize, List.length_cons]
    omega

/-- The line is not full and stays so: no round puts it into the queue. -/
theorem size_invalidOver {ps : List Ppa} (hvgc : (f.lines l).vgc < d.grainsPerLine)
    (h : invalidOver d l ps f off rem false = .ok f') : f'.victimPq.size = f.victimPq.size := by
  induction ps generalizing f off rem with
  | nil =>
    cases h
    rfl
  | cons p ps ih =>
    simp only [invalidOver, bind_eq_ok] at h
    obtain ⟨⟨w, f1⟩, hround, h⟩ := h
    have hr := rounds_of_markGrainInvalidPage hround
    have hw : w = false := by
      rw [hr.flag, Bool.false_or, decide_eq_false_iff_not]
      omega
    subst hw
    rw [ih (hr.not_full hvgc.le) h]
    exact hr.size

/-- While the line is not full the flag makes no difference. -/
theorem invalidOver_eq_invalidEach (hw : d.geo.Wf) (hl : l < d.geo.ttLines) {k : ℕ}
    (hin : r + k ≤ d.geo.pgsPerLine) (hoff : off < d.gpp)
    (hvgc : (f.lines l).vgc < d.grainsPerLine) :
    invalidOver d l (d.geo.pagesFrom l r k) f off rem false =
      invalidEach d (d.geo.pagesFrom l r k) f off rem := by
  induction k generalizing f r off rem with
  | zero => rfl
  | succ k ih =>
    rw [Geometry.pagesFrom, invalidOver, invalidEach]
    dsimp only
    rw [markGrainInvalid_page hw hl (by omega) hoff (by omega), bind_assoc]
    -- both go on from the same state
    cases hround : f.markGrainInvalidPage d l (d.ppaToPga (d.geo.pgNo (d.geo.pageAt l r)) off)
        (d.geo.pgNo (d.geo.pageAt l r)) (min rem (d.gpp - off)) false with
    | error e => rfl
    | ok y =>
      obtain ⟨w, f1⟩ := y
      have hr := rounds_of_markGrainInvalidPage hround
      have hflag : w = false := by
        rw [hr.flag, Bool.false_or, decide_eq_false_iff_not]
        omega
      subst hflag
      exact ih (by omega) d.build_gpp_pos (hr.not_full hvgc.le)

/-! ### Both return -/

theorem LiveExtent.demoted (h : LiveExtent d f L home l x n) (w : Bool) :
    LiveExtent d f L (demoted home l w) l x n :=
  { h with
    kept := by
      cases w with
      | false => exact h.kept
      | true =>
        show ¬(Function.update home l Place.victim l).InHand
        rw [Function.update_self]
        exact id }

/-- The call for the first page of a range. -/
theorem Booked.markGrainInvalid_head (h : f.Booked d L home) (hw : d.geo.Wf)
    (hh : f.LiveExtent d L home l x n) :
    ∃ w f', f.markGrainInvalid d (d.grainAt l x) (min n (d.gpp - x % d.gpp)) = .ok f' ∧
      f'.Booked d (L.kill (Device.span (d.grainAt l x) (min n (d.gpp - x % d.gpp))))
        (Flash.demoted home l w) ∧
      Touches f f' (Device.span (d.grainAt l x) (min n (d.gpp - x % d.gpp))) := by
  have hmod := Nat.mod_lt x d.build_gpp_pos
  have hin := hh.inLine
  have hpos := hh.pos
  have hlt : x < d.grainsPerLine := by omega
  obtain ⟨w, f', hround, hbooked, htouch, -⟩ := h.invalidPage hw (hh.head hw)
    (Device.lineOf_grainAt hw hh.line_lt hlt).symm
  refine ⟨w, f', ?_, hbooked, htouch⟩
  rw [Device.gIdx_grainAt] at hround
  unfold Device.grainAt at hround ⊢
  rw [markGrainInvalid_page hw hh.line_lt (Device.div_lt_pgsPerLine hlt) hmod (by omega), hround]
  rfl

/-- The calls for the pages of a valid range return. -/
theorem Booked.invalidPortions (h : f.Booked d L home) (hw : d.geo.Wf)
    (hh : f.LiveExtent d L home l x n) : ∃ f', f.invalidPortions d l x n = .ok f' := by
  -- the rest of the range begins on the next page, with a ledger and places of its own
  induction n using Nat.strong_induction_on generalizing f L home x with
  | _ n ih =>
    have hmod := Nat.mod_lt x d.build_gpp_pos
    have hpos := hh.pos
    obtain ⟨w, f1, hcall, hbooked, htouch⟩ := h.markGrainInvalid_head hw hh
    by_cases hlast : x % d.gpp + n ≤ d.gpp
    · rw [show min n (d.gpp - x % d.gpp) = n by omega] at hcall
      rw [invalidPortions_one f l hpos hlast]
      exact ⟨f1, hcall⟩
    · rw [show min n (d.gpp - x % d.gpp) = d.gpp - x % d.gpp by omega] at hcall hbooked htouch
      rw [invalidPortions_succ f l (by omega), hcall, ok_bind]
      have htail := hh.tail hw (Device.extent_eq_span (by omega)).symm (by omega) htouch.bits
      exact ih _ (by omega) hbooked (htail.demoted w)

/-! ### The whole range -/

theorem markGrainInvalid_eq_invalidOver (hw : d.geo.Wf) (hh : f.LiveExtent d L home l x n) :
    f.markGrainInvalid d (d.grainAt l x) n =
      invalidOver d l (d.geo.pagesFrom l (x / d.gpp) (d.pagesOf (x % d.gpp) n)) f (x % d.gpp) n
        false :=
  markGrainInvalid_eq hw hh.line_lt (Nat.mod_lt _ d.build_gpp_pos) hh.pos
    (Device.add_pagesOf_le hh.inLine) f

/-- A line that is not full: the whole range and its pages are the same. -/
theorem markGrainInvalid_eq_invalidPortions (hw : d.geo.Wf) (hh : f.LiveExtent d L home l x n)
    (hvgc : (f.lines l).vgc < d.grainsPerLine) :
    f.markGrainInvalid d (d.grainAt l x) n = f.invalidPortions d l x n := by
  rw [markGrainInvalid_eq_invalidOver hw hh]
  exact invalidOver_eq_invalidEach hw hh.line_lt (Device.add_pagesOf_le hh.inLine)
    (Nat.mod_lt _ d.build_gpp_pos) hvgc

/-- In every state of the firmware, a pair in a line that is not full is given up page by
page. -/
theorem markGrainInvalid_portions_of_inv (h : FlashInv d f L home) (hw : d.geo.Wf)
    (hh : f.HeldExtent d L home l x n) (hvgc : (f.lines l).vgc < d.grainsPerLine) :
    ∃ f', f.markGrainInvalid d (d.grainAt l x) n = .ok f' ∧ f.invalidPortions d l x n = .ok f' := by
  obtain ⟨f', hrun⟩ := (h.booked hw).invalidPortions hw hh.liveExtent
  refine ⟨f', ?_, hrun⟩
  rw [markGrainInvalid_eq_invalidPortions hw hh.liveExtent hvgc, hrun]

/-- A full line and a range that leaves its page: the walk puts the line into the queue once
for each page. -/
theorem size_markGrainInvalid_full (hw : d.geo.Wf) (hh : f.LiveExtent d L home l x n)
    (hfull : d.grainsPerLine ≤ (f.lines l).vgc) (hmulti : d.gpp < x % d.gpp + n)
    (h : f.markGrainInvalid d (d.grainAt l x) n = .ok f') :
    f'.victimPq.size = f.victimPq.size + d.pagesOf (x % d.gpp) n := by
  have hmod := Nat.mod_lt x d.build_gpp_pos
  rw [markGrainInvalid_eq_invalidOver hw hh, Device.pagesOf_succ hmod hmulti, Geometry.pagesFrom,
    invalidOver] at h
  simp only [bind_eq_ok] at h
  obtain ⟨⟨w, f1⟩, hround, h⟩ := h
  have hr := rounds_of_markGrainInvalidPage hround
  -- the first round raises the flag, and it stays up although the line is not full any more
  have hflag : w = true := by
    rw [hr.flag, Bool.false_or, decide_eq_true_eq]
    exact hfull
  subst hflag
  have hsize := hr.size
  rw [if_pos rfl] at hsize
  rw [size_invalidOver_full h, hsize, Geometry.length_pagesFrom, Device.pagesOf_succ hmod hmulti]
  omega

/-- The calls for the pages put it there once. -/
theorem size_invalidPortions_full (hw : d.geo.Wf) (hh : f.LiveExtent d L home l x n)
    (hvgc : (f.lines l).vgc = d.grainsPerLine) (hmulti : d.gpp < x % d.gpp + n)
    (h : f.invalidPortions d l x n = .ok f') : f'.victimPq.size = f.victimPq.size + 1 := by
  have hmod := Nat.mod_lt x d.build_gpp_pos
  have hin := hh.inLine
  have hpages := Device.add_pagesOf_le hin
  rw [Device.pagesOf_succ hmod hmulti] at hpages
  rw [invalidPortions, Device.pagesOf_succ hmod hmulti, Geometry.pagesFrom, invalidEach,
    show min n (d.gpp - x % d.gpp) = d.gpp - x % d.gpp by omega,
    markGrainInvalid_page hw hh.line_lt (by omega) hmod (by omega)] at h
  simp only [bind_eq_ok] at h
  obtain ⟨f1, ⟨⟨w, f1'⟩, hround, hf1⟩, h⟩ := h
  cases hf1
  have hr := rounds_of_markGrainInvalidPage hround
  have hflag : w = true := by
    rw [hr.flag, Bool.false_or, decide_eq_true_eq]
    exact hvgc.ge
  subst hflag
  -- the first page takes the line off the full list
  have hnot := hr.not_full hvgc.le
  rw [← invalidOver_eq_invalidEach hw hh.line_lt (by omega) d.build_gpp_pos hnot] at h
  rw [size_invalidOver hnot h]
  exact hr.size

/-- A range is given up as its pages are, one after the other, exactly if the line is not
full or the range stays on its page. -/
theorem portionsAgree_iff (hw : d.geo.Wf) (h : f.Booked d L home)
    (hh : f.LiveExtent d L home l x n) : PortionsAgree d f l x n ↔
      (f.lines l).vgc < d.grainsPerLine ∨ x % d.gpp + n ≤ d.gpp := by
  have hsum := h.tallied.vgc_add_igc_le hw hh.line_lt
  constructor
  · rintro ⟨f1, f2, hwhole, hportions, hsame⟩
    by_contra hc
    rw [not_or, not_lt, not_le] at hc
    obtain ⟨hfull, hmulti⟩ := hc
    -- the queue is longer after the whole range, by one for each page behind the first
    have hsize1 := size_markGrainInvalid_full hw hh hfull hmulti hwhole
    have hsize2 := size_invalidPortions_full hw hh (by omega) hmulti hportions
    have hlen := hsame.queue.length_eq
    rw [PQueue.length_entries, PQueue.length_entries, hsize1, hsize2] at hlen
    have hmod := Nat.mod_lt x d.build_gpp_pos
    have hpages := Device.pagesOf_succ hmod hmulti
    have hrest := d.pagesOf_pos 0 (show 0 < n - (d.gpp - x % d.gpp) by omega)
    have hpq := h.lists.pq.size_pos
    omega
  · intro hcase
    obtain ⟨f2, hrun⟩ := h.invalidPortions hw hh
    refine ⟨f2, f2, ?_, hrun, SameBooks.refl f2⟩
    rcases hcase with hvgc | hone
    · rw [markGrainInvalid_eq_invalidPortions hw hh hvgc, hrun]
    · rw [← invalidPortions_one f l hh.pos hone, hrun]

/-! ### A full line -/

/-- Line 4 of the small device is full and all its grains are valid; every page holds a pair
that begins on its first grain. Lines 0 to 3 are being written, line 5 is free. -/
def fullLine : Flash where
  lines l := { vgc := if l = 4 then 256 else 0, igc := 0, map := false }
  wp io := { ch := 0, lun := 0, pg := 0, blk := match io with
    | .user => 0
    | .map => 1
    | .gcMap => 2
    | .gc => 3 }
  freeLines := [5]
  fullLines := [4]
  victimPq := { d := fun _ => 0, size := 1, pos := fun _ => 0 }
  freeLineCnt := 1
  fullLineCnt := 1
  victimLineCnt := 0
  status q := if smallGeometry.lineOf q = 4 then .valid else .free
  blkVgc b := if b = 4 ∨ b = 10 then 128 else 0
  blkIgc _ := 0
  oob _ := 2
  grainBitmap g := smallGeometry.lineOf (smallDevice.gIdx g) = 4 ∧ smallDevice.gOffset g = 0
  pgInvCnt _ := 0

def fullLineHome : ℕ → Place
  | 0 => .current .user
  | 1 => .current .map
  | 2 => .current .gcMap
  | 3 => .current .gc
  | 4 => .full
  | _ => .free

/-- The grains of line 4, with a holder each. -/
def fullLineGrains : Grains where
  used := (Finset.range smallDevice.ttGrains).filter (smallDevice.OnLine 4)
  owner g := if g < smallDevice.ttGrains ∧ smallDevice.OnLine 4 g then some .orphan else none

theorem mem_fullLineGrains {g : ℕ} :
    g ∈ fullLineGrains.used ↔ g < smallDevice.ttGrains ∧ smallDevice.OnLine 4 g := by
  rw [fullLineGrains, Finset.mem_filter, Finset.mem_range]

/-- All grains in use are valid. -/
theorem owner_fullLineGrains {g : ℕ} :
    fullLineGrains.owner g ≠ none ↔ g ∈ fullLineGrains.used := by
  rw [mem_fullLineGrains]
  show (if g < smallDevice.ttGrains ∧ smallDevice.OnLine 4 g then some Owner.orphan else none) ≠ none
    ↔ _
  split
  · rename_i h
    exact ⟨fun _ => h, fun _ => nofun⟩
  · rename_i h
    exact ⟨fun hc => absurd rfl hc, fun hc => absurd hc h⟩

theorem dead_fullLineGrains (P : ℕ → Prop) [DecidablePred P] : fullLineGrains.dead P = 0 := by
  rw [Ledger.dead, Finset.card_eq_zero, Finset.filter_eq_empty_iff]
  rintro g hg ⟨-, hnone⟩
  exact owner_fullLineGrains.mpr hg (Option.isNone_iff_eq_none.mp hnone)

theorem live_fullLineGrains (P : ℕ → Prop) [DecidablePred P] :
    fullLineGrains.live P = (fullLineGrains.used.filter P).card := by
  rw [← Ledger.live_add_dead, dead_fullLineGrains, Nat.add_zero]

theorem fullLineHome_erased (l : ℕ) : (fullLineHome l).erased = ∅ := by
  unfold fullLineHome
  split <;> rfl

theorem fullLine_not_erased (b : ℕ) : ¬smallDevice.Erased fullLineHome b := by
  rw [Device.Erased, fullLineHome_erased]
  exact Finset.notMem_empty _

theorem card_onLine_fullLine (l : ℕ) :
    (fullLineGrains.used.filter (smallDevice.OnLine l)).card = if l = 4 then 256 else 0 := by
  split
  · rename_i h
    subst h
    decide +kernel
  · rename_i h
    rw [Finset.card_eq_zero, Finset.filter_eq_empty_iff]
    intro g hg hl
    exact h (hl.symm.trans (mem_fullLineGrains.mp hg).2)

theorem card_onBlk_fullLine (b : ℕ) :
    (fullLineGrains.used.filter (smallDevice.OnBlk b)).card = if b = 4 ∨ b = 10 then 128 else 0 := by
  split
  · rename_i h
    rcases h with rfl | rfl
    · decide +kernel
    · decide +kernel
  · rename_i h
    rw [Finset.card_eq_zero, Finset.filter_eq_empty_iff]
    intro g hg hb
    obtain ⟨hlt, hline⟩ := mem_fullLineGrains.mp hg
    have hlt' : g < 1536 := hlt
    have hline' : g / 8 % 96 / 16 = 4 := hline
    have hb' : g / 8 / 16 = b := hb
    omega

theorem fullLine_lists : fullLine.Lists smallDevice fullLineHome where
  pq := ⟨le_rfl, fun i hi hlt => absurd hlt (not_lt.mpr hi), fun l hl => absurd rfl hl⟩
  victim l := by
    refine ⟨fun h => absurd rfl h, fun ⟨_, hh⟩ => ?_⟩
    unfold fullLineHome at hh
    split at hh <;> cases hh
  victimCnt := rfl
  free l := by
    show l ∈ [5] ↔ l < 6 ∧ _
    rw [List.mem_singleton]
    constructor
    · rintro rfl
      exact ⟨by decide, rfl⟩
    · rintro ⟨hl, hh⟩
      have hcases : l = 0 ∨ l = 1 ∨ l = 2 ∨ l = 3 ∨ l = 4 ∨ l = 5 := by omega
      rcases hcases with rfl | rfl | rfl | rfl | rfl | rfl
      all_goals first | rfl | cases hh
  free_nodup := List.nodup_singleton 5
  freeCnt := rfl
  full l := by
    show l ∈ [4] ↔ _
    rw [List.mem_singleton]
    constructor
    · rintro rfl
      exact ⟨by decide, rfl⟩
    · rintro ⟨-, hh⟩
      unfold fullLineHome at hh
      split at hh <;> first | rfl | cases hh
  full_nodup := List.nodup_singleton 4
  fullCnt := rfl

theorem fullLine_booked : fullLine.Booked smallDevice fullLineGrains fullLineHome := by
  refine ⟨⟨⟨fun l _ => ?_, fun l _ => ?_, fun b _ => ?_, fun b _ => ?_, nofun,
    fun b he => absurd he (fullLine_not_erased b),
    fun q he => absurd he (fullLine_not_erased _)⟩, fun g hg => (mem_fullLineGrains.mp hg).1,
    fun g hg => owner_fullLineGrains.mp hg, fun g hg _ => ?_⟩, ?_, fun l _ hvgc => ?_⟩
  · rw [live_fullLineGrains, card_onLine_fullLine]
    rfl
  · exact (dead_fullLineGrains _).symm
  · exact (card_onBlk_fullLine b).symm
  · exact (dead_fullLineGrains _).symm
  · exact if_pos (mem_fullLineGrains.mp (owner_fullLineGrains.mp hg)).2
  · exact fullLine_lists
  · have hl : l = 4 := by
      by_contra hne
      have hzero : (fullLine.lines l).vgc = 0 := if_neg hne
      rw [hzero] at hvgc
      exact absurd hvgc (by decide)
    rw [hl]
    rfl

/-- The first pages of the line. -/
theorem fullLine_live {n : ℕ} (hpos : 0 < n) (hn : n ≤ 256) :
    fullLine.LiveExtent smallDevice fullLineGrains fullLineHome 4 0 n := by
  have hw := smallGeometry_striped.wf
  have hmem : ∀ y, y < n → smallDevice.grainAt 4 y ∈ fullLineGrains.used := by
    intro y hy
    have hline := Device.lineOf_grainAt (d := smallDevice) hw (show 4 < 6 by decide)
      (show y < 256 by omega)
    refine mem_fullLineGrains.mpr ⟨Device.lt_ttGrains ?_, hline⟩
    rw [Device.gIdx_grainAt]
    exact (Device.pageAt_div_valid hw (show 4 < 6 by decide) (show y < 256 by omega)).pgNo_lt
  refine ⟨by decide, id, hpos, ?_, fun y _ hy => ?_, fun _ y _ hy hs => ?_⟩
  · show 0 + n ≤ 256
    omega
  · exact owner_fullLineGrains.mpr (hmem y (by omega))
  · have hoff : y % smallDevice.gpp = 0 := by
      rcases hs with rfl | h0
      · rfl
      · exact h0
    refine decide_eq_true ⟨(mem_fullLineGrains.mp (hmem y (by omega))).2, ?_⟩
    rw [Device.gOffset_grainAt, hoff]

/-- One page agrees with itself, two pages do not. -/
theorem portionsAgree_fullLine :
    PortionsAgree smallDevice fullLine 4 0 8 ∧ ¬PortionsAgree smallDevice fullLine 4 0 16 := by
  have hw := smallGeometry_striped.wf
  refine ⟨(portionsAgree_iff hw fullLine_booked (fullLine_live (by decide) (by decide))).mpr
    (.inr (by decide)), fun h => ?_⟩
  have hc := (portionsAgree_iff hw fullLine_booked (fullLine_live (by decide) (by decide))).mp h
  exact absurd hc (by decide)

/-- After the call for two pages the count of full lines is `2 ^ 32 - 1`; after the two calls
it is 0. -/
theorem fullLine_disagrees :
    smallDevice.geo.Wf ∧ fullLine.Booked smallDevice fullLineGrains fullLineHome ∧
      fullLine.LiveExtent smallDevice fullLineGrains fullLineHome 4 0 16 ∧
      ¬PortionsAgree smallDevice fullLine 4 0 16 := by
  refine ⟨smallGeometry_striped.wf, fullLine_booked, fullLine_live (by decide) (by decide), ?_⟩
  rintro ⟨f1, f2, hwhole, hportions, hsame⟩
  have h1 : (match fullLine.markGrainInvalid smallDevice (smallDevice.grainAt 4 0) 16 with
      | .ok f => f.fullLineCnt
      | .error _ => 0) = 2 ^ 32 - 1 := by
    decide +kernel
  have h2 : (match fullLine.invalidPortions smallDevice 4 0 16 with
      | .ok f => f.fullLineCnt
      | .error _ => 0) = 0 := by
    decide +kernel
  rw [hwhole] at h1
  rw [hportions] at h2
  have hcnt := hsame.lists.fullLineCnt
  simp only at h1 h2
  omega

end Flash

end Virtkv
