import Virtkv.Flash.Waste

/-!
# A fresh device

`init_lines` and `conv_init_ftl`: the four write pointers take the first four lines, and
page 0 is handed out and given up.
-/

namespace Virtkv

open Outcome

namespace Flash

variable {d : Device}

/-- The lines of the write pointers of a fresh device. -/
def firstLine : IoType → ℕ
  | .user => 0
  | .map => 1
  | .gcMap => 2
  | .gc => 3

/-- The places of a fresh device. -/
def firstHome : ℕ → Place
  | 0 => .current .user
  | 1 => .current .map
  | 2 => .current .gcMap
  | 3 => .current .gc
  | _ + 4 => .free

/-- The state behind the four calls of `prepare_write_pointer`. -/
def prepared (d : Device) : Flash :=
  { blank d with
    lines := fun l => { vgc := 0, igc := 0, map := decide (l = 1 ∨ l = 2) }
    wp := fun io => { ch := 0, lun := 0, blk := firstLine io, pg := 0 }
    freeLines := List.range' 4 (d.geo.ttLines - 4)
    freeLineCnt := dec32 (dec32 (dec32 (dec32 d.geo.ttLines))) }

theorem firstHome_eq_current {l : ℕ} {io : IoType} :
    firstHome l = .current io ↔ firstLine io = l := by
  match l with
  | 0 | 1 | 2 | 3 => cases io <;> simp [firstHome, firstLine]
  | n + 4 => cases io <;> simp [firstHome, firstLine]

theorem firstHome_eq_free {l : ℕ} : firstHome l = .free ↔ 4 ≤ l := by
  match l with
  | 0 | 1 | 2 | 3 => simp [firstHome]
  | n + 4 => simp [firstHome]

/-- No line is full, queued or in hand. -/
theorem firstHome_ne {l : ℕ} {pl : Place} (h : pl ≠ .free) (h' : ∀ io, pl ≠ .current io) :
    firstHome l ≠ pl := by
  match l with
  | 0 | 1 | 2 | 3 => exact fun hc => h' _ hc.symm
  | n + 4 => exact fun hc => h hc.symm

theorem wp_prepared (d : Device) (io : IoType) :
    (prepared d).wp io = d.geo.pageAt (firstLine io) 0 := (Geometry.pageAt_zero _ _).symm

/-- The counter of the free list of a fresh device. -/
theorem dec32_four {n : ℕ} (h : 4 ≤ n) (hn : n < 2 ^ 32) :
    dec32 (dec32 (dec32 (dec32 n))) = (n - 4) % 2 ^ 32 := by
  have hdec : ∀ m, 0 < m → dec32 m = m - 1 := fun m hm => if_neg (by omega)
  rw [hdec n (by omega), hdec (n - 1) (by omega), hdec (n - 1 - 1) (by omega),
    hdec (n - 1 - 1 - 1) (by omega)]
  omega

theorem inv_prepared (hw : d.geo.Wf) (h4 : 4 ≤ d.geo.ttLines) (hlt : d.geo.ttLines < 2 ^ 32) :
    FlashInv d (prepared d) ⟨∅, fun _ => none⟩ firstHome := by
  have her : ∀ b, ¬d.Erased firstHome b := by
    intro b
    unfold Device.Erased
    match b % d.geo.blksPerPl with
    | 0 | 1 | 2 | 3 => exact Finset.notMem_empty b
    | n + 4 => exact Finset.notMem_empty b
  have hst : ∀ q, (prepared d).status q = .free := fun _ => rfl
  have hline : ∀ io, firstLine io < d.geo.ttLines := by
    intro io
    cases io <;> simp only [firstLine] <;> omega
  refine ⟨⟨fun l _ => ?_, fun l _ => ?_, fun b _ => rfl, fun b _ => rfl, fun _ q _ => rfl,
    fun b he => absurd he (her b), fun q he => absurd he (her _)⟩,
    ⟨fun g hg => ?_, fun g hg => ?_, fun g hg => ?_, fun g hg => ?_, fun g hg => ?_,
      fun _ q hq => ?_, fun q he => absurd he (her _)⟩, ?_⟩
  · rfl
  · rfl
  · exact absurd hg (Finset.notMem_empty g)
  · exact absurd hg (Finset.notMem_empty g)
  · exact absurd rfl hg
  · exact absurd rfl hg
  · cases hg
  · rw [hst] at hq
    cases hq
  · refine
      { pq := ⟨le_rfl, fun i h1 h2 => ?_, fun x hx => absurd rfl hx⟩
        victim := fun l => ?_
        victimCnt := rfl
        free := fun l => ?_
        free_nodup := List.nodup_range'
        freeCnt := ?_
        full := fun l => ?_
        full_nodup := List.nodup_nil
        fullCnt := rfl
        current := fun io l => ?_
        pointer := fun io => ⟨0, hw.pgsPerLine_pos, ?_, ?_, fun i _ => ?_⟩
        kind := fun io => ?_
        free_pages := fun _ _ _ _ _ => rfl
        used_up := fun l _ hh => ?_
        invalid := fun _ q _ hq => ?_
        reclaimable := fun l _ hh => ?_ }
    · have : i < 1 := h2
      omega
    · refine ⟨fun hc => absurd rfl hc, fun hc => ?_⟩
      exact absurd hc.2 (firstHome_ne nofun nofun)
    · rw [firstHome_eq_free]
      show l ∈ List.range' 4 (d.geo.ttLines - 4) ↔ _
      rw [List.mem_range'_1]
      omega
    · show dec32 _ = (List.range' 4 (d.geo.ttLines - 4)).length % 2 ^ 32
      rw [List.length_range', dec32_four h4 hlt]
    · refine ⟨fun hc => absurd hc List.not_mem_nil, fun hc => ?_⟩
      exact absurd hc.2 (firstHome_ne nofun nofun)
    · rw [wp_prepared, Geometry.pageAt_blk, firstHome_eq_current]
      refine ⟨fun hc => ⟨hc ▸ hline io, hc⟩, fun hc => hc.2⟩
    · rw [wp_prepared]
      exact hline io
    · rw [wp_prepared, Geometry.pageAt_blk]
    · exact ⟨fun _ => Nat.zero_le i, fun _ => rfl⟩
    · rw [wp_prepared, Geometry.pageAt_blk]
      cases io <;> rfl
    · match l with
      | 0 | 1 | 2 | 3 => exact hh.elim
      | n + 4 => exact hh.elim
    · rw [hst] at hq
      cases hq
    · match l with
      | 0 | 1 | 2 | 3 => exact hh.elim
      | n + 4 => exact hh.elim

theorem prepareWritePointer_cons {f : Flash} {l : ℕ} {ls : List ℕ} (h : f.freeLines = l :: ls)
    (io : IoType) : f.prepareWritePointer io =
      .ok (openLine { f with freeLines := ls, freeLineCnt := dec32 f.freeLineCnt } io l) := by
  simp only [prepareWritePointer, getNextFreeLine, h, ok_bind]
  rfl

theorem prepareWritePointer_nil {f : Flash} (h : f.freeLines = []) (io : IoType) :
    f.prepareWritePointer io = .error .noFreeLine := by
  simp only [prepareWritePointer, getNextFreeLine, h, error_bind]

/-- The write pointers are set up, or there are not enough lines. -/
theorem prepare_yields {β : Type} {k : Flash → Except Fault β} {Q : β → Prop}
    (hk : 4 ≤ d.geo.ttLines → Yields (k (prepared d)) (· = .noFreeLine) Q) :
    Yields (do
        let f ← (blank d).prepareWritePointer .user
        let f ← f.prepareWritePointer .map
        let f ← f.prepareWritePointer .gcMap
        let f ← f.prepareWritePointer .gc
        k f)
      (· = .noFreeLine) Q := by
  have hblank : (blank d).freeLines = List.range' 0 d.geo.ttLines := List.range_eq_range'
  rcases Nat.lt_or_ge d.geo.ttLines 4 with hlt | hge
  · generalize d.geo.ttLines = n at hblank hlt
    rcases n with _ | _ | _ | _ | n
    all_goals
      first
      | omega
      | simp [prepareWritePointer, getNextFreeLine, hblank, List.range', openLine, setWp, setLine]
  · obtain ⟨n, hn⟩ := Nat.exists_eq_add_of_le hge
    rw [hn, Nat.add_comm] at hblank
    rw [prepareWritePointer_cons hblank, ok_bind, prepareWritePointer_cons rfl, ok_bind,
      prepareWritePointer_cons rfl, ok_bind, prepareWritePointer_cons rfl, ok_bind]
    convert hk hge using 2
    have hrest : List.range' 4 n = List.range' 4 (d.geo.ttLines - 4) := by
      rw [hn, Nat.add_sub_cancel_left]
    unfold prepared openLine setWp setLine
    dsimp only
    congr 1
    · funext l
      rcases l with _ | _ | _ | _ | m <;> rfl
    · funext io
      cases io <;> rfl

/-- What is left of a fresh device: page 0 is in use and nothing else. -/
structure Starts (d : Device) (f : Flash) (L : Grains) (home : ℕ → Place) : Prop where
  inv : FlashInv d f L home
  owner : L.owner = fun _ => none
  used : ∀ g ∈ L.used, d.gIdx g = 0
  bits : f.grainBitmap = fun _ => false
  oob : f.oob = fun _ => 2
  wp : ∀ io, f.wp io = d.geo.pageAt (firstLine io) (if io = .user then 1 else 0)
  igc : 0 < (f.lines 0).igc
  hand : ∀ l, ¬(home l).InHand

/-- `conv_init_ftl`. -/
theorem init_yields (hw : d.geo.Wf) (htwo : 2 ≤ d.geo.pgsPerLine)
    (hlt : d.geo.ttLines < 2 ^ 32) :
    Yields (init d) (· = .noFreeLine) (fun f => ∃ L home, Starts d f L home) := by
  refine prepare_yields fun h4 => ?_
  have hinv := inv_prepared hw h4 hlt
  have hblk : ((prepared d).wp .user).blk = 0 := rfl
  obtain ⟨r, hr⟩ := hinv.places.pointer .user
  have hr0 : r = 0 := by
    have hpage := hr.page
    rw [wp_prepared, Geometry.pageAt_blk] at hpage
    exact (Geometry.pageAt_inj hw hpage).2.symm
  subst hr0
  refine (takePage_yields hinv hw hr).bind ?_
  rintro ⟨p, pgidx, f1⟩ ⟨rfl, home1, h1⟩
  have hpg : pgidx = 0 := by
    rw [h1.page, hblk]
    simp [Geometry.pgNo, Geometry.pageAt]
  subst hpg
  obtain ⟨f2, home2, hdis, hinv2, hev2, hwaste2, hwp2, hoob2, higc⟩ :=
    (h1.inv hw hinv).discardFrom .user hw d.build_gpp_pos (h1.page_lt hw) h1.valid
      (fun j _ _ => Finset.notMem_empty _)
  dsimp only
  rw [ensure_of rfl, ok_bind, hdis]
  have hpage : f1.wp .user = d.geo.pageAt 0 1 := by
    cases h1.moves with
    | page hlt hwp => rw [hwp, hblk]
    | line heq => omega
  have hdirty : Dirty d .user (prepared d) 0 := fun _ h => by omega
  have hev1 := h1.evolves hinv.places hdirty
  refine ⟨_, home2, hinv2, hwaste2.owner, fun g hg => ?_, ?_, ?_, fun io => ?_, ?_, fun l => ?_⟩
  · have hm := (Finset.mem_union.mp hg).resolve_left (Finset.notMem_empty g)
    rw [Device.gIdx_of_mem_span _ hm, Device.gIdx_ppaToPga d.build_gpp_pos]
    rw [Device.gOffset_ppaToPga d.build_gpp_pos]
    omega
  · rw [hwaste2.bits, h1.bitmap]
    rfl
  · rw [hoob2, h1.oob]
    rfl
  · rw [hwp2]
    by_cases hio : io = .user
    · rw [hio, if_pos rfl, hpage]
      rfl
    · rw [h1.wp io hio, if_neg hio, wp_prepared]
  · rw [h1.lineOf_page hw, hblk] at higc
    exact higc
  · rw [hev2.inHand_iff, hev1.inHand_iff]
    rcases l with _ | _ | _ | _ | n <;> exact id

end Flash

end Virtkv
