import Virtkv.Accounts.Defs
import Virtkv.Flash.Span
import Virtkv.Pqueue.Run

/-!
# Exact accounts

Whatever the clients of the flash bookkeeping do, and in whatever order, no call fails but for
want of a free line, the counters of every line count the grains that were marked and given up
on it, and every line is in exactly one place.

## Main results

- `Kept.run` — a call keeps the invariant
- `Runs.keepsAccounts` — the accounts are exact in every run, and every allowed call succeeds
-/

namespace Virtkv

open Outcome

/-! ### Portions -/

namespace Device

variable {d : Device} {l x n g : ℕ}

theorem mem_portions {a : ℕ × ℕ} : a ∈ d.portions l x n ↔ ∃ y, x ≤ y ∧ y < x + n ∧
    (y = x ∨ y % d.gpp = 0) ∧ a = (d.grainAt l y, min (x + n - y) (d.gpp - y % d.gpp)) := by
  simp only [portions, Finset.mem_image, Finset.mem_filter, Finset.mem_Ico]
  constructor
  · rintro ⟨y, ⟨⟨hy, hlt⟩, hor⟩, rfl⟩
    exact ⟨y, hy, hlt, hor, rfl⟩
  · rintro ⟨y, hy, hlt, hor, rfl⟩
    exact ⟨y, ⟨⟨hy, hlt⟩, hor⟩, rfl⟩

/-- The start of the portion of grain number `y`. -/
def portionStart (d : Device) (x y : ℕ) : ℕ := max x (y - y % d.gpp)

/-- Every grain of a range is in a portion of it. -/
theorem mem_portion_of_mem {y : ℕ} (hy : x ≤ y) (hlt : y < x + n) :
    ∃ a ∈ d.portions l x n, d.grainAt l y ∈ span a.1 a.2 ∧
      a.1 = d.grainAt l (d.portionStart x y) := by
  have hpos := d.build_gpp_pos
  have hmod := Nat.mod_lt y hpos
  have hdm := Nat.div_add_mod y d.gpp
  set z := d.portionStart x y with hz
  have hzle : z ≤ y := by
    rw [hz, portionStart]
    omega
  have hxz : x ≤ z := Nat.le_max_left _ _
  -- `z` and `y` are on one page
  have hdiv : z / d.gpp = y / d.gpp := by
    refine le_antisymm (Nat.div_le_div_right hzle) ?_
    rw [Nat.le_div_iff_mul_le hpos, Nat.mul_comm]
    have : y - y % d.gpp ≤ z := Nat.le_max_right _ _
    omega
  have hdz := Nat.div_add_mod z d.gpp
  rw [hdiv] at hdz
  have hor : z = x ∨ z % d.gpp = 0 := by
    rcases Nat.le_total (y - y % d.gpp) x with hle | hle
    · exact .inl (max_eq_left hle)
    · right
      have : z = y - y % d.gpp := max_eq_right hle
      omega
  refine ⟨_, mem_portions.mpr ⟨z, hxz, by omega, hor, rfl⟩, ?_, rfl⟩
  have hadd : d.grainAt l y = d.grainAt l z + (y - z) := by
    have := grainAt_add (d := d) (l := l) (x := z) (i := y - z) (by omega)
    rwa [Nat.add_sub_cancel' hzle] at this
  simp only [mem_span, hadd]
  omega

/-- The portions of a range are made of its grains. -/
theorem mem_extent_of_portion {a : ℕ × ℕ} (ha : a ∈ d.portions l x n) (hg : g ∈ span a.1 a.2) :
    g ∈ d.extent l x n := by
  obtain ⟨y, hy, hlt, -, rfl⟩ := mem_portions.mp ha
  rw [mem_span] at hg
  obtain ⟨i, hi⟩ := Nat.exists_eq_add_of_le hg.1
  simp only [hi] at hg ⊢
  refine mem_extent.mpr ⟨y + i, by omega, by omega, ?_⟩
  exact grainAt_add (by omega)

end Device

namespace Accounts

variable {d : Device} {s s' : Accounts} {p : Ppa} {L : Grains} {home : ℕ → Place}

/-! ### The invariant -/

/-- The records of the clients agree with the ledger and the places of the lines. -/
structure Kept (d : Device) (s : Accounts) (L : Grains) (home : ℕ → Place) : Prop where
  inv : FlashInv d s.flash L home
  used : L.used = s.marked
  owner : ∀ g, L.owner g ≠ none ↔ ∃ a ∈ s.held, g ∈ Device.span a.1 a.2
  onPage : ∀ a ∈ s.held, 0 < a.2 ∧ d.gOffset a.1 + a.2 ≤ d.gpp
  apart : ∀ a ∈ s.held, ∀ b ∈ s.held, ∀ g, g ∈ Device.span a.1 a.2 → g ∈ Device.span b.1 b.2 → a = b
  bits : d.build = .original → ∀ a ∈ s.held, d.geo.lineOf (d.gIdx a.1) ∉ s.hand →
    s.flash.grainBitmap a.1 = true
  firsts : ∀ g, s.flash.grainBitmap g = true → ∃ n, (g, n) ∈ s.held
  hand : ∀ l ∈ s.hand, l < d.geo.ttLines ∧
    home l = .hand (s.erased.filter fun b => b % d.geo.blksPerPl = l)
  kept : ∀ l, l ∉ s.hand → ¬(home l).InHand
  erased : ∀ b ∈ s.erased, b % d.geo.blksPerPl ∈ s.hand

namespace Kept

theorem init (hw : d.geo.Wf) (hlt : d.geo.ttLines < 2 ^ 32) :
    Yields (opened d) (· = .noFreeLine) fun s => ∃ L home, Kept d s L home := by
  refine Flash.prepare_yields fun h4 => ?_
  refine ⟨_, _, ⟨Flash.inv_prepared hw h4 hlt, rfl, fun g => ?_, nofun, nofun, nofun, nofun, nofun,
    fun l _ => ?_, nofun⟩⟩
  · exact ⟨fun h => absurd rfl h, fun ⟨a, ha, _⟩ => absurd ha (Finset.notMem_empty a)⟩
  · rcases l with _ | _ | _ | _ | n <;> exact id

/-- A place in hand is recorded. -/
theorem mem_hand (h : Kept d s L home) {l : ℕ} (hl : (home l).InHand) : l ∈ s.hand := by
  by_contra hn
  exact h.kept l hn hl

theorem take (h : Kept d s L home) (hw : d.geo.Wf) (io : IoType) :
    Yields (s.run d (.take io)) (· = .noFreeLine) fun s' => ∃ home', Kept d s' L home' := by
  obtain ⟨r, hr⟩ := h.inv.places.pointer io
  refine (Flash.takePage_yields h.inv hw hr).bind ?_
  rintro ⟨p, pgidx, f⟩ ⟨-, home', ht⟩
  have hiff := ht.hand_iff h.inv.places
  refine ⟨home', ⟨ht.inv hw h.inv, h.used, h.owner, h.onPage, h.apart, ?_, ?_, fun l hl => ?_,
    fun l hl hin => ?_, h.erased⟩⟩
  · change d.build = .original → ∀ a ∈ s.held, _ → f.grainBitmap a.1 = true
    rw [ht.bitmap]
    exact h.bits
  · change ∀ g, f.grainBitmap g = true → _
    rw [ht.bitmap]
    exact h.firsts
  · exact ⟨(h.hand l hl).1, (hiff l _).mpr (h.hand l hl).2⟩
  · cases hl' : home' l with
    | hand bs =>
      have := (hiff l bs).mp hl'
      exact h.kept l hl (by rw [this]; trivial)
    | _ => rw [hl'] at hin; exact hin.elim

/-- The grains of an allowed mark are unused and on a valid page. -/
theorem fresh (h : Kept d s L home) {grain len : ℕ} (hc : Allowed d s (.mark grain len)) :
    s.flash.Fresh d L grain len := by
  obtain ⟨hpos, hin, hlt, hst, hhand, hun⟩ := hc
  rw [← h.used] at hun
  have hnotin : grain ∉ L.used := fun hc =>
    Finset.disjoint_left.mp hun hc (Flash.mem_span_self hpos)
  exact ⟨hpos, hin, hlt, h.inv.valid_of_unused hlt hst (h.kept _ hhand) rfl hnotin, hun⟩

theorem mark (h : Kept d s L home) (hw : d.geo.Wf) {grain len : ℕ}
    (hc : Allowed d s (.mark grain len)) :
    ∃ s', s.run d (.mark grain len) = .ok s' ∧ ∃ L', Kept d s' L' home := by
  have hf := h.fresh hc
  obtain ⟨hpos, hin, -, -, -⟩ := hc
  have hun := hf.unused
  have hrun := h.inv.markGrainValid_eq hw hf
  have hnew : ∀ a ∈ s.held, ∀ g, g ∈ Device.span a.1 a.2 → g ∉ Device.span grain len := by
    intro a ha g hg hg'
    have hu := h.inv.pages.owner_used g ((h.owner g).mpr ⟨a, ha, hg⟩)
    exact Finset.disjoint_left.mp hun hu hg'
  have hok : s.run d (.mark grain len) = .ok { s with
      flash := s.flash.marked d grain len
      marked := s.marked ∪ Device.span grain len
      held := insert (grain, len) s.held } := by
    rw [run, hrun]
    rfl
  refine ⟨_, hok, _, ⟨h.inv.marked hf .orphan, ?_, fun g => ?_,
    fun a ha => ?_, fun a ha b hb g hga hgb => ?_, fun hb a ha hl => ?_, fun g hg => ?_,
    h.hand, h.kept, h.erased⟩⟩
  · rw [Ledger.used_add, h.used]
  · rw [Ledger.owner_add]
    split
    · rename_i hg
      exact ⟨fun _ => ⟨_, Finset.mem_insert_self _ _, hg⟩, fun _ => nofun⟩
    · rename_i hg
      rw [h.owner]
      constructor
      · rintro ⟨a, ha, hga⟩
        exact ⟨a, Finset.mem_insert_of_mem ha, hga⟩
      · rintro ⟨a, ha, hga⟩
        rcases Finset.mem_insert.mp ha with rfl | ha
        · exact absurd hga hg
        · exact ⟨a, ha, hga⟩
  · rcases Finset.mem_insert.mp ha with rfl | ha
    · exact ⟨hpos, hin⟩
    · exact h.onPage a ha
  · rcases Finset.mem_insert.mp ha with rfl | ha
    · rcases Finset.mem_insert.mp hb with rfl | hb
      · rfl
      · exact absurd hga (hnew b hb g hgb)
    · rcases Finset.mem_insert.mp hb with rfl | hb
      · exact absurd hgb (hnew a ha g hga)
      · exact h.apart a ha b hb g hga hgb
  · change (s.flash.marked d grain len).grainBitmap a.1 = true
    rw [Flash.bitmap_marked]
    rcases Finset.mem_insert.mp ha with rfl | ha
    · exact if_pos ⟨hb, rfl⟩
    · split
      · rfl
      · exact h.bits hb a ha hl
  · change (s.flash.marked d grain len).grainBitmap g = true at hg
    rw [Flash.bitmap_marked] at hg
    split at hg
    · rename_i hb
      exact ⟨len, by rw [hb.2]; exact Finset.mem_insert_self _ _⟩
    · obtain ⟨n, hn⟩ := h.firsts g hg
      exact ⟨n, Finset.mem_insert_of_mem hn⟩

/-- What is given up is valid, and the bitmap marks its portions. -/
theorem heldExtent (h : Kept d s L home) (hw : d.geo.Wf) {l x n : ℕ}
    (hc : Allowed d s (.giveUp l x n)) : s.flash.HeldExtent d L home l x n := by
  obtain ⟨hl, hhand, hpos, hin, hsub, -⟩ := hc
  have hline : ∀ y, y < x + n → d.geo.lineOf (d.gIdx (d.grainAt l y)) = l := fun y hy =>
    Device.lineOf_grainAt hw hl (by omega)
  refine ⟨hl, h.kept l hhand, hpos, hin, fun y hy hlt => ?_, fun hb y hy hlt => ?_⟩
  · obtain ⟨a, ha, hg, -⟩ := Device.mem_portion_of_mem (d := d) (l := l) hy hlt
    exact (h.owner _).mpr ⟨a, hsub ha, hg⟩
  constructor
  · intro hbit
    obtain ⟨m, hm⟩ := h.firsts _ hbit
    obtain ⟨a, ha, hg, hstart⟩ := Device.mem_portion_of_mem (d := d) (l := l) hy hlt
    have hself : _ ∈ Device.span (d.grainAt l y) m := Flash.mem_span_self (h.onPage _ hm).1
    have heq := h.apart _ hm a (hsub ha) _ hself hg
    rw [← heq] at hstart
    -- the grain is the start of its portion
    have hz : y = d.portionStart x y := by
      refine (Device.grainAt_inj hw hl hl (by omega) ?_ hstart).2
      rw [Device.portionStart]
      omega
    rw [Device.portionStart] at hz
    have := Nat.mod_lt y d.build_gpp_pos
    omega
  · intro hor
    have ha : _ ∈ d.portions l x n := Device.mem_portions.mpr ⟨y, hy, hlt, hor, rfl⟩
    refine h.bits hb _ (hsub ha) ?_
    rwa [hline y hlt]

theorem giveUp (h : Kept d s L home) (hw : d.geo.Wf) {l x n : ℕ}
    (hc : Allowed d s (.giveUp l x n)) :
    ∃ s', s.run d (.giveUp l x n) = .ok s' ∧ ∃ L' home', Kept d s' L' home' := by
  have hh := h.heldExtent hw hc
  obtain ⟨hl, hhand, hpos, hin, hsub, hmulti⟩ := hc
  obtain ⟨w, f', hrun, hinv, htouch, hfull⟩ := h.inv.markGrainInvalid_extent hw hh fun hm hf =>
    hmulti hm ((h.inv.places.full l).mpr ⟨hl, hf⟩)
  have hok : s.run d (.giveUp l x n) =
      .ok { s with flash := f', held := s.held \ d.portions l x n } := by
    rw [run, hrun]
    rfl
  have hplace : ∀ z, Flash.demoted home l w z = home z ∨
      ¬(Flash.demoted home l w z).InHand ∧ ¬(home z).InHand := by
    intro z
    cases w with
    | false => exact .inl rfl
    | true =>
      simp only [Flash.demoted, if_true]
      by_cases hz : z = l
      · rw [hz, Function.update_self, hfull rfl]
        exact .inr ⟨id, id⟩
      · rw [Function.update_of_ne hz]
        exact .inl rfl
  refine ⟨_, hok, _, _, ⟨hinv, h.used, fun g => ?_, fun a ha => ?_, fun a ha b hb => ?_,
    fun hb a ha hlh => ?_, fun g hg => ?_, fun z hz => ?_, fun z hz hin' => ?_, h.erased⟩⟩
  · rw [Ledger.owner_kill]
    split
    · rename_i hg
      refine ⟨fun hc => absurd rfl hc, ?_⟩
      rintro ⟨a, ha, hga⟩
      obtain ⟨ha, hna⟩ := Finset.mem_sdiff.mp ha
      obtain ⟨y, hy, hlt, rfl⟩ := Device.mem_extent.mp hg
      obtain ⟨b, hb, hgb, -⟩ := Device.mem_portion_of_mem (d := d) (l := l) hy hlt
      exact absurd (h.apart a ha b (hsub hb) _ hga hgb ▸ hb) hna
    · rename_i hg
      rw [h.owner]
      constructor
      · rintro ⟨a, ha, hga⟩
        refine ⟨a, Finset.mem_sdiff.mpr ⟨ha, fun hp => hg ?_⟩, hga⟩
        exact Device.mem_extent_of_portion hp hga
      · rintro ⟨a, ha, hga⟩
        exact ⟨a, (Finset.mem_sdiff.mp ha).1, hga⟩
  · exact h.onPage a (Finset.mem_sdiff.mp ha).1
  · exact h.apart a (Finset.mem_sdiff.mp ha).1 b (Finset.mem_sdiff.mp hb).1
  · obtain ⟨ha, hna⟩ := Finset.mem_sdiff.mp ha
    change f'.grainBitmap a.1 = true
    rw [htouch.bits]
    · exact h.bits hb a ha hlh
    · intro hext
      obtain ⟨y, hy, hlt, heq⟩ := Device.mem_extent.mp hext
      obtain ⟨b, hb', hgb, -⟩ := Device.mem_portion_of_mem (d := d) (l := l) hy hlt
      have hself : _ ∈ Device.span a.1 a.2 := Flash.mem_span_self (h.onPage a ha).1
      rw [heq] at hgb
      exact hna (h.apart a ha b (hsub hb') _ hself hgb ▸ hb')
  · have hown := (hinv.pages.bitmap g hg).2.1
    rw [Ledger.owner_kill] at hown
    split at hown
    · exact absurd rfl hown
    · rename_i hne
      change f'.grainBitmap g = true at hg
      rw [htouch.bits g hne] at hg
      obtain ⟨m, hm⟩ := h.firsts g hg
      refine ⟨m, Finset.mem_sdiff.mpr ⟨hm, fun hp => hne ?_⟩⟩
      exact Device.mem_extent_of_portion hp (Flash.mem_span_self (h.onPage _ hm).1)
  · refine ⟨(h.hand z hz).1, ?_⟩
    rcases hplace z with heq | ⟨-, hno⟩
    · rw [heq]
      exact (h.hand z hz).2
    · exact absurd (by rw [(h.hand z hz).2]; trivial) hno
  · rcases hplace z with heq | ⟨hno, -⟩
    · rw [heq] at hin'
      exact h.kept z hz hin'
    · exact hno hin'

/-- The queue never has more lines than slots. -/
theorem victims_le (h : Kept d s L home) : s.flash.victimPq.size ≤ d.geo.ttLines + 1 :=
  h.inv.places.pq.size_le fun z hz => ((h.inv.places.victim z).mp hz).1

theorem collect (h : Kept d s L home) {offset : ℕ} (hc : Allowed d s (.collect offset)) :
    ∃ s', s.run d (.collect offset) = .ok s' ∧ ∃ home', Kept d s' L home' := by
  obtain ⟨p, hp, -⟩ := Geometry.ppaToStruct_of_lt hc
  have hid : InvLog.grain2lineid d (offset / d.gu) = .ok p.blk := by
    rw [InvLog.grain2lineid, hp]
    rfl
  obtain ⟨v, f', hrun, hsel⟩ := Flash.selectVictimLine_eq h.inv.places.pq h.victims_le hid
  have hinv := h.inv.selects hsel
  have hok : s.run d (.collect offset) =
      .ok { s with flash := f', hand := v.elim s.hand fun l => insert l s.hand } := by
    rw [run, hrun]
    rfl
  have hbit : f'.grainBitmap = s.flash.grainBitmap := by cases hsel <;> rfl
  refine ⟨_, hok, _, ⟨hinv, h.used, h.owner, h.onPage, h.apart, fun hb a ha hl => ?_,
    fun g hg => ?_, fun z hz => ?_, fun z hz => ?_, fun b hb => ?_⟩⟩
  · change f'.grainBitmap a.1 = true
    rw [hbit]
    refine h.bits hb a ha fun hmem => hl ?_
    cases v with
    | none => exact hmem
    | some l => exact Finset.mem_insert_of_mem hmem
  · change f'.grainBitmap g = true at hg
    rw [hbit] at hg
    exact h.firsts g hg
  · cases hsel with
    | none => exact h.hand z hz
    | line l q hq =>
      obtain ⟨hl, hhome⟩ := (h.inv.places.victim l).mp hq
      change z ∈ insert l s.hand at hz
      change z < d.geo.ttLines ∧ Function.update home l (.hand ∅) z = _
      have hnl : l ∉ s.hand := fun hm => by
        rw [(h.hand l hm).2] at hhome
        cases hhome
      by_cases hzl : z = l
      · subst hzl
        rw [Function.update_self, Finset.filter_false_of_mem]
        · exact ⟨hl, rfl⟩
        · intro b hb hbz
          exact hnl (hbz ▸ h.erased b hb)
      · rw [Function.update_of_ne hzl]
        exact h.hand z ((Finset.mem_insert.mp hz).resolve_left hzl)
  · cases hsel with
    | none => exact h.kept z hz
    | line l q hq =>
      change z ∉ insert l s.hand at hz
      change ¬(Function.update home l (.hand ∅) z).InHand
      rw [Finset.mem_insert, not_or] at hz
      rw [Function.update_of_ne hz.1]
      exact h.kept z hz.2
  · have hmem := h.erased b hb
    cases v with
    | none => exact hmem
    | some l => exact Finset.mem_insert_of_mem hmem

theorem blkNo_mod (hv : d.geo.Valid p) : d.geo.blkNo p % d.geo.blksPerPl = p.blk := by
  rw [Geometry.blkNo, Nat.mul_add_mod_self_right, Nat.mod_eq_of_lt hv.blk]

theorem erase (h : Kept d s L home) (hw : d.geo.Wf) {p : Ppa} (hc : Allowed d s (.erase p)) :
    ∃ s', s.run d (.erase p) = .ok s' ∧ ∃ home', Kept d s' L home' := by
  obtain ⟨hv, hhand⟩ := hc
  obtain ⟨f', hrun, hwipe⟩ := Flash.markBlockFree_eq (f := s.flash) hw hv
  have hmod := blkNo_mod hv
  obtain ⟨hl, hhome⟩ := h.hand _ hhand
  have hinv := h.inv.wipes hw hhome hmod hwipe
  have hok : s.run d (.erase p) =
      .ok { s with flash := f', erased := insert (d.geo.blkNo p) s.erased } := by
    rw [run, hrun]
    rfl
  refine ⟨_, hok, _, ⟨hinv, h.used, h.owner, h.onPage, h.apart, fun hb a ha hla => ?_,
    fun g hg => ?_, fun z hz => ?_, fun z hz => ?_, fun b hb => ?_⟩⟩
  · change f'.grainBitmap a.1 = true
    rw [hwipe.bitmap, if_neg]
    · exact h.bits hb a ha hla
    · intro hblk
      refine hla ?_
      rw [Device.lineOf_eq_blk, hblk, hmod]
      exact hhand
  · change f'.grainBitmap g = true at hg
    rw [hwipe.bitmap] at hg
    split at hg
    · cases hg
    · exact h.firsts g hg
  · refine ⟨(h.hand z hz).1, ?_⟩
    by_cases hzp : z = p.blk
    · subst hzp
      rw [Function.update_self, Finset.filter_insert, if_pos hmod]
    · rw [Function.update_of_ne hzp, Finset.filter_insert, if_neg (by rw [hmod]; exact Ne.symm hzp)]
      exact (h.hand z hz).2
  · rw [Function.update_of_ne]
    · exact h.kept z hz
    · rintro rfl
      exact hz hhand
  · rcases Finset.mem_insert.mp hb with rfl | hb
    · rw [hmod]
      exact hhand
    · exact h.erased b hb

theorem release (h : Kept d s L home) (hw : d.geo.Wf) {l : ℕ} (hc : Allowed d s (.release l)) :
    ∃ s', s.run d (.release l) = .ok s' ∧ ∃ L' home', Kept d s' L' home' := by
  obtain ⟨hhand, hall⟩ := hc
  obtain ⟨hl, hhome⟩ := h.hand l hhand
  have hinv := h.inv.freed hw hl hhome fun q hq hlq =>
    Finset.mem_filter.mpr ⟨hall q hq hlq, by rw [← Device.lineOf_eq_blk, hlq]⟩
  -- a portion is on one line
  have hon : ∀ a ∈ s.held, ∀ g ∈ Device.span a.1 a.2, d.OnLine l g ↔ d.OnLine l a.1 := by
    intro a ha g hg
    unfold Device.OnLine
    rw [Device.gIdx_of_mem_span (h.onPage a ha).2 hg]
  refine ⟨_, rfl, _, _, ⟨hinv, ?_, fun g => ?_, fun a ha => ?_, fun a ha b hb => ?_,
    fun hb a ha hla => ?_, fun g hg => ?_, fun z hz => ?_, fun z hz => ?_, fun b hb => ?_⟩⟩
  · change L.used.filter (fun g => ¬d.OnLine l g) = s.marked.filter fun g => ¬d.OnLine l g
    rw [h.used]
  · rw [Ledger.owner_erase]
    split
    · rename_i hg
      refine ⟨fun hc => absurd rfl hc, ?_⟩
      rintro ⟨a, ha, hga⟩
      obtain ⟨ha, hna⟩ := Finset.mem_filter.mp ha
      exact absurd ((hon a ha g hga).mp hg) hna
    · rename_i hg
      rw [h.owner]
      constructor
      · rintro ⟨a, ha, hga⟩
        exact ⟨a, Finset.mem_filter.mpr ⟨ha, fun hc => hg ((hon a ha g hga).mpr hc)⟩, hga⟩
      · rintro ⟨a, ha, hga⟩
        exact ⟨a, (Finset.mem_filter.mp ha).1, hga⟩
  · exact h.onPage a (Finset.mem_filter.mp ha).1
  · exact h.apart a (Finset.mem_filter.mp ha).1 b (Finset.mem_filter.mp hb).1
  · obtain ⟨ha, hna⟩ := Finset.mem_filter.mp ha
    refine h.bits hb a ha fun hmem => hla (Finset.mem_erase.mpr ⟨?_, hmem⟩)
    exact hna
  · obtain ⟨m, hm⟩ := h.firsts g hg
    refine ⟨m, Finset.mem_filter.mpr ⟨hm, fun hc => ?_⟩⟩
    have hown := (hinv.pages.bitmap g hg).2.1
    rw [Ledger.owner_erase, if_pos hc] at hown
    exact hown rfl
  · obtain ⟨hne, hz⟩ := Finset.mem_erase.mp hz
    refine ⟨(h.hand z hz).1, ?_⟩
    rw [Function.update_of_ne hne, (h.hand z hz).2]
    congr 1
    rw [Finset.filter_filter]
    apply Finset.filter_congr
    intro b _
    constructor
    · rintro rfl
      exact ⟨hne, rfl⟩
    · exact And.right
  · by_cases hzl : z = l
    · rw [hzl, Function.update_self]
      exact id
    · rw [Function.update_of_ne hzl]
      exact h.kept z fun hm => hz (Finset.mem_erase.mpr ⟨hzl, hm⟩)
  · obtain ⟨hb, hne⟩ := Finset.mem_filter.mp hb
    exact Finset.mem_erase.mpr ⟨hne, h.erased b hb⟩

/-- A call keeps the invariant, and fails only for want of a free line. -/
theorem run (h : Kept d s L home) (hw : d.geo.Wf) (c : Call) (hc : Allowed d s c) :
    Yields (s.run d c) (· = .noFreeLine) fun s' => ∃ L' home', Kept d s' L' home' := by
  cases c with
  | take io => exact (h.take hw io).post fun s' ⟨home', hk⟩ => ⟨L, home', hk⟩
  | mark grain len =>
    obtain ⟨s', hrun, L', hk⟩ := h.mark hw hc
    rw [hrun]
    exact ⟨L', home, hk⟩
  | giveUp l x n =>
    obtain ⟨s', hrun, hk⟩ := h.giveUp hw hc
    rw [hrun]
    exact hk
  | collect offset =>
    obtain ⟨s', hrun, home', hk⟩ := h.collect hc
    rw [hrun]
    exact ⟨L, home', hk⟩
  | erase p =>
    obtain ⟨s', hrun, home', hk⟩ := h.erase hw hc
    rw [hrun]
    exact ⟨L, home', hk⟩
  | release l =>
    obtain ⟨s', hrun, hk⟩ := h.release hw hc
    rw [hrun]
    exact hk

end Kept

/-! ### Runs -/

theorem Runs.kept {P : Accounts → Call → Prop} (h : Runs d P s) (hw : d.geo.Wf)
    (hlt : d.geo.ttLines < 2 ^ 32) : ∃ L home, Kept d s L home := by
  induction h with
  | init s h => exact (Kept.init hw hlt).of_eq_ok h
  | call c _ hc _ hrun ih =>
    obtain ⟨L, home, hk⟩ := ih
    exact (hk.run hw c hc).of_eq_ok hrun

/-- Lists, queue, write pointers and the record of the collector hold the lines that the places
say. -/
structure Placed (d : Device) (s : Accounts) (home : ℕ → Place) : Prop where
  lists : s.flash.Lists d home
  current : ∀ io l, (s.flash.wp io).blk = l ↔ l < d.geo.ttLines ∧ home l = .current io
  hand : ∀ l < d.geo.ttLines, l ∈ s.hand ↔ (home l).InHand

/-- The accounts are exact: a line's valid grains are those of the portions held on it, and its
invalid ones the others that were marked. A block counts as valid what was marked on it, since
`mark_grain_invalid` leaves that counter, and as invalid what was given up; an erased block
counts nothing. Every line is in one place, so the counters of free, full and queued lines, the
four write pointers and the lines of the collector add up to all lines. What is marked is on
pages that were handed out. -/
structure Exact (d : Device) (s : Accounts) : Prop where
  vgc : ∀ l < d.geo.ttLines,
    (s.flash.lines l).vgc = ∑ a ∈ s.held.filter fun a => d.OnLine l a.1, a.2
  igc : ∀ l < d.geo.ttLines, (s.flash.lines l).vgc + (s.flash.lines l).igc =
    (s.marked.filter (d.OnLine l)).card
  room : ∀ l < d.geo.ttLines, (s.flash.lines l).vgc + (s.flash.lines l).igc ≤ d.grainsPerLine
  blkVgc : ∀ b ∉ s.erased, s.flash.blkVgc b = (s.marked.filter (d.OnBlk b)).card
  blkIgc : ∀ b ∉ s.erased, s.flash.blkVgc b =
    ∑ a ∈ s.held.filter fun a => d.OnBlk b a.1, a.2 + s.flash.blkIgc b
  wiped : ∀ b ∈ s.erased, s.flash.blkVgc b = 0 ∧ s.flash.blkIgc b = 0
  placed : ∃ home, Placed d s home
  conserved : s.flash.freeLineCnt + s.flash.fullLineCnt + s.flash.victimLineCnt + 4 + s.hand.card =
    d.geo.ttLines
  handedOut : ∀ g ∈ s.marked, Flash.blkOf d (d.gIdx g) ∉ s.erased → s.flash.status (d.gIdx g) ≠ .free

namespace Kept

theorem erased_iff (h : Kept d s L home) (b : ℕ) : d.Erased home b ↔ b ∈ s.erased := by
  unfold Device.Erased
  by_cases hb : b % d.geo.blksPerPl ∈ s.hand
  · rw [(h.hand _ hb).2]
    exact Finset.mem_filter.trans (and_iff_left rfl)
  · constructor
    · intro he
      cases hp : home (b % d.geo.blksPerPl) with
      | hand bs => exact absurd (by rw [hp]; trivial) (h.kept _ hb)
      | _ =>
        rw [hp] at he
        exact absurd he (Finset.notMem_empty b)
    · intro he
      exact absurd (h.erased b he) hb

/-- The held portions of a region of whole pages have as many grains as are held there. -/
theorem live_eq (h : Kept d s L home) (Q : ℕ → Prop) [DecidablePred Q] :
    L.live (fun g => Q (d.gIdx g)) = ∑ a ∈ s.held.filter fun a => Q (d.gIdx a.1), a.2 := by
  have hunion : (L.used.filter fun g => Q (d.gIdx g) ∧ (L.owner g).isSome) =
      (s.held.filter fun a => Q (d.gIdx a.1)).biUnion fun a => Device.span a.1 a.2 := by
    ext g
    rw [Finset.mem_filter, Finset.mem_biUnion, Option.isSome_iff_ne_none, h.owner]
    constructor
    · rintro ⟨-, hon, a, ha, hg⟩
      refine ⟨a, Finset.mem_filter.mpr ⟨ha, ?_⟩, hg⟩
      rwa [← Device.gIdx_of_mem_span (h.onPage a ha).2 hg]
    · rintro ⟨a, ha, hg⟩
      obtain ⟨ha, hon⟩ := Finset.mem_filter.mp ha
      refine ⟨h.inv.pages.owner_used g ((h.owner g).mpr ⟨a, ha, hg⟩), ?_, a, ha, hg⟩
      rwa [Device.gIdx_of_mem_span (h.onPage a ha).2 hg]
  rw [Ledger.live, hunion, Finset.card_biUnion]
  · exact Finset.sum_congr rfl fun a _ => Device.card_span _ _
  · intro a ha b hb hne
    change Disjoint (Device.span a.1 a.2) (Device.span b.1 b.2)
    rw [Finset.disjoint_left]
    intro g hga hgb
    exact hne (h.apart a (Finset.mem_filter.mp ha).1 b (Finset.mem_filter.mp hb).1 g hga hgb)

theorem placed (h : Kept d s L home) : Placed d s home where
  lists := h.inv.places.lists
  current := h.inv.places.current
  hand l hl := by
    constructor
    · intro hm
      rw [(h.hand l hm).2]
      trivial
    · exact h.mem_hand

/-- The lines at the places that satisfy `P`. -/
def linesAt (d : Device) (home : ℕ → Place) (P : Place → Bool) : Finset ℕ :=
  (Finset.range d.geo.ttLines).filter fun l => P (home l)

theorem card_list {P : Place → Bool} {ls : List ℕ} (hn : ls.Nodup)
    (hmem : ∀ l, l ∈ ls ↔ l < d.geo.ttLines ∧ P (home l)) :
    (linesAt d home P).card = ls.length := by
  have heq : linesAt d home P = ls.toFinset := by
    ext l
    rw [linesAt, Finset.mem_filter, Finset.mem_range, List.mem_toFinset, hmem]
  rw [heq, List.toFinset_card_of_nodup hn]

theorem card_victims (h : Kept d s L home) :
    (linesAt d home (· = .victim)).card = s.flash.victimPq.size - 1 := by
  have hst : PQueue.Stores s.flash.victimPq (linesAt d home (· = .victim) : Finset ℕ) := by
    have hmem : ∀ l, l ∈ (linesAt d home (· = .victim) : Finset ℕ) ↔
        s.flash.victimPq.pos l ≠ 0 := by
      intro l
      rw [linesAt, Finset.mem_filter, Finset.mem_range, decide_eq_true_iff,
        h.inv.places.victim]
    have hok := h.inv.places.pq
    refine ⟨hok.size_pos, fun k hk hks => ⟨?_, hok.pos_d k hk hks⟩, fun l hl => ?_⟩
    · rw [Finset.mem_coe, hmem, hok.pos_d k hk hks]
      omega
    · have hp := (hmem l).mp hl
      exact ⟨_, Nat.pos_of_ne_zero hp, hok.d_pos l hp⟩
  rw [← hst.ncard, Set.ncard_coe_finset]

theorem card_current (h : Kept d s L home) :
    (linesAt d home fun p => p matches .current _).card = 4 := by
  have heq : linesAt d home (fun p => p matches .current _) =
      ([.user, .map, .gc, .gcMap].map fun io => (s.flash.wp io).blk).toFinset := by
    ext l
    have hcur := fun io => h.inv.places.current io l
    simp only [linesAt, Finset.mem_filter, Finset.mem_range, List.mem_toFinset, List.mem_map]
    constructor
    · rintro ⟨hl, hp⟩
      cases hpl : home l with
      | current io =>
        exact ⟨io, by cases io <;> simp, (hcur io).mpr ⟨hl, hpl⟩⟩
      | _ =>
        rw [hpl] at hp
        cases hp
    · rintro ⟨io, -, hio⟩
      obtain ⟨hl, hpl⟩ := (hcur io).mp hio
      refine ⟨hl, ?_⟩
      rw [hpl]
  have hinj : ∀ io io', (s.flash.wp io).blk = (s.flash.wp io').blk → io = io' := by
    intro io io' heq
    have h1 := h.inv.places.home_wp io
    rw [heq, h.inv.places.home_wp io'] at h1
    cases h1
    rfl
  rw [heq, List.toFinset_card_of_nodup]
  · rfl
  · exact List.Nodup.map hinj (by decide)

theorem card_hand (h : Kept d s L home) :
    (linesAt d home fun p => p matches .hand _).card = s.hand.card := by
  congr 1
  ext l
  rw [linesAt, Finset.mem_filter, Finset.mem_range]
  constructor
  · rintro ⟨-, hp⟩
    cases hpl : home l with
    | hand bs => exact h.mem_hand (by rw [hpl]; trivial)
    | _ =>
      rw [hpl] at hp
      cases hp
  · intro hm
    obtain ⟨hl, hpl⟩ := h.hand l hm
    refine ⟨hl, ?_⟩
    rw [hpl]

/-- Every line is counted once. -/
theorem card_places (d : Device) (home : ℕ → Place) :
    (linesAt d home (· = .free)).card + (linesAt d home (· = .full)).card +
      (linesAt d home (· = .victim)).card + (linesAt d home fun p => p matches .current _).card +
      (linesAt d home fun p => p matches .hand _).card = d.geo.ttLines := by
  simp only [linesAt, Finset.card_filter]
  rw [← Finset.sum_add_distrib, ← Finset.sum_add_distrib, ← Finset.sum_add_distrib,
    ← Finset.sum_add_distrib]
  trans ∑ _l ∈ Finset.range d.geo.ttLines, 1
  · apply Finset.sum_congr rfl
    intro l _
    cases home l <;> rfl
  · rw [← Finset.card_eq_sum_ones, Finset.card_range]

theorem toExact (h : Kept d s L home) (hw : d.geo.Wf) (hlt : d.geo.ttLines < 2 ^ 32) :
    Exact d s where
  vgc l hl := (h.inv.counts.vgc l hl).trans (h.live_eq fun q => d.geo.lineOf q = l)
  igc l hl := by
    rw [h.inv.counts.vgc l hl, h.inv.counts.igc l hl, Ledger.live_add_dead, h.used]
  room l hl := h.inv.tallied.vgc_add_igc_le hw hl
  blkVgc b hb := by
    rw [← h.used]
    exact h.inv.counts.blkVgc b fun he => hb ((h.erased_iff b).mp he)
  blkIgc b hb := by
    have hlive := h.live_eq fun q => q / d.geo.pgsPerBlk = b
    have hne : ¬d.Erased home b := fun he => hb ((h.erased_iff b).mp he)
    rw [h.inv.counts.blkVgc b hne, h.inv.counts.blkIgc b hne, ← Ledger.live_add_dead]
    exact congrArg (· + L.dead (d.OnBlk b)) hlive
  wiped b hb := h.inv.counts.erased b ((h.erased_iff b).mpr hb)
  placed := ⟨home, h.placed⟩
  conserved := by
    have hpl := h.inv.places
    have hfree := card_list (P := (· = .free)) hpl.free_nodup fun l => by
      rw [hpl.free, decide_eq_true_iff]
    have hfull := card_list (P := (· = .full)) hpl.full_nodup fun l => by
      rw [hpl.full, decide_eq_true_iff]
    have htotal := card_places d home
    rw [hfree, hfull, h.card_victims, h.card_current, h.card_hand] at htotal
    rw [hpl.freeCnt, hpl.fullCnt, hpl.victimCnt, Nat.mod_eq_of_lt, Nat.mod_eq_of_lt,
      Nat.mod_eq_of_lt, htotal]
    all_goals omega
  handedOut g hg he := by
    rw [← h.used] at hg
    exact h.inv.pages.used_taken g hg fun hc => he ((h.erased_iff _).mp hc)

end Kept

/-- A range on one page is one portion. -/
theorem portions_page {l x n : ℕ} (hn : 0 < n) (h : x % d.gpp + n ≤ d.gpp) :
    d.portions l x n = {(d.grainAt l x, n)} := by
  ext a
  rw [Device.mem_portions, Finset.mem_singleton]
  constructor
  · rintro ⟨y, hy, hlt, hor, rfl⟩
    have hyx : y = x := by
      rcases hor with rfl | hmod
      · rfl
      · obtain ⟨i, rfl⟩ := Nat.exists_eq_add_of_le hy
        by_contra hne
        rw [← Nat.mod_add_mod, Nat.mod_eq_of_lt (by omega)] at hmod
        omega
    subst hyx
    congr 1
    omega
  · rintro rfl
    refine ⟨x, le_rfl, by omega, .inl rfl, ?_⟩
    congr 1
    omega

/-- `conv_init_ftl` is a run: page 0 is taken, marked, and given up. -/
theorem Runs.of_init {P : Accounts → Call → Prop} (hw : d.geo.Wf) (hP : ∀ s c, P s c) {f : Flash}
    (h : Flash.init d = .ok f) :
    ∃ s, Runs d P s ∧ s.flash = f ∧ s.marked = Device.span 0 d.gpp ∧ s.held = ∅ := by
  have hgpp := d.build_gpp_pos
  simp only [Flash.init, bind_eq_ok] at h
  obtain ⟨f1, h1, f2, h2, f3, h3, f4, h4, ⟨p, pgidx, f5⟩, h5, _, h6, h7⟩ := h
  obtain rfl := ensure_eq_ok.mp h6
  obtain ⟨f6, h8, h9⟩ := bind_eq_ok.mp h7
  have hzero : d.ppaToPga 0 0 = 0 := by rw [Device.ppaToPga, Nat.zero_mul]
  have hpage : d.grainAt 0 0 = 0 := by
    simp [Device.grainAt, Device.ppaToPga, Geometry.pgNo, Geometry.pageAt]
  have hg : d.gIdx 0 = 0 := Nat.zero_div _
  rw [hzero, Nat.sub_zero] at h8 h9
  have hopened : opened d = .ok { flash := f4, marked := ∅, held := ∅, hand := ∅, erased := ∅ } := by
    simp only [opened, h1, h2, h3, h4, ok_bind]
    rfl
  -- page 0 is valid when its grains are marked
  have hst : f5.status 0 = .valid ∧ 0 < d.geo.ttPgs := by
    simp only [Flash.markGrainValid, hg, bind_eq_ok] at h8
    obtain ⟨q, hq, _, hv, -⟩ := h8
    simp only [Geometry.ppaToStruct, bind_eq_ok] at hq
    obtain ⟨_, hlt, -⟩ := hq
    exact ⟨ensure_eq_ok.mp hv, ensure_eq_ok.mp hlt⟩
  have r0 := Runs.init (P := P) _ hopened
  have r1 := r0.call (.take .user) trivial (hP _ _) (by
    simp only [run, h5, ok_bind]
    rfl)
  have r2 := r1.call (.mark 0 d.gpp) ⟨hgpp, by rw [Device.gOffset, Nat.zero_mod]; omega,
      by rw [hg]; exact hst.2, by rw [hg, hst.1]; exact fun h => (by cases h), Finset.notMem_empty _,
      Finset.disjoint_empty_left _⟩ (hP _ _) (by
    simp only [run, h8, ok_bind]
    rfl)
  have hline := Nat.mul_pos hw.pgsPerLine_pos hgpp
  have hone : d.gpp ≤ d.grainsPerLine := Nat.le_mul_of_pos_left _ hw.pgsPerLine_pos
  have hports := portions_page (d := d) (l := 0) (x := 0) hgpp (by rw [Nat.zero_mod]; omega)
  rw [hpage] at hports
  have r3 := r2.call (.giveUp 0 0 d.gpp) ⟨hw.blks_pos, Finset.notMem_empty _, hgpp, by omega,
      hports.subset, fun hm => absurd hm (by rw [Nat.zero_mod]; omega)⟩ (hP _ _) (by
    simp only [run, hpage, h9, ok_bind]
    rfl)
  refine ⟨_, r3, rfl, Finset.empty_union _, ?_⟩
  change insert (0, d.gpp) ∅ \ d.portions 0 0 d.gpp = ∅
  rw [hports]
  exact Finset.sdiff_self _

/-- Calls that were allowed belong to the run. -/
theorem Runs.calls {P : Accounts → Call → Prop} [∀ s c, Decidable (P s c)] {cs : List Call}
    (h : Runs d P s) (hrun : Accounts.calls d P s cs = .ok s') : Runs d P s' := by
  induction cs generalizing s with
  | nil =>
    cases hrun
    exact h
  | cons c cs ih =>
    simp only [Accounts.calls, bind_eq_ok] at hrun
    obtain ⟨_, hc, s1, h1, hrun⟩ := hrun
    obtain ⟨hallowed, hp⟩ := ensure_eq_ok.mp hc
    exact ih (h.call c hallowed hp h1) hrun

/-- Lines of two pages, one on each LUN. -/
def pairDevice : Device where
  build := .original
  geo := { nchs := 1, lunsPerCh := 2, blksPerPl := 8, oneshotpgsPerBlk := 1, pgsPerOneshotpg := 1 }
  maxCached := 1
  hash _ := 0

theorem wf_pairDevice : pairDevice.geo.Wf := by constructor <;> decide

/-- Lines 0 and 4 are filled. A portion of line 0 is given up, and three of line 4, two of them
over two pages at once. -/
def fillTwo : List Call :=
  [.take .user, .take .user, .mark 0 8, .mark 64 4, .mark 68 4,
    .take .user, .mark 32 6, .mark 38 2, .take .user, .mark 96 4, .mark 100 4,
    .giveUp 0 12 4, .giveUp 4 0 6, .giveUp 4 6 6]

/-- The collector takes line 4, copies what is left on it, erases both blocks and gives the line
back. -/
def collectFour : List Call :=
  [.collect (40 * 512), .take .gc, .mark 24 4, .erase ⟨0, 0, 4, 0⟩, .erase ⟨0, 1, 4, 0⟩, .release 4]

/-- Line 5 is filled and half of it given up. -/
def fillFive : List Call :=
  [.take .user, .take .user, .mark 40 8, .mark 104 8, .giveUp 5 0 8]

/-- The accounts behind some calls on a fresh device. -/
def after (P : Accounts → Call → Prop) [∀ s c, Decidable (P s c)] (cs : List Call) :
    Except Fault Accounts := do
  let s ← opened pairDevice
  calls pairDevice P s cs

theorem runs_of_after {P : Accounts → Call → Prop} [∀ s c, Decidable (P s c)] {cs : List Call}
    (h : after P cs = .ok s) : Runs pairDevice P s := by
  obtain ⟨s0, h0, h1⟩ := bind_eq_ok.mp h
  exact (Runs.init s0 h0).calls h1

end Accounts

end Virtkv
