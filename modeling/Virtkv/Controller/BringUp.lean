import Mathlib.Tactic.SplitIfs
import Virtkv.Controller.Defs

/-!
# Bringing the controller up

However the writes of the host fall between the accesses of the dispatcher, the controller is
only ready with an admin queue that has the size of the registers and the page tables of the
addresses taken over; and the round under way and four more take over everything the host
wrote. What the dispatcher does not see, the order in which the host wrote, has no influence on
that.

## Main results

- `Inv.write`, `Inv.access` — a write and an access keep the invariant
- `Inv.settle` — five rounds process everything
- `Reaches.bringsUp` — safety in every run, and five rounds to get there
-/

namespace Virtkv.Controller

/-! ### Page tables -/

/-- The pages of a ring of `depth` entries of `size` bytes at an address. -/
def pageTable (base depth size : ℕ) : List ℕ :=
  (List.range (numPages depth size)).map (base / pageSize + ·)

/-- A page table covers a ring; there is none as long as the address was never set. -/
def Covers (table : Option (List ℕ)) (base depth size : ℕ) : Prop :=
  table = some (pageTable base depth size) ∨ table = none ∧ base = 0

/-- A page table of `n` pages, the first `i` of which are filled. -/
def partTable (base i n : ℕ) : List ℕ :=
  (List.range i).map (base / pageSize + ·) ++ List.replicate (n - i) 0

theorem partTable_zero (base n : ℕ) : partTable base 0 n = List.replicate n 0 := rfl

theorem partTable_self (base n : ℕ) :
    partTable base n n = (List.range n).map (base / pageSize + ·) := by
  rw [partTable, Nat.sub_self, List.replicate_zero, List.append_nil]

theorem partTable_succ {base i n : ℕ} (h : i < n) :
    (partTable base i n).set i (base / pageSize + i) = partTable base (i + 1) n := by
  have hlen : ((List.range i).map (base / pageSize + ·)).length = i := by
    rw [List.length_map, List.length_range]
  obtain ⟨k, hk⟩ : ∃ k, n - i = k + 1 := ⟨n - i - 1, by omega⟩
  have hk' : n - (i + 1) = k := by omega
  rw [partTable, partTable, hk, hk', List.replicate_succ,
    List.set_append_right _ _ (Nat.le_of_eq hlen), hlen, Nat.sub_self, List.set_cons_zero,
    List.range_succ, List.map_append, List.append_assoc]
  rfl

theorem numPages_le {depth size : ℕ} (hd : depth ≤ 2 ^ 12) (hs : size ≤ 64) :
    numPages depth size ≤ 64 := by
  have hmul : depth * size ≤ 2 ^ 12 * 64 := Nat.mul_le_mul hd hs
  unfold numPages pageSize
  omega

theorem asqs_lt (aqa : ℕ) : asqs aqa < 2 ^ 12 := Nat.mod_lt _ (by decide)

theorem acqs_lt (aqa : ℕ) : acqs aqa < 2 ^ 12 := Nat.mod_lt _ (by decide)

/-! ### The invariant -/

namespace Ctrl

variable {s : Ctrl} {q : AdminQueue}

theorem withQueue_of (hq : s.adminQ = some q) (f : AdminQueue → Ctrl) :
    s.withQueue f = .ok (f q) := by
  rw [withQueue, hq]

theorem withTable_of {table : AdminQueue → Option (List ℕ)} {pages : List ℕ}
    (hq : s.adminQ = some q) (ht : table q = some pages) (f : AdminQueue → List ℕ → Ctrl) :
    s.withTable table f = .ok (f q pages) := by
  rw [withTable, hq]
  dsimp only
  rw [ht]

end Ctrl

/-- The queue has the sizes that were processed. -/
structure Sized (o : OldBar) (q : AdminQueue) : Prop where
  sqDepth : q.sqDepth = asqs o.aqa + 1
  cqDepth : q.cqDepth = acqs o.aqa + 1

/-- The queue is new: it has no page tables, and no addresses were processed. -/
structure Unset (o : OldBar) (q : AdminQueue) : Prop where
  nvmeSq : q.nvmeSq = none
  nvmeCq : q.nvmeCq = none
  asq : o.asq = 0
  acq : o.acq = 0

def SqCovered (o : OldBar) (q : AdminQueue) : Prop := Covers q.nvmeSq o.asq q.sqDepth commandSz
def CqCovered (o : OldBar) (q : AdminQueue) : Prop := Covers q.nvmeCq o.acq q.cqDepth completionSz

/-- The admin queue has the sizes and the addresses that were processed. -/
structure Built (o : OldBar) (q : AdminQueue) : Prop where
  sized : Sized o q
  sq : SqCovered o q
  cq : CqCovered o q

theorem Unset.sq {o : OldBar} {q : AdminQueue} (h : Unset o q) : SqCovered o q :=
  .inr ⟨h.nvmeSq, h.asq⟩

theorem Unset.cq {o : OldBar} {q : AdminQueue} (h : Unset o q) : CqCovered o q :=
  .inr ⟨h.nvmeCq, h.acq⟩

namespace Point

/-- The admin queue is not being built. -/
def Calm : Point → Prop
  | aqaAsqs | aqaAcqs | asqDepth | asqPage _ _ | acqDepth | acqPage _ _ => False
  | _ => True

/-- The admin queue, as far as the branch has built it. -/
def Holds (o : OldBar) (q : AdminQueue) : Point → Prop
  | aqaAsqs => Unset o q
  | aqaAcqs => Unset o q ∧ q.sqDepth = asqs o.aqa + 1
  | asqDepth => Sized o q ∧ CqCovered o q
  | asqPage i n => Sized o q ∧ CqCovered o q ∧ n = numPages q.sqDepth commandSz ∧ i ≤ n ∧
      q.nvmeSq = some (partTable o.asq i n)
  | acqDepth => Sized o q ∧ SqCovered o q
  | acqPage i n => Sized o q ∧ SqCovered o q ∧ n = numPages q.cqDepth completionSz ∧ i ≤ n ∧
      q.nvmeCq = some (partTable o.acq i n)
  | _ => Built o q

/-- Why the dispatcher is in a branch. -/
def Entered (s : Ctrl) : Point → Prop
  | aqaRecord => s.oldBar.aqa ≠ s.bar.aqa
  | aqaAsqs | aqaAcqs => s.adminQ ≠ none ∧ en s.oldBar.cc ≠ 1
  | asqRecord | acqRecord => s.adminQ ≠ none
  | asqDepth | asqPage _ _ => s.adminQ ≠ none ∧ s.oldBar.asq = s.bar.asq
  | acqDepth | acqPage _ _ => s.adminQ ≠ none ∧ s.oldBar.acq = s.bar.acq
  | ccDis => en s.bar.cc ≠ 1
  | _ => True

/-- The configuration that `csts.rdy` follows: behind its enable bit, the one of the register. -/
def configOf (s : Ctrl) : Point → ℕ
  | ccShn | ccRecord => s.bar.cc
  | _ => s.oldBar.cc

theorem holds_iff {p : Point} (hp : p.Calm) (o : OldBar) (q : AdminQueue) :
    p.Holds o q ↔ Built o q := by
  cases p <;> first | exact Iff.rfl | exact hp.elim

end Point

/-- The invariant of the controller. -/
structure Inv (s : Ctrl) : Prop where
  known : s.oldBar.aqa = s.bar.aqa ∨ s.oldBar.aqa = 0
  queue : s.adminQ = none ↔ s.oldBar.aqa = 0
  fresh : s.adminQ = none → s.oldBar.asq = 0 ∧ s.oldBar.acq = 0
  enabled : en s.bar.cc = 1 ∨ shn s.bar.cc = 1 →
    s.bar.aqa ≠ 0 ∧ (s.oldBar.aqa ≠ 0 ∨ s.point.seesAqa = true)
  taken : en s.oldBar.cc = 1 → s.oldBar.aqa ≠ 0
  holds : ∀ q, s.adminQ = some q → s.point.Holds s.oldBar q
  ready : s.rdy = decide (en (s.point.configOf s) = 1)
  entered : s.point.Entered s

namespace Inv

variable {s t : Ctrl} {q : AdminQueue}

theorem init : Inv Ctrl.init where
  known := .inl rfl
  queue := ⟨fun _ => rfl, fun _ => rfl⟩
  fresh _ := ⟨rfl, rfl⟩
  enabled h := by
    rcases h with h | h
    · exact absurd h (by decide)
    · exact absurd h (by decide)
  taken h := absurd h (by decide)
  holds q hq := by cases hq
  ready := rfl
  entered := trivial

/-! ### Writes -/

theorem write (h : Inv s) {v : ℕ} {r : Reg} (hp : Permitted s v r) :
    Inv { s with bar := s.bar.write v r } := by
  cases r with
  | aqa =>
    obtain ⟨hv, hold⟩ := hp
    have henabled (hc : en s.bar.cc = 1 ∨ shn s.bar.cc = 1) :
        v ≠ 0 ∧ (s.oldBar.aqa ≠ 0 ∨ s.point.seesAqa = true) := ⟨hv, (h.enabled hc).2⟩
    have hknown : s.oldBar.aqa = v ∨ s.oldBar.aqa = 0 := by
      rcases h.known with hk | hk
      · exact hold.elim (fun h0 => .inr (hk.trans h0)) fun hsame => .inl (hk.trans hsame)
      · exact .inr hk
    refine ⟨hknown, h.queue, h.fresh, henabled, h.taken, h.holds, ?_, ?_⟩
    · have hready := h.ready
      cases hpt : s.point <;> rw [hpt] at hready <;> exact hready
    · have hent := h.entered
      cases hpt : s.point <;> rw [hpt] at hent <;> try exact hent
      -- the size was not processed when it changed, so it was 0
      have h0 : s.oldBar.aqa = 0 := h.known.resolve_left hent
      change s.oldBar.aqa ≠ v
      rw [h0]
      exact hv.symm
  | cc =>
    obtain ⟨hfree, hen⟩ := hp
    refine ⟨h.known, h.queue, h.fresh, hen, h.taken, h.holds, ?_, ?_⟩
    · have hready := h.ready
      cases hpt : s.point <;> rw [hpt] at hready hfree <;>
        first | exact hready | cases hfree
    · have hent := h.entered
      cases hpt : s.point <;> rw [hpt] at hent hfree <;>
        first | exact hent | cases hfree
  | asqLo | asqHi =>
    refine ⟨h.known, h.queue, h.fresh, h.enabled, h.taken, h.holds, ?_, ?_⟩
    · have hready := h.ready
      cases hpt : s.point <;> rw [hpt] at hready <;> exact hready
    · have hent := h.entered
      have hfree : s.point.fillsSq = false := hp
      cases hpt : s.point <;> rw [hpt] at hent hfree <;>
        first | exact hent | cases hfree
  | acqLo | acqHi =>
    refine ⟨h.known, h.queue, h.fresh, h.enabled, h.taken, h.holds, ?_, ?_⟩
    · have hready := h.ready
      cases hpt : s.point <;> rw [hpt] at hready <;> exact hready
    · have hent := h.entered
      have hfree : s.point.fillsCq = false := hp
      cases hpt : s.point <;> rw [hpt] at hent hfree <;>
        first | exact hent | cases hfree

/-! ### Accesses -/

/-- An enabled controller has processed the size, unless the round will see it. -/
theorem processed (h : Inv s) (hmiss : s.point.seesAqa = false)
    (hc : en s.bar.cc = 1 ∨ shn s.bar.cc = 1) : s.oldBar.aqa ≠ 0 :=
  (h.enabled hc).2.resolve_right fun hsees => by
    rw [hmiss] at hsees
    cases hsees

theorem exists_queue (h : Inv s) (h0 : s.oldBar.aqa ≠ 0) : ∃ q, s.adminQ = some q :=
  Option.ne_none_iff_exists'.mp fun hnone => h0 (h.queue.mp hnone)

/-- The queue a branch works on. -/
theorem queue_at (h : Inv s) {p : Point} (hp : s.point = p) (hne : s.adminQ ≠ none) :
    ∃ q, s.adminQ = some q ∧ p.Holds s.oldBar q ∧ s.oldBar.aqa = s.bar.aqa := by
  obtain ⟨q, hq⟩ := Option.ne_none_iff_exists'.mp hne
  refine ⟨q, hq, hp ▸ h.holds q hq, h.known.resolve_right fun h0 => hne (h.queue.mpr h0)⟩

/-- From a point at which the queue is not being built to another one. -/
theorem move (h : Inv s) {p : Point} {b : Bool} (hs : s.point.Calm) (hp : p.Calm)
    (hready : b = decide (en (p.configOf s) = 1)) (hent : p.Entered s)
    (hsees : s.point.seesAqa = true → p.seesAqa = true ∨ s.oldBar.aqa = s.bar.aqa) :
    Inv { s with rdy := b, point := p } where
  known := h.known
  queue := h.queue
  fresh := h.fresh
  enabled hc := by
    obtain ⟨h0, hpast⟩ := h.enabled hc
    refine ⟨h0, ?_⟩
    rcases hpast with hpast | hpast
    · exact .inl hpast
    · rcases hsees hpast with hp | heq
      · exact .inr hp
      · exact .inl fun he => h0 (heq.symm.trans he)
  taken := h.taken
  holds q hq := (Point.holds_iff hp _ q).mpr ((Point.holds_iff hs _ q).mp (h.holds q hq))
  ready := by cases p <;> exact hready
  entered := by cases p <;> exact hent

/-- From a point behind the comparison of `aqa`. -/
theorem moveOn (h : Inv s) {p : Point} {b : Bool} (hs : s.point.Calm)
    (hmiss : s.point.seesAqa = false) (hp : p.Calm)
    (hready : b = decide (en (p.configOf s) = 1)) (hent : p.Entered s) :
    Inv { s with rdy := b, point := p } :=
  h.move hs hp hready hent fun hsees => by
    rw [hmiss] at hsees
    cases hsees

/-- A step that only moves on. -/
theorem goTo (h : Inv s) {p p' : Point} (hp : s.point = p) (hcalm : p.Calm)
    (hmiss : p.seesAqa = false) (hcalm' : p'.Calm) (hconfig : p'.configOf s = p.configOf s)
    (hent : p'.Entered s) : Inv (s.goTo p') := by
  subst hp
  exact h.moveOn hcalm hmiss hcalm' (by rw [hconfig]; exact h.ready) hent

/-- A branch works on the queue. -/
theorem branch (h : Inv s) {p : Point} {q' : AdminQueue} (hp : s.point = p)
    (hmiss : p.seesAqa = false) (hq : s.adminQ = some q) (ht : t.adminQ = some q')
    (hbar : t.bar = s.bar) (haqa : t.oldBar.aqa = s.oldBar.aqa) (hcc : t.oldBar.cc = s.oldBar.cc)
    (hrdy : t.rdy = s.rdy) (hconfig : t.point.configOf t = p.configOf s)
    (hholds : t.point.Holds t.oldBar q') (hent : t.point.Entered t) : Inv t where
  known := by
    rw [haqa, hbar]
    exact h.known
  queue := by
    rw [ht, haqa, ← h.queue, hq]
    exact ⟨by rintro ⟨⟩, by rintro ⟨⟩⟩
  fresh hnone := by
    rw [ht] at hnone
    cases hnone
  enabled hc := by
    rw [hbar] at hc ⊢
    rw [haqa]
    exact ⟨(h.enabled hc).1, .inl (h.processed (hp ▸ hmiss) hc)⟩
  taken hc := by
    rw [hcc] at hc
    rw [haqa]
    exact h.taken hc
  holds q₁ hq₁ := by
    rw [ht] at hq₁
    cases hq₁
    exact hholds
  ready := by
    rw [hrdy, hconfig, ← hp]
    exact h.ready
  entered := hent

/-! #### `aqa` -/

theorem access_aqa (h : Inv s) (hp : s.point = .aqa) : ∃ t, s.access = .ok t ∧ Inv t := by
  have hready := h.ready
  rw [hp] at hready
  refine ⟨_, by rw [Ctrl.access, hp], ?_⟩
  split_ifs with heq
  · exact h.move (by rw [hp]; trivial) trivial hready trivial fun _ => .inr heq
  · exact h.move (by rw [hp]; trivial) trivial hready heq fun _ => .inl rfl

theorem access_aqaRecord (h : Inv s) (hp : s.point = .aqaRecord) :
    ∃ t, s.access = .ok t ∧ Inv t := by
  have hne := h.entered
  rw [hp] at hne
  have h0 : s.oldBar.aqa = 0 := h.known.resolve_left hne
  have hnone : s.adminQ = none := h.queue.mpr h0
  have hbar : s.bar.aqa ≠ 0 := fun he => hne (h0.trans he.symm)
  obtain ⟨hasq, hacq⟩ := h.fresh hnone
  have hready := h.ready
  rw [hp] at hready
  refine ⟨s.recordAqa, by rw [Ctrl.access, hp], .inl rfl,
    ⟨by rintro ⟨⟩, fun he => absurd he hbar⟩, by rintro ⟨⟩, fun hc => ⟨hbar, .inl hbar⟩,
    fun hc => absurd h0 (h.taken hc), ?_, hready, by rintro ⟨⟩, fun hc => h.taken hc h0⟩
  rintro q ⟨⟩
  rw [hnone]
  exact ⟨rfl, rfl, hasq, hacq⟩

theorem access_aqaAsqs (h : Inv s) (hp : s.point = .aqaAsqs) : ∃ t, s.access = .ok t ∧ Inv t := by
  have hent := h.entered
  rw [hp] at hent
  obtain ⟨hne, hcc⟩ := hent
  obtain ⟨q, hq, hu, haqa⟩ := h.queue_at hp hne
  refine ⟨s.setAsqs q, by rw [Ctrl.access, hp]; exact Ctrl.withQueue_of hq _, ?_⟩
  refine h.branch hp rfl hq rfl rfl rfl rfl rfl rfl ⟨?_, ?_⟩
    ⟨by rintro ⟨⟩, hcc⟩
  · exact ⟨hu.nvmeSq, hu.nvmeCq, hu.asq, hu.acq⟩
  · change asqs s.bar.aqa + 1 = asqs s.oldBar.aqa + 1
    rw [haqa]

theorem access_aqaAcqs (h : Inv s) (hp : s.point = .aqaAcqs) : ∃ t, s.access = .ok t ∧ Inv t := by
  have hent := h.entered
  rw [hp] at hent
  obtain ⟨q, hq, ⟨hu, hdepth⟩, haqa⟩ := h.queue_at hp hent.1
  refine ⟨s.setAcqs q, by rw [Ctrl.access, hp]; exact Ctrl.withQueue_of hq _, ?_⟩
  refine h.branch hp rfl hq rfl rfl rfl rfl rfl rfl ⟨⟨hdepth, ?_⟩, ?_, ?_⟩
    trivial
  · change acqs s.bar.aqa + 1 = acqs s.oldBar.aqa + 1
    rw [haqa]
  · exact .inr ⟨hu.nvmeSq, hu.asq⟩
  · exact .inr ⟨hu.nvmeCq, hu.acq⟩

/-! #### `asq` -/

theorem access_asq (h : Inv s) (hp : s.point = .asq) : ∃ t, s.access = .ok t ∧ Inv t := by
  refine ⟨_, by rw [Ctrl.access, hp], ?_⟩
  split_ifs with heq hnone
  · exact h.goTo hp trivial rfl trivial rfl trivial
  · exact h.goTo hp trivial rfl trivial rfl trivial
  · refine h.goTo hp trivial rfl trivial rfl fun hq => hnone ?_
    rw [hq]
    rfl

theorem access_asqRecord (h : Inv s) (hp : s.point = .asqRecord) :
    ∃ t, s.access = .ok t ∧ Inv t := by
  have hent := h.entered
  rw [hp] at hent
  obtain ⟨q, hq, hb, -⟩ := h.queue_at hp hent
  refine ⟨s.recordAsq q, by rw [Ctrl.access, hp]; exact Ctrl.withQueue_of hq _, ?_⟩
  exact h.branch hp rfl hq rfl rfl rfl rfl rfl rfl
    ⟨⟨hb.sized.sqDepth, hb.sized.cqDepth⟩, hb.cq⟩ ⟨by rintro ⟨⟩, rfl⟩

theorem access_asqDepth (h : Inv s) (hp : s.point = .asqDepth) :
    ∃ t, s.access = .ok t ∧ Inv t := by
  have hent := h.entered
  rw [hp] at hent
  obtain ⟨hne, hasq⟩ := hent
  obtain ⟨q, hq, ⟨hsized, hcq⟩, haqa⟩ := h.queue_at hp hne
  refine ⟨s.allocSq q, by rw [Ctrl.access, hp]; exact Ctrl.withQueue_of hq _, ?_⟩
  refine h.branch hp rfl hq rfl rfl rfl rfl rfl rfl
    ⟨⟨?_, hsized.cqDepth⟩, hcq, rfl, Nat.zero_le _, congrArg some (partTable_zero _ _).symm⟩
    ⟨by rintro ⟨⟩, hasq⟩
  change asqs s.bar.aqa + 1 = asqs s.oldBar.aqa + 1
  rw [haqa]

theorem access_asqPage (h : Inv s) {i n : ℕ} (hp : s.point = .asqPage i n) :
    ∃ t, s.access = .ok t ∧ Inv t := by
  have hent := h.entered
  rw [hp] at hent
  obtain ⟨hne, hasq⟩ := hent
  obtain ⟨q, hq, ⟨hsized, hcq, hn, hle, htable⟩, -⟩ := h.queue_at hp hne
  refine ⟨s.fillSq q _ i n, by rw [Ctrl.access, hp]; exact Ctrl.withTable_of hq htable _, ?_⟩
  unfold Ctrl.fillSq
  split_ifs with hi
  · rw [← hasq, partTable_succ hi]
    exact h.branch hp rfl hq rfl rfl rfl rfl rfl rfl
      ⟨⟨hsized.sqDepth, hsized.cqDepth⟩, hcq, hn, hi, rfl⟩ ⟨by rintro ⟨⟩, hasq⟩
  · have heq : i = n := by omega
    subst heq
    refine h.branch hp rfl hq hq rfl rfl rfl rfl rfl
      ⟨hsized, .inl ?_, hcq⟩ trivial
    rw [htable, partTable_self, pageTable, hn]

/-! #### `acq` -/

theorem access_acq (h : Inv s) (hp : s.point = .acq) : ∃ t, s.access = .ok t ∧ Inv t := by
  refine ⟨_, by rw [Ctrl.access, hp], ?_⟩
  split_ifs with heq hnone
  · exact h.goTo hp trivial rfl trivial rfl trivial
  · exact h.goTo hp trivial rfl trivial rfl trivial
  · refine h.goTo hp trivial rfl trivial rfl fun hq => hnone ?_
    rw [hq]
    rfl

theorem access_acqRecord (h : Inv s) (hp : s.point = .acqRecord) :
    ∃ t, s.access = .ok t ∧ Inv t := by
  have hent := h.entered
  rw [hp] at hent
  obtain ⟨q, hq, hb, -⟩ := h.queue_at hp hent
  refine ⟨s.recordAcq q, by rw [Ctrl.access, hp]; exact Ctrl.withQueue_of hq _, ?_⟩
  exact h.branch hp rfl hq rfl rfl rfl rfl rfl rfl
    ⟨⟨hb.sized.sqDepth, hb.sized.cqDepth⟩, hb.sq⟩ ⟨by rintro ⟨⟩, rfl⟩

theorem access_acqDepth (h : Inv s) (hp : s.point = .acqDepth) :
    ∃ t, s.access = .ok t ∧ Inv t := by
  have hent := h.entered
  rw [hp] at hent
  obtain ⟨hne, hacq⟩ := hent
  obtain ⟨q, hq, ⟨hsized, hsq⟩, haqa⟩ := h.queue_at hp hne
  refine ⟨s.allocCq q, by rw [Ctrl.access, hp]; exact Ctrl.withQueue_of hq _, ?_⟩
  refine h.branch hp rfl hq rfl rfl rfl rfl rfl rfl
    ⟨⟨hsized.sqDepth, ?_⟩, hsq, rfl, Nat.zero_le _, congrArg some (partTable_zero _ _).symm⟩
    ⟨by rintro ⟨⟩, hacq⟩
  change acqs s.bar.aqa + 1 = acqs s.oldBar.aqa + 1
  rw [haqa]

theorem access_acqPage (h : Inv s) {i n : ℕ} (hp : s.point = .acqPage i n) :
    ∃ t, s.access = .ok t ∧ Inv t := by
  have hent := h.entered
  rw [hp] at hent
  obtain ⟨hne, hacq⟩ := hent
  obtain ⟨q, hq, ⟨hsized, hsq, hn, hle, htable⟩, -⟩ := h.queue_at hp hne
  refine ⟨s.fillCq q _ i n, by rw [Ctrl.access, hp]; exact Ctrl.withTable_of hq htable _, ?_⟩
  unfold Ctrl.fillCq
  split_ifs with hi
  · rw [← hacq, partTable_succ hi]
    exact h.branch hp rfl hq rfl rfl rfl rfl rfl rfl
      ⟨⟨hsized.sqDepth, hsized.cqDepth⟩, hsq, hn, hi, rfl⟩ ⟨by rintro ⟨⟩, hacq⟩
  · have heq : i = n := by omega
    subst heq
    refine h.branch hp rfl hq hq rfl rfl rfl rfl rfl
      ⟨hsized, hsq, .inl ?_⟩ trivial
    rw [htable, partTable_self, pageTable, hn]

/-! #### `cc` -/

theorem access_cc (h : Inv s) (hp : s.point = .cc) : ∃ t, s.access = .ok t ∧ Inv t := by
  refine ⟨_, by rw [Ctrl.access, hp], ?_⟩
  split_ifs with heq
  · exact h.goTo hp trivial rfl trivial rfl trivial
  · exact h.goTo hp trivial rfl trivial rfl trivial

theorem access_ccEn (h : Inv s) (hp : s.point = .ccEn) : ∃ t, s.access = .ok t ∧ Inv t := by
  refine ⟨s.enable, by rw [Ctrl.access, hp], ?_⟩
  unfold Ctrl.enable
  split_ifs with hen
  · have hmiss : s.point.seesAqa = false := by
      rw [hp]
      rfl
    obtain ⟨q, hq⟩ := h.exists_queue (h.processed hmiss (.inl hen))
    refine h.moveOn (by rw [hp]; trivial) hmiss trivial ?_ trivial
    rw [hq]
    exact (decide_eq_true hen).symm
  · exact h.goTo hp trivial rfl trivial rfl hen

theorem access_ccDis (h : Inv s) (hp : s.point = .ccDis) : ∃ t, s.access = .ok t ∧ Inv t := by
  have hen := h.entered
  rw [hp] at hen
  have h0 : en s.bar.cc = 0 := by
    have hlt : en s.bar.cc < 2 := Nat.mod_lt _ (by decide)
    have hne : en s.bar.cc ≠ 1 := hen
    omega
  refine ⟨s.disable, by rw [Ctrl.access, hp], ?_⟩
  rw [Ctrl.disable, if_pos h0]
  exact h.moveOn (by rw [hp]; trivial) (by rw [hp]; rfl) trivial (decide_eq_false hen).symm trivial

theorem access_ccShn (h : Inv s) (hp : s.point = .ccShn) : ∃ t, s.access = .ok t ∧ Inv t := by
  have hmiss : s.point.seesAqa = false := by
    rw [hp]
    rfl
  by_cases hshn : shn s.bar.cc = 1
  · obtain ⟨q, hq⟩ := h.exists_queue (h.processed hmiss (.inr hshn))
    have hb : Built s.oldBar q := (Point.holds_iff (by rw [hp]; trivial) _ q).mp (h.holds q hq)
    refine ⟨_, by rw [Ctrl.access, hp]; exact (if_pos hshn).trans (by rw [hq]), ?_⟩
    exact h.branch hp rfl hq rfl rfl rfl rfl rfl rfl
      ⟨⟨hb.sized.sqDepth, hb.sized.cqDepth⟩, hb.sq, hb.cq⟩ trivial
  · refine ⟨s.goTo .ccRecord, by rw [Ctrl.access, hp]; exact if_neg hshn, ?_⟩
    exact h.goTo hp trivial rfl trivial rfl trivial

theorem access_ccRecord (h : Inv s) (hp : s.point = .ccRecord) :
    ∃ t, s.access = .ok t ∧ Inv t := by
  have hready := h.ready
  rw [hp] at hready
  have hmiss : s.point.seesAqa = false := by
    rw [hp]
    rfl
  refine ⟨s.recordCc, by rw [Ctrl.access, hp], h.known, h.queue, h.fresh,
    fun hc => ⟨(h.enabled hc).1, .inl (h.processed hmiss hc)⟩,
    fun hc => h.processed hmiss (.inl hc), fun q hq => ?_, hready, trivial⟩
  have hb : Built s.oldBar q := (Point.holds_iff (by rw [hp]; trivial) _ q).mp (h.holds q hq)
  exact ⟨⟨hb.sized.sqDepth, hb.sized.cqDepth⟩, hb.sq, hb.cq⟩

/-- Every access succeeds and keeps the invariant. -/
theorem access (h : Inv s) : ∃ t, s.access = .ok t ∧ Inv t := by
  cases hp : s.point with
  | aqa => exact h.access_aqa hp
  | aqaRecord => exact h.access_aqaRecord hp
  | aqaAsqs => exact h.access_aqaAsqs hp
  | aqaAcqs => exact h.access_aqaAcqs hp
  | asq => exact h.access_asq hp
  | asqRecord => exact h.access_asqRecord hp
  | asqDepth => exact h.access_asqDepth hp
  | asqPage i n => exact h.access_asqPage hp
  | acq => exact h.access_acq hp
  | acqRecord => exact h.access_acqRecord hp
  | acqDepth => exact h.access_acqDepth hp
  | acqPage i n => exact h.access_acqPage hp
  | cc => exact h.access_cc hp
  | ccEn => exact h.access_ccEn hp
  | ccDis => exact h.access_ccDis hp
  | ccShn => exact h.access_ccShn hp
  | ccRecord => exact h.access_ccRecord hp

theorem step (h : Inv s) (ht : s.access = .ok t) : Inv t := by
  obtain ⟨u, hu, hinv⟩ := h.access
  rw [ht] at hu
  cases hu
  exact hinv

end Inv

theorem Reaches.inv {s : Ctrl} (h : Reaches s) : Inv s := by
  induction h with
  | init => exact Inv.init
  | write _ hp ih => exact ih.write hp
  | access _ ht ih => exact ih.step ht

/-! ### Rounds -/

/-- A register that is not processed yet counts 1. -/
def waits (old new : ℕ) : ℕ := if old = new then 0 else 1

theorem waits_eq_zero {a b : ℕ} : waits a b = 0 ↔ a = b := by
  unfold waits
  split <;> simp [*]

@[simp]
theorem waits_self (a : ℕ) : waits a a = 0 := waits_eq_zero.mpr rfl

theorem waits_of_ne {a b : ℕ} (h : a ≠ b) : waits a b = 1 := if_neg h

theorem waits_le (a b : ℕ) : waits a b ≤ 1 := by
  unfold waits
  split <;> decide

/-- The registers that are not processed yet. -/
def Ctrl.pending (s : Ctrl) : ℕ :=
  waits s.oldBar.aqa s.bar.aqa + waits s.oldBar.asq s.bar.asq +
    waits s.oldBar.acq s.bar.acq + waits s.oldBar.cc s.bar.cc

/-- All registers were processed. -/
structure Current (s : Ctrl) : Prop where
  aqa : s.oldBar.aqa = s.bar.aqa
  asq : s.oldBar.asq = s.bar.asq
  acq : s.oldBar.acq = s.bar.acq
  cc : s.oldBar.cc = s.bar.cc

/-- How far it is to the end of the round: a page table has at most 64 pages. -/
def Point.rank : Point → ℕ
  | aqa => 100
  | asq => 99
  | acq => 98
  | cc => 97
  | aqaRecord => 3
  | aqaAsqs => 2
  | aqaAcqs => 1
  | asqRecord | acqRecord => 70
  | asqDepth | acqDepth => 69
  | asqPage i n | acqPage i n => n - i + 1
  | ccEn => 4
  | ccDis => 3
  | ccShn => 2
  | ccRecord => 1

namespace Ctrl

variable {s t u : Ctrl}

theorem pending_le (s : Ctrl) : s.pending ≤ 4 := by
  have haqa := waits_le s.oldBar.aqa s.bar.aqa
  have hasq := waits_le s.oldBar.asq s.bar.asq
  have hacq := waits_le s.oldBar.acq s.bar.acq
  have hcc := waits_le s.oldBar.cc s.bar.cc
  unfold pending
  omega

theorem pending_eq_zero : s.pending = 0 ↔ Current s := by
  simp only [pending, Nat.add_eq_zero_iff, waits_eq_zero]
  constructor
  · rintro ⟨⟨⟨haqa, hasq⟩, hacq⟩, hcc⟩
    exact ⟨haqa, hasq, hacq, hcc⟩
  · rintro ⟨haqa, hasq, hacq, hcc⟩
    exact ⟨⟨⟨haqa, hasq⟩, hacq⟩, hcc⟩

/-- What an access leaves alone: the registers, and what was processed. It ends the round or
brings its end nearer. -/
structure Advances (s t : Ctrl) : Prop where
  bar : t.bar = s.bar
  pending : t.pending ≤ s.pending
  rank : t.point = .aqa ∨ t.point.rank < s.point.rank

theorem withQueue_eq {f : AdminQueue → Ctrl} (h : s.withQueue f = .ok t) : ∃ q, t = f q := by
  unfold withQueue at h
  split at h
  · cases h
  · cases h
    exact ⟨_, rfl⟩

theorem withTable_eq {table : AdminQueue → Option (List ℕ)} {f : AdminQueue → List ℕ → Ctrl}
    (h : s.withTable table f = .ok t) : ∃ q pages, t = f q pages := by
  unfold withTable at h
  split at h
  · cases h
  split at h
  · cases h
  · cases h
    exact ⟨_, _, rfl⟩

theorem advances_of_access (h : s.access = .ok t) : Advances s t := by
  unfold access at h
  cases hp : s.point <;> rw [hp] at h
  case aqa =>
    cases h
    refine ⟨rfl, Nat.le_refl _, .inr ?_⟩
    rw [hp]
    change Point.rank (if _ then _ else _) < _
    split_ifs <;> decide
  case aqaRecord =>
    cases h
    refine ⟨rfl, ?_, .inr (by rw [hp]; exact (by decide : 2 < 3))⟩
    simp only [pending, recordAqa, waits_self]
    omega
  case aqaAsqs =>
    obtain ⟨q, rfl⟩ := withQueue_eq h
    exact ⟨rfl, Nat.le_refl _, .inr (by rw [hp]; exact (by decide : 1 < 2))⟩
  case aqaAcqs =>
    obtain ⟨q, rfl⟩ := withQueue_eq h
    exact ⟨rfl, Nat.le_refl _, .inl rfl⟩
  case asq =>
    cases h
    refine ⟨rfl, Nat.le_refl _, ?_⟩
    rw [hp]
    change (if _ then _ else if _ then _ else _) = Point.aqa ∨
      Point.rank (if _ then _ else if _ then _ else _) < _
    split_ifs <;> decide
  case asqRecord =>
    obtain ⟨q, rfl⟩ := withQueue_eq h
    refine ⟨rfl, ?_, .inr (by rw [hp]; exact (by decide : 69 < 70))⟩
    simp only [pending, recordAsq, waits_self]
    omega
  case asqDepth =>
    obtain ⟨q, rfl⟩ := withQueue_eq h
    refine ⟨rfl, Nat.le_refl _, .inr ?_⟩
    have hle : numPages (asqs s.bar.aqa + 1) commandSz ≤ 64 :=
      numPages_le (asqs_lt s.bar.aqa) (by decide)
    rw [hp]
    change numPages (asqs s.bar.aqa + 1) commandSz - 0 + 1 < 69
    omega
  case asqPage i n =>
    obtain ⟨q, pages, rfl⟩ := withTable_eq h
    unfold fillSq
    split_ifs with hi
    · refine ⟨rfl, Nat.le_refl _, .inr ?_⟩
      rw [hp]
      change n - (i + 1) + 1 < n - i + 1
      omega
    · exact ⟨rfl, Nat.le_refl _, .inl rfl⟩
  case acq =>
    cases h
    refine ⟨rfl, Nat.le_refl _, ?_⟩
    rw [hp]
    change (if _ then _ else if _ then _ else _) = Point.aqa ∨
      Point.rank (if _ then _ else if _ then _ else _) < _
    split_ifs <;> decide
  case acqRecord =>
    obtain ⟨q, rfl⟩ := withQueue_eq h
    refine ⟨rfl, ?_, .inr (by rw [hp]; exact (by decide : 69 < 70))⟩
    simp only [pending, recordAcq, waits_self]
    omega
  case acqDepth =>
    obtain ⟨q, rfl⟩ := withQueue_eq h
    refine ⟨rfl, Nat.le_refl _, .inr ?_⟩
    have hle : numPages (acqs s.bar.aqa + 1) completionSz ≤ 64 :=
      numPages_le (acqs_lt s.bar.aqa) (by decide)
    rw [hp]
    change numPages (acqs s.bar.aqa + 1) completionSz - 0 + 1 < 69
    omega
  case acqPage i n =>
    obtain ⟨q, pages, rfl⟩ := withTable_eq h
    unfold fillCq
    split_ifs with hi
    · refine ⟨rfl, Nat.le_refl _, .inr ?_⟩
      rw [hp]
      change n - (i + 1) + 1 < n - i + 1
      omega
    · exact ⟨rfl, Nat.le_refl _, .inl rfl⟩
  case cc =>
    cases h
    refine ⟨rfl, Nat.le_refl _, ?_⟩
    rw [hp]
    change (if _ then _ else _) = Point.aqa ∨ Point.rank (if _ then _ else _) < _
    split_ifs <;> decide
  case ccEn =>
    cases h
    refine ⟨?_, ?_, .inr ?_⟩
    · unfold enable
      split_ifs <;> rfl
    · unfold enable
      split_ifs <;> exact Nat.le_refl _
    · rw [hp, enable]
      split_ifs
      · exact (by decide : 2 < 4)
      · exact (by decide : 3 < 4)
  case ccDis =>
    cases h
    exact ⟨rfl, Nat.le_refl _, .inr (by rw [hp]; exact (by decide : 2 < 3))⟩
  case ccShn =>
    dsimp only at h
    unfold shutdown at h
    split_ifs at h
    · split at h
      · cases h
      · cases h
        exact ⟨rfl, Nat.le_refl _, .inr (by rw [hp]; exact (by decide : 1 < 2))⟩
    · cases h
      exact ⟨rfl, Nat.le_refl _, .inr (by rw [hp]; exact (by decide : 1 < 2))⟩
  case ccRecord =>
    cases h
    refine ⟨rfl, ?_, .inl rfl⟩
    simp only [pending, recordCc, waits_self]
    omega

theorem Rounds.trans {m n : ℕ} (h : Rounds m s t) (h' : Rounds n t u) : Rounds (m + n) s u := by
  induction h with
  | done _ =>
    rw [Nat.zero_add]
    exact h'
  | access hacc hp _ ih => exact .access hacc hp (ih h')
  | last hacc hp _ ih =>
    rw [Nat.add_right_comm]
    exact .last hacc hp (ih h')

end Ctrl

/-- What the dispatcher has done when its rounds are through. -/
structure Settles (n k : ℕ) (s t : Ctrl) : Prop where
  rounds : Ctrl.Rounds n s t
  inv : Inv t
  bar : t.bar = s.bar
  point : t.point = .aqa
  pending : t.pending ≤ k

namespace Inv

variable {s t : Ctrl}

/-- The round ends, and nothing is pending that was not before. -/
theorem finish (h : Inv s) : ∃ t, Settles 1 s.pending s t := by
  generalize hr : s.point.rank = r
  induction r using Nat.strongRecOn generalizing s with
  | ind r ih =>
    obtain ⟨t, ht, hinv⟩ := h.access
    have hadv := Ctrl.advances_of_access ht
    by_cases hp : t.point = .aqa
    · exact ⟨t, .last ht hp (.done hp), hinv, hadv.bar, hp, hadv.pending⟩
    · have hlt := hadv.rank.resolve_left hp
      rw [hr] at hlt
      obtain ⟨u, hu⟩ := ih _ hlt hinv rfl
      exact ⟨u, .access ht hp hu.rounds, hu.inv, hu.bar.trans hadv.bar, hu.point,
        Nat.le_trans hu.pending hadv.pending⟩

/-- One access, and then the rest of the round. -/
theorem settles_of_access {k : ℕ} (ht : s.access = .ok t) (hp : t.point ≠ .aqa)
    (h : ∃ u, Settles 1 k t u) : ∃ u, Settles 1 k s u := by
  obtain ⟨u, hu⟩ := h
  exact ⟨u, .access ht hp hu.rounds, hu.inv, hu.bar.trans (Ctrl.advances_of_access ht).bar,
    hu.point, hu.pending⟩

/-- The branch of a register has recorded it. -/
theorem settles_of_record {k : ℕ} (h : Inv s) (ht : s.access = .ok t) (hp : t.point ≠ .aqa)
    (hk : t.pending ≤ k) : ∃ u, Settles 1 k s u := by
  obtain ⟨u, hu⟩ := (h.step ht).finish
  exact settles_of_access ht hp ⟨u, { hu with pending := Nat.le_trans hu.pending hk }⟩

/-- The configuration is recorded at the end of its branch. -/
theorem settles_of_ccRecord (h : Inv s) (hp : s.point = .ccRecord) {k : ℕ}
    (hk : s.recordCc.pending ≤ k) : ∃ u, Settles 1 k s u := by
  have ht : s.access = .ok s.recordCc := by rw [Ctrl.access, hp]
  exact ⟨_, .last ht rfl (.done rfl), h.step ht, rfl, rfl, hk⟩

theorem settles_of_ccShn (h : Inv s) (hp : s.point = .ccShn) {k : ℕ}
    (hk : s.recordCc.pending ≤ k) : ∃ u, Settles 1 k s u := by
  obtain ⟨t, ht, hinv⟩ := h.access
  obtain ⟨hpt, hpend⟩ : t.point = .ccRecord ∧ t.recordCc.pending = s.recordCc.pending := by
    rw [Ctrl.access, hp] at ht
    dsimp only at ht
    unfold Ctrl.shutdown at ht
    split_ifs at ht
    · split at ht
      · cases ht
      · cases ht
        exact ⟨rfl, rfl⟩
    · cases ht
      exact ⟨rfl, rfl⟩
  refine settles_of_access ht (by rw [hpt]; rintro ⟨⟩) (hinv.settles_of_ccRecord hpt ?_)
  rwa [hpend]

theorem settles_of_ccEn (h : Inv s) (hp : s.point = .ccEn) {k : ℕ}
    (hk : s.recordCc.pending ≤ k) : ∃ u, Settles 1 k s u := by
  have ht : s.access = .ok s.enable := by rw [Ctrl.access, hp]
  have hinv := h.step ht
  by_cases hen : en s.bar.cc = 1
  · have heq : s.enable = { s with rdy := s.adminQ.isSome || s.rdy, point := .ccShn } := if_pos hen
    rw [heq] at ht hinv
    exact settles_of_access ht (by rintro ⟨⟩) (hinv.settles_of_ccShn rfl hk)
  · have heq : s.enable = s.goTo .ccDis := if_neg hen
    rw [heq] at ht hinv
    have ht' : (s.goTo .ccDis).access = .ok (s.goTo .ccDis).disable := rfl
    exact settles_of_access ht (by rintro ⟨⟩)
      (settles_of_access ht' (by rintro ⟨⟩) ((hinv.step ht').settles_of_ccShn rfl hk))

/-- A round from the first comparison on processes a register that waits. -/
theorem round (h : Inv s) (hp : s.point = .aqa) (h0 : s.bar.aqa ≠ 0) :
    ∃ t, Settles 1 (s.pending - 1) s t := by
  by_cases haqa : s.oldBar.aqa = s.bar.aqa
  swap
  · have h1 : s.access = .ok (s.goTo .aqaRecord) := by rw [Ctrl.access, hp, if_neg haqa]
    refine settles_of_access h1 (by rintro ⟨⟩)
      ((h.step h1).settles_of_record rfl (by rintro ⟨⟩) ?_)
    simp only [Ctrl.pending, Ctrl.recordAqa, Ctrl.goTo, waits_self, waits_of_ne haqa]
    omega
  obtain ⟨q, hq⟩ := h.exists_queue (haqa ▸ h0)
  have hnone : ¬s.adminQ.isNone = true := by
    rw [hq]
    exact Bool.false_ne_true
  have h1 : s.access = .ok (s.goTo .asq) := by rw [Ctrl.access, hp, if_pos haqa]
  refine settles_of_access h1 (by rintro ⟨⟩) ?_
  have i1 := h.step h1
  by_cases hasq : s.oldBar.asq = s.bar.asq
  swap
  · have h2 : (s.goTo .asq).access = .ok (s.goTo .asqRecord) :=
      congrArg (fun p => (.ok (s.goTo p) : Except Fault Ctrl))
        ((if_neg hasq).trans (if_neg hnone))
    have h3 : (s.goTo .asqRecord).access = .ok ((s.goTo .asqRecord).recordAsq q) :=
      Ctrl.withQueue_of hq _
    refine settles_of_access h2 (by rintro ⟨⟩)
      ((i1.step h2).settles_of_record h3 (by rintro ⟨⟩) ?_)
    simp only [Ctrl.pending, Ctrl.recordAsq, Ctrl.goTo, waits_self, waits_of_ne hasq]
    omega
  have h2 : (s.goTo .asq).access = .ok (s.goTo .acq) :=
    congrArg (fun p => (.ok (s.goTo p) : Except Fault Ctrl)) (if_pos hasq)
  refine settles_of_access h2 (by rintro ⟨⟩) ?_
  have i2 := i1.step h2
  by_cases hacq : s.oldBar.acq = s.bar.acq
  swap
  · have h3 : (s.goTo .acq).access = .ok (s.goTo .acqRecord) :=
      congrArg (fun p => (.ok (s.goTo p) : Except Fault Ctrl))
        ((if_neg hacq).trans (if_neg hnone))
    have h4 : (s.goTo .acqRecord).access = .ok ((s.goTo .acqRecord).recordAcq q) :=
      Ctrl.withQueue_of hq _
    refine settles_of_access h3 (by rintro ⟨⟩)
      ((i2.step h3).settles_of_record h4 (by rintro ⟨⟩) ?_)
    simp only [Ctrl.pending, Ctrl.recordAcq, Ctrl.goTo, waits_self, waits_of_ne hacq]
    omega
  have h3 : (s.goTo .acq).access = .ok (s.goTo .cc) :=
    congrArg (fun p => (.ok (s.goTo p) : Except Fault Ctrl)) (if_pos hacq)
  refine settles_of_access h3 (by rintro ⟨⟩) ?_
  have i3 := i2.step h3
  by_cases hcc : s.oldBar.cc = s.bar.cc
  swap
  · have h4 : (s.goTo .cc).access = .ok (s.goTo .ccEn) :=
      congrArg (fun p => (.ok (s.goTo p) : Except Fault Ctrl)) (if_neg hcc)
    refine settles_of_access h4 (by rintro ⟨⟩) ((i3.step h4).settles_of_ccEn rfl ?_)
    simp only [Ctrl.pending, Ctrl.recordCc, Ctrl.goTo, waits_self, waits_of_ne hcc]
    omega
  -- nothing waits
  have hzero : (s.goTo .cc).pending = 0 := Ctrl.pending_eq_zero.mpr ⟨haqa, hasq, hacq, hcc⟩
  obtain ⟨t, ht⟩ := i3.finish
  refine ⟨t, { ht with pending := Nat.le_trans ht.pending ?_ }⟩
  rw [hzero]
  exact Nat.zero_le _

/-- Enough rounds process everything. -/
theorem settle (h : Inv s) (hp : s.point = .aqa) (h0 : s.bar.aqa ≠ 0) {n : ℕ}
    (hn : s.pending ≤ n) : ∃ t, Settles n 0 s t := by
  induction n generalizing s with
  | zero => exact ⟨s, .done hp, h, rfl, hp, hn⟩
  | succ n ih =>
    obtain ⟨t, ht⟩ := h.round hp h0
    have hle : t.pending ≤ n := by
      have := ht.pending
      omega
    obtain ⟨u, hu⟩ := ih ht.inv ht.point (ht.bar ▸ h0) hle
    refine ⟨u, ?_, hu.inv, hu.bar.trans ht.bar, hu.point, hu.pending⟩
    rw [Nat.add_comm]
    exact ht.rounds.trans hu.rounds

/-- A controller that is ready has an admin queue with its sizes. -/
theorem of_rdy (h : Inv s) (hr : s.rdy = true) :
    ∃ q, s.adminQ = some q ∧ Sized s.oldBar q ∧ s.oldBar.aqa = s.bar.aqa := by
  have hen : en (s.point.configOf s) = 1 := of_decide_eq_true (h.ready.symm.trans hr)
  have h0 : s.oldBar.aqa ≠ 0 := by
    have htaken := h.taken
    have hproc := h.processed
    cases hp : s.point <;> rw [hp] at hen hproc <;>
      first | exact htaken hen | exact hproc rfl (.inl hen)
  obtain ⟨q, hq⟩ := h.exists_queue h0
  refine ⟨q, hq, ?_, h.known.resolve_right h0⟩
  have hholds := h.holds q hq
  have hent := h.entered
  cases hp : s.point <;> rw [hp] at hen hholds hent
  case aqaAsqs => exact absurd hen hent.2
  case aqaAcqs => exact absurd hen hent.2
  case asqDepth => exact hholds.1
  case asqPage => exact hholds.1
  case acqDepth => exact hholds.1
  case acqPage => exact hholds.1
  all_goals exact hholds.sized

end Inv

namespace Point

variable {p : Point} {o : OldBar} {q : AdminQueue}

theorem Holds.sq (h : p.Holds o q) (hp : p.fillsSq = false) : SqCovered o q := by
  cases p
  case aqaAsqs => exact Unset.sq h
  case aqaAcqs => exact Unset.sq h.1
  case asqDepth => cases hp
  case asqPage => cases hp
  case acqDepth => exact h.2
  case acqPage => exact h.2.1
  all_goals exact Built.sq h

theorem Holds.cq (h : p.Holds o q) (hp : p.fillsCq = false) : CqCovered o q := by
  cases p
  case aqaAsqs => exact Unset.cq h
  case aqaAcqs => exact Unset.cq h.1
  case asqDepth => exact h.2
  case asqPage => exact h.2.1
  case acqDepth => cases hp
  case acqPage => cases hp
  all_goals exact Built.cq h

end Point

/-- In every run every access of the dispatcher succeeds. A controller that is ready has an admin
queue of the size the host gave, and its page tables, when they are not being filled, are those
of the addresses taken over. Once the host has given the queue a size, the round under way and
four more, without a write, take everything over, and the controller is ready exactly if the
host has enabled it. -/
theorem Reaches.bringsUp {s : Ctrl} (h : Reaches s) :
    (∃ t, s.access = .ok t) ∧
      (s.rdy = true → ∃ q, s.adminQ = some q ∧
        q.sqDepth = asqs s.bar.aqa + 1 ∧ q.cqDepth = acqs s.bar.aqa + 1 ∧
        (s.point.fillsSq = false → Covers q.nvmeSq s.oldBar.asq q.sqDepth commandSz) ∧
        (s.point.fillsCq = false → Covers q.nvmeCq s.oldBar.acq q.cqDepth completionSz)) ∧
      (s.bar.aqa ≠ 0 → ∃ u, Ctrl.Rounds 5 s u ∧ u.bar = s.bar ∧
        u.rdy = decide (en s.bar.cc = 1) ∧ ∃ q, u.adminQ = some q ∧
          q.sqDepth = asqs s.bar.aqa + 1 ∧ q.cqDepth = acqs s.bar.aqa + 1 ∧
          Covers q.nvmeSq s.bar.asq q.sqDepth commandSz ∧
          Covers q.nvmeCq s.bar.acq q.cqDepth completionSz) := by
  have hinv := h.inv
  refine ⟨?_, fun hr => ?_, fun h0 => ?_⟩
  · obtain ⟨t, ht, -⟩ := hinv.access
    exact ⟨t, ht⟩
  · obtain ⟨q, hq, hsized, haqa⟩ := hinv.of_rdy hr
    have hholds := hinv.holds q hq
    rw [← haqa]
    exact ⟨q, hq, hsized.sqDepth, hsized.cqDepth, hholds.sq, hholds.cq⟩
  · obtain ⟨t, ht⟩ := hinv.finish
    obtain ⟨u, hu⟩ := ht.inv.settle ht.point (ht.bar ▸ h0) t.pending_le
    have hcur := Ctrl.pending_eq_zero.mp (Nat.le_zero.mp hu.pending)
    have hbar : u.bar = s.bar := hu.bar.trans ht.bar
    obtain ⟨q, hq⟩ := hu.inv.exists_queue (by rw [hcur.aqa, hbar]; exact h0)
    have hb : Built u.oldBar q :=
      (Point.holds_iff (by rw [hu.point]; trivial) _ q).mp (hu.inv.holds q hq)
    have hready := hu.inv.ready
    rw [hu.point] at hready
    rw [← hbar]
    refine ⟨u, ht.rounds.trans hu.rounds, rfl, ?_, q, hq, ?_, ?_, ?_, ?_⟩
    · rw [← hcur.cc]
      exact hready
    · rw [← hcur.aqa]
      exact hb.sized.sqDepth
    · rw [← hcur.aqa]
      exact hb.sized.cqDepth
    · rw [← hcur.asq]
      exact hb.sq
    · rw [← hcur.acq]
      exact hb.cq

/-- A driver gives the controller a queue of 32 entries each way, while the dispatcher polls. It
writes the upper half of an address before the size and the lower half behind it, and the other
address while the first page table is filled. -/
def driverRun : List Act :=
  [.access, .write 5 .asqHi, .access, .access, .write (31 + 31 * 2 ^ 16) .aqa, .access, .access,
    .access, .write 4096 .asqLo, .access, .access, .access, .access, .access, .write 8192 .acqLo,
    .access, .access, .access, .write 1 .cc, .access]

theorem bringsUp_driver : ∃ s, Ctrl.init.run driverRun = some s ∧ s.point = .asq ∧
    ∃ u, Ctrl.Rounds 5 s u ∧ u.rdy = true ∧ ∃ q, u.adminQ = some q ∧ q.sqDepth = 32 ∧
      Covers q.nvmeSq (4096 + 2 ^ 32 * 5) 32 commandSz := by
  have hend : (Ctrl.init.run driverRun).map
      (fun s => (s.point, s.bar.aqa, s.bar.asq, s.bar.cc)) =
        some (.asq, 31 + 31 * 2 ^ 16, 4096 + 2 ^ 32 * 5, 1) := by
    decide +kernel
  obtain ⟨s, hs, hend⟩ := Option.map_eq_some_iff.mp hend
  obtain ⟨hpoint, haqa, hasq, hcc⟩ : s.point = .asq ∧ s.bar.aqa = 31 + 31 * 2 ^ 16 ∧
      s.bar.asq = 4096 + 2 ^ 32 * 5 ∧ s.bar.cc = 1 := by
    simpa only [Prod.mk.injEq] using hend
  obtain ⟨-, -, hup⟩ := Reaches.bringsUp (Reaches.init.run hs)
  rw [haqa, hasq, hcc] at hup
  obtain ⟨u, hu, -, hr, q, hq, hdepth, -, hsq, -⟩ := hup (by decide)
  refine ⟨s, hs, hpoint, u, hu, hr, q, hq, hdepth, ?_⟩
  rw [hdepth] at hsq
  exact hsq

end Virtkv.Controller
