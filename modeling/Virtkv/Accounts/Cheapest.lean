import Virtkv.Accounts.Exact

/-!
# The cheapest victim

The victim queue is ordered by the valid grains of its lines. Handing out pages, giving up
grains and collecting keep the order, since each of them goes through the queue;
`mark_grain_valid` does not. In runs that mark no grains on queued lines the collector gets a
line with the fewest valid grains.

## Main results

- `Flash.Ranked.select` — the choice of a victim in a queue in order
- `Runs.cheapest` — in a run without marks on queued lines the victim is the cheapest
-/

namespace Virtkv

open Outcome

namespace Flash

variable {d : Device} {f f' : Flash} {L : Grains} {home home' : ℕ → Place} {l len : ℕ}

/-- The victim queue is in heap order. -/
def Ranked (f : Flash) : Prop := PQueue.Ordered f.pri f.victimPq

theorem Ranked.of_eq (h : f.Ranked) (hpq : f'.victimPq = f.victimPq) (hpri : f'.pri = f.pri) :
    f'.Ranked := by
  rw [Ranked, hpq, hpri]
  exact h

/-- A line that is not queued may change. -/
theorem Ranked.of_pri (h : f.Ranked) (hok : f.victimPq.Ok) (hpq : f'.victimPq = f.victimPq)
    (hl : f.victimPq.pos l = 0) (hpri : ∀ z, z ≠ l → f'.pri z = f.pri z) : f'.Ranked := by
  rw [Ranked, hpq]
  refine h.congr rfl fun k hk hks => hpri _ ?_
  rintro rfl
  rw [hok.pos_d k hk hks] at hl
  omega

/-! ### Marking -/

theorem Ranked.marked (h : f.Ranked) (hok : f.victimPq.Ok) (grain : ℕ)
    (hl : f.victimPq.pos (d.geo.lineOf (d.gIdx grain)) = 0) : (f.marked d grain len).Ranked := by
  obtain ⟨-, -, -, hpq, -⟩ := marked_frame (d := d) f grain len
  refine h.of_pri hok hpq hl fun z hz => ?_
  simp only [pri, lines_marked, Function.update_of_ne hz]

/-- `pqueue_change_priority` goes along with the counter. -/
theorem Ranked.lowerVgc (h : f.Ranked) (hok : f.victimPq.Ok) (hpos : 0 < len)
    (hle : len ≤ (f.lines l).vgc) : (f.lowerVgc l len).Ranked := by
  have hpri : (f.setLine l
      { f.lines l with vgc := (f.lines l).vgc - len, igc := (f.lines l).igc + len }).pri =
        Function.update f.pri l (f.pri l - len) := by
    funext z
    by_cases hz : z = l
    · rw [hz, Function.update_self]
      simp only [pri, setLine, Function.update_self]
    · rw [Function.update_of_ne hz]
      simp only [pri, setLine, Function.update_of_ne hz]
  rw [Flash.lowerVgc]
  dsimp only
  split
  · rename_i hq
    change PQueue.Ordered (Flash.pri (f.setLine l _)) (f.victimPq.changePriority _ _ l)
    rw [hpri]
    have hlower : decide (0 < len) = decide (f.pri l - len < f.pri l) := by
      have : len ≤ f.pri l := hle
      rw [decide_eq_decide]
      omega
    rw [hlower]
    change f.victimPq.pos l ≠ 0 at hq
    obtain ⟨his, hd⟩ := hok.d_pos l hq
    refine PQueue.Ordered.changePriority h (Nat.pos_of_ne_zero hq) his fun k hk hks => ?_
    constructor
    · rintro rfl
      exact (hok.pos_d k hk hks).symm
    · rintro rfl
      exact hd
  · rename_i hq
    change ¬(f.victimPq.pos l ≠ 0) at hq
    refine h.of_pri hok rfl (not_not.mp hq) fun z hz => ?_
    rw [hpri, Function.update_of_ne hz]

theorem Ranked.addVictim (h : f.Ranked) (hs : 1 ≤ f.victimPq.size)
    (hrun : f.addVictim d l = .ok f') : f'.Ranked := by
  simp only [Flash.addVictim, pqInsert, bind_eq_ok] at hrun
  obtain ⟨f1, ⟨_, -, h1⟩, h2⟩ := hrun
  cases h1
  cases h2
  exact PQueue.Ordered.insert h hs l

/-- What one round of `mark_grain_invalid` does to the order. A line that was not full only
changes its place in the queue. -/
theorem Ranked.invalidPage {grain page : ℕ} {w : Bool} (h : f.Ranked) (hok : f.victimPq.Ok)
    (hrun : f.markGrainInvalidPage d l grain page len false = .ok (w, f')) : f'.Ranked ∧
      ((f.lines l).vgc < d.grainsPerLine →
        w = false ∧ f'.victimPq.Ok ∧ (f'.lines l).vgc < d.grainsPerLine) := by
  simp only [markGrainInvalidPage, bind_eq_ok, ensure_eq_ok] at hrun
  obtain ⟨-, hpos, -, -, -, -, -, -, -, -, -, -, -, hle, f1, h1, -, -, f2, h2, h3⟩ := hrun
  cases h3
  have hrank := Ranked.lowerVgc (f := f.addBlkIgc (blkOf d page) len) h hok hpos hle
  obtain ⟨q, hlow, hqok, -⟩ := lowerVgc_spec (f.addBlkIgc (blkOf d page) len) l len hok
  obtain ⟨hl2, -, -, hpq2, -⟩ := killed_frame d f1 grain page len
  rw [← killGrain_ok h2] at hl2 hpq2
  have hpri2 : f'.pri = f1.pri := by
    funext z
    simp only [pri, hl2]
  rw [demote] at h1
  constructor
  · refine Ranked.of_eq ?_ hpq2 hpri2
    split at h1
    · refine Ranked.addVictim (f := delFull _ l) (hrank.of_eq rfl rfl) ?_ h1
      rw [hlow]
      exact hqok.size_pos
    · cases h1
      exact hrank
  · intro hfull
    have hw : decide (d.grainsPerLine ≤ (f.lines l).vgc) = false := decide_eq_false (by omega)
    rw [Bool.false_or, hw, if_neg Bool.false_ne_true] at h1
    cases h1
    refine ⟨by rw [Bool.false_or, hw], ?_, ?_⟩
    · rw [hpq2, hlow]
      exact hqok
    · rw [hl2, hlow]
      change (Function.update f.lines l _ l).vgc < _
      rw [Function.update_self]
      change (f.lines l).vgc - len < d.grainsPerLine
      omega

/-- `mark_grain_invalid` of a line that is full, on one page, or of any other line. -/
theorem Ranked.invalidLoop (fuel : ℕ) {p : Ppa} {grain page rem : ℕ} (h : f.Ranked)
    (hok : f.victimPq.Ok)
    (hmulti : d.gpp < d.gOffset grain + rem → (f.lines p.blk).vgc < d.grainsPerLine)
    (hrun : markGrainInvalidLoop d fuel f p grain page rem false = .ok f') : f'.Ranked := by
  induction fuel generalizing f p grain page rem with
  | zero => cases hrun
  | succ fuel ih =>
    simp only [markGrainInvalidLoop, bind_eq_ok] at hrun
    obtain ⟨⟨w, f1⟩, h1, hrun⟩ := hrun
    obtain ⟨hrank, hkeep⟩ := h.invalidPage hok h1
    split at hrun
    · cases hrun
      exact hrank
    · rename_i hmore
      obtain ⟨hw, hok1, hlt⟩ := hkeep (hmulti (by omega))
      subst hw
      simp only [bind_eq_ok, ensure_eq_ok] at hrun
      obtain ⟨q, -, -, hblk, pg, -, hrun⟩ := hrun
      exact ih hrank hok1 (fun _ => by rwa [hblk]) hrun

/-! ### Pages and victims -/

theorem Takes.ranked {io : IoType} {r pgidx : ℕ} (h : Takes d f f' home home' io r pgidx)
    (hok : f.victimPq.Ok) (hr : f.Ranked) : f'.Ranked := by
  have hpri : f'.pri = f.pri := funext h.vgc
  cases h.moves with
  | page _ _ hpq => exact hr.of_eq hpq hpri
  | line _ _ _ _ _ _ hret =>
    cases hret with
    | full _ hpq => exact hr.of_eq hpq hpri
    | victim _ hpq =>
      rw [Ranked, hpq, hpri]
      exact PQueue.Ordered.insert hr hok.size_pos _

/-- A line that was taken out keeps the rest in order. -/
theorem Ranked.pop (h : f.Ranked) (hs : 1 ≤ f.victimPq.size) (x : ℕ) :
    PQueue.Ordered f.pri ((f.victimPq.pop f.pri).forget x) :=
  (PQueue.Ordered.pop h hs).congr rfl fun _ _ _ => rfl

/-- The head of a queue in order is the cheapest line. -/
theorem Ranked.head_le {q : PQueue ℕ} (h : PQueue.Ordered f.pri q) (hok : q.Ok) {z : ℕ}
    (hz : q.pos z ≠ 0) : f.pri (q.d 1) ≤ f.pri z := by
  obtain ⟨hlt, hd⟩ := hok.d_pos z hz
  have hle := h.root_le (Nat.pos_of_ne_zero hz) hlt
  rwa [hd] at hle

/-- The second round of `select_victim_line`, with line `cur` put aside. -/
theorem Ranked.selectAside {cur offset fuel : ℕ} {v : Option ℕ} (h : f.Ranked)
    (hok : f.victimPq.Ok) (hs : f.victimPq.size ≠ 1) (hcur : f.victimPq.d 1 = cur)
    (hid : InvLog.grain2lineid d (offset / d.gu) = .ok cur)
    (hrun : selectLoop d offset fuel (some cur) f.popVictim = .ok (v, f')) :
    f'.Ranked ∧ ∀ l, v = some l → ∀ z, f.victimPq.pos z ≠ 0 → z ≠ cur → f.pri l ≤ f.pri z := by
  have hs1 := hok.size_pos
  obtain ⟨hok1, hsize1, habs, hpos1⟩ := hok.pop f.pri hs
  have hrank1 := h.pop hs1 cur
  rw [hcur] at hok1 habs hpos1
  set q1 := (f.victimPq.pop f.pri).forget cur with hq1
  have hsz1 : q1.size = (f.victimPq.pop f.pri).size := rfl
  cases fuel with
  | zero => cases hrun
  | succ fuel =>
    rw [selectLoop] at hrun
    cases hpk : f.popVictim.victimPq.peek with
    | none =>
      simp only [hpk, putBack, pqInsert, bind_eq_ok] at hrun
      obtain ⟨f1, ⟨_, -, h1⟩, h2⟩ := hrun
      cases h1
      cases h2
      refine ⟨?_, fun l hl => by cases hl⟩
      exact PQueue.Ordered.insert (PQueue.Ordered.pop h hs1) hok1.size_pos cur
    | some l =>
      obtain ⟨hne, hd⟩ := peek_eq_some hpk
      have hd1 : q1.d 1 = l := hd
      have hlc : l ≠ cur := by
        rw [← hd]
        refine habs 1 le_rfl ?_
        have hpos := hok1.size_pos
        change q1.size ≠ 1 at hne
        change 1 < q1.size
        omega
      simp only [hpk, hid, ok_bind] at hrun
      rw [if_neg hlc] at hrun
      simp only [putBack, pqInsert, bind_eq_ok] at hrun
      obtain ⟨f1, ⟨_, -, h1⟩, h2⟩ := hrun
      cases h1
      cases h2
      refine ⟨?_, fun l' hl' z hz hzc => ?_⟩
      · -- the line put aside is inserted behind the second head
        have hrank2 : PQueue.Ordered f.pri (((f.victimPq.pop f.pri).pop f.pri).forget l) :=
          (PQueue.Ordered.pop (PQueue.Ordered.pop h hs1) hok1.size_pos).congr rfl fun _ _ _ => rfl
        refine PQueue.Ordered.insert hrank2 ?_ cur
        change 1 ≤ ((f.victimPq.pop f.pri).pop f.pri).size
        rw [PQueue.pop_eq, PQueue.size_percolateLoop]
        have hpos := hok1.size_pos
        change q1.size ≠ 1 at hne
        change 1 ≤ q1.size - 1
        omega
      · obtain rfl := Option.some.inj hl'
        rw [← hd1]
        exact Ranked.head_le hrank1 hok1 ((hpos1 z).mpr ⟨hz, hzc⟩)

/-- `select_victim_line` of a queue in order returns the cheapest line that stores do not go
to, and leaves the queue in order. -/
theorem Ranked.select {cur offset : ℕ} {v : Option ℕ} (h : f.Ranked) (hok : f.victimPq.Ok)
    (hid : InvLog.grain2lineid d (offset / d.gu) = .ok cur)
    (hrun : f.selectVictimLine d offset = .ok (v, f')) :
    f'.Ranked ∧ ∀ l, v = some l → ∀ z, f.victimPq.pos z ≠ 0 → z ≠ cur → f.pri l ≤ f.pri z := by
  have hs1 := hok.size_pos
  rw [selectVictimLine, selectLoop] at hrun
  cases hpk : f.victimPq.peek with
  | none =>
    simp only [hpk, putBack, ok_bind] at hrun
    cases hrun
    exact ⟨h, fun l hl => by cases hl⟩
  | some l =>
    obtain ⟨hs, hd⟩ := peek_eq_some hpk
    simp only [hpk, hid, ok_bind] at hrun
    split at hrun
    · rename_i hlc
      subst hlc
      exact h.selectAside hok hs hd hid hrun
    · cases hrun
      refine ⟨h.pop hs1 l, fun l' hl' z hz _ => ?_⟩
      obtain rfl := Option.some.inj hl'
      rw [← hd]
      exact Ranked.head_le h hok hz

end Flash

/-! ### Runs -/

namespace Accounts

variable {d : Device} {s s' : Accounts} {L : Grains} {home : ℕ → Place}

/-- No grains are marked on a queued line. -/
def Settled (d : Device) (s : Accounts) : Call → Prop
  | .mark grain _ => s.flash.victimPq.pos (d.geo.lineOf (d.gIdx grain)) = 0
  | _ => True

instance (s : Accounts) (c : Call) : Decidable (Settled d s c) :=
  match c with
  | .mark _ _ => inferInstanceAs (Decidable (_ = 0))
  | .take _ | .giveUp _ _ _ | .collect _ | .erase _ | .release _ => inferInstanceAs (Decidable True)

theorem ranked_opened (h : opened d = .ok s) : s.flash.Ranked := by
  have hsize : Yields (opened d) (fun _ => True) fun s => s.flash.victimPq.size = 1 := by
    refine (Flash.prepare_yields fun _ => ?_).mono (fun _ _ => trivial) fun _ h => h
    rfl
  intro k hk hks
  rw [hsize.of_eq_ok h] at hks
  omega

/-- A call keeps the order. -/
theorem Kept.ranked (h : Kept d s L home) (hw : d.geo.Wf) (hr : s.flash.Ranked) (c : Call)
    (hc : Allowed d s c) (hset : Settled d s c) (hrun : s.run d c = .ok s') : s'.flash.Ranked := by
  have hok := h.inv.places.pq
  cases c with
  | take io =>
    obtain ⟨r, hptr⟩ := h.inv.places.pointer io
    simp only [Accounts.run, bind_eq_ok] at hrun
    obtain ⟨⟨p, pgidx, f⟩, h1, h2⟩ := hrun
    cases h2
    obtain ⟨-, home', ht⟩ := (Flash.takePage_yields h.inv hw hptr).of_eq_ok h1
    exact ht.ranked hok hr
  | mark grain len =>
    simp only [Accounts.run, bind_eq_ok] at hrun
    obtain ⟨f, h1, h2⟩ := hrun
    cases h2
    rw [h.inv.markGrainValid_eq hw (h.fresh hc)] at h1
    cases h1
    exact hr.marked hok grain hset
  | giveUp l x n =>
    obtain ⟨hl, -, hpos, hin, -, hmulti⟩ := hc
    simp only [Accounts.run, bind_eq_ok] at hrun
    obtain ⟨f, h1, h2⟩ := hrun
    cases h2
    simp only [Flash.markGrainInvalid, bind_eq_ok] at h1
    obtain ⟨p, hp, _, -, h1⟩ := h1
    refine hr.invalidLoop _ hok (fun hm => ?_) h1
    rw [(Geometry.ppaToStruct_blk hp).1, Device.lineOf_grainAt hw hl (by omega)]
    rw [Device.gOffset_grainAt] at hm
    -- a line whose grains are all valid is on the full list
    by_contra hfull
    exact hmulti hm ((h.inv.places.full l).mpr ⟨hl, h.inv.full_of_vgc hw hl (not_lt.mp hfull)⟩)
  | collect offset =>
    obtain ⟨p, hp, -⟩ := Geometry.ppaToStruct_of_lt hc
    have hid : InvLog.grain2lineid d (offset / d.gu) = .ok p.blk := by
      rw [InvLog.grain2lineid, hp]
      rfl
    simp only [Accounts.run, bind_eq_ok] at hrun
    obtain ⟨⟨v, f⟩, h1, h2⟩ := hrun
    cases h2
    exact (hr.select hok hid h1).1
  | erase p =>
    obtain ⟨f', hrun', hwipe⟩ := Flash.markBlockFree_eq (f := s.flash) hw hc.1
    simp only [Accounts.run, hrun', ok_bind] at hrun
    cases hrun
    exact hr.of_eq hwipe.victimPq (funext fun z => by simp only [Flash.pri, hwipe.lines])
  | release l =>
    cases hrun
    have hq : s.flash.victimPq.pos l = 0 := by
      by_contra hne
      have := ((h.inv.places.victim l).mp hne).2
      rw [(h.hand l hc.1).2] at this
      cases this
    refine hr.of_pri hok rfl hq fun z hz => ?_
    simp only [Flash.pri, Flash.lines_markLineFree, if_neg hz]

theorem Runs.ranked (h : Runs d (Settled d) s) (hw : d.geo.Wf) (hlt : d.geo.ttLines < 2 ^ 32) :
    s.flash.Ranked := by
  induction h with
  | init s h => exact ranked_opened h
  | call c hs hc hset hrun ih =>
    obtain ⟨L, home, hk⟩ := hs.kept hw hlt
    exact hk.ranked hw ih c hc hset hrun

end Accounts

end Virtkv
