import Virtkv.Gc.Defs
import Virtkv.Flash.Take

/-!
# The choice of a victim

`select_victim_line` takes the head of the victim queue. If that is the line stores go to,
it is put aside for the moment and the next one is taken.
-/

namespace Virtkv

open Outcome

namespace Flash

variable {d : Device} {f f' : Flash} {home : ℕ → Place} {cur offset : ℕ}

/-- What `select_victim_line` returns if stores go to line `cur`. -/
inductive Selects (f : Flash) (cur : ℕ) : Option ℕ → Flash → Prop
  | none (q : PQueue ℕ) (hok : q.Ok) (hsame : PQueue.SameElems f.victimPq q)
      (honly : ∀ z, f.victimPq.pos z ≠ 0 → z = cur) : Selects f cur none (f.setPq q)
  | line (l : ℕ) (q : PQueue ℕ) (hl : f.victimPq.pos l ≠ 0) (hne : l ≠ cur) (hok : q.Ok)
      (hsize : q.size + 1 = f.victimPq.size)
      (hpos : ∀ z, q.pos z ≠ 0 ↔ f.victimPq.pos z ≠ 0 ∧ z ≠ l) :
      Selects f cur (some l) ((f.setPq q).setVictimCnt (dec32 f.victimLineCnt))

theorem peek_eq_none {q : PQueue ℕ} (h : q.peek = none) : q.size = 1 := by
  unfold PQueue.peek at h
  split at h
  · assumption
  · cases h

theorem peek_eq_some {q : PQueue ℕ} {l : ℕ} (h : q.peek = some l) : q.size ≠ 1 ∧ q.d 1 = l := by
  unfold PQueue.peek at h
  split at h
  · cases h
  · rename_i hne
    exact ⟨hne, Option.some.inj h⟩

/-- An empty queue holds no line. -/
theorem pos_eq_zero_of_size {q : PQueue ℕ} (h : q.Ok) (hs : q.size = 1) (z : ℕ) : q.pos z = 0 := by
  by_contra hz
  have := (h.d_pos z hz).1
  omega

/-- The second round, with the line of stores put aside. -/
theorem selectLoop_aside (h : f.victimPq.Ok) (hroom : f.victimPq.size ≤ d.geo.ttLines + 1)
    (hs : f.victimPq.size ≠ 1) (hcur : f.victimPq.d 1 = cur)
    (hid : InvLog.grain2lineid d (offset / d.gu) = .ok cur) (fuel : ℕ) :
    ∃ v f', selectLoop d offset (fuel + 1) (some cur) f.popVictim = .ok (v, f') ∧
      Selects f cur v f' := by
  have hsz := h.size_pos
  obtain ⟨hok1, hsize1, habs1, hpos1⟩ := h.pop f.pri hs
  rw [hcur] at hok1 habs1 hpos1
  set q1 := f.victimPq.pop f.pri with hq1
  have hpq1 : f.popVictim.victimPq = q1 := rfl
  have hz1 : (q1.forget cur).pos cur = 0 := Function.update_self _ _ _
  have hcurpos : f.victimPq.pos cur ≠ 0 := by
    rw [← hcur, h.pos_d 1 le_rfl (by omega)]
    exact one_ne_zero
  unfold selectLoop
  rw [hpq1]
  cases hpk : q1.peek with
  | none =>
    have hs1 := peek_eq_none hpk
    have hpri : f.popVictim.pri = f.pri := rfl
    have hins : f.popVictim.pqInsert d cur = .ok (f.setPq (q1.insert f.pri cur)) := by
      rw [pqInsert, ensure_of (by rw [hpq1]; omega), ok_bind]
      rfl
    simp only [putBack, hins, ok_bind]
    obtain ⟨hok2, hsize2, hpos2⟩ := PQueue.Ok.insert f.pri hok1 hz1
    rw [PQueue.insert_forget] at hok2 hsize2 hpos2
    refine ⟨none, _, rfl, .none _ hok2 ⟨?_, fun z => ?_⟩ fun z hz => ?_⟩
    · rw [hsize2]
      show q1.size + 1 = _
      omega
    · rw [hpos2, hpos1]
      by_cases hzc : z = cur
      · simp [hzc, hcurpos]
      · simp [hzc]
    · by_contra hzc
      have := pos_eq_zero_of_size hok1 (show (q1.forget cur).size = 1 from hs1) z
      exact (hpos1 z).mpr ⟨hz, hzc⟩ this
  | some l =>
    obtain ⟨hs1, hd1⟩ := peek_eq_some hpk
    have hs1' : 2 ≤ q1.size := by
      have := hok1.size_pos
      have hs1'' : (q1.forget cur).size = q1.size := rfl
      omega
    have hlc : l ≠ cur := by
      rw [← hd1]
      exact habs1 1 le_rfl (by omega)
    simp only [hid, ok_bind]
    rw [if_neg hlc]
    set q2 := q1.pop f.pri with hq2
    have htake : f.popVictim.takeVictim l = (f.setPq (q2.forget l)).setVictimCnt
        (dec32 f.victimLineCnt) := rfl
    obtain ⟨hok3, hsize3, -, hpos3⟩ := hok1.pop f.pri hs1
    have hd1' : (q1.forget cur).d 1 = l := hd1
    rw [hd1'] at hok3 hpos3
    have hz3 : (((q1.forget cur).pop f.pri).forget l).pos cur = 0 := by
      by_contra hc
      exact absurd hz1 ((hpos3 cur).mp hc).1
    have hsz2 : q2.size = q1.size - 1 := by
      have : ((q1.forget cur).pop f.pri).size = q2.size := by
        rw [PQueue.pop_forget f.pri habs1 hs1']
        rfl
      rw [← this, hsize3]
      rfl
    obtain ⟨hok4, hsize4, hpos4⟩ := PQueue.Ok.insert f.pri hok3 hz3
    have hins4 := PQueue.pop_insert f.pri f.pri habs1 hs1'
    rw [hd1, ← hq2] at hins4
    rw [← hins4] at hok4 hsize4 hpos4
    have hins : (f.popVictim.takeVictim l).pqInsert d cur =
        .ok ((f.setPq ((q2.forget l).insert f.pri cur)).setVictimCnt (dec32 f.victimLineCnt)) := by
      rw [htake, pqInsert, ensure_of (by show q2.size < _; omega), ok_bind]
      rfl
    simp only [putBack, hins, ok_bind]
    refine ⟨some l, _, rfl, .line l _ ?_ hlc hok4 ?_ fun z => ?_⟩
    · have hl1 : (q1.forget cur).pos l ≠ 0 := by
        rw [← hd1', hok1.pos_d 1 le_rfl (show 1 < q1.size by omega)]
        exact one_ne_zero
      exact ((hpos1 l).mp hl1).1
    · rw [hsize4]
      have : (((q1.forget cur).pop f.pri).forget l).size = q1.size - 1 := hsize3
      omega
    · rw [hpos4, hpos3, hpos1]
      by_cases hzc : z = cur
      · simp [hzc, hcurpos, Ne.symm hlc]
      · simp [hzc]

/-- `select_victim_line` returns a line of the queue other than the one stores go to, or
nothing if there is no such line. -/
theorem selectVictimLine_eq (h : f.victimPq.Ok) (hroom : f.victimPq.size ≤ d.geo.ttLines + 1)
    (hid : InvLog.grain2lineid d (offset / d.gu) = .ok cur) :
    ∃ v f', f.selectVictimLine d offset = .ok (v, f') ∧ Selects f cur v f' := by
  have hsz := h.size_pos
  unfold selectVictimLine
  cases hpk : f.victimPq.peek with
  | none =>
    have hs := peek_eq_none hpk
    refine ⟨none, f, ?_, ?_⟩
    · unfold selectLoop
      rw [hpk]
      rfl
    · exact .none f.victimPq h ⟨rfl, fun _ => Iff.rfl⟩
        fun z hz => absurd (pos_eq_zero_of_size h hs z) hz
  | some l =>
    obtain ⟨hs, hd⟩ := peek_eq_some hpk
    by_cases hlc : l = cur
    · obtain ⟨v, f', hrun, hsel⟩ := selectLoop_aside h hroom hs (hd.trans hlc) hid
        (f.victimPq.size - 1)
      refine ⟨v, f', ?_, hsel⟩
      unfold selectLoop
      rw [hpk]
      simp only [hid, ok_bind]
      rw [if_pos hlc, hlc]
      rwa [Nat.sub_add_cancel hsz] at hrun
    · obtain ⟨hok, hsize, -, hpos⟩ := h.pop f.pri hs
      rw [hd] at hok hpos
      refine ⟨some l, _, ?_, .line l ((f.victimPq.pop f.pri).forget l) ?_ hlc hok ?_ hpos⟩
      · unfold selectLoop
        rw [hpk]
        simp only [hid, ok_bind]
        rw [if_neg hlc]
        rfl
      · rw [← hd, h.pos_d 1 le_rfl (by omega)]
        exact one_ne_zero
      · have : ((f.victimPq.pop f.pri).forget l).size = f.victimPq.size - 1 := hsize
        omega

end Flash

end Virtkv
