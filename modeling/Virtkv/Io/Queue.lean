import Mathlib.Data.List.Perm.Basic
import Virtkv.Io.Defs
import Virtkv.Lib.Links

/-!
# The work queue of a worker

The entries of a work queue are split over the free list and the sorted list.
The free list is never empty, and the entries that were used before stand in it
behind those that were not, completed; so the cursor of the worker thread, which
the dispatcher does not see, leads only to entries that are in the sorted list
or are completed.

`Worker.Holds w ps` says that the queue is in this shape and that the commands
whose completion is still due are `ps`, in some order. Every operation of the
dispatcher and of the worker is specified by what it does to `ps`.

## Main results

- `Worker.Holds.enqueueIoReq` — queueing a command adds it to `ps`, or there is
  only one free entry
- `Worker.Holds.scheduleInternalOperation`, `Worker.Holds.reclaimCompletedReqs`
  — internal operations and the reclaiming leave `ps` alone
- `Worker.Holds.complete` — completing an entry takes its command from `ps`
-/

open Outcome Links

namespace Virtkv.Io

variable {β : Type}

/-! ### Entries -/

namespace Work

/-- An entry without its links. -/
def body (x : Work β) : Work β := { x with next := 0, prev := 0 }

/-- The command an entry carries, with its completion and its callback. -/
def order (x : Work β) : Order β where
  sqid := x.sqid
  cqid := x.cqid
  sqEntry := x.sqEntry
  commandId := x.commandId
  status := x.status
  cb := x.cb

/-- What an entry still has to complete: nothing, if it is internal or completed. -/
def due (x : Work β) : Option (Order β) :=
  if x.isInternal ∨ x.isCompleted then none else some x.order

theorem due_body (x : Work β) : x.body.due = x.due := rfl

theorem isCompleted_body (x : Work β) : x.body.isCompleted = x.isCompleted := rfl

theorem due_congr {x y : Work β} (h : x.body = y.body) : x.due = y.due := by
  rw [← due_body x, h, due_body]

theorem isCompleted_congr {x y : Work β} (h : x.body = y.body) :
    x.isCompleted = y.isCompleted := by
  rw [← isCompleted_body x, h, isCompleted_body]

end Work

namespace Worker

variable {w w' : Worker β} {fresh used io : List ℕ} {e c : ℕ} {ps : List (Order β)}

def next (w : Worker β) (i : ℕ) : ℕ := (w.workQueue i).next

def prev (w : Worker β) (i : ℕ) : ℕ := (w.workQueue i).prev

/-- The commands that the entries `io` still have to complete. -/
def pending (w : Worker β) (io : List ℕ) : List (Order β) :=
  io.filterMap fun i => (w.workQueue i).due

/-- The free list is `fresh`, never used yet, followed by `used`; the sorted
list is `io`. -/
structure Lists (w : Worker β) (fresh used io : List ℕ) : Prop where
  free : Seg w.next w.freeSeq (fresh ++ used) uintMax
  last : (fresh ++ used).getLast? = some w.freeSeqEnd
  list : Seg w.next w.ioSeq io uintMax
  back : io ≠ [] → Seg w.prev w.ioSeqEnd io.reverse uintMax
  nodup : (fresh ++ used ++ io).Nodup
  lt : ∀ x ∈ fresh ++ used ++ io, x < nrMaxParallelIo
  done : ∀ x ∈ used, (w.workQueue x).isCompleted

/-- The queue is well formed, the cursor stands on an entry that was used, and
the commands still to be completed are `ps`. -/
def Holds (w : Worker β) (ps : List (Order β)) : Prop :=
  ∃ fresh used io, w.Lists fresh used io ∧
    (w.curr = uintMax ∨ w.curr ∈ used ∨ w.curr ∈ io) ∧ (w.pending io).Perm ps

/-! ### Links -/

@[simp] theorem next_setNext (w : Worker β) (i n j : ℕ) :
    (w.setNext i n).next j = if j = i then n else w.next j := by
  by_cases h : j = i <;> simp [next, setNext, setWork, h]

@[simp] theorem prev_setNext (w : Worker β) (i n j : ℕ) : (w.setNext i n).prev j = w.prev j := by
  by_cases h : j = i <;> simp [prev, setNext, setWork, h]

@[simp] theorem prev_setPrev (w : Worker β) (i p j : ℕ) :
    (w.setPrev i p).prev j = if j = i then p else w.prev j := by
  by_cases h : j = i <;> simp [prev, setPrev, setWork, h]

@[simp] theorem next_setPrev (w : Worker β) (i p j : ℕ) : (w.setPrev i p).next j = w.next j := by
  by_cases h : j = i <;> simp [next, setPrev, setWork, h]

@[simp] theorem body_setNext (w : Worker β) (i n j : ℕ) :
    ((w.setNext i n).workQueue j).body = (w.workQueue j).body := by
  by_cases h : j = i <;> simp [Work.body, setNext, setWork, h]

@[simp] theorem body_setPrev (w : Worker β) (i p j : ℕ) :
    ((w.setPrev i p).workQueue j).body = (w.workQueue j).body := by
  by_cases h : j = i <;> simp [Work.body, setPrev, setWork, h]

@[simp] theorem setWork_self (w : Worker β) (i : ℕ) (x : Work β) :
    (w.setWork i x).workQueue i = x :=
  Function.update_self ..

theorem setWork_of_ne (w : Worker β) {i j : ℕ} (x : Work β) (h : j ≠ i) :
    (w.setWork i x).workQueue j = w.workQueue j :=
  Function.update_of_ne h ..

theorem pending_cons (w : Worker β) (i : ℕ) (io : List ℕ) :
    w.pending (i :: io) = (w.workQueue i).due.toList ++ w.pending io := by
  rw [pending, List.filterMap_cons]
  cases (w.workQueue i).due <;> rfl

theorem pending_congr (h : ∀ i ∈ io, (w'.workQueue i).due = (w.workQueue i).due) :
    w'.pending io = w.pending io :=
  List.filterMap_congr h

theorem lt_uintMax {i : ℕ} (h : i < nrMaxParallelIo) : i ≠ uintMax := by
  rintro rfl
  exact absurd h (by decide)

namespace Lists

variable (h : w.Lists fresh used io)
include h

theorem end_notMem : uintMax ∉ io := fun hm =>
  lt_uintMax (h.lt _ (List.mem_append_right _ hm)) rfl

theorem io_nodup : io.Nodup := (List.nodup_append.mp h.nodup).2.1

theorem free_nodup : (fresh ++ used).Nodup := (List.nodup_append.mp h.nodup).1

theorem ioSeq_eq_end_iff : w.ioSeq = uintMax ↔ io = [] := by
  constructor
  · intro he
    exact Seg.eq_nil (he ▸ h.list) h.end_notMem
  · rintro rfl
    exact h.list

/-- One entry at least is free. -/
theorem io_length_lt : io.length < nrMaxParallelIo := by
  have hne : fresh ++ used ≠ [] := by
    intro hn
    have := h.last
    simp [hn] at this
  have hpos := List.length_pos_iff.mpr hne
  have hle : (fresh ++ used ++ io).length ≤ (List.range nrMaxParallelIo).length :=
    (List.subperm_of_subset h.nodup fun x hx => List.mem_range.mpr (h.lt x hx)).length_le
  rw [List.length_append, List.length_range] at hle
  omega

/-- Only links, completion flags and places of the listed entries matter. -/
theorem of_eq (hn : ∀ i ∈ fresh ++ used ++ io, w'.next i = w.next i)
    (hp : ∀ i ∈ io, w'.prev i = w.prev i)
    (hd : ∀ i ∈ used, (w.workQueue i).isCompleted → (w'.workQueue i).isCompleted)
    (h1 : w'.freeSeq = w.freeSeq) (h2 : w'.freeSeqEnd = w.freeSeqEnd)
    (h3 : w'.ioSeq = w.ioSeq) (h4 : w'.ioSeqEnd = w.ioSeqEnd) : w'.Lists fresh used io where
  free := by
    rw [h1]
    exact h.free.congr fun i hi => hn i (List.mem_append_left _ hi)
  last := by rw [h2]; exact h.last
  list := by
    rw [h3]
    exact h.list.congr fun i hi => hn i (List.mem_append_right _ hi)
  back := fun hne => by
    rw [h4]
    exact (h.back hne).congr fun i hi => hp i (List.mem_reverse.mp hi)
  nodup := h.nodup
  lt := h.lt
  done := fun x hx => hd x hx (h.done x hx)

end Lists

/-! ### Inserting an entry -/

/-- The place of an entry with target `t` between `l` and `r`: what stands behind it is
later, and what stands right before it is not later or has expired. -/
structure Place (w : Worker β) (t : ℕ) (l r : List ℕ) : Prop where
  behind : ∀ y ∈ r, t < (w.workQueue y).nsecsTarget
  before : ∀ x, l.getLast? = some x →
    (w.workQueue x).nsecsTarget ≤ w.latestNsecs ∨ (w.workQueue x).nsecsTarget ≤ t

/-- The walk from the tail ends at the place of the new entry. -/
theorem seekLoop_spec {t : ℕ} {l r : List ℕ} (fuel : ℕ) (hs : Seg w.prev c l.reverse uintMax)
    (hio : io = l ++ r) (hend : uintMax ∉ io)
    (hr : ∀ y ∈ r, t < (w.workQueue y).nsecsTarget) (hf : l.length < fuel) :
    ∃ l' r', io = l' ++ r' ∧ w.seekLoop t fuel c = .ok (l'.getLast?.getD uintMax) ∧
      w.Place t l' r' := by
  induction fuel generalizing l r c with
  | zero => omega
  | succ fuel ih =>
    rw [seekLoop]
    by_cases h1 : c = uintMax
    · subst h1
      have hnil : l.reverse = [] :=
        hs.eq_nil fun hm => hend (hio ▸ List.mem_append_left _ (List.mem_reverse.mp hm))
      obtain rfl : l = [] := List.reverse_eq_nil_iff.mp hnil
      rw [if_pos rfl]
      exact ⟨[], r, hio, rfl, hr, nofun⟩
    · rw [if_neg h1]
      obtain ⟨ys, hys, hs⟩ := hs.exists_cons h1
      have hl : l = ys.reverse ++ [c] := by
        rw [← List.reverse_reverse l, hys, List.reverse_cons]
      have hlast : l.getLast? = some c := by rw [hl, List.getLast?_concat]
      have hhere : (.ok c : Except Fault ℕ) = .ok (l.getLast?.getD uintMax) := by rw [hlast]; rfl
      split_ifs with h2 h3
      · refine ⟨l, r, hio, hhere, hr, fun x hx => .inl ?_⟩
        cases hlast.symm.trans hx
        exact h2
      · refine ⟨l, r, hio, hhere, hr, fun x hx => .inr ?_⟩
        cases hlast.symm.trans hx
        exact h3
      · refine @ih _ ys.reverse (c :: r) ?_ ?_ ?_ ?_
        · rw [List.reverse_reverse]
          exact hs
        · rw [hio, hl]
          simp
        · intro y hy
          rcases List.mem_cons.mp hy with rfl | hy
          · omega
          · exact hr y hy
        · rw [hl] at hf
          simp only [List.length_append, List.length_reverse, List.length_cons,
            List.length_nil] at hf ⊢
          omega

/-- What inserting the entry `e` does: it joins the sorted list, and nothing
but links changes. -/
structure Inserted (w w' : Worker β) (fresh used io : List ℕ) (e : ℕ) (io' : List ℕ) : Prop where
  lists : w'.Lists fresh used io'
  perm : io'.Perm (e :: io)
  body : ∀ i, (w'.workQueue i).body = (w.workQueue i).body
  curr : w'.curr = w.curr
  latest : w'.latestNsecs = w.latestNsecs

section Insert

variable (h : w.Lists fresh used io) (he : e ∉ fresh ++ used ++ io) (hlt : e < nrMaxParallelIo)
  (hn : w.next e = uintMax) (hp : w.prev e = uintMax)
include h he hlt

/-- The free list and the bounds do not depend on the order of the sorted list. -/
theorem Lists.insert_of {io' : List ℕ} (hperm : io'.Perm (e :: io))
    (hnext : ∀ i ∈ fresh ++ used, w'.next i = w.next i)
    (hbody : ∀ i, (w'.workQueue i).body = (w.workQueue i).body)
    (h1 : w'.freeSeq = w.freeSeq) (h2 : w'.freeSeqEnd = w.freeSeqEnd)
    (hlist : Seg w'.next w'.ioSeq io' uintMax)
    (hback : Seg w'.prev w'.ioSeqEnd io'.reverse uintMax) : w'.Lists fresh used io' where
  free := by
    rw [h1]
    exact h.free.congr hnext
  last := by rw [h2]; exact h.last
  list := hlist
  back := fun _ => hback
  nodup := by
    have hcons : (e :: (fresh ++ used ++ io)).Nodup := List.nodup_cons.mpr ⟨he, h.nodup⟩
    refine (List.Perm.nodup_iff ?_).mpr hcons
    exact (hperm.append_left _).trans List.perm_middle
  lt := by
    intro x hx
    rcases List.mem_append.mp hx with hx | hx
    · exact h.lt x (List.mem_append_left _ hx)
    · rcases List.mem_cons.mp (hperm.mem_iff.mp hx) with rfl | hx
      · exact hlt
      · exact h.lt x (List.mem_append_right _ hx)
  done := fun x hx => by
    rw [Work.isCompleted_congr (hbody x)]
    exact h.done x hx

theorem insertFirst_spec (hio : io = []) (hn : w.next e = uintMax) (hp : w.prev e = uintMax) :
    Inserted w (w.insertFirst e) fresh used io e [e] := by
  subst hio
  refine ⟨h.insert_of he hlt (.refl _) (fun _ _ => rfl) (fun _ => rfl) rfl rfl ?_ ?_, .refl _,
    fun _ => rfl, rfl, rfl⟩
  · exact ⟨rfl, hn⟩
  · exact ⟨rfl, hp⟩

theorem insertHead_spec (hio : io ≠ []) (hp : w.prev e = uintMax) :
    Inserted w (w.insertHead e) fresh used io e (e :: io) := by
  obtain ⟨s, t, rfl⟩ := List.exists_cons_of_ne_nil hio
  have hs : w.ioSeq = s := h.list.1
  have hni : e ≠ s ∧ e ∉ t ∧ e ∉ fresh ++ used := by
    simp only [List.mem_append, List.mem_cons, not_or] at he ⊢
    exact ⟨he.2.1, he.2.2, he.1⟩
  have hst : s ∉ t := (List.nodup_cons.mp h.io_nodup).1
  have hfree : ∀ i ∈ fresh ++ used, i ≠ e := fun i hi hie => hni.2.2 (hie ▸ hi)
  have hback := h.back hio
  rw [List.reverse_cons, seg_concat] at hback
  refine ⟨h.insert_of he hlt (.refl _) ?_ ?_ rfl rfl ?_ ?_, .refl _, ?_, rfl, rfl⟩
  · intro i hi
    change ((w.setPrev w.ioSeq e).setNext e w.ioSeq).next i = _
    rw [next_setNext, if_neg (hfree i hi), next_setPrev]
  · intro i
    change (((w.setPrev w.ioSeq e).setNext e w.ioSeq).workQueue i).body = _
    rw [body_setNext, body_setPrev]
  · change Seg ((w.setPrev w.ioSeq e).setNext e w.ioSeq).next e (e :: s :: t) uintMax
    refine ⟨rfl, ?_⟩
    rw [next_setNext, if_pos rfl]
    refine h.list.congr fun i hi => ?_
    rw [next_setNext, if_neg, next_setPrev]
    rintro rfl
    rcases List.mem_cons.mp hi with hi | hi
    · exact hni.1 hi
    · exact hni.2.1 hi
  · change Seg ((w.setPrev w.ioSeq e).setNext e w.ioSeq).prev w.ioSeqEnd _ uintMax
    rw [List.reverse_cons, seg_concat, List.reverse_cons, seg_concat]
    refine ⟨⟨hback.1.congr fun i hi => ?_, ?_⟩, ?_⟩
    · rw [prev_setNext, prev_setPrev, if_neg]
      rw [hs]
      exact fun his => hst (his ▸ List.mem_reverse.mp hi)
    · rw [prev_setNext, prev_setPrev, if_pos hs.symm]
    · rw [prev_setNext, prev_setPrev, if_neg (fun hes => hni.1 (hes.trans hs)), hp]
  · intro i
    change (((w.setPrev w.ioSeq e).setNext e w.ioSeq).workQueue i).body = _
    rw [body_setNext, body_setPrev]

theorem insertTail_spec {l : List ℕ} (hio : io = l ++ [c]) (hn : w.next e = uintMax) :
    Inserted w (w.insertTail e c) fresh used io e (l ++ [c] ++ [e]) := by
  rw [show l ++ [c] ++ [e] = l ++ [c, e] by simp]
  subst hio
  have hne : l ++ [c] ≠ [] := by simp
  have hback := h.back hne
  rw [List.reverse_append] at hback
  have hec : e ≠ c := by
    rintro rfl
    exact he (by simp)
  have hel : e ∉ l := fun hm => he (by simp [hm])
  have hcl : c ∉ l := by
    have := List.nodup_append.mp h.io_nodup
    exact fun hm => this.2.2 c hm c (by simp) rfl
  have hfree : ∀ i ∈ fresh ++ used, i ≠ c := by
    rintro i hi rfl
    exact (List.nodup_append.mp h.nodup).2.2 i hi i (by simp) rfl
  have hperm : (l ++ [c, e]).Perm (e :: (l ++ [c])) := by
    rw [show l ++ [c, e] = (l ++ [c]) ++ [e] by simp]
    exact List.perm_append_comm
  have hbody : ∀ i, ((w.insertTail e c).workQueue i).body = (w.workQueue i).body := by
    intro i
    change (((w.setPrev e c).setNext c e).workQueue i).body = _
    rw [body_setNext, body_setPrev]
  refine ⟨h.insert_of he hlt hperm ?_ hbody rfl rfl ?_ ?_, hperm, hbody, rfl, rfl⟩
  · intro i hi
    change ((w.setPrev e c).setNext c e).next i = _
    rw [next_setNext, if_neg (hfree i hi), next_setPrev]
  · change Seg ((w.setPrev e c).setNext c e).next w.ioSeq _ uintMax
    have hc : w.next c = uintMax := (seg_concat.mp h.list).2
    refine Seg.insert h.list h.io_nodup (fun hm => he (List.mem_append_right _ hm)) ?_ ?_ ?_
    · rw [next_setNext, if_pos rfl]
    · rw [next_setNext, if_neg hec, next_setPrev, hn, hc]
    · intro y hy _
      rw [next_setNext, if_neg hy, next_setPrev]
  · change Seg ((w.setPrev e c).setNext c e).prev e _ uintMax
    have hrev : (l ++ [c, e]).reverse = e :: c :: l.reverse := by simp
    rw [hrev]
    refine ⟨rfl, ?_⟩
    rw [prev_setNext, prev_setPrev, if_pos rfl]
    refine ⟨rfl, ?_⟩
    rw [prev_setNext, prev_setPrev, if_neg (Ne.symm hec)]
    refine Seg.congr hback.2 fun i hi => ?_
    rw [prev_setNext, prev_setPrev, if_neg]
    exact fun hie => hel (hie ▸ List.mem_reverse.mp hi)

theorem insertBetween_spec {l r : List ℕ} {n : ℕ} (hio : io = l ++ c :: n :: r) :
    Inserted w (w.insertBetween e c) fresh used io e (l ++ [c] ++ e :: n :: r) := by
  rw [show l ++ [c] ++ e :: n :: r = l ++ c :: e :: n :: r by simp]
  subst hio
  have hnc : w.next c = n := by
    obtain ⟨d, -, rfl, hd, -⟩ := seg_append.mp h.list
    exact hd
  have hback := h.back (by simp)
  rw [show (l ++ c :: n :: r).reverse = r.reverse ++ n :: (c :: l.reverse) by simp] at hback
  have hpn : w.prev n = c := by
    obtain ⟨d, -, rfl, hd, -⟩ := seg_append.mp hback
    exact hd
  have hmem : e ∉ l ++ c :: n :: r := fun hm => he (List.mem_append_right _ hm)
  have hne : e ≠ c ∧ e ≠ n := by
    refine ⟨?_, ?_⟩ <;> rintro rfl <;> exact hmem (by simp)
  have hcn : c ≠ n := by
    rintro rfl
    have := (List.nodup_append.mp h.io_nodup).2.1
    simp at this
  have hfree : ∀ i ∈ fresh ++ used, i ≠ c ∧ i ≠ e := by
    intro i hi
    refine ⟨?_, ?_⟩ <;> rintro rfl
    · exact (List.nodup_append.mp h.nodup).2.2 i hi i (by simp) rfl
    · exact he (List.mem_append_left _ hi)
  have hnext : ∀ i, (w.insertBetween e c).next i =
      if i = c then e else if i = e then n else w.next i := by
    intro i
    simp only [insertBetween, next_setNext, next_setPrev]
    rw [show (w.workQueue c).next = n from hnc]
  have hprev : ∀ i, (w.insertBetween e c).prev i =
      if i = n then e else if i = e then c else w.prev i := by
    intro i
    simp only [insertBetween, prev_setNext, prev_setPrev]
    rw [show (w.workQueue c).next = n from hnc]
  have hbody : ∀ i, ((w.insertBetween e c).workQueue i).body = (w.workQueue i).body := by
    intro i
    simp only [insertBetween, body_setNext, body_setPrev]
  have hperm : (l ++ c :: e :: n :: r).Perm (e :: (l ++ c :: n :: r)) := by
    rw [show l ++ c :: e :: n :: r = (l ++ [c]) ++ e :: (n :: r) by simp,
      show l ++ c :: n :: r = (l ++ [c]) ++ (n :: r) by simp]
    exact List.perm_middle
  refine ⟨h.insert_of he hlt hperm ?_ hbody rfl rfl ?_ ?_, hperm, hbody, rfl, rfl⟩
  · intro i hi
    rw [hnext, if_neg (hfree i hi).1, if_neg (hfree i hi).2]
  · refine Seg.insert h.list h.io_nodup hmem ?_ ?_ ?_
    · rw [hnext, if_pos rfl]
    · rw [hnext, if_neg hne.1, if_pos rfl, hnc]
    · intro y hyc hye
      rw [hnext, if_neg hyc, if_neg hye]
  · rw [show (l ++ c :: e :: n :: r).reverse = r.reverse ++ n :: e :: (c :: l.reverse) by simp]
    refine Seg.insert hback ?_ ?_ ?_ ?_ ?_
    · rw [show r.reverse ++ n :: (c :: l.reverse) = (l ++ c :: n :: r).reverse by simp]
      exact List.nodup_reverse.mpr h.io_nodup
    · rw [show r.reverse ++ n :: (c :: l.reverse) = (l ++ c :: n :: r).reverse by simp,
        List.mem_reverse]
      exact hmem
    · rw [hprev, if_pos rfl]
    · rw [hprev, if_neg hne.2, if_pos rfl, hpn]
    · intro y hyn hye
      rw [hprev, if_neg hyn, if_neg hye]

include hn hp

/-- `__insert_req_sorted` returns, and the entry is in the list at its place. -/
theorem insertReqSorted_spec (t : ℕ) :
    ∃ w' l r, io = l ++ r ∧ w.insertReqSorted e t = .ok w' ∧
      Inserted w w' fresh used io e (l ++ e :: r) ∧ w.Place t l r := by
  unfold insertReqSorted
  by_cases hs : w.ioSeq = uintMax
  · rw [if_pos hs]
    have hio := h.ioSeq_eq_end_iff.mp hs
    exact ⟨_, [], [], hio, rfl, insertFirst_spec h he hlt hio hn hp, nofun, nofun⟩
  · rw [if_neg hs]
    have hio : io ≠ [] := fun hio => hs (h.ioSeq_eq_end_iff.mpr hio)
    obtain ⟨l, r, hlr, hseek, hplace⟩ := @seekLoop_spec _ w io _ t io [] (nrMaxParallelIo + 1)
      (h.back hio) (List.append_nil io).symm h.end_notMem nofun (Nat.lt_succ_of_lt h.io_length_lt)
    rw [hseek, ok_bind]
    rcases List.eq_nil_or_concat' l with rfl | ⟨l, d, rfl⟩
    · have hr : r = io := hlr.symm
      subst hr
      exact ⟨_, [], r, rfl, rfl, insertHead_spec h he hlt hio hp, hplace⟩
    · have hd : (l ++ [d]).getLast?.getD uintMax = d := by rw [List.getLast?_concat]; rfl
      rw [hd, if_neg (lt_uintMax (h.lt d (by simp [hlr])))]
      have hlr' : io = l ++ d :: r := by rw [hlr, List.append_assoc, List.singleton_append]
      have hseg : Seg w.next (w.next d) r uintMax := by
        obtain ⟨_, -, rfl, hr⟩ := seg_append.mp (hlr' ▸ h.list)
        exact hr
      cases r with
      | nil =>
        have hend : (w.workQueue d).next = uintMax := hseg
        rw [if_pos hend]
        exact ⟨_, l ++ [d], [], hlr, rfl, insertTail_spec h he hlt hlr' hn, hplace⟩
      | cons n r =>
        have hne : (w.workQueue d).next ≠ uintMax := by
          rw [show (w.workQueue d).next = n from hseg.1]
          exact lt_uintMax (h.lt n (by simp [hlr]))
        rw [if_neg hne]
        exact ⟨_, l ++ [d], n :: r, hlr, rfl, insertBetween_spec h he hlt hlr', hplace⟩

end Insert

/-! ### Taking an entry from the free list -/

/-- An entry is allocated unless it is the last free one. -/
theorem Lists.allocate (h : w.Lists fresh used io) :
    (w.allocateWorkQueueEntry = none ∧ (fresh ++ used).length = 1) ∨
    ∃ fresh' used' w', w.allocateWorkQueueEntry = some (w.freeSeq, w') ∧
      w' = { w with freeSeq := w.next w.freeSeq } ∧ w'.Lists fresh' used' io ∧
      w.freeSeq :: (fresh' ++ used') = fresh ++ used ∧
      (∀ x, x ∈ used → x = w.freeSeq ∨ x ∈ used') := by
  have hfree := h.free
  obtain ⟨e, rest, hrest⟩ : ∃ e rest, fresh ++ used = e :: rest := by
    cases hl : fresh ++ used with
    | nil =>
      have := h.last
      simp [hl] at this
    | cons e rest => exact ⟨e, rest, rfl⟩
  rw [hrest] at hfree
  obtain ⟨he, hfree⟩ := hfree
  cases rest with
  | nil =>
    have hend : (w.workQueue w.freeSeq).next = uintMax := by
      rw [he]
      exact hfree
    refine .inl ⟨?_, by rw [hrest]; rfl⟩
    rw [allocateWorkQueueEntry, hend]
    rfl
  | cons n rest =>
    have hn : w.next e = n := hfree.1
    have hnlt : n < nrMaxParallelIo := by
      refine h.lt n (List.mem_append_left _ ?_)
      rw [hrest]
      simp
    have halloc : w.allocateWorkQueueEntry =
        some (w.freeSeq, { w with freeSeq := w.next w.freeSeq }) := by
      have : ¬ (w.workQueue w.freeSeq).next ≥ nrMaxParallelIo := by
        rw [he, show (w.workQueue e).next = n from hn]
        omega
      rw [allocateWorkQueueEntry, if_neg this]
      rfl
    -- the first entry is a fresh one, or there are no fresh ones left
    obtain ⟨fresh', used', hsplit, hsub, hused⟩ : ∃ fresh' used', n :: rest = fresh' ++ used' ∧
        (∀ x ∈ used', x ∈ used) ∧ ∀ x, x ∈ used → x = e ∨ x ∈ used' := by
      cases fresh with
      | nil =>
        rw [List.nil_append] at hrest
        refine ⟨[], n :: rest, rfl, ?_, ?_⟩
        · intro x hx
          rw [hrest]
          exact List.mem_cons_of_mem _ hx
        · intro x hx
          rw [hrest] at hx
          exact List.mem_cons.mp hx
      | cons f fresh =>
        rw [List.cons_append, List.cons.injEq] at hrest
        exact ⟨fresh, used, hrest.2.symm, fun _ hx => hx, fun _ hx => .inr hx⟩
    have hall : fresh ++ used = e :: (fresh' ++ used') := by rw [hrest, hsplit]
    refine .inr ⟨fresh', used', _, halloc, rfl, ?_, by rw [he, hall], by rw [he]; exact hused⟩
    refine ⟨?_, ?_, h.list, h.back, ?_, ?_, fun x hx => h.done x (hsub x hx)⟩
    · change Seg w.next (w.next w.freeSeq) (fresh' ++ used') uintMax
      rw [he, ← hsplit]
      exact hfree
    · have hl := h.last
      rw [hrest, List.getLast?_cons_cons, hsplit] at hl
      exact hl
    · have := h.nodup
      rw [hall] at this
      exact (List.nodup_cons.mp this).2
    · intro x hx
      refine h.lt x ?_
      rw [hall]
      exact List.mem_cons_of_mem _ hx

/-- Writing an entry that is in no list. -/
theorem Lists.setWork (h : w.Lists fresh used io) (he : e ∉ fresh ++ used ++ io) (x : Work β) :
    (w.setWork e x).Lists fresh used io := by
  have hother : ∀ i ∈ fresh ++ used ++ io, (w.setWork e x).workQueue i = w.workQueue i := by
    intro i hi
    refine setWork_of_ne w x ?_
    rintro rfl
    exact he hi
  refine h.of_eq ?_ ?_ ?_ rfl rfl rfl rfl
  · intro i hi
    rw [next, hother i hi, next]
  · intro i hi
    rw [prev, hother i (List.mem_append_right _ hi), prev]
  · intro i hi
    rw [hother i (by simp [hi])]
    exact id

theorem Holds.perm (h : w.Holds ps) {qs : List (Order β)} (hq : ps.Perm qs) : w.Holds qs := by
  obtain ⟨fresh, used, io, hl, hc, hps⟩ := h
  exact ⟨fresh, used, io, hl, hc, hps.trans hq⟩

/-- The commands still due are fewer than the entries. -/
theorem Holds.length_lt (h : w.Holds ps) : ps.length < nrMaxParallelIo := by
  obtain ⟨fresh, used, io, hl, -, hps⟩ := h
  rw [← hps.length_eq]
  exact Nat.lt_of_le_of_lt (List.length_filterMap_le ..) hl.io_length_lt

/-- What queueing a written entry does: the first free entry `e` is written with `x` and
joins the sorted list between `l` and `r`. -/
structure Enqueued (w w' : Worker β) (x : Work β) (fresh used io : List ℕ) (e : ℕ)
    (fresh' used' l r : List ℕ) : Prop where
  inserted : Inserted ({ w with freeSeq := w.next e }.setWork e x) w' fresh' used' io e
    (l ++ e :: r)
  split : io = l ++ r
  free : e :: (fresh' ++ used') = fresh ++ used
  used : ∀ i, i ∈ used → i = e ∨ i ∈ used'
  notMem : e ∉ fresh' ++ used' ++ io
  place : ({ w with freeSeq := w.next e }.setWork e x).Place x.nsecsTarget l r

/-- Queueing a written entry, if one is left. -/
theorem Lists.enqueue (h : w.Lists fresh used io) (x : Work β → Work β) {t : ℕ}
    (hx : ∀ y, (x y).next = uintMax ∧ (x y).prev = uintMax ∧ (x y).nsecsTarget = t) :
    w.allocateWorkQueueEntry = none ∨
    ∃ e w₁ w' fresh' used' l r, w.allocateWorkQueueEntry = some (e, w₁) ∧
      (w₁.setWork e (x (w₁.workQueue e))).insertReqSorted e t = .ok w' ∧
      Enqueued w w' (x (w₁.workQueue e)) fresh used io e fresh' used' l r := by
  rcases h.allocate with ⟨hnone, -⟩ | ⟨fresh', used', w₁, hsome, rfl, hl', hall, hused⟩
  · exact .inl hnone
  · set e := w.freeSeq
    have hnot : e ∉ fresh' ++ used' ++ io := by
      have hn := h.nodup
      rw [← hall] at hn
      exact (List.nodup_cons.mp hn).1
    have hlt : e < nrMaxParallelIo := by
      refine h.lt e (List.mem_append_left _ ?_)
      rw [← hall]
      exact List.mem_cons_self ..
    set w₁ : Worker β := { w with freeSeq := w.next e }
    have hl₂ := hl'.setWork hnot (x (w₁.workQueue e))
    have hn : (w₁.setWork e (x (w₁.workQueue e))).next e = uintMax := by
      rw [next, setWork_self]
      exact (hx _).1
    have hp : (w₁.setWork e (x (w₁.workQueue e))).prev e = uintMax := by
      rw [prev, setWork_self]
      exact (hx _).2.1
    obtain ⟨w', l, r, hio, hw', hins, hplace⟩ := insertReqSorted_spec hl₂ hnot hlt hn hp t
    rw [← (hx (w₁.workQueue e)).2.2] at hplace
    exact .inr ⟨e, w₁, w', fresh', used', l, r, hsome, hw', hins, hio, hall, hused, hnot, hplace⟩

/-- Queueing a written entry: the commands still due grow by what it carries. -/
theorem Holds.enqueue (h : w.Holds ps) (x : Work β → Work β) {t : ℕ}
    (hx : ∀ y, (x y).next = uintMax ∧ (x y).prev = uintMax ∧ (x y).nsecsTarget = t) :
    w.allocateWorkQueueEntry = none ∨
    ∃ e w₁ w', w.allocateWorkQueueEntry = some (e, w₁) ∧
      (w₁.setWork e (x (w₁.workQueue e))).insertReqSorted e t = .ok w' ∧
      w'.Holds (((x (w₁.workQueue e)).due).toList ++ ps) := by
  obtain ⟨fresh, used, io, hl, hc, hps⟩ := h
  rcases hl.enqueue x hx with hnone | ⟨e, w₁, w', fresh', used', l, r, hsome, hw', henq⟩
  · exact .inl hnone
  · have hins := henq.inserted
    refine .inr ⟨e, w₁, w', hsome, hw', fresh', used', l ++ e :: r, hins.lists, ?_, ?_⟩
    · rw [hins.curr]
      change w.curr = _ ∨ w.curr ∈ _ ∨ w.curr ∈ _
      rcases hc with hc | hc | hc
      · exact .inl hc
      · rcases henq.used _ hc with hce | hcu
        · exact .inr (.inr (hins.perm.mem_iff.mpr (hce ▸ List.mem_cons_self ..)))
        · exact .inr (.inl hcu)
      · exact .inr (.inr (hins.perm.mem_iff.mpr (List.mem_cons_of_mem _ hc)))
    · generalize x (w₁.workQueue e) = y at hins
      have hpend : w'.pending (l ++ e :: r) =
          ({ w with freeSeq := w.next e }.setWork e y).pending (l ++ e :: r) :=
        pending_congr fun i _ => Work.due_congr (hins.body i)
      have hio : ({ w with freeSeq := w.next e }.setWork e y).pending io = w.pending io := by
        refine pending_congr fun i hi => ?_
        have hie : i ≠ e := fun hie => henq.notMem (List.mem_append_right _ (hie ▸ hi))
        rw [setWork_of_ne _ _ hie]
      have hperm : (({ w with freeSeq := w.next e }.setWork e y).pending (l ++ e :: r)).Perm
          (({ w with freeSeq := w.next e }.setWork e y).pending (e :: io)) :=
        hins.perm.filterMap _
      rw [hpend]
      refine hperm.trans ?_
      rw [pending_cons, setWork_self, hio]
      exact hps.append_left _

theorem due_ioWork (y : Work β) (o : Order β) (t : ℕ) : (ioWork y o t).due = some o := rfl

/-- `__enqueue_io_req`: the command joins those still due, or no entry can be
allocated. -/
theorem Holds.enqueueIoReq (h : w.Holds ps) (o : Order β) (t : ℕ) :
    (w.allocateWorkQueueEntry = none ∧ w.enqueueIoReq o t = .ok none) ∨
    (w.allocateWorkQueueEntry ≠ none ∧
      ∃ w', w.enqueueIoReq o t = .ok (some w') ∧ w'.Holds (o :: ps)) := by
  rcases h.enqueue (ioWork · o t) fun _ => ⟨rfl, rfl, rfl⟩ with hnone | ⟨e, w₁, w', hsome, hw', hh⟩
  · refine .inl ⟨hnone, ?_⟩
    rw [Worker.enqueueIoReq, hnone]
  · refine .inr ⟨by rw [hsome]; exact Option.some_ne_none _, w', ?_, ?_⟩
    · rw [Worker.enqueueIoReq, hsome]
      dsimp only
      rw [hw', ok_bind]
      rfl
    · rw [due_ioWork] at hh
      exact hh

/-- Internal operations stop only for want of an entry, and leave the commands
still due as they are. -/
theorem Holds.scheduleInternalOperation (h : w.Holds ps) (r : Internal β) :
    Yields (w.scheduleInternalOperation r) (· = .bug) fun w' => w'.Holds ps := by
  unfold Worker.scheduleInternalOperation
  cases hcb : r.cb with
  | none =>
    rcases h.enqueue (internalWork · r) fun _ => ⟨rfl, rfl, rfl⟩ with
      hnone | ⟨e, w₁, w', hsome, hw', hh⟩
    · rw [hnone]
      exact h
    · rw [hsome]
      dsimp only
      rw [hw']
      exact hh
  | some b =>
    rcases h.enqueue (internalCbWork · r) fun _ => ⟨rfl, rfl, rfl⟩ with
      hnone | ⟨e, w₁, w', hsome, hw', hh⟩
    · rw [hnone]
      rfl
    · rw [hsome]
      dsimp only
      rw [hw']
      exact hh

/-! ### Taking completed entries back -/

/-- The loop over the completed entries at the head of the list ends, behind a
first part of the list that is completed. -/
theorem completedLoop_spec {l r : List ℕ} (fuel : ℕ) (hs : Seg w.next c r uintMax)
    (hio : io = l ++ r) (hl : ∀ i ∈ l, (w.workQueue i).isCompleted) (hf : r.length < fuel) :
    ∃ l' r', io = l' ++ r' ∧ (∀ i ∈ l', (w.workQueue i).isCompleted) ∧
      w.completedLoop fuel (l.getLast?.getD uintMax) c = .ok (l'.getLast?.getD uintMax) := by
  induction fuel generalizing l r c with
  | zero => omega
  | succ fuel ih =>
    rw [completedLoop]
    by_cases hc : c = uintMax
    · rw [if_pos hc]
      exact ⟨l, r, hio, hl, rfl⟩
    · rw [if_neg hc]
      obtain ⟨r', rfl, hr'⟩ := hs.exists_cons hc
      dsimp only
      split_ifs with hdone
      · have := ih (l := l ++ [c]) (r := r') hr' (by rw [hio]; simp) ?_ ?_
        · rw [List.getLast?_concat] at this
          exact this
        · intro i hi
          rcases List.mem_append.mp hi with hi | hi
          · exact hl i hi
          · rw [List.mem_singleton.mp hi]
            exact hdone.1
        · rw [List.length_cons] at hf
          omega
      · exact ⟨l, c :: r', hio, hl, rfl⟩

section Reclaim

variable (w) (f t i : ℕ)

theorem next_cutBehind : (w.cutBehind t).next i = if i = t then uintMax else w.next i := by
  unfold cutBehind
  dsimp only
  rw [next_setNext]
  split_ifs <;> first | rfl | rw [next_setPrev]; rfl

theorem prev_cutBehind (hi : i ≠ w.next t) : (w.cutBehind t).prev i = w.prev i := by
  unfold cutBehind
  dsimp only
  rw [prev_setNext]
  split_ifs
  · rfl
  · rw [prev_setPrev, if_neg (show ¬i = (w.workQueue t).next from hi)]
    rfl

theorem prev_cutBehind_next (ht : w.next t ≠ uintMax) :
    (w.cutBehind t).prev (w.next t) = uintMax := by
  unfold cutBehind
  dsimp only
  rw [prev_setNext, if_neg (show ¬(w.workQueue t).next = uintMax from ht), prev_setPrev,
    if_pos (show w.next t = (w.workQueue t).next from rfl)]

theorem ioSeq_cutBehind : (w.cutBehind t).ioSeq = w.next t := by
  unfold cutBehind
  dsimp only
  split_ifs <;> rfl

theorem body_cutBehind : ((w.cutBehind t).workQueue i).body = (w.workQueue i).body := by
  unfold cutBehind
  dsimp only
  rw [body_setNext]
  split_ifs <;> first | rfl | rw [body_setPrev]

theorem places_cutBehind : (w.cutBehind t).freeSeq = w.freeSeq ∧
    (w.cutBehind t).freeSeqEnd = w.freeSeqEnd ∧ (w.cutBehind t).ioSeqEnd = w.ioSeqEnd ∧
    (w.cutBehind t).curr = w.curr := by
  unfold cutBehind
  dsimp only
  split_ifs <;> exact ⟨rfl, rfl, rfl, rfl⟩

theorem latestNsecs_cutBehind : (w.cutBehind t).latestNsecs = w.latestNsecs := by
  unfold cutBehind
  dsimp only
  split_ifs <;> rfl

theorem next_appendFree : (w.appendFree f t).next i =
    if i = w.freeSeqEnd then f else w.next i := by
  change ((w.setPrev f w.freeSeqEnd).setNext w.freeSeqEnd f).next i = _
  rw [next_setNext, next_setPrev]

theorem prev_appendFree (hi : i ≠ f) : (w.appendFree f t).prev i = w.prev i := by
  change ((w.setPrev f w.freeSeqEnd).setNext w.freeSeqEnd f).prev i = _
  rw [prev_setNext, prev_setPrev, if_neg hi]

theorem body_appendFree : ((w.appendFree f t).workQueue i).body = (w.workQueue i).body := by
  change (((w.setPrev f w.freeSeqEnd).setNext w.freeSeqEnd f).workQueue i).body = _
  rw [body_setNext, body_setPrev]

end Reclaim

/-- A first part of the sorted list, completed, goes to the end of the free list. -/
theorem Lists.reclaim {l r : List ℕ} {t : ℕ} (h : w.Lists fresh used ((l ++ [t]) ++ r))
    (hdone : ∀ i ∈ l ++ [t], (w.workQueue i).isCompleted) :
    ((w.cutBehind t).appendFree w.ioSeq t).Lists fresh (used ++ (l ++ [t])) r := by
  obtain ⟨hfs, hfe, hie, -⟩ := places_cutBehind w t
  obtain ⟨d, hl, hr⟩ := seg_append.mp h.list
  rw [seg_concat] at hl
  obtain ⟨hl, rfl⟩ := hl
  obtain ⟨fr, hfr⟩ : ∃ fr, fresh ++ used = fr ++ [w.freeSeqEnd] :=
    List.getLast?_eq_some_iff.mp h.last
  have hnd := h.nodup
  rw [hfr] at hnd
  have hfree := h.free
  rw [hfr, seg_concat] at hfree
  simp only [List.nodup_append, List.mem_append, List.mem_singleton] at hnd
  obtain ⟨⟨-, -, hfrE⟩, ⟨⟨hln, -, hlt⟩, -, hlr⟩, hdisj⟩ := hnd
  have hseq : w.ioSeq ∈ l ++ [t] := by
    cases l with
    | nil => rw [hl]; simp
    | cons x l => rw [hl.1]; simp
  have hnext : ∀ i, ((w.cutBehind t).appendFree w.ioSeq t).next i =
      if i = w.freeSeqEnd then w.ioSeq else if i = t then uintMax else w.next i := by
    intro i
    rw [next_appendFree, hfe, next_cutBehind]
  have hbody : ∀ i, (((w.cutBehind t).appendFree w.ioSeq t).workQueue i).body =
      (w.workQueue i).body := fun i => by rw [body_appendFree, body_cutBehind]
  have hne : ∀ i ∈ r, i ≠ w.ioSeq := by
    rintro i hi rfl
    exact hlr _ (by simpa using hseq) _ hi rfl
  refine ⟨?_, ?_, ?_, ?_, ?_, ?_, ?_⟩
  · change Seg _ (w.cutBehind t).freeSeq _ _
    rw [hfs, ← List.append_assoc, hfr, List.append_assoc, seg_append]
    refine ⟨w.freeSeqEnd, hfree.1.congr fun i hi => ?_, rfl, ?_⟩
    · rw [hnext, if_neg (hfrE i hi _ rfl), if_neg]
      exact hdisj i (.inl hi) t (by simp)
    · change Seg _ _ (l ++ [t]) _
      rw [hnext, if_pos rfl, seg_concat]
      refine ⟨hl.congr fun i hi => ?_, ?_⟩
      · rw [hnext, if_neg, if_neg (hlt i hi t rfl)]
        exact fun hE => hdisj _ (.inr rfl) i (by simp [hi]) hE.symm
      · rw [hnext, if_neg, if_pos rfl]
        exact fun hE => hdisj _ (.inr rfl) t (by simp) hE.symm
  · change _ = some t
    rw [← List.append_assoc, ← List.append_assoc, List.getLast?_concat]
  · change Seg _ (w.cutBehind t).ioSeq _ _
    rw [ioSeq_cutBehind]
    refine hr.congr fun i hi => ?_
    rw [hnext, if_neg, if_neg]
    · rintro rfl
      exact hlr _ (.inr rfl) _ hi rfl
    · rintro rfl
      exact hdisj _ (.inr rfl) _ (.inr hi) rfl
  · intro hrne
    change Seg _ (w.cutBehind t).ioSeqEnd _ _
    rw [hie]
    obtain ⟨n, r, rfl⟩ := List.exists_cons_of_ne_nil hrne
    have hback := h.back (by simp)
    rw [List.reverse_append, List.reverse_cons, List.append_assoc, seg_append] at hback
    obtain ⟨d, hback, hd, -⟩ := hback
    rw [hd] at hback
    have hnt : w.next t = n := hr.1
    have hnr : n ∉ r := by
      have := (List.nodup_append.mp h.io_nodup).2.1
      exact (List.nodup_cons.mp this).1
    rw [List.reverse_cons, seg_concat]
    refine ⟨hback.congr fun i hi => ?_, ?_⟩
    · have hir := List.mem_reverse.mp hi
      rw [prev_appendFree _ _ _ _ (hne i (List.mem_cons_of_mem _ hir)), prev_cutBehind]
      rw [hnt]
      exact fun hin => hnr (hin ▸ hir)
    · rw [prev_appendFree _ _ _ _ (hne _ (List.mem_cons_self ..)), ← hnt, prev_cutBehind_next]
      rw [hnt]
      exact lt_uintMax (h.lt n (by simp))
  · rw [← List.append_assoc, List.append_assoc (fresh ++ used)]
    exact h.nodup
  · intro x hx
    refine h.lt x ?_
    rw [← List.append_assoc, List.append_assoc (fresh ++ used)] at hx
    exact hx
  · intro x hx
    rw [Work.isCompleted_congr (hbody x)]
    rcases List.mem_append.mp hx with hx | hx
    · exact h.done x hx
    · exact hdone x hx

/-- Completed entries carry nothing that is due. -/
theorem pending_of_done {l : List ℕ} (hl : ∀ i ∈ l, (w.workQueue i).isCompleted) :
    w.pending l = [] := by
  refine List.filterMap_eq_nil_iff.mpr fun i hi => ?_
  rw [Work.due, if_pos (.inr (hl i hi))]

/-- `__reclaim_completed_reqs` returns and leaves the commands still due. -/
theorem Holds.reclaimCompletedReqs (h : w.Holds ps) :
    ∃ w', w.reclaimCompletedReqs = .ok w' ∧ w'.Holds ps := by
  obtain ⟨fresh, used, io, hl, hc, hps⟩ := h
  obtain ⟨l, r, hio, hdone, hlast⟩ := completedLoop_spec (l := []) (nrMaxParallelIo + 1) hl.list
    (List.nil_append io).symm nofun (Nat.lt_succ_of_lt hl.io_length_lt)
  rw [Worker.reclaimCompletedReqs]
  rw [show w.completedLoop (nrMaxParallelIo + 1) uintMax w.ioSeq = _ from hlast, ok_bind]
  rcases List.eq_nil_or_concat' l with rfl | ⟨l, t, rfl⟩
  · exact ⟨w, rfl, fresh, used, io, hl, hc, hps⟩
  · have ht : (l ++ [t]).getLast?.getD uintMax = t := by rw [List.getLast?_concat]; rfl
    have htlt : t < nrMaxParallelIo := hl.lt t (by simp [hio])
    rw [ht, if_neg (lt_uintMax htlt)]
    subst hio
    refine ⟨_, rfl, fresh, used ++ (l ++ [t]), r, hl.reclaim hdone, ?_, ?_⟩
    · change (w.cutBehind t).curr = _ ∨ (w.cutBehind t).curr ∈ _ ∨ (w.cutBehind t).curr ∈ _
      rw [(places_cutBehind w t).2.2.2]
      rcases hc with hc | hc | hc
      · exact .inl hc
      · exact .inr (.inl (List.mem_append_left _ hc))
      · rcases List.mem_append.mp hc with hc | hc
        · exact .inr (.inl (List.mem_append_right _ hc))
        · exact .inr (.inr hc)
    · rw [pending, List.filterMap_append] at hps
      rw [show List.filterMap (fun i => (w.workQueue i).due) (l ++ [t]) = [] from
        pending_of_done hdone, List.nil_append] at hps
      refine List.Perm.trans (.of_eq ?_) hps
      refine pending_congr fun i _ => Work.due_congr ?_
      rw [body_appendFree, body_cutBehind]

/-! ### The worker thread -/

theorem Lists.of_queue_eq (h : w.Lists fresh used io) (hq : w'.workQueue = w.workQueue)
    (h1 : w'.freeSeq = w.freeSeq) (h2 : w'.freeSeqEnd = w.freeSeqEnd)
    (h3 : w'.ioSeq = w.ioSeq) (h4 : w'.ioSeqEnd = w.ioSeqEnd) : w'.Lists fresh used io := by
  refine h.of_eq ?_ ?_ ?_ h1 h2 h3 h4
  · intro i _
    rw [next, hq, next]
  · intro i _
    rw [prev, hq, prev]
  · intro i _
    rw [hq]
    exact id

/-- The cursor goes to the head of the list. -/
theorem Holds.start (h : w.Holds ps) : { w with curr := w.ioSeq }.Holds ps := by
  obtain ⟨fresh, used, io, hl, -, hps⟩ := h
  refine ⟨fresh, used, io, hl.of_queue_eq rfl rfl rfl rfl rfl, ?_, hps⟩
  by_cases hs : w.ioSeq = uintMax
  · exact .inl hs
  · obtain ⟨ys, rfl, -⟩ := hl.list.exists_cons hs
    exact .inr (.inr (List.mem_cons_self ..))

/-- The cursor goes to the next entry. -/
theorem Holds.advance (h : w.Holds ps) (hc : w.curr ≠ uintMax) :
    { w with curr := w.next w.curr }.Holds ps := by
  obtain ⟨fresh, used, io, hl, hcur, hps⟩ := h
  refine ⟨fresh, used, io, hl.of_queue_eq rfl rfl rfl rfl rfl, ?_, hps⟩
  rcases hcur.resolve_left hc with hcur | hcur
  · exact (hl.free.next_mem_right hcur).imp id .inl
  · exact (hl.list.next_mem hcur).imp id .inr

theorem Holds.setLatest (h : w.Holds ps) (now : ℕ) : { w with latestNsecs := now }.Holds ps := by
  obtain ⟨fresh, used, io, hl, hc, hps⟩ := h
  exact ⟨fresh, used, io, hl.of_queue_eq rfl rfl rfl rfl rfl, hc, hps⟩

/-- Rewriting the entry under the cursor, its links kept: the commands still due
change by what that entry carries. -/
theorem Holds.setCurr (h : w.Holds ps) (hc : w.curr ≠ uintMax)
    (hnot : (w.workQueue w.curr).isCompleted = false) {x : Work β}
    (hn : x.next = w.next w.curr) (hp : x.prev = w.prev w.curr) :
    ∃ ps₀, ps.Perm ((w.workQueue w.curr).due.toList ++ ps₀) ∧
      (w.setWork w.curr x).Holds (x.due.toList ++ ps₀) := by
  obtain ⟨fresh, used, io, hl, hcur, hps⟩ := h
  have hused : w.curr ∉ used := by
    intro hm
    rw [hl.done _ hm] at hnot
    cases hnot
  have hmem : w.curr ∈ io := (hcur.resolve_left hc).resolve_left hused
  obtain ⟨l, r, hlr⟩ := List.append_of_mem hmem
  have hperm : io.Perm (w.curr :: (l ++ r)) := by
    rw [hlr]
    exact List.perm_middle
  have hni : w.curr ∉ l ++ r := by
    have := hl.io_nodup
    rw [hperm.nodup_iff] at this
    exact (List.nodup_cons.mp this).1
  have hlinks : ∀ i, (w.setWork w.curr x).next i = w.next i ∧
      (w.setWork w.curr x).prev i = w.prev i := by
    intro i
    by_cases hi : i = w.curr
    · rw [hi, next, prev, setWork_self]
      exact ⟨hn, hp⟩
    · rw [next, prev, setWork_of_ne _ _ hi]
      exact ⟨rfl, rfl⟩
  refine ⟨w.pending (l ++ r), ?_, fresh, used, io, ?_, .inr (.inr hmem), ?_⟩
  · rw [← pending_cons]
    exact hps.symm.trans (hperm.filterMap _)
  · refine hl.of_eq (fun i _ => (hlinks i).1) (fun i _ => (hlinks i).2) ?_ rfl rfl rfl rfl
    intro i hi
    rw [setWork_of_ne]
    · exact id
    · rintro rfl
      exact hused hi
  · refine (hperm.filterMap _).trans (.of_eq ?_)
    change (w.setWork w.curr x).pending (w.curr :: (l ++ r)) = _
    rw [pending_cons, setWork_self]
    congr 1
    refine pending_congr fun i hi => ?_
    rw [setWork_of_ne]
    rintro rfl
    exact hni hi

/-! ### The initial queue -/

theorem init_next (i : ℕ) :
    (init : Worker β).next i = if i + 1 < nrMaxParallelIo then i + 1 else uintMax := rfl

theorem seg_init (n k : ℕ) (hk : n + k = nrMaxParallelIo) :
    Seg (init : Worker β).next (if k = 0 then uintMax else n) (List.range' n k) uintMax := by
  induction k generalizing n with
  | zero => rfl
  | succ k ih =>
    refine ⟨rfl, ?_⟩
    have hstep := ih (n + 1) (by omega)
    rw [init_next]
    by_cases hk0 : k = 0
    · rw [if_neg (by omega)]
      rw [if_pos hk0] at hstep
      exact hstep
    · rw [if_pos (by omega)]
      rw [if_neg hk0] at hstep
      exact hstep

/-- At the start every entry is free. -/
theorem lists_init : (init : Worker β).Lists (List.range nrMaxParallelIo) [] [] := by
  refine ⟨?_, ?_, rfl, fun h => absurd rfl h, ?_, ?_, nofun⟩
  · rw [List.append_nil, List.range_eq_range']
    exact seg_init 0 nrMaxParallelIo (Nat.zero_add _)
  · rw [List.append_nil, List.getLast?_range, if_neg (by decide)]
    rfl
  · simpa using List.nodup_range
  · intro x hx
    simpa using hx

/-- At the start nothing is due. -/
theorem holds_init : (init : Worker β).Holds [] :=
  ⟨List.range nrMaxParallelIo, [], [], lists_init, .inl rfl, .refl _⟩

end Worker

end Virtkv.Io
