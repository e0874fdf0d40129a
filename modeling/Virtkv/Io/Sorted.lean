import Mathlib.Order.Nat
import Mathlib.Data.List.Perm.Subperm
import Virtkv.Io.Queue

/-!
# The order of a work queue

The dispatcher queues entries at the place of their target time and takes completed
entries back; the worker copies and completes entries and moves its clock on. In every
interleaving of these operations the two lists of a work queue share out all its entries,
and the sorted list is in order up to entries that have expired.

## Main results

- `Worker.Whole.run` — what one operation preserves
- `Worker.Reaches.shape` — the two lists of a reachable work queue
-/

open Outcome Links

namespace Virtkv.Io

variable {β : Type}

namespace Worker

/-- The operations on a work queue. -/
inductive Op (β : Type) where
  | enqueue (o : Order β) (nsecsTarget : ℕ)
  | internal (r : Internal β)
  | copy (entry result : ℕ)
  | complete (entry : ℕ)
  | tick (now : ℕ)
  | reclaim

/-- Run an operation. A command that gets no entry leaves the queue as it is. -/
def Op.run (w : Worker β) : Op β → Except Fault (Worker β)
  | enqueue o t => do return (← w.enqueueIoReq o t).getD w
  | internal r => w.scheduleInternalOperation r
  | copy i n => .ok (w.setWork i { w.workQueue i with isCopied := true, result0 := n })
  | complete i => .ok (w.setWork i { w.workQueue i with isCompleted := true })
  | tick now => .ok { w with latestNsecs := now }
  | reclaim => w.reclaimCompletedReqs

/-- The clock of the worker does not go back. -/
def Op.Forward (w : Worker β) : Op β → Prop
  | tick now => w.latestNsecs ≤ now
  | _ => True

/-- The work queues that operations lead to. -/
inductive Reaches : Worker β → Prop where
  | init : Reaches init
  | step {w w' : Worker β} {op : Op β} : Reaches w → op.Forward w → op.run w = .ok w' →
      Reaches w'

/-- The entries before another have an earlier target or have expired. -/
def Sorted (w : Worker β) (io : List ℕ) : Prop :=
  io.Pairwise fun x y => (w.workQueue x).nsecsTarget ≤ (w.workQueue y).nsecsTarget ∨
    (w.workQueue x).nsecsTarget ≤ w.latestNsecs

/-- The two lists share out all entries, and the sorted list is sorted. -/
structure Whole (w : Worker β) (fresh used io : List ℕ) : Prop where
  lists : w.Lists fresh used io
  length : (fresh ++ used ++ io).length = nrMaxParallelIo
  sorted : w.Sorted io

variable {w w' : Worker β} {fresh used io : List ℕ}

theorem Sorted.congr (h : w.Sorted io)
    (ht : ∀ i ∈ io, (w'.workQueue i).nsecsTarget = (w.workQueue i).nsecsTarget)
    (hlatest : w.latestNsecs ≤ w'.latestNsecs) : w'.Sorted io := by
  refine List.Pairwise.imp_of_mem ?_ h
  intro x y hx hy hxy
  rw [ht x hx, ht y hy]
  exact hxy.imp_right fun hle => le_trans hle hlatest

/-- Before the place of an entry, everything is not later or has expired. -/
theorem Place.before_all {t : ℕ} {l r : List ℕ} (hp : w.Place t l r) (h : w.Sorted (l ++ r)) :
    ∀ x ∈ l, (w.workQueue x).nsecsTarget ≤ t ∨ (w.workQueue x).nsecsTarget ≤ w.latestNsecs := by
  intro x hx
  rcases List.eq_nil_or_concat' l with rfl | ⟨l, c, rfl⟩
  · cases hx
  have hc := hp.before c List.getLast?_concat
  rcases List.mem_append.mp hx with hx | hx
  · have hsorted : w.Sorted (l ++ [c]) := (List.pairwise_append.mp h).1
    have hxc := (List.pairwise_append.mp hsorted).2.2 x hx c List.mem_cons_self
    omega
  · cases List.mem_singleton.mp hx
    exact hc.symm

/-- An entry at its place keeps the list sorted. -/
theorem Place.sorted {t e : ℕ} {l r : List ℕ} (hp : w.Place t l r) (h : w.Sorted (l ++ r))
    (he : (w.workQueue e).nsecsTarget = t) : w.Sorted (l ++ e :: r) := by
  obtain ⟨hl, hr, hlr⟩ := List.pairwise_append.mp h
  refine List.pairwise_append.mpr ⟨hl, List.pairwise_cons.mpr ⟨fun y hy => ?_, hr⟩, ?_⟩
  · rw [he]
    exact .inl (hp.behind y hy).le
  · intro x hx y hy
    rcases List.mem_cons.mp hy with rfl | hy
    · rw [he]
      exact hp.before_all h x hx
    · exact hlr x hx y hy

/-! ### One operation -/

theorem nsecsTarget_congr {x y : Work β} (h : x.body = y.body) :
    x.nsecsTarget = y.nsecsTarget := by
  have hbody : x.body.nsecsTarget = y.body.nsecsTarget := by rw [h]
  exact hbody

/-- Queueing an entry. -/
theorem Enqueued.whole {x : Work β} {e : ℕ} {fresh' used' l r : List ℕ}
    (h : w.Whole fresh used io) (henq : Enqueued w w' x fresh used io e fresh' used' l r) :
    w'.Whole fresh' used' (l ++ e :: r) := by
  have hins := henq.inserted
  refine ⟨hins.lists, ?_, ?_⟩
  · have hlen := h.length
    rw [← henq.free] at hlen
    have hperm := hins.perm.length_eq
    simp only [List.length_append, List.length_cons] at hlen hperm ⊢
    omega
  · set w₁ := { w with freeSeq := w.next e }.setWork e x
    have hold : w₁.Sorted (l ++ r) := by
      rw [← henq.split]
      refine h.sorted.congr (fun i hi => ?_) le_rfl
      rw [setWork_of_ne]
      rintro rfl
      exact henq.notMem (List.mem_append_right _ hi)
    have hnew : w₁.Sorted (l ++ e :: r) :=
      henq.place.sorted hold (by rw [setWork_self])
    exact hnew.congr (fun i _ => nsecsTarget_congr (hins.body i)) hins.latest.ge

/-- Writing an entry of a queue with its links and its target kept. -/
theorem Whole.touch (h : w.Whole fresh used io) (i : ℕ) {x : Work β}
    (hn : x.next = w.next i) (hp : x.prev = w.prev i)
    (ht : x.nsecsTarget = (w.workQueue i).nsecsTarget)
    (hc : (w.workQueue i).isCompleted → x.isCompleted) :
    (w.setWork i x).Whole fresh used io := by
  have hlinks : ∀ j, (w.setWork i x).next j = w.next j ∧ (w.setWork i x).prev j = w.prev j := by
    intro j
    by_cases hj : j = i
    · rw [hj, next, prev, setWork_self]
      exact ⟨hn, hp⟩
    · rw [next, prev, setWork_of_ne _ _ hj]
      exact ⟨rfl, rfl⟩
  refine ⟨h.lists.of_eq (fun j _ => (hlinks j).1) (fun j _ => (hlinks j).2) ?_ rfl rfl rfl rfl,
    h.length, h.sorted.congr (fun j _ => ?_) le_rfl⟩
  · intro j _
    by_cases hj : j = i
    · rw [hj, setWork_self]
      exact hc
    · rw [setWork_of_ne _ _ hj]
      exact id
  · by_cases hj : j = i
    · rw [hj, setWork_self]
      exact ht
    · rw [setWork_of_ne _ _ hj]

/-- What a reclaim moves: a first part of the sorted list, all completed, goes to the end of
the free list. -/
theorem Whole.reclaim (h : w.Whole fresh used io) :
    ∃ w' l r, w.reclaimCompletedReqs = .ok w' ∧ io = l ++ r ∧
      (∀ i ∈ l, (w.workQueue i).isCompleted) ∧ w'.Whole fresh (used ++ l) r := by
  obtain ⟨l, r, hio, hdone, hlast⟩ := completedLoop_spec (l := []) (nrMaxParallelIo + 1)
    h.lists.list (List.nil_append io).symm nofun (Nat.lt_succ_of_lt h.lists.io_length_lt)
  rw [Worker.reclaimCompletedReqs]
  rw [show w.completedLoop (nrMaxParallelIo + 1) uintMax w.ioSeq = _ from hlast, ok_bind]
  rcases List.eq_nil_or_concat' l with rfl | ⟨l, t, rfl⟩
  · refine ⟨w, [], r, rfl, hio, hdone, ?_⟩
    rw [List.append_nil, show r = io from hio.symm]
    exact h
  · have ht : (l ++ [t]).getLast?.getD uintMax = t := by rw [List.getLast?_concat]; rfl
    have htlt : t < nrMaxParallelIo := h.lists.lt t (by simp [hio])
    rw [ht, if_neg (lt_uintMax htlt)]
    subst hio
    refine ⟨_, l ++ [t], r, rfl, rfl, hdone, h.lists.reclaim hdone, ?_, ?_⟩
    · rw [← h.length]
      simp only [List.append_assoc]
    · have hsorted : w.Sorted r := (List.pairwise_append.mp h.sorted).2.1
      refine hsorted.congr (fun i _ => nsecsTarget_congr ?_) ?_
      · rw [body_appendFree, body_cutBehind]
      · exact (latestNsecs_cutBehind w t).ge

/-- Every operation that returns keeps the queue whole; it can only stop for want of an
entry. -/
theorem Whole.run (h : w.Whole fresh used io) {op : Op β} (hf : op.Forward w) :
    Yields (op.run w) (· = .bug) fun w' => ∃ fresh' used' io', w'.Whole fresh' used' io' := by
  cases op with
  | enqueue o t =>
    rcases h.lists.enqueue (ioWork · o t) fun _ => ⟨rfl, rfl, rfl⟩ with
      hnone | ⟨e, w₁, w', fresh', used', l, r, hsome, hw', henq⟩
    · rw [Op.run, Worker.enqueueIoReq, hnone]
      exact ⟨_, _, _, h⟩
    · rw [Op.run, Worker.enqueueIoReq, hsome]
      dsimp only
      rw [hw']
      exact ⟨_, _, _, henq.whole h⟩
  | internal r =>
    change Yields (w.scheduleInternalOperation r) _ _
    unfold Worker.scheduleInternalOperation
    cases hcb : r.cb with
    | none =>
      rcases h.lists.enqueue (internalWork · r) fun _ => ⟨rfl, rfl, rfl⟩ with
        hnone | ⟨e, w₁, w', fresh', used', l, r, hsome, hw', henq⟩
      · rw [hnone]
        exact ⟨_, _, _, h⟩
      · rw [hsome]
        dsimp only
        rw [hw']
        exact ⟨_, _, _, henq.whole h⟩
    | some b =>
      rcases h.lists.enqueue (internalCbWork · r) fun _ => ⟨rfl, rfl, rfl⟩ with
        hnone | ⟨e, w₁, w', fresh', used', l, r, hsome, hw', henq⟩
      · rw [hnone]
        rfl
      · rw [hsome]
        dsimp only
        rw [hw']
        exact ⟨_, _, _, henq.whole h⟩
  | copy i n => exact ⟨_, _, _, h.touch i rfl rfl rfl id⟩
  | complete i => exact ⟨_, _, _, h.touch i rfl rfl rfl fun _ => rfl⟩
  | tick now =>
    exact ⟨_, _, _, h.lists.of_queue_eq rfl rfl rfl rfl rfl, h.length, h.sorted.congr
      (fun _ _ => rfl) hf⟩
  | reclaim =>
    obtain ⟨w', l, r, hrun, -, -, hwhole⟩ := h.reclaim
    rw [Op.run, hrun]
    exact ⟨_, _, _, hwhole⟩

/-! ### Every run -/

theorem whole_init : (init : Worker β).Whole (List.range nrMaxParallelIo) [] [] := by
  refine ⟨lists_init, ?_, List.Pairwise.nil⟩
  rw [List.append_nil, List.append_nil, List.length_range]

theorem Reaches.whole (h : Reaches w) : ∃ fresh used io, w.Whole fresh used io := by
  induction h with
  | init => exact ⟨_, _, _, whole_init⟩
  | step _ hf hrun ih =>
    obtain ⟨fresh, used, io, hw⟩ := ih
    have hyields := hw.run hf
    rw [hrun] at hyields
    exact hyields

/-- The free list and the sorted list of a work queue. -/
structure Shape (w : Worker β) (free busy : List ℕ) : Prop where
  entries : (free ++ busy).Perm (List.range nrMaxParallelIo)
  freeList : Seg w.next w.freeSeq free uintMax
  freeEnd : free.getLast? = some w.freeSeqEnd
  busyList : Seg w.next w.ioSeq busy uintMax
  busyEnd : busy ≠ [] → busy.getLast? = some w.ioSeqEnd
  prev : ∀ i ∈ busy, w.next i ≠ uintMax → w.prev (w.next i) = i
  sorted : w.Sorted busy

/-- The links back invert the links forward. -/
theorem Lists.prev_next (h : w.Lists fresh used io) {i : ℕ} (hi : i ∈ io)
    (hn : w.next i ≠ uintMax) : w.prev (w.next i) = i := by
  obtain ⟨l, r, rfl⟩ := List.append_of_mem hi
  obtain ⟨d, -, rfl, hr⟩ := seg_append.mp h.list
  obtain ⟨r, rfl, -⟩ := hr.exists_cons hn
  have hback := h.back (by simp)
  rw [show (l ++ d :: w.next d :: r).reverse = r.reverse ++ w.next d :: (d :: l.reverse) by simp]
    at hback
  obtain ⟨_, -, rfl, hd, -⟩ := seg_append.mp hback
  exact hd

theorem Lists.getLast?_io (h : w.Lists fresh used io) (hio : io ≠ []) :
    io.getLast? = some w.ioSeqEnd := by
  rcases List.eq_nil_or_concat' io with rfl | ⟨l, c, rfl⟩
  · exact absurd rfl hio
  · have hback := h.back hio
    rw [List.reverse_append] at hback
    rw [List.getLast?_concat, hback.1]

theorem Whole.to_shape (h : w.Whole fresh used io) : w.Shape (fresh ++ used) io where
  entries := by
    have hsub : (fresh ++ used ++ io).Subperm (List.range nrMaxParallelIo) :=
      List.subperm_of_subset h.lists.nodup fun x hx => List.mem_range.mpr (h.lists.lt x hx)
    refine hsub.perm_of_length_le ?_
    rw [h.length, List.length_range]
  freeList := h.lists.free
  freeEnd := h.lists.last
  busyList := h.lists.list
  busyEnd := h.lists.getLast?_io
  prev _ hi hn := h.lists.prev_next hi hn
  sorted := h.sorted

/-- In every reachable work queue the free list and the sorted list hold each entry once,
the free list is not empty, the sorted list is chained both ways and sorted up to expired
entries, a reclaim moves only completed entries, and no operation hangs. -/
theorem Reaches.shape (h : Reaches w) : ∃ free busy, w.Shape free busy ∧ free ≠ [] ∧
    (∃ w' moved rest, w.reclaimCompletedReqs = .ok w' ∧ busy = moved ++ rest ∧
      (∀ i ∈ moved, (w.workQueue i).isCompleted) ∧ w'.Shape (free ++ moved) rest) ∧
    ∀ op : Op β, op.Forward w → op.run w ≠ .error .hang := by
  obtain ⟨fresh, used, io, hw⟩ := h.whole
  refine ⟨fresh ++ used, io, hw.to_shape, ?_, ?_, ?_⟩
  · intro hnil
    have hlast := hw.lists.last
    rw [hnil] at hlast
    cases hlast
  · obtain ⟨w', l, r, hrun, hio, hdone, hwhole⟩ := hw.reclaim
    refine ⟨w', l, r, hrun, hio, hdone, ?_⟩
    rw [List.append_assoc]
    exact hwhole.to_shape
  · intro op hf herr
    have hyields := hw.run hf
    rw [herr] at hyields
    cases hyields

/-- Commands with targets 500, 300 and 400. A worker copies and completes the second and the
third, and a reclaim takes back the second, which is the only one that has expired. -/
def threeCommands : List (Op Unit) :=
  [.enqueue ⟨1, 1, 0, 7, 0, none⟩ 500, .enqueue ⟨1, 1, 1, 8, 0, none⟩ 300,
    .enqueue ⟨1, 1, 2, 9, 0, none⟩ 400, .copy 1 0, .complete 1, .copy 2 0, .complete 2, .tick 350,
    .reclaim]

/-- The third command is before the first, and the second is at the end of the free list. -/
theorem shape_threeCommands :
    ∃ w : Worker Unit, threeCommands.foldlM (fun w op => op.run w) init = .ok w ∧
      w.ioSeq = 2 ∧ (w.workQueue 2).next = 0 ∧ w.ioSeqEnd = 0 ∧ w.freeSeqEnd = 1 ∧
      ∃ free busy, w.Shape free busy ∧ free ≠ [] ∧
        (∃ w' moved rest, w.reclaimCompletedReqs = .ok w' ∧ busy = moved ++ rest ∧
          (∀ i ∈ moved, (w.workQueue i).isCompleted) ∧ w'.Shape (free ++ moved) rest) ∧
        ∀ op : Op Unit, op.Forward w → op.run w ≠ .error .hang := by
  refine ⟨_, rfl, rfl, rfl, rfl, rfl, ?_⟩
  have h1 := @Reaches.step Unit init _ (.enqueue ⟨1, 1, 0, 7, 0, none⟩ 500) .init trivial rfl
  have h2 := @Reaches.step Unit _ _ (.enqueue ⟨1, 1, 1, 8, 0, none⟩ 300) h1 trivial rfl
  have h3 := @Reaches.step Unit _ _ (.enqueue ⟨1, 1, 2, 9, 0, none⟩ 400) h2 trivial rfl
  have h4 := @Reaches.step Unit _ _ (.copy 1 0) h3 trivial rfl
  have h5 := @Reaches.step Unit _ _ (.complete 1) h4 trivial rfl
  have h6 := @Reaches.step Unit _ _ (.copy 2 0) h5 trivial rfl
  have h7 := @Reaches.step Unit _ _ (.complete 2) h6 trivial rfl
  have h8 := @Reaches.step Unit _ _ (.tick 350) h7 (Nat.zero_le _) rfl
  exact (@Reaches.step Unit _ _ .reclaim h8 trivial rfl).shape

end Worker

end Virtkv.Io
