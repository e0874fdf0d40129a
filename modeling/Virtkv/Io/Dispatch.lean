import Mathlib.Data.List.Forall2
import Virtkv.Io.Queue

/-!
# No command is lost between submission and completion

A consumed command is due a completion and, with it, the callback that undoes
what the namespace has locked for it. The commands consumed in a run are
compared with the completions posted and the entries still in the work queues:
`Accounted` says that every one of them is in exactly one of the two places.

The dispatcher does not look at what `__enqueue_io_req` returns, so a command
for which no entry can be allocated is consumed all the same. That is the only
way to lose one: a run keeps its commands exactly if every command it accepts
finds an entry.

## Main results

- `Inv.step` — one step of the dispatcher or of a worker, the lost commands
  counted
- `lossless_iff` — a run loses no command if and only if none is accepted while
  only one entry of its worker is free
-/

open Outcome Links

namespace Virtkv.Io

variable {σ κ β : Type}

/-! ### Accounts -/

/-- The first `n` entries of the chain from `i`. -/
def Worker.chain (w : Worker β) : ℕ → ℕ → List ℕ
  | 0, _ => []
  | n + 1, i => if i = uintMax then [] else i :: w.chain n (w.next i)

/-- The commands whose completion is due from an entry of the sorted list. -/
def Worker.outstanding (w : Worker β) : List (Order β) :=
  w.pending (w.chain nrMaxParallelIo w.ioSeq)

/-- The commands whose completion is due from an entry of some worker. -/
def Vdev.outstanding (c : Config) (v : Vdev σ κ β) : List (Order β) :=
  (List.range c.nrIoWorkers).flatMap fun i => (v.workers i).outstanding

/-- The completion is the one that is due. -/
def Order.Completed (o : Order β) (x : Completion) : Prop :=
  x.cqid = o.cqid ∧ x.sqid = o.sqid ∧ x.sqHead = o.sqEntry ∧ x.commandId = o.commandId ∧
    x.status = o.status

/-- Every consumed command either is completed or has exactly one entry that
carries its completion and its callback. -/
def Accounted (c : Config) (v : Vdev σ κ β) (consumed : List (Order β)) : Prop :=
  ∃ done, consumed.Perm (done ++ v.outstanding c) ∧ List.Forall₂ Order.Completed done v.posted

/-- A step of the device, and the commands consumed up to it. -/
def stepLog (c : Config) (ns : Ns σ κ β) (s : Vdev σ κ β × List (Order β)) (e : Vdev.Event κ) :
    Except Fault (Vdev σ κ β × List (Order β)) := do
  let (v, os) ← s.1.step c ns e
  return (v, s.2 ++ os)

/-- A run of the device, with the commands it consumes. -/
def run (c : Config) (ns : Ns σ κ β) :
    Vdev σ κ β × List (Order β) → List (Vdev.Event κ) →
      Except Fault (Vdev σ κ β × List (Order β))
  | s, [] => .ok s
  | s, e :: es => do run c ns (← stepLog c ns s e) es

/-- The step has the dispatcher process a command which the namespace accepts
and for which the work queue then has no entry to allocate. -/
def NoEntry (c : Config) (ns : Ns σ κ β) (v : Vdev σ κ β) (e : Vdev.Event κ) : Prop :=
  ∃ t sqid oldDb num seq sqEntry v₁ ret, e = .next t ∧
    v.dispatcher = .inSq sqid oldDb num seq sqEntry ∧ (c.sqes sqid).isSome ∧ seq < num ∧
    v.runCmd c ns sqid sqEntry t = .ok (true, v₁, ret) ∧
    (v₁.workers (c.ioWorker sqid)).allocateWorkQueueEntry = none

/-- No command is lost: in every state of the run the consumed commands are
accounted for, and a command without an entry is not consumed and leaves the
namespace as it was. -/
def Lossless (c : Config) (ns : Ns σ κ β) (v₀ : Vdev σ κ β) (es : List (Vdev.Event κ)) : Prop :=
  ∀ pre post, es = pre ++ post → ∀ v consumed, run c ns (v₀, []) pre = .ok (v, consumed) →
    Accounted c v consumed ∧
    ∀ e post', post = e :: post' → NoEntry c ns v e →
      ∀ v' consumed', stepLog c ns (v, consumed) e = .ok (v', consumed') →
        consumed' = consumed ∧ v'.ftl = v.ftl

/-! ### The invariant -/

/-- Every work queue is well formed, and `ps i` is still due from the entries of
the worker `i`. -/
def Queues (c : Config) (v : Vdev σ κ β) (ps : ℕ → List (Order β)) : Prop :=
  ∀ i < c.nrIoWorkers, (v.workers i).Holds (ps i)

/-- The work queues are well formed, and of the consumed commands those in
`lost` have neither a completion nor an entry. -/
structure Inv (c : Config) (v : Vdev σ κ β) (consumed lost : List (Order β))
    (done : List (Order β)) (ps : ℕ → List (Order β)) : Prop where
  holds : Queues c v ps
  posted : List.Forall₂ Order.Completed done v.posted
  perm : consumed.Perm (done ++ (List.range c.nrIoWorkers).flatMap ps ++ lost)

theorem Worker.chain_eq {w : Worker β} {io : List ℕ} {i n : ℕ}
    (h : Seg w.next i io uintMax) (hlt : ∀ x ∈ io, x < nrMaxParallelIo) (hn : io.length ≤ n) :
    w.chain n i = io := by
  induction io generalizing i n with
  | nil =>
    cases n with
    | zero => rfl
    | succ n => exact if_pos h
  | cons x xs ih =>
    cases n with
    | zero => cases hn
    | succ n =>
      obtain ⟨rfl, hxs⟩ := h
      rw [chain, if_neg (Worker.lt_uintMax (hlt i (List.mem_cons_self ..))),
        ih hxs (fun x hx => hlt x (List.mem_cons_of_mem _ hx)) (Nat.le_of_succ_le_succ hn)]

theorem Worker.Holds.outstanding_perm {w : Worker β} {ps : List (Order β)} (h : w.Holds ps) :
    w.outstanding.Perm ps := by
  obtain ⟨fresh, used, io, hl, -, hps⟩ := h
  rw [outstanding, chain_eq hl.list (fun x hx => hl.lt x (List.mem_append_right _ hx))
    (Nat.le_of_lt hl.io_length_lt)]
  exact hps

namespace Inv

variable {c : Config} {ns : Ns σ κ β} {v v' : Vdev σ κ β} {consumed lost done : List (Order β)}
  {ps : ℕ → List (Order β)}

theorem outstanding_perm (h : Inv c v consumed lost done ps) :
    (v.outstanding c).Perm ((List.range c.nrIoWorkers).flatMap ps) :=
  List.Perm.flatMap_left _ fun i hi => (h.holds i (List.mem_range.mp hi)).outstanding_perm

/-- The consumed commands are accounted for exactly if none is lost. -/
theorem accounted_iff (h : Inv c v consumed lost done ps) :
    Accounted c v consumed ↔ lost = [] := by
  constructor
  · rintro ⟨done', hperm, hposted⟩
    have h1 := hperm.length_eq
    have h2 := h.perm.length_eq
    have h3 := h.outstanding_perm.length_eq
    have h4 := hposted.length_eq
    have h5 := h.posted.length_eq
    simp only [List.length_append] at h1 h2
    exact List.eq_nil_of_length_eq_zero (by omega)
  · rintro rfl
    refine ⟨done, ?_, h.posted⟩
    have := h.perm
    rw [List.append_nil] at this
    exact this.trans (h.outstanding_perm.symm.append_left _)

end Inv

/-! ### The work queues together -/

@[simp] theorem Vdev.setWorker_self (v : Vdev σ κ β) (i : ℕ) (w : Worker β) :
    (v.setWorker i w).workers i = w :=
  Function.update_self ..

theorem Vdev.setWorker_of_ne (v : Vdev σ κ β) {i j : ℕ} (w : Worker β) (h : j ≠ i) :
    (v.setWorker i w).workers j = v.workers j :=
  Function.update_of_ne h ..

section Queues

variable {c : Config} {v : Vdev σ κ β} {ps : ℕ → List (Order β)}

theorem Queues.setWorker (h : Queues c v ps) {w : Worker β} {qs : List (Order β)} (i : ℕ)
    (hw : w.Holds qs) : Queues c (v.setWorker i w) (Function.update ps i qs) := by
  intro j hj
  by_cases hji : j = i
  · subst hji
    rw [Vdev.setWorker_self, Function.update_self]
    exact hw
  · rw [Vdev.setWorker_of_ne _ _ hji, Function.update_of_ne hji]
    exact h j hj

theorem Queues.setWorker_same (h : Queues c v ps) {w : Worker β} (i : ℕ) (hw : w.Holds (ps i)) :
    Queues c (v.setWorker i w) ps := by
  have := h.setWorker i hw
  rwa [Function.update_eq_self] at this

/-- What is due from all workers, when one of them has more. -/
theorem flatMap_update_perm (ps : ℕ → List (Order β)) (n i : ℕ) (hi : i < n) (a b : List (Order β)) :
    ((List.range n).flatMap (Function.update ps i (a ++ b))).Perm
      (a ++ (List.range n).flatMap (Function.update ps i b)) := by
  induction n with
  | zero => cases hi
  | succ n ih =>
    rw [List.range_succ, List.flatMap_append, List.flatMap_append, List.flatMap_singleton,
      List.flatMap_singleton]
    by_cases hin : i = n
    · subst hin
      have hsame : ∀ d : List (Order β),
          (List.range i).flatMap (Function.update ps i d) = (List.range i).flatMap ps := by
        intro d
        refine List.flatMap_congr fun j hj => ?_
        exact Function.update_of_ne (Nat.ne_of_lt (List.mem_range.mp hj)) _ _
      rw [hsame, hsame, Function.update_self, Function.update_self, ← List.append_assoc,
        ← List.append_assoc]
      exact List.perm_append_comm.append_right _
    · rw [Function.update_of_ne (Ne.symm hin), Function.update_of_ne (Ne.symm hin),
        ← List.append_assoc]
      exact (ih (by omega)).append_right _

/-- The internal operations of a command stop only for want of an entry. -/
theorem Queues.scheduleAll (h : Queues c v ps) (rs : List (Internal β)) :
    Yields (v.scheduleAll c rs) (· = .bug) fun v' =>
      Queues c v' ps ∧ v' = { v with workers := v'.workers } := by
  induction rs generalizing v with
  | nil => exact ⟨h, rfl⟩
  | cons r rs ih =>
    have hi : c.ioWorker r.sqid < c.nrIoWorkers := Nat.mod_lt _ c.nrIoWorkers_pos
    refine ((h _ hi).scheduleInternalOperation r).bind fun w hw => ?_
    exact (ih (h.setWorker_same _ hw)).post fun v' hv' => ⟨hv'.1, hv'.2⟩

/-- Taking completed entries back never stops. -/
theorem Queues.reclaimAll (h : Queues c v ps) (n : ℕ) (hn : n ≤ c.nrIoWorkers) :
    ∃ v', v.reclaimAll n = .ok v' ∧ Queues c v' ps ∧ v' = { v with workers := v'.workers } := by
  induction n with
  | zero => exact ⟨v, rfl, h, rfl⟩
  | succ n ih =>
    obtain ⟨v₁, hv₁, hq, heq⟩ := ih (by omega)
    obtain ⟨w, hw, hh⟩ := (hq n hn).reclaimCompletedReqs
    refine ⟨v₁.setWorker n w, ?_, hq.setWorker_same n hh, ?_⟩
    · rw [Vdev.reclaimAll, hv₁, ok_bind, hw, ok_bind]
      rfl
    · rw [heq]
      rfl

end Queues

/-! ### Steps -/

namespace Inv

variable {c : Config} {ns : Ns σ κ β} {v v' : Vdev σ κ β} {consumed lost done : List (Order β)}
  {ps : ℕ → List (Order β)} {i : ℕ}

/-- Only the work queues and the posted completions matter. -/
theorem of_eq (h : Inv c v consumed lost done ps) (hw : v'.workers = v.workers)
    (hp : v'.posted = v.posted) : Inv c v' consumed lost done ps where
  holds := fun i hi => by
    rw [hw]
    exact h.holds i hi
  posted := by
    rw [hp]
    exact h.posted
  perm := h.perm

theorem setWorker_same (h : Inv c v consumed lost done ps) {w : Worker β} (hw : w.Holds (ps i)) :
    Inv c (v.setWorker i w) consumed lost done ps where
  holds := h.holds.setWorker_same i hw
  posted := h.posted
  perm := h.perm

theorem setLatest (h : Inv c v consumed lost done ps) (hi : i < c.nrIoWorkers) (now : ℕ) :
    Inv c (v.setLatest i now) consumed lost done ps :=
  h.setWorker_same ((h.holds i hi).setLatest now)

theorem startPass (h : Inv c v consumed lost done ps) (hi : i < c.nrIoWorkers) :
    Inv c (v.startPass i) consumed lost done ps :=
  h.setWorker_same (h.holds i hi).start

theorem advanceCurr (h : Inv c v consumed lost done ps) (hi : i < c.nrIoWorkers)
    (hc : (v.workers i).curr ≠ uintMax) : Inv c (v.advanceCurr i) consumed lost done ps :=
  h.setWorker_same ((h.holds i hi).advance hc)

variable (ns) in
/-- Copying an entry leaves what it carries. -/
theorem copyCurr (h : Inv c v consumed lost done ps) (hi : i < c.nrIoWorkers)
    (hc : (v.workers i).curr ≠ uintMax)
    (hnot : ((v.workers i).workQueue (v.workers i).curr).isCompleted = false) :
    Inv c (v.copyCurr c ns i) consumed lost done ps ∧
      ((v.copyCurr c ns i).workers i).curr = (v.workers i).curr ∧
      (((v.copyCurr c ns i).workers i).workQueue (v.workers i).curr).isCompleted = false := by
  unfold Vdev.copyCurr
  dsimp only
  split_ifs
  · exact ⟨h, rfl, hnot⟩
  · rw [Vdev.setWorker_self, Worker.setWork_self]
    refine ⟨?_, rfl, hnot⟩
    obtain ⟨ps₀, hperm, hh⟩ := (h.holds i hi).setCurr hc hnot
      (x := { (v.workers i).workQueue (v.workers i).curr with
        isCopied := true
        result0 := (Vdev.copy c ns v ((v.workers i).workQueue (v.workers i).curr)).2 }) rfl rfl
    have hfix : Inv c { v with
        ftl := (Vdev.copy c ns v ((v.workers i).workQueue (v.workers i).curr)).1 }
        consumed lost done ps := h.of_eq rfl rfl
    exact hfix.setWorker_same (hh.perm hperm.symm)

/-- Completing an entry posts the completion it carries. -/
theorem completeCurr (h : Inv c v consumed lost done ps) (hi : i < c.nrIoWorkers)
    (hc : (v.workers i).curr ≠ uintMax)
    (hnot : ((v.workers i).workQueue (v.workers i).curr).isCompleted = false) (now : ℕ) :
    (∃ done' ps', Inv c (v.completeCurr i now) consumed lost done' ps') ∧
      ((v.completeCurr i now).workers i).curr = (v.workers i).curr := by
  unfold Vdev.completeCurr
  dsimp only
  obtain ⟨ps₀, hperm, hh⟩ := (h.holds i hi).setCurr hc hnot
    (x := { (v.workers i).workQueue (v.workers i).curr with isCompleted := true }) rfl rfl
  have hdone : (({ (v.workers i).workQueue (v.workers i).curr with
      isCompleted := true } : Work β).due) = none := if_pos (.inr rfl)
  rw [hdone] at hh
  split_ifs with ht hint
  · have hnone : ((v.workers i).workQueue (v.workers i).curr).due = none := if_pos (.inl hint)
    rw [hnone] at hperm
    refine ⟨⟨done, ps, ?_⟩, by rw [Vdev.setWorker_self]; rfl⟩
    have hfix : Inv c { v with posted := v.posted } consumed lost done ps := h.of_eq rfl rfl
    exact hfix.setWorker_same (hh.perm hperm.symm)
  · set x := (v.workers i).workQueue (v.workers i).curr with hx
    have hsome : x.due = some x.order := by
      refine if_neg ?_
      rw [hnot]
      simpa using hint
    rw [hsome] at hperm
    refine ⟨⟨done ++ [x.order], Function.update ps i ps₀, h.holds.setWorker i hh, ?_, ?_⟩,
      by rw [Vdev.setWorker_self]; rfl⟩
    · exact List.rel_append h.posted (.cons ⟨rfl, rfl, rfl, rfl, rfl⟩ .nil)
    · have hflat : ((List.range c.nrIoWorkers).flatMap ps).Perm
          ([x.order] ++ (List.range c.nrIoWorkers).flatMap (Function.update ps i ps₀)) := by
        refine List.Perm.trans ?_ (flatMap_update_perm ps _ i hi [x.order] ps₀)
        refine List.Perm.flatMap_left _ fun j _ => ?_
        by_cases hji : j = i
        · subst hji
          rw [Function.update_self]
          exact hperm
        · rw [Function.update_of_ne hji]
      refine h.perm.trans (List.Perm.append_right _ ?_)
      rw [List.append_assoc]
      exact hflat.append_left _
  · exact ⟨⟨done, ps, h⟩, rfl⟩

variable (ns) in
/-- One iteration of a worker. -/
theorem workOne (h : Inv c v consumed lost done ps) (hi : i < c.nrIoWorkers) (now : ℕ) :
    ∃ done' ps', Inv c (v.workOne c ns i now) consumed lost done' ps' := by
  unfold Vdev.workOne
  dsimp only
  split_ifs with hc hd
  · exact ⟨done, ps, h⟩
  · have hcl : ((v.setLatest i now).workers i).curr ≠ uintMax := by
      rw [Vdev.setLatest, Vdev.setWorker_self]
      exact hc
    exact ⟨done, ps, (h.setLatest hi now).advanceCurr hi hcl⟩
  · have hl := h.setLatest hi now
    have hcurr : ((v.setLatest i now).workers i).curr = (v.workers i).curr := by
      rw [Vdev.setLatest, Vdev.setWorker_self]
    have hnot : (((v.setLatest i now).workers i).workQueue
        ((v.setLatest i now).workers i).curr).isCompleted = false := by
      rw [Vdev.setLatest, Vdev.setWorker_self]
      simpa using hd
    obtain ⟨hcopy, hcc, hcn⟩ := hl.copyCurr ns hi (by rw [hcurr]; exact hc) hnot
    rw [← hcc] at hcn
    obtain ⟨⟨done', ps', hcomp⟩, hcc'⟩ :=
      hcopy.completeCurr hi (by rw [hcc, hcurr]; exact hc) hcn now
    refine ⟨done', ps', hcomp.advanceCurr hi ?_⟩
    rw [hcc', hcc, hcurr]
    exact hc

end Inv

section Dispatcher

variable {c : Config} {ns : Ns σ κ β} {v : Vdev σ κ β} {consumed lost done : List (Order β)}
  {ps : ℕ → List (Order β)}

/-- What `__nvmev_proc_io` does to the work queues: nothing if the command is
not accepted; else its order is due from an entry, or was not queued. -/
structure Processed (c : Config) (ns : Ns σ κ β) (v : Vdev σ κ β) (ps : ℕ → List (Order β))
    (sqid sqEntry t : ℕ) (r : Bool × Vdev σ κ β × List (Order β)) : Prop where
  rest : r.2.1 = { v with workers := r.2.1.workers, ftl := r.2.1.ftl }
  ran : ∃ v₁ ret, v.runCmd c ns sqid sqEntry t = .ok (r.1, v₁, ret) ∧
    ((r.1 = false ∧ r.2.2 = [] ∧ Queues c r.2.1 ps) ∨
      (r.1 = true ∧ ∃ o, r.2.2 = [o] ∧
        (((v₁.workers (c.ioWorker sqid)).allocateWorkQueueEntry = none ∧ Queues c r.2.1 ps) ∨
        ((v₁.workers (c.ioWorker sqid)).allocateWorkQueueEntry ≠ none ∧
          Queues c r.2.1 (Function.update ps (c.ioWorker sqid) (o :: ps (c.ioWorker sqid)))))))

variable (ns) in
theorem Queues.runCmd (h : Queues c v ps) (sqid sqEntry t : ℕ) :
    Yields (v.runCmd c ns sqid sqEntry t) (· = .bug) fun r =>
      Queues c r.2.1 ps ∧ r.2.1 = { v with workers := r.2.1.workers, ftl := r.2.1.ftl } := by
  unfold Vdev.runCmd
  generalize ns.procIoCmd v.ftl (v.sq sqid sqEntry) sqid t = out
  obtain ⟨ok, ftl, ret, rs⟩ := out
  have hftl : Queues c { v with ftl := ftl } ps := h
  refine (hftl.scheduleAll rs).bind fun v₁ hv₁ => ?_
  refine ⟨hv₁.1, ?_⟩
  change v₁ = { v with workers := v₁.workers, ftl := v₁.ftl }
  rw [hv₁.2]

variable (ns) in
theorem Queues.procIo (h : Queues c v ps) (sq : Sq) (sqid sqEntry t : ℕ) :
    Yields (v.procIo c ns sq sqid sqEntry t)
      (fun f => f = .bug ∧ v.runCmd c ns sqid sqEntry t = .error f)
      (Processed c ns v ps sqid sqEntry t) := by
  have hw : c.ioWorker sqid < c.nrIoWorkers := Nat.mod_lt _ c.nrIoWorkers_pos
  have hrun := h.runCmd ns sqid sqEntry t
  unfold Vdev.procIo
  cases hr : v.runCmd c ns sqid sqEntry t with
  | error e =>
    rw [hr] at hrun
    exact ⟨hrun, rfl⟩
  | ok r =>
    rw [hr] at hrun
    obtain ⟨ok, v₁, ret⟩ := r
    obtain ⟨hq, hrest⟩ := hrun
    rw [ok_bind]
    dsimp only
    cases ok with
    | false => exact ⟨hrest, v₁, ret, hr, .inl ⟨rfl, rfl, hq⟩⟩
    | true =>
      rw [if_pos rfl]
      set o := Vdev.orderOf ns sq sqid sqEntry (v.sq sqid sqEntry) ret with ho
      rcases (hq _ hw).enqueueIoReq o ret.nsecsTarget with ⟨hnone, henq⟩ | ⟨hsome, w', henq, hh⟩
      · obtain ⟨v₂, hv₂, hq₂, hrest₂⟩ := hq.reclaimAll c.nrIoWorkers (Nat.le_refl _)
        rw [henq, ok_bind]
        dsimp only
        rw [hv₂]
        refine ⟨?_, v₁, ret, hr, .inr ⟨rfl, o, rfl, .inl ⟨hnone, hq₂⟩⟩⟩
        change v₂ = { v with workers := v₂.workers, ftl := v₂.ftl }
        rw [hrest₂, hrest]
      · obtain ⟨v₂, hv₂, hq₂, hrest₂⟩ := (hq.setWorker _ hh).reclaimAll c.nrIoWorkers (Nat.le_refl _)
        rw [henq, ok_bind]
        dsimp only
        rw [hv₂]
        refine ⟨?_, v₁, ret, hr, .inr ⟨rfl, o, rfl, .inr ⟨hsome, hq₂⟩⟩⟩
        change v₂ = { v with workers := v₂.workers, ftl := v₂.ftl }
        rw [hrest₂, hrest]
        rfl

/-- What a step does to the account: the commands it consumes are accounted for
unless there is no entry, and then it consumes and loses one. -/
def Steps (c : Config) (ns : Ns σ κ β) (v : Vdev σ κ β) (e : Vdev.Event κ)
    (consumed lost : List (Order β)) (r : Vdev σ κ β × List (Order β)) : Prop :=
  ∃ lost' done' ps', Inv c r.1 (consumed ++ r.2) lost' done' ps' ∧
    (NoEntry c ns v e → r.2 ≠ [] ∧ lost' ≠ []) ∧ (¬NoEntry c ns v e → lost' = lost)

/-- A step that is not the dispatcher's consumes nothing. -/
theorem Steps.of_inv {v' : Vdev σ κ β} {e : Vdev.Event κ} {done' : List (Order β)}
    {ps' : ℕ → List (Order β)} (h : Inv c v' consumed lost done' ps')
    (hno : ¬NoEntry c ns v e) : Steps c ns v e consumed lost (v', []) := by
  refine ⟨lost, done', ps', ?_, fun hn => absurd hn hno, fun _ => rfl⟩
  rw [List.append_nil]
  exact h

/-- One iteration of the loop of `nvmev_proc_io_sq`. -/
theorem Inv.procNext (h : Inv c v consumed lost done ps) (t : ℕ) :
    Yields (v.procNext c ns t) (fun f => f = .bug ∧ ¬NoEntry c ns v (.next t))
      (Steps c ns v (.next t) consumed lost) := by
  unfold Vdev.procNext
  cases hd : v.dispatcher with
  | idle =>
    refine Steps.of_inv h ?_
    rintro ⟨_, _, _, _, _, _, _, _, -, hd', -⟩
    rw [hd] at hd'
    cases hd'
  | inSq sqid oldDb num seq sqEntry =>
    dsimp only
    cases hsq : c.sqes sqid with
    | none =>
      refine Steps.of_inv h ?_
      rintro ⟨_, _, _, _, _, _, _, _, -, hd', hs, -⟩
      rw [hd] at hd'
      cases hd'
      rw [hsq] at hs
      cases hs
    | some sq =>
      dsimp only
      by_cases hlt : seq < num
      · rw [if_pos hlt]
        have hproc := (h.holds.procIo ns sq sqid sqEntry t).mono
          (B := fun f => f = .bug ∧ ¬NoEntry c ns v (.next t)) ?_ (fun _ hr => hr)
        swap
        · rintro f ⟨hf, herr⟩
          refine ⟨hf, ?_⟩
          rintro ⟨_, _, _, _, _, _, _, _, ht, hd', -, -, hrun, -⟩
          rw [hd] at hd'
          cases ht
          cases hd'
          rw [herr] at hrun
          cases hrun
        refine hproc.bind ?_
        rintro ⟨ok, v', os⟩ ⟨hrest, v₁, ret, hrun, hcase⟩
        have hposted : v'.posted = v.posted := by
          change v' = _ at hrest
          rw [hrest]
        have hpost : List.Forall₂ Order.Completed done v'.posted := by
          rw [hposted]
          exact h.posted
        -- `NoEntry` reads the state after the namespace has run
        have hno : NoEntry c ns v (.next t) ↔
            ok = true ∧ (v₁.workers (c.ioWorker sqid)).allocateWorkQueueEntry = none := by
          constructor
          · rintro ⟨t', sqid', oldDb', num', seq', sqEntry', v₁', ret', ht, hd', -, -, hrun', hall⟩
            rw [hd] at hd'
            cases ht
            cases hd'
            rw [hrun] at hrun'
            cases hrun'
            exact ⟨rfl, hall⟩
          · rintro ⟨hok, hall⟩
            change v.runCmd c ns sqid sqEntry t = .ok (ok, v₁, ret) at hrun
            rw [hok] at hrun
            exact ⟨t, sqid, oldDb, num, seq, sqEntry, v₁, ret, rfl, hd, by rw [hsq]; rfl, hlt,
              hrun, hall⟩
        rcases hcase with ⟨hok, hos, hq⟩ | ⟨hok, o, hos, hcase⟩
        · change ok = false at hok
          change os = [] at hos
          subst hok hos
          refine Steps.of_inv (h := ⟨hq, hpost, h.perm⟩) ?_
          rw [hno]
          exact fun hn => Bool.noConfusion hn.1
        · change ok = true at hok
          change os = [o] at hos
          subst hok hos
          rcases hcase with ⟨hall, hq⟩ | ⟨hall, hq⟩
          · refine ⟨lost ++ [o], done, ps, ⟨hq, hpost, ?_⟩, fun _ => ⟨nofun, by simp⟩, ?_⟩
            · rw [← List.append_assoc]
              exact h.perm.append_right _
            · exact fun hn => absurd (hno.mpr ⟨rfl, hall⟩) hn
          · refine ⟨lost, done, _, ⟨hq, hpost, ?_⟩, ?_, fun _ => rfl⟩
            · have hflat := flatMap_update_perm ps c.nrIoWorkers (c.ioWorker sqid)
                (Nat.mod_lt _ c.nrIoWorkers_pos) [o] (ps (c.ioWorker sqid))
              rw [Function.update_eq_self] at hflat
              refine (List.perm_append_comm.trans (h.perm.append_left [o])).trans ?_
              rw [← List.append_assoc, ← List.append_assoc]
              refine List.Perm.append_right _ (List.Perm.trans ?_ (hflat.symm.append_left done))
              rw [← List.append_assoc]
              exact List.perm_append_comm.append_right _
            · exact fun hn => absurd (hno.mp hn).2 hall
      · rw [if_neg hlt]
        refine Steps.of_inv (h.of_eq rfl rfl) ?_
        rintro ⟨_, _, _, _, _, _, _, _, -, hd', -, hlt', -⟩
        rw [hd] at hd'
        cases hd'
        exact hlt hlt'

variable (ns) in
/-- One step of the device. It stops only where an internal operation with a
callback finds no entry. -/
theorem Inv.step (h : Inv c v consumed lost done ps) (e : Vdev.Event κ) :
    Yields (v.step c ns e) (fun f => f = .bug ∧ ¬NoEntry c ns v e)
      (Steps c ns v e consumed lost) := by
  have hno : (∀ t, e ≠ .next t) → ¬NoEntry c ns v e := by
    rintro hne ⟨t, _, _, _, _, _, _, _, ht, -⟩
    exact hne t ht
  cases e with
  | submit sqid sqEntry cmd => exact Steps.of_inv (h.of_eq rfl rfl) (hno nofun)
  | doorbell sqid newDb =>
    refine Steps.of_inv (h.of_eq ?_ ?_) (hno nofun)
    all_goals
      unfold Vdev.enterSq
      split
      · split_ifs <;> rfl
      · rfl
  | next t => exact h.procNext t
  | pass i =>
    by_cases hi : i < c.nrIoWorkers
    · rw [Vdev.step, if_pos hi]
      exact Steps.of_inv (h.startPass hi) (hno nofun)
    · rw [Vdev.step, if_neg hi]
      exact Steps.of_inv h (hno nofun)
  | work i now =>
    by_cases hi : i < c.nrIoWorkers
    · rw [Vdev.step, if_pos hi]
      obtain ⟨done', ps', h'⟩ := h.workOne ns hi now
      exact Steps.of_inv h' (hno nofun)
    · rw [Vdev.step, if_neg hi]
      exact Steps.of_inv h (hno nofun)

end Dispatcher

/-! ### Runs -/

section Runs

variable {c : Config} {ns : Ns σ κ β}

theorem inv_init (sq : ℕ → ℕ → κ) (ftl : σ) :
    Inv (β := β) c (Vdev.init sq ftl) [] [] [] (fun _ => []) where
  holds := fun _ _ => Worker.holds_init
  posted := .nil
  perm := by simp

theorem run_append {s : Vdev σ κ β × List (Order β)} (es es' : List (Vdev.Event κ)) :
    run c ns s (es ++ es') = run c ns s es >>= fun s' => run c ns s' es' := by
  induction es generalizing s with
  | nil => rfl
  | cons e es ih =>
    rw [List.cons_append, run, run]
    cases stepLog c ns s e with
    | error f => rfl
    | ok s' => exact ih

theorem Inv.stepLog {v v' : Vdev σ κ β} {consumed consumed' lost done : List (Order β)}
    {ps : ℕ → List (Order β)} {e : Vdev.Event κ} (h : Inv c v consumed lost done ps)
    (hs : Io.stepLog c ns (v, consumed) e = .ok (v', consumed')) :
    ∃ lost' done' ps', Inv c v' consumed' lost' done' ps' ∧
      (¬NoEntry c ns v e → lost' = lost) := by
  rw [Io.stepLog, bind_eq_ok] at hs
  obtain ⟨⟨u, os⟩, hs, heq⟩ := hs
  obtain ⟨lost', done', ps', hinv, -, hkeep⟩ := (h.step ns e).of_eq_ok hs
  replace heq : (u, consumed ++ os) = (v', consumed') := Except.ok.inj heq
  rw [Prod.mk.injEq] at heq
  obtain ⟨rfl, rfl⟩ := heq
  exact ⟨lost', done', ps', hinv, hkeep⟩

/-- A run in which every accepted command finds an entry loses none. -/
theorem Inv.run {v v' : Vdev σ κ β} {consumed consumed' done : List (Order β)}
    {ps : ℕ → List (Order β)} {es : List (Vdev.Event κ)} (h : Inv c v consumed [] done ps)
    (hroom : ∀ pre e post, es = pre ++ e :: post → ∀ u l, Io.run c ns (v, consumed) pre = .ok (u, l) →
      ¬NoEntry c ns u e)
    (hrun : Io.run c ns (v, consumed) es = .ok (v', consumed')) :
    ∃ done' ps', Inv c v' consumed' [] done' ps' := by
  induction es generalizing v consumed done ps with
  | nil =>
    cases hrun
    exact ⟨done, ps, h⟩
  | cons e es ih =>
    rw [Io.run, bind_eq_ok] at hrun
    obtain ⟨⟨u, l⟩, hstep, hrun⟩ := hrun
    obtain ⟨lost', done', ps', hinv, hkeep⟩ := h.stepLog hstep
    rw [hkeep (hroom [] e es rfl v consumed rfl)] at hinv
    refine ih hinv ?_ hrun
    intro pre e' post hes u l hpre
    refine hroom (e :: pre) e' post (by rw [hes]; rfl) u l ?_
    rw [Io.run, hstep]
    exact hpre

/-- A run loses no command if and only if no command is accepted while its
worker has no entry to allocate. -/
theorem lossless_iff (c : Config) (ns : Ns σ κ β) (sq : ℕ → ℕ → κ) (ftl : σ)
    (es : List (Vdev.Event κ)) :
    Lossless c ns (Vdev.init sq ftl) es ↔
      ∀ pre e post, es = pre ++ e :: post →
        ∀ v consumed, run c ns (Vdev.init sq ftl, []) pre = .ok (v, consumed) →
          ¬NoEntry c ns v e := by
  constructor
  · intro hless pre
    -- the first command without an entry is consumed, against the second half of `Lossless`
    induction hn : pre.length using Nat.strongRecOn generalizing pre with
    | ind n ih =>
      intro e post hes v consumed hpre hno
      have hroom : ∀ pre' e' post', pre = pre' ++ e' :: post' →
          ∀ u l, run c ns (Vdev.init sq ftl, []) pre' = .ok (u, l) → ¬NoEntry c ns u e' := by
        intro pre' e' post' hp u l hrun
        refine ih pre'.length ?_ pre' rfl e' (post' ++ e :: post) ?_ u l hrun
        · rw [← hn, hp]
          simp
        · rw [hes, hp]
          simp
      obtain ⟨done, ps, hinv⟩ := (inv_init sq ftl).run hroom hpre
      have hstep := hinv.step ns e
      cases hs : v.step c ns e with
      | error f =>
        rw [hs] at hstep
        exact hstep.2 hno
      | ok r =>
        rw [hs] at hstep
        obtain ⟨lost', done', ps', -, hlost, -⟩ := hstep
        have hlog : stepLog c ns (v, consumed) e = .ok (r.1, consumed ++ r.2) := by
          rw [stepLog, hs]
          rfl
        have := ((hless pre (e :: post) hes v consumed hpre).2 e post rfl hno _ _ hlog).1
        exact (hlost hno).1 (List.append_right_eq_self.mp this)
  · intro hroom pre post hes v consumed hpre
    have hpre' : ∀ pre' e' post', pre = pre' ++ e' :: post' →
        ∀ u l, run c ns (Vdev.init sq ftl, []) pre' = .ok (u, l) → ¬NoEntry c ns u e' := by
      intro pre' e' post' hp
      refine hroom pre' e' (post' ++ post) ?_
      rw [hes, hp]
      simp
    obtain ⟨done, ps, hinv⟩ := (inv_init sq ftl).run hpre' hpre
    refine ⟨hinv.accounted_iff.mpr rfl, ?_⟩
    rintro e post' rfl hno
    exact absurd hno (hroom pre e post' hes v consumed hpre)

end Runs

/-! ### A lost command -/

/-- The namespace as it answers `nvme_cmd_flush`, which needs no flash: a
command is its identifier. -/
def flushNs : Ns Unit ℕ Unit where
  commandId := id
  procIoCmd s _ _ now := (true, s, { status := 0, nsecsTarget := now + 10, cb := none }, [])
  identifyIoCmd _ := false
  performKv s _ := (s, 0)
  performIo s _ := s
  call s _ := s

/-- One worker that serves seventeen submission queues of 1024 entries. -/
def deepConfig : Config where
  nrIoWorkers := 1
  nrIoWorkers_pos := Nat.one_pos
  sqes q := if q ≤ 17 then some { queueSize := 1024, cqid := q } else none
  ioUsingDma := false

/-- The host fills the queue `q`, and the dispatcher consumes it. -/
def fillQueue (q : ℕ) : List (Vdev.Event ℕ) :=
  .doorbell q 1023 :: List.replicate 1023 (.next 0) ++ [.next 0]

/-- Every queue is filled while the worker does not run. -/
def deepQueues (n : ℕ) : List (Vdev.Event ℕ) :=
  (List.range n).flatMap fun q => fillQueue (q + 1)

/-- The state after `n` filled queues. -/
structure Filled (n : ℕ) (v : Vdev Unit ℕ Unit) (consumed : List (Order Unit)) : Prop where
  inv : ∃ lost done ps, Inv deepConfig v consumed lost done ps
  idle : v.dispatcher = .idle
  posted : v.posted = []
  count : consumed.length = 1023 * n
  old : ∀ q > n, v.oldDbs q = 0

section Deep

variable {v : Vdev Unit ℕ Unit} {consumed : List (Order Unit)} {q num seq sqEntry : ℕ}

/-- A flush is always consumed. -/
theorem flush_next {lost done : List (Order Unit)} {ps : ℕ → List (Order Unit)}
    (h : Inv deepConfig v consumed lost done ps) (hq : q ≤ 17)
    (hd : v.dispatcher = .inSq q 0 num seq sqEntry) (hlt : seq < num) :
    ∃ v' o nextEntry, stepLog deepConfig flushNs (v, consumed) (.next 0) =
        .ok (v', consumed ++ [o]) ∧
      v'.dispatcher = .inSq q 0 num (seq + 1) nextEntry ∧ v'.posted = v.posted ∧
      v'.oldDbs = v.oldDbs := by
  have hsq : deepConfig.sqes q = some { queueSize := 1024, cqid := q } := if_pos hq
  have hproc := h.holds.procIo flushNs { queueSize := 1024, cqid := q } q sqEntry 0
  have hrun : v.runCmd deepConfig flushNs q sqEntry 0 =
      .ok (true, { v with ftl := v.ftl }, { status := 0, nsecsTarget := 10, cb := none }) := rfl
  cases hr : v.procIo deepConfig flushNs { queueSize := 1024, cqid := q } q sqEntry 0 with
  | error f =>
    rw [hr, hrun] at hproc
    cases hproc.2
  | ok r =>
    obtain ⟨ok, v', os⟩ := r
    rw [hr] at hproc
    obtain ⟨hrest, v₁, ret, hrun', hcase⟩ := hproc
    rw [hrun] at hrun'
    cases hrun'
    rcases hcase with ⟨hok, -⟩ | ⟨-, o, hos, -⟩
    · cases hok
    · change os = [o] at hos
      change v' = _ at hrest
      subst hos
      set nextEntry := if sqEntry + 1 = 1024 then 0 else sqEntry + 1
      refine ⟨{ v' with dispatcher := .inSq q 0 num (seq + 1) nextEntry }, o, nextEntry, ?_, rfl,
        ?_, ?_⟩
      · rw [stepLog]
        change (v.procNext deepConfig flushNs 0 >>= _) = _
        rw [Vdev.procNext, hd]
        dsimp only
        rw [hsq]
        dsimp only
        rw [if_pos hlt, hr]
        rfl
      · change v'.posted = v.posted
        rw [hrest]
      · change v'.oldDbs = v.oldDbs
        rw [hrest]

/-- The loop of the dispatcher over `k` flushes. -/
theorem flush_nexts (k : ℕ) {lost done : List (Order Unit)} {ps : ℕ → List (Order Unit)}
    (h : Inv deepConfig v consumed lost done ps) (hq : q ≤ 17)
    (hd : v.dispatcher = .inSq q 0 num seq sqEntry) (hlt : seq + k ≤ num) :
    ∃ v' consumed' nextEntry, run deepConfig flushNs (v, consumed) (List.replicate k (.next 0)) =
        .ok (v', consumed') ∧
      (∃ lost' done' ps', Inv deepConfig v' consumed' lost' done' ps') ∧
      consumed'.length = consumed.length + k ∧
      v'.dispatcher = .inSq q 0 num (seq + k) nextEntry ∧ v'.posted = v.posted ∧
      v'.oldDbs = v.oldDbs := by
  induction k generalizing v consumed seq sqEntry lost done ps with
  | zero => exact ⟨v, consumed, sqEntry, rfl, ⟨lost, done, ps, h⟩, rfl, hd, rfl, rfl⟩
  | succ k ih =>
    obtain ⟨v₁, o, e₁, hstep, hd₁, hp₁, ho₁⟩ := flush_next h hq hd (by omega)
    obtain ⟨lost₁, done₁, ps₁, h₁, -⟩ := h.stepLog hstep
    obtain ⟨v', consumed', e', hrun, hinv, hlen, hd', hp', ho'⟩ := ih h₁ hd₁ (by omega)
    refine ⟨v', consumed', e', ?_, hinv, ?_, ?_, hp'.trans hp₁, ho'.trans ho₁⟩
    · rw [List.replicate_succ, run, hstep]
      exact hrun
    · rw [hlen, List.length_append]
      simp only [List.length_cons, List.length_nil]
      omega
    · rw [hd', show seq + 1 + k = seq + (k + 1) by omega]

/-- Filling one more queue. -/
theorem Filled.fill {n : ℕ} (h : Filled n v consumed) (hn : n < 17) :
    ∃ v' consumed', run deepConfig flushNs (v, consumed) (fillQueue (n + 1)) = .ok (v', consumed') ∧
      Filled (n + 1) v' consumed' := by
  obtain ⟨lost, done, ps, hinv⟩ := h.inv
  have hq : n + 1 ≤ 17 := hn
  have hold : v.oldDbs (n + 1) = 0 := h.old _ (Nat.lt_succ_self n)
  have hsq : deepConfig.sqes (n + 1) = some { queueSize := 1024, cqid := n + 1 } := if_pos hq
  have hbell : stepLog deepConfig flushNs (v, consumed) (.doorbell (n + 1) 1023) =
      .ok ({ v with dispatcher := .inSq (n + 1) 0 1023 0 0 }, consumed) := by
    rw [stepLog]
    change Except.ok (v.enterSq deepConfig (n + 1) 1023, consumed ++ []) = _
    rw [Vdev.enterSq, h.idle, hsq, List.append_nil]
    dsimp only
    rw [hold]
    rfl
  obtain ⟨lost₁, done₁, ps₁, h₁, -⟩ := hinv.stepLog hbell
  obtain ⟨v₂, consumed₂, e₂, hrun, ⟨lost₂, done₂, ps₂, h₂⟩, hlen, hd₂, hp₂, ho₂⟩ :=
    flush_nexts 1023 h₁ hq (rfl : _ = Dispatcher.inSq (n + 1) 0 1023 0 0) (Nat.le_refl _)
  have hleave : stepLog deepConfig flushNs (v₂, consumed₂) (.next 0) =
      .ok (v₂.leaveSq { queueSize := 1024, cqid := n + 1 } (n + 1) 0 1023, consumed₂) := by
    rw [stepLog]
    change (v₂.procNext deepConfig flushNs 0 >>= _) = _
    rw [Vdev.procNext, hd₂]
    dsimp only
    rw [hsq]
    dsimp only
    rw [if_neg (by omega), ok_bind, List.append_nil]
    rfl
  obtain ⟨lost₃, done₃, ps₃, h₃, -⟩ := h₂.stepLog hleave
  refine ⟨_, consumed₂, ?_, ⟨lost₃, done₃, ps₃, h₃⟩, rfl, hp₂.trans h.posted, ?_, ?_⟩
  · rw [fillQueue, List.cons_append, run, hbell, ok_bind, run_append, hrun, ok_bind, run, hleave]
    rfl
  · rw [hlen, h.count]
    omega
  · intro q hqn
    change Function.update v₂.oldDbs (n + 1) _ q = 0
    rw [Function.update_of_ne (by omega), ho₂]
    exact h.old q (by omega)

theorem filled (n : ℕ) (hn : n ≤ 17) :
    ∃ v consumed, run deepConfig flushNs (Vdev.init (fun _ i => i) (), []) (deepQueues n) =
      .ok (v, consumed) ∧ Filled n v consumed := by
  induction n with
  | zero => exact ⟨_, _, rfl, ⟨_, _, _, inv_init _ _⟩, rfl, rfl, rfl, fun _ _ => rfl⟩
  | succ n ih =>
    obtain ⟨v, consumed, hrun, hf⟩ := ih (by omega)
    obtain ⟨v', consumed', hfill, hf'⟩ := hf.fill hn
    refine ⟨v', consumed', ?_, hf'⟩
    rw [deepQueues, List.range_succ, List.flatMap_append, List.flatMap_singleton, run_append]
    rw [show run deepConfig flushNs _ ((List.range n).flatMap _) = _ from hrun, ok_bind]
    exact hfill

end Deep

/-- With seventeen filled queues and a worker that has not run yet, commands are
consumed that have neither a completion nor an entry. -/
theorem deepQueues_lose_commands :
    ¬Lossless deepConfig flushNs (Vdev.init (fun _ i => i) ()) (deepQueues 17) := by
  intro hless
  obtain ⟨v, consumed, hrun, hf⟩ := filled 17 (Nat.le_refl _)
  obtain ⟨lost, done, ps, hinv⟩ := hf.inv
  have hacc := (hless _ [] (List.append_nil _).symm v consumed hrun).1
  obtain ⟨done', hperm, hposted⟩ := hacc
  have hdone : done' = [] := by
    rw [hf.posted] at hposted
    cases hposted
    rfl
  have hlt : (v.outstanding deepConfig).length < nrMaxParallelIo := by
    rw [hinv.outstanding_perm.length_eq]
    change ((List.range 1).flatMap ps).length < _
    rw [List.range_one, List.flatMap_singleton]
    exact (hinv.holds 0 Nat.one_pos).length_lt
  have hlen := hperm.length_eq
  rw [hdone, List.nil_append, hf.count] at hlen
  exact absurd hlt (by rw [← hlen]; decide)

end Virtkv.Io
