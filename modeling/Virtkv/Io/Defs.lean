import Mathlib.Data.Int.Notation
import Virtkv.Config

/-!
# The I/O path between the doorbells and the completions

The dispatcher consumes submission-queue entries (`nvmev_proc_io_sq`), lets the
flash translation layer run each command (`proc_io_cmd` of the namespace) and
queues its completion in the work queue of an I/O worker. A work queue is a
fixed array of entries chained into a free list and a list sorted by target
time. The worker threads walk the sorted list, copy the data of an entry, call
its callback and post its completion; the dispatcher takes completed entries
back.

The namespace's functions are parameters here, since the code calls them
through function pointers. One step of the model is one iteration of a loop of
one of the threads: the dispatcher's loop over the new commands of a queue, or
a worker's loop over its entries.

Workers are chosen by submission queue (`CONFIG_NVMEV_IO_WORKER_BY_SQ`).

## Main definitions

- `Work`, `Worker`, `Vdev` — an entry, a worker with its queue, the device
- `Worker.insertReqSorted`, `Worker.allocateWorkQueueEntry`,
  `Worker.reclaimCompletedReqs`
- `Vdev.procIo` — one command, `__nvmev_proc_io`
- `Vdev.step` — one step of the dispatcher or of a worker
-/

open Outcome

namespace Virtkv.Io

/-- `NR_MAX_PARALLEL_IO`. -/
def nrMaxParallelIo : ℕ := 16384

/-- An entry of a work queue (`struct nvmev_io_work`); `β` is the type of a
callback with its argument. -/
structure Work (β : Type) where
  sqid : ℕ
  cqid : ℕ
  sqEntry : ℕ
  commandId : ℕ
  nsecsTarget : ℕ
  isCopied : Bool
  isCompleted : Bool
  status : ℕ
  result0 : ℕ
  isInternal : Bool
  next : ℕ
  prev : ℕ
  cb : Option β

/-- A worker (`struct nvmev_io_worker`) and the cursor `curr` of its thread. An
index is an `unsigned int`, and `uintMax` is its `-1`. -/
structure Worker (β : Type) where
  workQueue : ℕ → Work β
  freeSeq : ℕ
  freeSeqEnd : ℕ
  ioSeq : ℕ
  ioSeqEnd : ℕ
  latestNsecs : ℕ
  curr : ℕ

/-- What the namespace returns for a command (`struct nvmev_result`). -/
structure Result (β : Type) where
  status : ℕ
  nsecsTarget : ℕ
  cb : Option β

/-- A request for an internal operation: with a callback it is made by
`schedule_internal_operation_cb`, else by `schedule_internal_operation`. -/
structure Internal (β : Type) where
  sqid : ℕ
  nsecsTarget : ℕ
  cb : Option β

/-- The namespace (`struct nvmev_ns`): its state is a `σ`, a command a `κ`.
`procIoCmd` gets the queue and the time, and returns whether the command is
accepted, the new state, the result and the internal operations it has
scheduled. `performKv` and `performIo` copy the data of a command. -/
structure Ns (σ κ β : Type) where
  commandId : κ → ℕ
  procIoCmd : σ → κ → ℕ → ℕ → Bool × σ × Result β × List (Internal β)
  identifyIoCmd : κ → Bool
  performKv : σ → κ → σ × ℕ
  performIo : σ → κ → σ
  call : σ → β → σ

/-- A submission queue: its size and its completion queue. -/
structure Sq where
  queueSize : ℕ
  cqid : ℕ

/-- The configured queues and workers; there is a worker. -/
structure Config where
  nrIoWorkers : ℕ
  nrIoWorkers_pos : 0 < nrIoWorkers
  sqes : ℕ → Option Sq
  ioUsingDma : Bool

/-- A completion-queue entry (`struct nvme_completion`), with its queue. -/
structure Completion where
  cqid : ℕ
  sqid : ℕ
  sqHead : ℕ
  commandId : ℕ
  status : ℕ
  result0 : ℕ
  deriving DecidableEq

/-- Where the dispatcher stands: between two queues, or in the loop of
`nvmev_proc_io_sq` over the new commands of a queue. -/
inductive Dispatcher where
  | idle
  | inSq (sqid oldDb numProc seq sqEntry : ℕ)

/-- The device: workers, submission-queue memory, namespace state, the last
doorbell values, the dispatcher and the completions posted so far. -/
structure Vdev (σ κ β : Type) where
  workers : ℕ → Worker β
  sq : ℕ → ℕ → κ
  ftl : σ
  oldDbs : ℕ → ℕ
  dispatcher : Dispatcher
  posted : List Completion

/-- What is due for a consumed command: its completion and its callback. -/
structure Order (β : Type) where
  sqid : ℕ
  cqid : ℕ
  sqEntry : ℕ
  commandId : ℕ
  status : ℕ
  cb : Option β

variable {σ κ β : Type}

/-! ### The work queue of a worker -/

namespace Worker

/-- An entry as `kzalloc` leaves it, in the initial free list. -/
def initWork (i : ℕ) : Work β where
  sqid := 0
  cqid := 0
  sqEntry := 0
  commandId := 0
  nsecsTarget := 0
  isCopied := false
  isCompleted := false
  status := 0
  result0 := 0
  isInternal := false
  next := if i + 1 < nrMaxParallelIo then i + 1 else uintMax
  prev := if i = 0 then uintMax else i - 1
  cb := none

/-- `NVMEV_IO_WORKER_INIT`. -/
def init : Worker β where
  workQueue := initWork
  freeSeq := 0
  freeSeqEnd := nrMaxParallelIo - 1
  ioSeq := uintMax
  ioSeqEnd := uintMax
  latestNsecs := 0
  curr := uintMax

def setWork (w : Worker β) (i : ℕ) (x : Work β) : Worker β :=
  { w with workQueue := Function.update w.workQueue i x }

def setNext (w : Worker β) (i n : ℕ) : Worker β :=
  w.setWork i { w.workQueue i with next := n }

def setPrev (w : Worker β) (i p : ℕ) : Worker β :=
  w.setWork i { w.workQueue i with prev := p }

/-- `__allocate_work_queue_entry`: the head of the free list, unless it is its
last entry. -/
def allocateWorkQueueEntry (w : Worker β) : Option (ℕ × Worker β) :=
  let n := (w.workQueue w.freeSeq).next
  if n ≥ nrMaxParallelIo then none else some (w.freeSeq, { w with freeSeq := n })

/-- The walk of `__insert_req_sorted` from the tail to the entry after which the
new one belongs. -/
def seekLoop (w : Worker β) (nsecsTarget : ℕ) : ℕ → ℕ → Except Fault ℕ
  | 0, _ => .error .hang
  | fuel + 1, curr =>
    if curr = uintMax then .ok curr
    else if (w.workQueue curr).nsecsTarget ≤ w.latestNsecs then .ok curr
    else if (w.workQueue curr).nsecsTarget ≤ nsecsTarget then .ok curr
    else seekLoop w nsecsTarget fuel (w.workQueue curr).prev

/-- The head of the list is empty: the entry is the whole list. -/
def insertFirst (w : Worker β) (entry : ℕ) : Worker β :=
  { w with ioSeq := entry, ioSeqEnd := entry }

/-- `/* Head inserted */`. -/
def insertHead (w : Worker β) (entry : ℕ) : Worker β :=
  { (w.setPrev w.ioSeq entry).setNext entry w.ioSeq with ioSeq := entry }

/-- `/* Tail */`. -/
def insertTail (w : Worker β) (entry curr : ℕ) : Worker β :=
  { (w.setPrev entry curr).setNext curr entry with ioSeqEnd := entry }

/-- `/* In between */`. -/
def insertBetween (w : Worker β) (entry curr : ℕ) : Worker β :=
  let n := (w.workQueue curr).next
  (((w.setPrev entry curr).setNext entry n).setPrev n entry).setNext curr entry

/-- `__insert_req_sorted`. -/
def insertReqSorted (w : Worker β) (entry nsecsTarget : ℕ) : Except Fault (Worker β) :=
  if w.ioSeq = uintMax then .ok (w.insertFirst entry)
  else do
    let curr ← w.seekLoop nsecsTarget (nrMaxParallelIo + 1) w.ioSeqEnd
    if curr = uintMax then .ok (w.insertHead entry)
    else if (w.workQueue curr).next = uintMax then .ok (w.insertTail entry curr)
    else .ok (w.insertBetween entry curr)

/-- The loop of `__reclaim_completed_reqs` over the completed entries at the
head of the list: the last of them. -/
def completedLoop (w : Worker β) : ℕ → ℕ → ℕ → Except Fault ℕ
  | 0, _, _ => .error .hang
  | fuel + 1, lastEntry, curr =>
    if curr = uintMax then .ok lastEntry
    else
      let x := w.workQueue curr
      if x.isCompleted ∧ x.isCopied ∧ x.nsecsTarget ≤ w.latestNsecs then
        completedLoop w fuel curr x.next
      else .ok lastEntry

/-- The sorted list starts behind `lastEntry`, which ends the entries taken out. -/
def cutBehind (w : Worker β) (lastEntry : ℕ) : Worker β :=
  let n := (w.workQueue lastEntry).next
  let w := { w with ioSeq := n }
  let w := if n = uintMax then w else w.setPrev n uintMax
  w.setNext lastEntry uintMax

/-- The entries from `firstEntry` to `lastEntry` go to the end of the free list. -/
def appendFree (w : Worker β) (firstEntry lastEntry : ℕ) : Worker β :=
  let w := w.setPrev firstEntry w.freeSeqEnd
  let w := w.setNext w.freeSeqEnd firstEntry
  { w with freeSeqEnd := lastEntry }

/-- `__reclaim_completed_reqs` for one worker. -/
def reclaimCompletedReqs (w : Worker β) : Except Fault (Worker β) := do
  let firstEntry := w.ioSeq
  let lastEntry ← w.completedLoop (nrMaxParallelIo + 1) uintMax firstEntry
  if lastEntry = uintMax then .ok w
  else .ok ((w.cutBehind lastEntry).appendFree firstEntry lastEntry)

/-- The entry written by `__enqueue_io_req`. -/
def ioWork (old : Work β) (o : Order β) (nsecsTarget : ℕ) : Work β :=
  { old with
    sqid := o.sqid, cqid := o.cqid, sqEntry := o.sqEntry, commandId := o.commandId
    nsecsTarget := nsecsTarget, status := o.status
    isCompleted := false, isCopied := false, prev := uintMax, next := uintMax
    cb := o.cb, isInternal := false }

/-- The entry written by `schedule_internal_operation`, which leaves the
callback of the entry's last use in place and has nothing to copy. -/
def internalWork (old : Work β) (r : Internal β) : Work β :=
  { old with
    sqid := r.sqid, nsecsTarget := r.nsecsTarget
    isCompleted := false, isCopied := true, prev := uintMax, next := uintMax
    isInternal := true }

/-- The entry written by `schedule_internal_operation_cb`. -/
def internalCbWork (old : Work β) (r : Internal β) : Work β :=
  { old with
    sqid := r.sqid, nsecsTarget := r.nsecsTarget
    isCompleted := false, isCopied := false, prev := uintMax, next := uintMax
    cb := r.cb, isInternal := true }

/-- `__enqueue_io_req`; `none` is the returned `NULL`. -/
def enqueueIoReq (w : Worker β) (o : Order β) (nsecsTarget : ℕ) :
    Except Fault (Option (Worker β)) :=
  match w.allocateWorkQueueEntry with
  | none => .ok none
  | some (entry, w) => do
    let w := w.setWork entry (ioWork (w.workQueue entry) o nsecsTarget)
    return some (← w.insertReqSorted entry nsecsTarget)

/-- `schedule_internal_operation`, which gives up without an entry, and
`schedule_internal_operation_cb`, whose `BUG_ON` wants one. -/
def scheduleInternalOperation (w : Worker β) (r : Internal β) : Except Fault (Worker β) :=
  match w.allocateWorkQueueEntry, r.cb with
  | none, none => .ok w
  | none, some _ => .error .bug
  | some (entry, w), none =>
    (w.setWork entry (internalWork (w.workQueue entry) r)).insertReqSorted entry r.nsecsTarget
  | some (entry, w), some _ =>
    (w.setWork entry (internalCbWork (w.workQueue entry) r)).insertReqSorted entry r.nsecsTarget

end Worker

/-! ### The dispatcher -/

namespace Config

/-- `__get_io_worker`. -/
def ioWorker (c : Config) (sqid : ℕ) : ℕ := (sqid - 1) % c.nrIoWorkers

end Config

namespace Vdev

def setWorker (v : Vdev σ κ β) (i : ℕ) (w : Worker β) : Vdev σ κ β :=
  { v with workers := Function.update v.workers i w }

/-- The internal operations a command schedules, in order. -/
def scheduleAll (c : Config) : Vdev σ κ β → List (Internal β) → Except Fault (Vdev σ κ β)
  | v, [] => .ok v
  | v, r :: rs => do
    let w ← (v.workers (c.ioWorker r.sqid)).scheduleInternalOperation r
    scheduleAll c (v.setWorker (c.ioWorker r.sqid) w) rs

/-- `__reclaim_completed_reqs`: the first `n` workers. -/
def reclaimAll (v : Vdev σ κ β) : ℕ → Except Fault (Vdev σ κ β)
  | 0 => .ok v
  | n + 1 => do
    let v ← reclaimAll v n
    return v.setWorker n (← (v.workers n).reclaimCompletedReqs)

/-- The completion and the callback due for a command with its result. -/
def orderOf (ns : Ns σ κ β) (sq : Sq) (sqid sqEntry : ℕ) (cmd : κ) (ret : Result β) : Order β where
  sqid := sqid
  cqid := sq.cqid
  sqEntry := sqEntry
  commandId := ns.commandId cmd
  status := ret.status
  cb := ret.cb

/-- The first part of `__nvmev_proc_io`: the namespace runs the command, with
the internal operations it schedules. -/
def runCmd (c : Config) (ns : Ns σ κ β) (v : Vdev σ κ β) (sqid sqEntry nsecsStart : ℕ) :
    Except Fault (Bool × Vdev σ κ β × Result β) := do
  let (ok, ftl, ret, rs) := ns.procIoCmd v.ftl (v.sq sqid sqEntry) sqid nsecsStart
  let v ← scheduleAll c { v with ftl := ftl } rs
  return (ok, v, ret)

/-- `__nvmev_proc_io`: the returned flag, the device and what is due for the
command if it is consumed. The value `__enqueue_io_req` returns is not looked
at. -/
def procIo (c : Config) (ns : Ns σ κ β) (sq : Sq) (v : Vdev σ κ β) (sqid sqEntry nsecsStart : ℕ) :
    Except Fault (Bool × Vdev σ κ β × List (Order β)) := do
  let cmd := v.sq sqid sqEntry
  let (ok, v, ret) ← runCmd c ns v sqid sqEntry nsecsStart
  if ok then
    let o := orderOf ns sq sqid sqEntry cmd ret
    let v := match ← (v.workers (c.ioWorker sqid)).enqueueIoReq o ret.nsecsTarget with
      | none => v
      | some w => v.setWorker (c.ioWorker sqid) w
    return (true, ← reclaimAll v c.nrIoWorkers, [o])
  else return (false, v, [])

/-- `new_db - old_db` modulo the size of the queue. -/
def numProc (sq : Sq) (newDb : ℤ) (oldDb : ℕ) : ℕ :=
  let n := newDb - oldDb
  (if n < 0 then n + sq.queueSize else n).toNat

/-- The end of `nvmev_proc_io_sq`: the new value of the old doorbell. -/
def leaveSq (v : Vdev σ κ β) (sq : Sq) (sqid oldDb seq : ℕ) : Vdev σ κ β :=
  { v with
    oldDbs := Function.update v.oldDbs sqid ((oldDb + seq) % sq.queueSize)
    dispatcher := .idle }

/-- A doorbell value read by `nvmev_proc_dbs` starts `nvmev_proc_io_sq`. -/
def enterSq (c : Config) (v : Vdev σ κ β) (sqid : ℕ) (newDb : ℤ) : Vdev σ κ β :=
  match v.dispatcher, c.sqes sqid with
  | .idle, some sq =>
    if newDb = v.oldDbs sqid then v
    else
      { v with
        dispatcher :=
          .inSq sqid (v.oldDbs sqid) (numProc sq newDb (v.oldDbs sqid)) 0 (v.oldDbs sqid) }
  | _, _ => v

/-- One iteration of the loop of `nvmev_proc_io_sq` at the time `nsecsStart`,
with what is due for the command it advances past. -/
def procNext (c : Config) (ns : Ns σ κ β) (v : Vdev σ κ β) (nsecsStart : ℕ) :
    Except Fault (Vdev σ κ β × List (Order β)) :=
  match v.dispatcher with
  | .idle => .ok (v, [])
  | .inSq sqid oldDb num seq sqEntry =>
    match c.sqes sqid with
    | none => .ok (v, [])
    | some sq =>
      if seq < num then do
        let (ok, v, os) ← procIo c ns sq v sqid sqEntry nsecsStart
        if ok then
          let nextEntry := if sqEntry + 1 = sq.queueSize then 0 else sqEntry + 1
          return ({ v with dispatcher := .inSq sqid oldDb num (seq + 1) nextEntry }, os)
        else return (v.leaveSq sq sqid oldDb seq, os)
      else .ok (v.leaveSq sq sqid oldDb seq, [])

/-! ### The workers -/

/-- `__fill_cq_result`. -/
def fillCqResult (x : Work β) : Completion where
  cqid := x.cqid
  sqid := x.sqid
  sqHead := x.sqEntry
  commandId := x.commandId
  status := x.status
  result0 := x.result0

/-- The namespace calls the callback of an entry, if it has one. -/
def callback (ns : Ns σ κ β) (ftl : σ) (cb : Option β) : σ :=
  match cb with
  | none => ftl
  | some b => ns.call ftl b

/-- The copying of an entry: the namespace state and the result of the entry. -/
def copy (c : Config) (ns : Ns σ κ β) (v : Vdev σ κ β) (x : Work β) : σ × ℕ :=
  let cmd := v.sq x.sqid x.sqEntry
  if x.isInternal then (callback ns v.ftl x.cb, x.result0)
  else if c.ioUsingDma then (ns.performIo v.ftl cmd, x.result0)
  else if ns.identifyIoCmd cmd then
    let (ftl, r) := ns.performKv v.ftl cmd
    (callback ns ftl x.cb, r)
  else (ns.performIo v.ftl cmd, x.result0)

/-- The entry under the cursor is copied, unless it was before. -/
def copyCurr (c : Config) (ns : Ns σ κ β) (v : Vdev σ κ β) (i : ℕ) : Vdev σ κ β :=
  let w := v.workers i
  let x := w.workQueue w.curr
  if x.isCopied then v
  else
    let (ftl, r) := copy c ns v x
    { v with ftl := ftl }.setWorker i
      (w.setWork w.curr { x with isCopied := true, result0 := r })

/-- The entry under the cursor is completed, if its time has come. -/
def completeCurr (v : Vdev σ κ β) (i now : ℕ) : Vdev σ κ β :=
  let w := v.workers i
  let x := w.workQueue w.curr
  if x.nsecsTarget ≤ now then
    { v with posted := if x.isInternal then v.posted else v.posted ++ [fillCqResult x] }.setWorker i
      (w.setWork w.curr { x with isCompleted := true })
  else v

/-- The cursor of a worker moves to the next entry. -/
def advanceCurr (v : Vdev σ κ β) (i : ℕ) : Vdev σ κ β :=
  let w := v.workers i
  v.setWorker i { w with curr := (w.workQueue w.curr).next }

/-- The worker notes the time it has read. -/
def setLatest (v : Vdev σ κ β) (i now : ℕ) : Vdev σ κ β :=
  v.setWorker i { v.workers i with latestNsecs := now }

/-- One iteration of the inner loop of `nvmev_io_worker` at the time `now`. -/
def workOne (c : Config) (ns : Ns σ κ β) (v : Vdev σ κ β) (i now : ℕ) : Vdev σ κ β :=
  let w := v.workers i
  if w.curr = uintMax then v
  else
    let v := v.setLatest i now
    if (w.workQueue w.curr).isCompleted then v.advanceCurr i
    else ((v.copyCurr c ns i).completeCurr i now).advanceCurr i

/-- A worker thread starts a pass over its list. -/
def startPass (v : Vdev σ κ β) (i : ℕ) : Vdev σ κ β :=
  v.setWorker i { v.workers i with curr := (v.workers i).ioSeq }

/-! ### Steps -/

/-- What happens next: the host writes a command into a submission queue, the
dispatcher reads a doorbell or processes a command, a worker starts a pass or
handles the entry under its cursor. Times and doorbell values are those read. -/
inductive Event (κ : Type) where
  | submit (sqid sqEntry : ℕ) (cmd : κ)
  | doorbell (sqid : ℕ) (newDb : ℤ)
  | next (nsecsStart : ℕ)
  | pass (worker : ℕ)
  | work (worker now : ℕ)

/-- The host writes a command into a submission queue. -/
def submit (v : Vdev σ κ β) (sqid sqEntry : ℕ) (cmd : κ) : Vdev σ κ β :=
  { v with sq := Function.update v.sq sqid (Function.update (v.sq sqid) sqEntry cmd) }

/-- One step, with what is due for the commands it consumes. -/
def step (c : Config) (ns : Ns σ κ β) (v : Vdev σ κ β) :
    Event κ → Except Fault (Vdev σ κ β × List (Order β))
  | .submit sqid sqEntry cmd => .ok (v.submit sqid sqEntry cmd, [])
  | .doorbell sqid newDb => .ok (v.enterSq c sqid newDb, [])
  | .next nsecsStart => v.procNext c ns nsecsStart
  | .pass i => .ok (if i < c.nrIoWorkers then v.startPass i else v, [])
  | .work i now => .ok (if i < c.nrIoWorkers then v.workOne c ns i now else v, [])

/-- The device after `NVMEV_IO_WORKER_INIT`, with any contents of the
submission queues and any state of the namespace. -/
def init (sq : ℕ → ℕ → κ) (ftl : σ) : Vdev σ κ β where
  workers := fun _ => Worker.init
  sq := sq
  ftl := ftl
  oldDbs := fun _ => 0
  dispatcher := .idle
  posted := []

end Vdev

end Virtkv.Io
