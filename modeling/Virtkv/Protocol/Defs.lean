import Mathlib.Data.List.Basic
import Mathlib.Logic.Function.Basic

/-!
# A queue pair between the host and the device

The NVMe driver of the host puts commands into a submission ring and rings a doorbell; the
device takes them from there, carries them out in any order and writes completions into a
completion ring, which the driver polls. Neither side sees the counters of the other: the
driver learns from the bit of a completion's status that the completion is new, and it never
asks whether there is room, since it only has as many tags as the rings have room for.

One step of the model is what one thread does between two points at which another thread can
look at the shared memory. A submission copies the command first and rings the doorbell later,
or not at all; a completion is written field by field. The driver's submissions exclude each
other (`sq_lock`), and so do its polls; all commands of a queue are completed by one worker.

## Main definitions

- `State` — the shared memory, the driver, the device, and the history of both
- `step` — a step of the driver or of the device
- `Reaches` — the states that steps lead to
-/

namespace Virtkv.Protocol

/-- `struct nvme_command`: the tag of its request, and the rest. -/
structure Command (κ : Type) where
  commandId : ℕ
  body : κ
  deriving DecidableEq

/-- `struct nvme_completion`; `status` carries the phase bit. -/
structure Cqe where
  result0 : ℕ
  result1 : ℕ
  sqHead : ℕ
  sqId : ℕ
  commandId : ℕ
  status : ℕ
  deriving DecidableEq

/-- The fields of a completion, one store each. -/
inductive Field where
  | commandId
  | sqId
  | sqHead
  | status
  | result0
  | result1
  deriving DecidableEq

/-- Store a field of `x`. -/
def Cqe.store (e x : Cqe) : Field → Cqe
  | .commandId => { e with commandId := x.commandId }
  | .sqId => { e with sqId := x.sqId }
  | .sqHead => { e with sqHead := x.sqHead }
  | .status => { e with status := x.status }
  | .result0 => { e with result0 := x.result0 }
  | .result1 => { e with result1 := x.result1 }

/-- The queue pair: its number, and the length of its rings. The driver takes no depth below
2 (`io_queue_depth_set`), and asks the device for queues of `q_depth - 1`, 0-based. -/
structure Config where
  qid : ℕ
  qDepth : ℕ
  two_le : 2 ≤ qDepth

/-- The driver's part of a queue (`struct nvme_queue`). -/
structure NvmeQueue where
  sqTail : ℕ
  lastSqTail : ℕ
  cqHead : ℕ
  cqPhase : Bool

/-- Where `nvme_submit_cmd` stands: the command is copied and the doorbell is still due. -/
inductive Submitter where
  | idle
  | copied (writeSq : Bool)
  deriving DecidableEq

/-- Where `nvme_process_cq` stands: before the test of its loop, or behind it. -/
inductive Reaper where
  | idle
  | testing (found : Bool)
  | handling
  deriving DecidableEq

/-- Where the dispatcher stands: between two looks at the doorbell, or in the loop of
`nvmev_proc_io_sq`. -/
inductive Dispatcher where
  | idle
  | inSq (oldDb numProc seq sqEntry : ℕ)
  deriving DecidableEq

/-- A command that the device took from a slot of the ring. -/
structure Work (κ : Type) where
  sqEntry : ℕ
  command : Command κ
  deriving DecidableEq

/-- A run of `__fill_cq_result`: the completion and the fields that are not stored yet. -/
structure Fill (κ : Type) where
  work : Work κ
  entry : Cqe
  rest : List Field

/-- A completion as the driver handled it: the request it found, what it read, and whether
the device was still writing this completion. -/
structure Reaped (κ : Type) where
  request : Option (Command κ)
  cqe : Cqe
  early : Bool

/-- The rings and doorbells, the driver with the requests behind its tags, the device, and
what both did so far; `dropped` are the commands taken while no work could be queued. -/
structure State (κ : Type) where
  sq : ℕ → Command κ
  cq : ℕ → Cqe
  sqDb : ℕ
  cqDb : ℕ
  queue : NvmeQueue
  tags : ℕ → Option (Command κ)
  submitter : Submitter
  reaper : Reaper
  oldDb : ℕ
  dispatcher : Dispatcher
  inFlight : List (Work κ)
  dropped : List (Work κ)
  cqHead : ℕ
  phase : Bool
  fill : Option (Fill κ)
  submitted : List (Command κ)
  consumed : List (Work κ)
  posted : List (Work κ × Cqe)
  reaped : List (Reaped κ)

variable {κ : Type}

/-- `nvme_init_queue`, `__nvmev_admin_create_sq` and `__nvmev_admin_create_cq`: the driver
clears the completions; `junk` is what the submission ring holds. -/
def State.init (junk : ℕ → Command κ) : State κ where
  sq := junk
  cq _ := { result0 := 0, result1 := 0, sqHead := 0, sqId := 0, commandId := 0, status := 0 }
  sqDb := 0
  cqDb := 0
  queue := { sqTail := 0, lastSqTail := 0, cqHead := 0, cqPhase := true }
  tags _ := none
  submitter := .idle
  reaper := .idle
  oldDb := 0
  dispatcher := .idle
  inFlight := []
  dropped := []
  cqHead := 0
  phase := true
  fill := none
  submitted := []
  consumed := []
  posted := []
  reaped := []

namespace State

variable (c : Config) (s : State κ)

/-! ### The driver -/

/-- `nvme_submit_cmd` up to the doorbell, for a request with a tag that is not in use. There
are `q_depth - 1` tags. -/
def submitCmd (cmd : Command κ) (writeSq : Bool) : Option (State κ) :=
  if s.submitter = .idle ∧ cmd.commandId < c.qDepth - 1 ∧ (s.tags cmd.commandId).isNone then
    let tail := s.queue.sqTail + 1
    some { s with
      sq := Function.update s.sq s.queue.sqTail cmd
      queue := { s.queue with sqTail := if tail = c.qDepth then 0 else tail }
      tags := Function.update s.tags cmd.commandId (some cmd)
      submitter := .copied writeSq
      submitted := s.submitted ++ [cmd] }
  else none

/-- `nvme_write_sq_db`: without `write_sq` the doorbell waits until the ring would be full. -/
def writeSqDb (writeSq : Bool) : State κ :=
  let nextTail := if s.queue.sqTail + 1 = c.qDepth then 0 else s.queue.sqTail + 1
  if ¬writeSq ∧ nextTail ≠ s.queue.lastSqTail then s
  else { s with
    sqDb := s.queue.sqTail
    queue := { s.queue with lastSqTail := s.queue.sqTail } }

/-- The end of `nvme_submit_cmd`. -/
def ringSqDb : Option (State κ) :=
  match s.submitter with
  | .idle => none
  | .copied writeSq => some { s.writeSqDb c writeSq with submitter := .idle }

/-- `nvme_commit_rqs`. -/
def commitRqs : Option (State κ) :=
  if s.submitter = .idle then
    some (if s.queue.sqTail = s.queue.lastSqTail then s else s.writeSqDb c true)
  else none

/-- `nvme_irq` or `nvme_poll`: a run of `nvme_process_cq` begins. -/
def processCq : Option (State κ) :=
  if s.reaper = .idle then some { s with reaper := .testing false } else none

/-- `nvme_cqe_pending`. -/
def cqePending : Bool := decide ((s.cq s.queue.cqHead).status % 2 = s.queue.cqPhase.toNat)

/-- The test of the loop of `nvme_process_cq`, and its end. -/
def testCqe : Option (State κ) :=
  match s.reaper with
  | .testing found =>
    if s.cqePending then some { s with reaper := .handling }
    else if found then some { s with cqDb := s.queue.cqHead, reaper := .idle }
    else some { s with reaper := .idle }
  | _ => none

/-- The device has not finished the completion that the driver is looking at. -/
def early : Bool := s.fill.isSome && decide (s.cqHead = s.queue.cqHead)

/-- `nvme_update_cq_head`. -/
def updateCqHead : State κ :=
  let tmp := s.queue.cqHead + 1
  if tmp = c.qDepth then
    { s with queue := { s.queue with cqHead := 0, cqPhase := !s.queue.cqPhase } }
  else { s with queue := { s.queue with cqHead := tmp } }

/-- The body of the loop of `nvme_process_cq`: `nvme_handle_cqe` looks the request up by its
tag and ends it, which frees the tag. -/
def handleCqe : Option (State κ) :=
  match s.reaper with
  | .handling =>
    let cqe := s.cq s.queue.cqHead
    let r : Reaped κ := { request := s.tags cqe.commandId, cqe := cqe, early := s.early }
    let s : State κ := { s with
      tags := Function.update s.tags cqe.commandId none
      reaper := .testing true
      reaped := s.reaped ++ [r] }
    some (s.updateCqHead c)
  | _ => none

/-! ### The device -/

/-- `nvmev_proc_dbs` looks at the doorbell, and `nvmev_proc_io_sq` begins if it has moved. -/
def procDbs : Option (State κ) :=
  match s.dispatcher with
  | .idle =>
    let newDb := s.sqDb
    if newDb = s.oldDb then some s
    else
      -- `num_proc` is the difference, plus the size of the ring if that is negative
      let numProc := if newDb < s.oldDb then newDb + c.qDepth - s.oldDb else newDb - s.oldDb
      some { s with dispatcher := .inSq s.oldDb numProc 0 s.oldDb }
  | _ => none

/-- An iteration of the loop of `nvmev_proc_io_sq`; the loop ends early at a command that is
not accepted. `entry` tells whether `__enqueue_io_req` finds an entry of the work queue for the
command; `__nvmev_proc_io` does not look at that, and the command is taken all the same. -/
def procIoSq (accept entry : Bool) : Option (State κ) :=
  match s.dispatcher with
  | .inSq oldDb numProc seq sqEntry =>
    if seq < numProc ∧ accept then
      let w : Work κ := { sqEntry := sqEntry, command := s.sq sqEntry }
      let next := sqEntry + 1
      some { s with
        inFlight := if entry then s.inFlight ++ [w] else s.inFlight
        dropped := if entry then s.dropped else s.dropped ++ [w]
        consumed := s.consumed ++ [w]
        dispatcher := .inSq oldDb numProc (seq + 1) (if next = c.qDepth then 0 else next) }
    else some { s with
      oldDb := (oldDb + seq) % c.qDepth
      dispatcher := .idle }
  | _ => none

/-- The stores of `__fill_cq_result`, in its order. -/
def fields : List Field := [.commandId, .sqId, .sqHead, .status, .result0, .result1]

/-- A worker finds the `i`-th command in flight due and begins `__fill_cq_result`. -/
def beginFill (i status result0 result1 : ℕ) : Option (State κ) :=
  match s.fill, s.inFlight[i]? with
  | none, some w =>
    let entry : Cqe :=
      { result0 := result0, result1 := result1, sqHead := w.sqEntry, sqId := c.qid
        commandId := w.command.commandId, status := s.phase.toNat + 2 * status }
    some { s with
      inFlight := s.inFlight.eraseIdx i
      fill := some { work := w, entry := entry, rest := fields } }
  | _, _ => none

/-- A store of `__fill_cq_result`; behind the last one the head moves on. A completion counts
as posted once its status is stored. -/
def fillStep : Option (State κ) :=
  match s.fill with
  | none => none
  | some ⟨w, x, f :: fs⟩ =>
    some { s with
      cq := Function.update s.cq s.cqHead ((s.cq s.cqHead).store x f)
      fill := some ⟨w, x, fs⟩
      posted := if f = .status then s.posted ++ [(w, x)] else s.posted }
  | some ⟨_, _, []⟩ =>
    if s.cqHead + 1 = c.qDepth then some { s with fill := none, cqHead := 0, phase := !s.phase }
    else some { s with fill := none, cqHead := s.cqHead + 1 }

end State

/-! ### Runs -/

/-- The steps of the driver and of the device. -/
inductive Event (κ : Type) where
  | submitCmd (cmd : Command κ) (writeSq : Bool)
  | ringSqDb
  | commitRqs
  | processCq
  | testCqe
  | handleCqe
  | procDbs
  | procIoSq (accept entry : Bool)
  | beginFill (i status result0 result1 : ℕ)
  | fillStep

/-- A step, if it can be taken. -/
def step (c : Config) (s : State κ) : Event κ → Option (State κ)
  | .submitCmd cmd writeSq => s.submitCmd c cmd writeSq
  | .ringSqDb => s.ringSqDb c
  | .commitRqs => s.commitRqs c
  | .processCq => s.processCq
  | .testCqe => s.testCqe
  | .handleCqe => s.handleCqe c
  | .procDbs => s.procDbs c
  | .procIoSq accept entry => s.procIoSq c accept entry
  | .beginFill i status result0 result1 => s.beginFill c i status result0 result1
  | .fillStep => s.fillStep c

/-- The states that steps in any order lead to. -/
inductive Reaches (c : Config) : State κ → Prop where
  | init (junk : ℕ → Command κ) : Reaches c (State.init junk)
  | step {s t : State κ} {e : Event κ} : Reaches c s → step c s e = some t → Reaches c t

/-- A list of steps. -/
def run (c : Config) : State κ → List (Event κ) → Option (State κ)
  | s, [] => some s
  | s, e :: es => do run c (← step c s e) es

end Virtkv.Protocol
