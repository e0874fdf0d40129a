import Mathlib.Data.Nat.ModEq
import Mathlib.Data.List.Basic
import Virtkv.Config

/-!
# The admin queue

`nvmev_proc_admin_sq` runs the admin commands between two doorbell values and every
handler writes its completion into the completion ring itself. Before that it reads and
writes what the command names: an entry of the queue tables, a namespace, memory of the
host. Nothing checks the numbers in the command, so the access can leave these objects; the
model stops there. What an access inside them changes reaches neither of the two rings and
is left out.

## Main results

- `serves_of_procAdminSq` — a doorbell update handles the commands of the ring in order and
  completes all of them but the aborts
- `run_completes_iff` — every command of every run is completed once, in consecutive slots
  of the ring, exactly if none of them is an abort and all stay in bounds
-/

namespace Virtkv.Admin

open Outcome

/-- The opcodes `__nvmev_proc_admin_req` tells apart. -/
inductive Opcode where
  | deleteSq
  | createSq
  | getLogPage
  | deleteCq
  | createCq
  | identify
  | abortCmd
  | setFeatures
  | getFeatures
  | asyncEvent
  | activateFw
  | downloadFw
  | formatNvm
  | securitySend
  | securityRecv
  | other
  deriving DecidableEq

/-- `enum nvme_admin_opcode`. -/
def Opcode.ofByte (b : UInt8) : Opcode :=
  match b.toNat with
  | 0x00 => .deleteSq
  | 0x01 => .createSq
  | 0x02 => .getLogPage
  | 0x04 => .deleteCq
  | 0x05 => .createCq
  | 0x06 => .identify
  | 0x08 => .abortCmd
  | 0x09 => .setFeatures
  | 0x0a => .getFeatures
  | 0x0c => .asyncEvent
  | 0x10 => .activateFw
  | 0x11 => .downloadFw
  | 0x80 => .formatNvm
  | 0x81 => .securitySend
  | 0x82 => .securityRecv
  | _ => .other

/-- A slot of the submission ring. -/
structure Cmd where
  opcode : UInt8
  commandId : ℕ
  nsid : ℕ
  prp1 : ℕ
  dword10 : ℕ
  dword11 : ℕ

namespace Cmd

/-- `cqid`, `sqid` and `qid` of the commands that create and delete queues. -/
def qid (c : Cmd) : ℕ := c.dword10 % 2 ^ 16

/-- `cns` of an identify, and `fid` of the features. -/
def cns (c : Cmd) : ℕ := c.dword10
def fid (c : Cmd) : ℕ := c.dword10

/-- `lid` of `get_log_page`, and the bytes it asks for, from `numdl` and `numdu`. -/
def lid (c : Cmd) : ℕ := c.dword10 % 2 ^ 8
def logLen (c : Cmd) : ℕ :=
  (((c.dword11 % 2 ^ 16) <<< 16 ||| c.dword10 / 2 ^ 16 % 2 ^ 16) + 1) <<< 2 % 2 ^ 32

/-- `nsid - 1`, in 32 bits. -/
def nsIndex (c : Cmd) : ℕ := (c.nsid + 2 ^ 32 - 1) % 2 ^ 32

end Cmd

/-- What the commands name: `nr_ns`, and the memory of the host. `owns addr len` says that
the `len` bytes at `addr` are the host's, and hold neither of the rings. -/
structure Host where
  nrNs : ℕ
  owns : ℕ → ℕ → Bool

/-- `struct nvme_completion`; `sq_id` is 0. -/
structure Completion where
  commandId : ℕ
  sqHead : ℕ
  result0 : ℕ
  result1 : ℕ
  status : ℕ

/-- `sq_depth` and `cq_depth`. -/
structure Depths where
  sqDepth : ℕ
  cqDepth : ℕ

/-- The admin queue (`struct nvmev_admin_queue`) and the queue counts of the device, with
the slots handled and the completions written so far. -/
structure Queue where
  phase : Bool
  cqHead : ℕ
  nrSq : ℕ
  nrCq : ℕ
  handled : List ℕ
  written : List (ℕ × Completion)

/-- `NVME_SC_SUCCESS`, `NVME_SC_INVALID_OPCODE`, `NVME_FEAT_NUM_QUEUES` and
`NR_MAX_IO_QUEUE`. -/
def scSuccess : ℕ := 0
def scInvalidOpcode : ℕ := 1
def featNumQueues : ℕ := 7
def nrMaxIoQueue : ℕ := 72

/-- `NVME_LOG_SMART` and `NVME_LOG_CMD_EFFECTS`, and the sizes of their static tables. -/
def logSmart : ℕ := 2
def logCmdEffects : ℕ := 5
def smartLogSz : ℕ := 512
def effectsLogSz : ℕ := 4096

section Handlers

variable (d : Depths) (w : Host) (sq : ℕ → Cmd) (eid : ℕ) (q : Queue)

/-- `__make_cq_entry_results`. -/
def makeCqEntryResults (ret result0 result1 : ℕ) : Queue :=
  let entry : Completion :=
    { commandId := (sq eid).commandId, sqHead := eid, result0 := result0, result1 := result1
      status := q.phase.toNat + 2 * ret }
  let q := { q with written := q.written ++ [(q.cqHead, entry)] }
  if q.cqHead + 1 = d.cqDepth then { q with cqHead := 0, phase := !q.phase }
  else { q with cqHead := q.cqHead + 1 }

/-- `__make_cq_entry`. -/
def makeCqEntry (ret : ℕ) : Queue := makeCqEntryResults d sq eid q ret 0 0

/-- The handlers that create and delete queues; `cqes` and `sqes` have one entry for each
queue id up to `NR_MAX_IO_QUEUE`. -/
def adminQueue : Except Fault Queue := do
  ensure ((sq eid).qid ≤ nrMaxIoQueue) .badAccess
  return makeCqEntry d sq eid q scSuccess

def adminCreateCq : Except Fault Queue := adminQueue d sq eid q
def adminDeleteCq : Except Fault Queue := adminQueue d sq eid q
def adminCreateSq : Except Fault Queue := adminQueue d sq eid q
def adminDeleteSq : Except Fault Queue := adminQueue d sq eid q

/-- The switch of `__nvmev_admin_get_log_page`: two logs are copied from static tables, and any
other log is cleared. -/
def readLog (c : Cmd) : Except Fault Unit :=
  if c.lid = logSmart then ensure (c.logLen ≤ smartLogSz) .badAccess
  else if c.lid = logCmdEffects then ensure (c.logLen ≤ effectsLogSz) .badAccess
  else .ok ()

/-- `__nvmev_admin_get_log_page`. -/
def adminGetLogPage : Except Fault Queue := do
  readLog (sq eid)
  ensure (w.owns (sq eid).prp1 (sq eid).logLen) .badAccess
  return makeCqEntry d sq eid q scSuccess

/-- `__nvmev_admin_identify_namespace`: it clears a page and reads the size of the
namespace. -/
def adminIdentifyNamespace : Except Fault Queue := do
  ensure (w.owns (sq eid).prp1 pageSize) .badAccess
  ensure ((sq eid).nsIndex < w.nrNs) .badAccess
  return makeCqEntry d sq eid q scSuccess

/-- `__nvmev_admin_identify_namespaces`: it clears two pages, and lists the namespaces above
`nsid`. -/
def adminIdentifyNamespaces : Except Fault Queue := do
  ensure (w.owns (sq eid).prp1 (max (pageSize * 2) (4 * (w.nrNs - (sq eid).nsid)))) .badAccess
  return makeCqEntry d sq eid q scSuccess

/-- `__nvmev_admin_identify_namespace_desc`: the descriptor has the size of a page. -/
def adminIdentifyNamespaceDesc : Except Fault Queue := do
  ensure (w.owns (sq eid).prp1 pageSize) .badAccess
  ensure ((sq eid).nsIndex < w.nrNs) .badAccess
  return makeCqEntry d sq eid q scSuccess

/-- `__nvmev_admin_identify_ctrl`: the controller's data have the size of a page. -/
def adminIdentifyCtrl : Except Fault Queue := do
  ensure (w.owns (sq eid).prp1 pageSize) .badAccess
  return makeCqEntry d sq eid q scSuccess

/-- `__nvmev_admin_identify`. -/
def adminIdentify : Except Fault Queue :=
  match (sq eid).cns with
  | 0x00 => adminIdentifyNamespace d w sq eid q
  | 0x01 => adminIdentifyCtrl d w sq eid q
  | 0x02 => adminIdentifyNamespaces d w sq eid q
  | 0x03 => adminIdentifyNamespaceDesc d w sq eid q
  | _ => .ok (makeCqEntry d sq eid q scInvalidOpcode)

/-- `(nr_cq - 1) << 16 | (nr_sq - 1)`, in 32 bits. -/
def queueCounts : ℕ :=
  ((q.nrCq + 2 ^ 32 - 1) <<< 16 % 2 ^ 32) ||| ((q.nrSq + 2 ^ 32 - 1) % 2 ^ 32)

/-- `__nvmev_admin_set_features`. -/
def adminSetFeatures : Queue :=
  if (sq eid).fid = featNumQueues then
    let q := { q with
      nrSq := min ((sq eid).dword11 % 2 ^ 16 + 1) nrMaxIoQueue
      nrCq := min ((sq eid).dword11 / 2 ^ 16 % 2 ^ 16 + 1) nrMaxIoQueue }
    makeCqEntryResults d sq eid q scSuccess (queueCounts q) 0
  else makeCqEntryResults d sq eid q scSuccess 0 0

/-- `__nvmev_admin_get_features`. -/
def adminGetFeatures : Queue :=
  if (sq eid).fid = featNumQueues then
    makeCqEntryResults d sq eid q scSuccess (queueCounts q) 0
  else makeCqEntryResults d sq eid q scSuccess 0 0

/-- `__nvmev_admin_async_event`. -/
def adminAsyncEvent : Queue := makeCqEntry d sq eid q scSuccess

/-- `__nvmev_proc_admin_req`. An identify falls through to the case of the abort, which does
nothing. -/
def procAdminReq : Except Fault Queue :=
  let q := { q with handled := q.handled ++ [eid] }
  match Opcode.ofByte (sq eid).opcode with
  | .deleteSq => adminDeleteSq d sq eid q
  | .createSq => adminCreateSq d sq eid q
  | .getLogPage => adminGetLogPage d w sq eid q
  | .deleteCq => adminDeleteCq d sq eid q
  | .createCq => adminCreateCq d sq eid q
  | .identify => adminIdentify d w sq eid q
  | .abortCmd => .ok q
  | .setFeatures => .ok (adminSetFeatures d sq eid q)
  | .getFeatures => .ok (adminGetFeatures d sq eid q)
  | .asyncEvent => .ok (adminAsyncEvent d sq eid q)
  | .activateFw | .downloadFw | .formatNvm | .securitySend | .securityRecv | .other =>
    .ok (makeCqEntry d sq eid q scInvalidOpcode)

end Handlers

/-- The loop of `nvmev_proc_admin_sq` over `n` commands from slot `curr` on. -/
def procLoop (d : Depths) (w : Host) (sq : ℕ → Cmd) : ℕ → ℕ → Queue → Except Fault Queue
  | 0, _, q => .ok q
  | n + 1, curr, q => do
    let q ← procAdminReq d w sq curr q
    procLoop d w sq n (if curr + 1 = d.sqDepth then 0 else curr + 1) q

/-- `nvmev_proc_admin_sq`. -/
def procAdminSq (d : Depths) (w : Host) (sq : ℕ → Cmd) (newDb oldDb : ℕ) (q : Queue) :
    Except Fault Queue :=
  let numProc : ℤ := (newDb : ℤ) - oldDb
  let numProc := if numProc < 0 then numProc + d.sqDepth else numProc
  procLoop d w sq numProc.toNat oldDb q

/-- A doorbell update: the contents of the submission ring and the new value. -/
structure Update where
  sq : ℕ → Cmd
  newDb : ℕ

/-- The updates in order, from the doorbell value `oldDb` on. -/
def run (d : Depths) (w : Host) : ℕ → List Update → Queue → Except Fault Queue
  | _, [], q => .ok q
  | oldDb, u :: us, q => do
    let q ← procAdminSq d w u.sq u.newDb oldDb q
    run d w u.newDb us q

/-! ### What the updates ask for -/

/-- The slots from one doorbell value to another, around the ring. -/
def ring (depth oldDb newDb : ℕ) : List ℕ :=
  (List.range ((newDb + depth - oldDb) % depth)).map fun i => (oldDb + i) % depth

/-- The commands of the updates, with their slots. -/
def commands (d : Depths) : ℕ → List Update → List (ℕ × Cmd)
  | _, [] => []
  | oldDb, u :: us =>
    (ring d.sqDepth oldDb u.newDb).map (fun e => (e, u.sq e)) ++ commands d u.newDb us

def Cmd.isAbort (c : Cmd) : Bool := Opcode.ofByte c.opcode = .abortCmd

/-- The length of a log is within its table, and the memory it goes to is the host's. -/
def Cmd.LogInBounds (w : Host) (c : Cmd) : Prop :=
  ((c.lid = logSmart → c.logLen ≤ smartLogSz) ∧
    (c.lid = logCmdEffects → c.logLen ≤ effectsLogSz)) ∧ w.owns c.prp1 c.logLen = true

/-- The namespace of an identify exists, and the memory it goes to is the host's. -/
def Cmd.IdentifyInBounds (w : Host) (c : Cmd) : Prop :=
  (c.cns = 0 ∨ c.cns = 1 ∨ c.cns = 3 → w.owns c.prp1 pageSize = true) ∧
    (c.cns = 2 → w.owns c.prp1 (max (pageSize * 2) (4 * (w.nrNs - c.nsid))) = true) ∧
    (c.cns = 0 ∨ c.cns = 3 → c.nsIndex < w.nrNs)

/-- What the device reads and writes for a command is inside the objects it is meant for. -/
def Cmd.InBounds (w : Host) (c : Cmd) : Prop :=
  (Opcode.ofByte c.opcode ∈ [.deleteSq, .createSq, .deleteCq, .createCq] →
      c.qid ≤ nrMaxIoQueue) ∧
    (Opcode.ofByte c.opcode = .getLogPage → c.LogInBounds w) ∧
    (Opcode.ofByte c.opcode = .identify → c.IdentifyInBounds w)

instance (w : Host) (c : Cmd) : Decidable (c.LogInBounds w) :=
  inferInstanceAs (Decidable (_ ∧ _))

instance (w : Host) (c : Cmd) : Decidable (c.IdentifyInBounds w) :=
  inferInstanceAs (Decidable (_ ∧ _ ∧ _))

instance (w : Host) (c : Cmd) : Decidable (c.InBounds w) :=
  inferInstanceAs (Decidable (_ ∧ _ ∧ _))

/-- What identifies a completion: its slot, its phase bit and its command. -/
def stamp (w : ℕ × Completion) : ℕ × Bool × ℕ := (w.1, decide (w.2.status % 2 = 1), w.2.commandId)

/-- The completion of a command as the `i`-th one, counted from slot 0 of the round of the
ring that has the phase bit `phase`. -/
def stampAt (d : Depths) (phase : Bool) (x : (ℕ × Cmd) × ℕ) : ℕ × Bool × ℕ :=
  (x.2 % d.cqDepth, xor phase (decide (x.2 / d.cqDepth % 2 = 1)), x.1.2.commandId)

/-! ### The completion ring -/

variable {d : Depths} {w : Host} {sq : ℕ → Cmd} {eid : ℕ} {q q' q'' : Queue} {phase : Bool}

/-- The next completion is the `pos`-th one. -/
structure At (d : Depths) (phase : Bool) (pos : ℕ) (q : Queue) : Prop where
  cqHead : q.cqHead = pos % d.cqDepth
  phase : q.phase = xor phase (decide (pos / d.cqDepth % 2 = 1))

theorem succ_mod_div {n i : ℕ} (hn : 0 < n) :
    (i % n + 1 = n → (i + 1) % n = 0 ∧ (i + 1) / n = i / n + 1) ∧
      (i % n + 1 ≠ n → (i + 1) % n = i % n + 1 ∧ (i + 1) / n = i / n) := by
  have hlt := Nat.mod_lt i hn
  have hdiv := Nat.div_add_mod i n
  constructor
  · intro h
    have hi : i + 1 = n * (i / n + 1) := by
      rw [Nat.mul_add, Nat.mul_one]
      omega
    rw [hi]
    exact ⟨Nat.mul_mod_right _ _, Nat.mul_div_cancel_left _ hn⟩
  · intro h
    have hi : i + 1 = n * (i / n) + (i % n + 1) := by omega
    rw [hi]
    constructor
    · rw [Nat.mul_add_mod, Nat.mod_eq_of_lt (show i % n + 1 < n by omega)]
    · rw [Nat.mul_add_div hn, Nat.div_eq_of_lt (show i % n + 1 < n by omega), Nat.add_zero]

/-- A completion takes the next slot, with the phase bit of its round. -/
theorem At.makeCqEntryResults {pos : ℕ} (h : At d phase pos q) (hd : 0 < d.cqDepth)
    (ret result0 result1 : ℕ) :
    At d phase (pos + 1) (makeCqEntryResults d sq eid q ret result0 result1) ∧
      (makeCqEntryResults d sq eid q ret result0 result1).written.map stamp =
        q.written.map stamp ++ [stampAt d phase ((eid, sq eid), pos)] ∧
      (makeCqEntryResults d sq eid q ret result0 result1).handled = q.handled := by
  obtain ⟨hwrap, hnext⟩ := @succ_mod_div d.cqDepth pos hd
  have hbit : decide ((q.phase.toNat + 2 * ret) % 2 = 1) = q.phase := by
    cases q.phase <;> simp
  unfold Admin.makeCqEntryResults
  dsimp only
  by_cases hc : q.cqHead + 1 = d.cqDepth
  · rw [if_pos hc]
    rw [h.cqHead] at hc
    obtain ⟨hmod, hdiv⟩ := hwrap hc
    refine ⟨⟨hmod.symm, ?_⟩, ?_, rfl⟩
    · rw [hdiv, h.phase]
      rcases Nat.mod_two_eq_zero_or_one (pos / d.cqDepth) with hpar | hpar
      · simp [hpar, show (pos / d.cqDepth + 1) % 2 = 1 by omega]
      · simp [hpar, show (pos / d.cqDepth + 1) % 2 = 0 by omega]
    · rw [List.map_append, List.map_singleton, stamp, stampAt, hbit, h.cqHead, h.phase]
  · rw [if_neg hc]
    rw [h.cqHead] at hc
    obtain ⟨hmod, hdiv⟩ := hnext hc
    refine ⟨⟨?_, ?_⟩, ?_, rfl⟩
    · rw [hmod, h.cqHead]
    · rw [hdiv, h.phase]
    · rw [List.map_append, List.map_singleton, stamp, stampAt, hbit, h.cqHead, h.phase]

/-- What serving commands does: all of them are handled in order, and those that are no
aborts get the next completions. -/
structure Serves (d : Depths) (phase : Bool) (q q' : Queue) (cs : List (ℕ × Cmd)) : Prop where
  handled : q'.handled = q.handled ++ cs.map Prod.fst
  ring : ∀ pos, At d phase pos q →
    At d phase (pos + (cs.filter fun c => !c.2.isAbort).length) q' ∧
      q'.written.map stamp = q.written.map stamp ++
        ((cs.filter fun c => !c.2.isAbort).zipIdx pos).map (stampAt d phase)

theorem Serves.refl (q : Queue) : Serves d phase q q [] where
  handled := by simp
  ring pos h := ⟨h, by simp⟩

theorem Serves.trans {cs cs' : List (ℕ × Cmd)} (h : Serves d phase q q' cs)
    (h' : Serves d phase q' q'' cs') : Serves d phase q q'' (cs ++ cs') where
  handled := by rw [h'.handled, h.handled, List.map_append, List.append_assoc]
  ring pos hpos := by
    obtain ⟨h1, hw1⟩ := h.ring pos hpos
    obtain ⟨h2, hw2⟩ := h'.ring _ h1
    rw [List.filter_append]
    refine ⟨?_, ?_⟩
    · rw [List.length_append, ← Nat.add_assoc]
      exact h2
    · rw [hw2, hw1, List.zipIdx_append, List.map_append, List.append_assoc]

/-- One completion serves a command that is no abort. -/
theorem serves_of_entry (hd : 0 < d.cqDepth) (hc : (sq eid).isAbort = false)
    (q₀ : Queue) (hq : q₀.handled = q.handled ++ [eid] ∧ q₀.written = q.written ∧
      q₀.cqHead = q.cqHead ∧ q₀.phase = q.phase) (ret result0 result1 : ℕ) :
    Serves d phase q (makeCqEntryResults d sq eid q₀ ret result0 result1) [(eid, sq eid)] := by
  obtain ⟨hhandled, hwritten, hhead, hphase⟩ := hq
  have hfilter : [(eid, sq eid)].filter (fun c => !c.2.isAbort) = [(eid, sq eid)] := by
    simp [hc]
  have hat : ∀ {pos}, At d phase pos q → At d phase pos q₀ := fun h =>
    ⟨hhead.trans h.cqHead, hphase.trans h.phase⟩
  refine ⟨?_, fun pos hpos => ?_⟩
  · unfold makeCqEntryResults
    dsimp only
    split <;> exact hhandled
  · obtain ⟨h1, h2, -⟩ := @At.makeCqEntryResults d sq eid q₀ phase pos (hat hpos) hd ret result0
      result1
    rw [hfilter]
    refine ⟨h1, ?_⟩
    rw [h2, hwritten]
    rfl

/-! ### The handlers -/

theorem adminQueue_eq_ok : adminQueue d sq eid q = .ok q' ↔
    (sq eid).qid ≤ nrMaxIoQueue ∧ makeCqEntry d sq eid q scSuccess = q' := by
  simp only [adminQueue, bind_eq_ok, ensure_eq_ok, exists_const, pure_eq_ok]

theorem readLog_eq_ok {c : Cmd} : readLog c = .ok () ↔ (c.lid = logSmart → c.logLen ≤ smartLogSz) ∧
    (c.lid = logCmdEffects → c.logLen ≤ effectsLogSz) := by
  have hne : logSmart ≠ logCmdEffects := by decide
  unfold readLog
  split
  · rename_i hlid
    simp [ensure_eq_ok, hlid, hne]
  split
  · rename_i hsmart hlid
    simp [ensure_eq_ok, hlid, Ne.symm hne]
  · rename_i hsmart heffects
    simp [hsmart, heffects]

theorem adminGetLogPage_eq_ok : adminGetLogPage d w sq eid q = .ok q' ↔
    (sq eid).LogInBounds w ∧ makeCqEntry d sq eid q scSuccess = q' := by
  unfold adminGetLogPage Cmd.LogInBounds
  simp only [bind_eq_ok, ensure_eq_ok, pure_eq_ok, exists_const]
  constructor
  · rintro ⟨⟨⟩, hread, howns, h⟩
    exact ⟨⟨readLog_eq_ok.mp hread, howns⟩, h⟩
  · rintro ⟨⟨hread, howns⟩, h⟩
    exact ⟨(), readLog_eq_ok.mpr hread, howns, h⟩

theorem adminIdentify_eq_ok : adminIdentify d w sq eid q = .ok q' ↔
    (sq eid).IdentifyInBounds w ∧
      makeCqEntry d sq eid q (if (sq eid).cns ≤ 3 then scSuccess else scInvalidOpcode) = q' := by
  unfold adminIdentify Cmd.IdentifyInBounds
  split
  case h_1 hcns =>
    simp only [adminIdentifyNamespace, bind_eq_ok, ensure_eq_ok, pure_eq_ok, exists_const, hcns]
    simp [and_assoc]
  case h_2 hcns =>
    simp only [adminIdentifyCtrl, bind_eq_ok, ensure_eq_ok, pure_eq_ok, exists_const, hcns]
    simp
  case h_3 hcns =>
    simp only [adminIdentifyNamespaces, bind_eq_ok, ensure_eq_ok, pure_eq_ok, exists_const, hcns]
    simp
  case h_4 hcns =>
    simp only [adminIdentifyNamespaceDesc, bind_eq_ok, ensure_eq_ok, pure_eq_ok, exists_const,
      hcns]
    simp [and_assoc]
  case h_5 h0 h1 h2 h3 =>
    have hne : (sq eid).cns ≠ 0 ∧ (sq eid).cns ≠ 1 ∧ (sq eid).cns ≠ 2 ∧ (sq eid).cns ≠ 3 :=
      ⟨h0, h1, h2, h3⟩
    have hgt : ¬(sq eid).cns ≤ 3 := by omega
    simp [hne, hgt]

/-- `__nvmev_proc_admin_req` returns exactly if its command stays in bounds. -/
theorem procAdminReq_ok_iff : (∃ q', procAdminReq d w sq eid q = .ok q') ↔
    (sq eid).InBounds w := by
  unfold procAdminReq Cmd.InBounds
  dsimp only
  cases Opcode.ofByte (sq eid).opcode
  case getLogPage => simp [adminGetLogPage_eq_ok]
  case identify => simp [adminIdentify_eq_ok]
  all_goals simp [adminDeleteSq, adminCreateSq, adminDeleteCq, adminCreateCq, adminQueue_eq_ok]

/-- It serves its command. -/
theorem serves_of_procAdminReq (hd : 0 < d.cqDepth) (h : procAdminReq d w sq eid q = .ok q') :
    Serves d phase q q' [(eid, sq eid)] := by
  unfold procAdminReq at h
  dsimp only at h
  by_cases habort : Opcode.ofByte (sq eid).opcode = .abortCmd
  · have hfilter : [(eid, sq eid)].filter (fun c => !c.2.isAbort) = [] := by
      simp [Cmd.isAbort, habort]
    rw [habort] at h
    cases h
    refine ⟨rfl, fun pos hpos => ?_⟩
    rw [hfilter]
    exact ⟨⟨hpos.cqHead, hpos.phase⟩, by simp⟩
  have hc : (sq eid).isAbort = false := decide_eq_false habort
  have hentry := @serves_of_entry d sq eid q phase hd hc
  have hqueue : adminQueue d sq eid { q with handled := q.handled ++ [eid] } = .ok q' →
      Serves d phase q q' [(eid, sq eid)] := by
    intro hok
    obtain ⟨-, rfl⟩ := adminQueue_eq_ok.mp hok
    apply hentry
    exact ⟨rfl, rfl, rfl, rfl⟩
  cases hop : Opcode.ofByte (sq eid).opcode <;> rw [hop] at h <;> dsimp only at h
  case deleteSq => exact hqueue h
  case createSq => exact hqueue h
  case deleteCq => exact hqueue h
  case createCq => exact hqueue h
  case getLogPage =>
    obtain ⟨-, rfl⟩ := adminGetLogPage_eq_ok.mp h
    apply hentry
    exact ⟨rfl, rfl, rfl, rfl⟩
  case identify =>
    obtain ⟨-, rfl⟩ := adminIdentify_eq_ok.mp h
    apply hentry
    exact ⟨rfl, rfl, rfl, rfl⟩
  case abortCmd => exact absurd hop habort
  case setFeatures =>
    cases h
    unfold adminSetFeatures
    split
    all_goals
      apply hentry
      exact ⟨rfl, rfl, rfl, rfl⟩
  case getFeatures =>
    cases h
    unfold adminGetFeatures
    split
    all_goals
      apply hentry
      exact ⟨rfl, rfl, rfl, rfl⟩
  all_goals
    cases h
    apply hentry
    exact ⟨rfl, rfl, rfl, rfl⟩

/-! ### Doorbell updates -/

/-- The commands of `n` slots from `curr` on. -/
theorem slots_succ (sq : ℕ → Cmd) {n curr depth : ℕ} (hcurr : curr < depth) :
    ((List.range (n + 1)).map fun i => ((curr + i) % depth, sq ((curr + i) % depth))) =
      [(curr, sq curr)] ++ (List.range n).map (fun i =>
        (((curr + 1) % depth + i) % depth, sq (((curr + 1) % depth + i) % depth))) := by
  rw [List.range_succ_eq_map, List.map_cons, Nat.add_zero, Nat.mod_eq_of_lt hcurr, List.map_map]
  refine congrArg _ (List.map_congr_left fun i _ => ?_)
  simp only [Function.comp_apply, Nat.mod_add_mod]
  rw [show curr + i.succ = curr + 1 + i by omega]

theorem next_slot {curr depth : ℕ} (hcurr : curr < depth) :
    (if curr + 1 = depth then 0 else curr + 1) = (curr + 1) % depth := by
  split
  · rename_i heq
    rw [heq, Nat.mod_self]
  · exact (Nat.mod_eq_of_lt (by omega)).symm

/-- The loop returns exactly if its commands stay in bounds, and then it serves them. -/
theorem procLoop_spec (hd : 0 < d.cqDepth) {n curr : ℕ} (hcurr : curr < d.sqDepth) (q : Queue) :
    ((∃ q', procLoop d w sq n curr q = .ok q') ↔
        ∀ c ∈ (List.range n).map fun i =>
          ((curr + i) % d.sqDepth, sq ((curr + i) % d.sqDepth)), c.2.InBounds w) ∧
      ∀ q', procLoop d w sq n curr q = .ok q' → Serves d phase q q'
        ((List.range n).map fun i => ((curr + i) % d.sqDepth, sq ((curr + i) % d.sqDepth))) := by
  induction n generalizing curr q with
  | zero =>
    refine ⟨⟨fun _ c hc => absurd hc List.not_mem_nil, fun _ => ⟨q, rfl⟩⟩, fun q' h => ?_⟩
    cases h
    exact Serves.refl q
  | succ n ih =>
    have hlt : (curr + 1) % d.sqDepth < d.sqDepth := Nat.mod_lt _ (by omega)
    have hreq := @procAdminReq_ok_iff d w sq curr q
    rw [slots_succ sq hcurr, procLoop, next_slot hcurr]
    simp only [bind_eq_ok, List.forall_mem_append, List.forall_mem_singleton]
    refine ⟨⟨?_, ?_⟩, ?_⟩
    · rintro ⟨q', q₁, h₁, h⟩
      exact ⟨hreq.mp ⟨q₁, h₁⟩, (ih hlt q₁).1.mp ⟨q', h⟩⟩
    · rintro ⟨hone, hrest⟩
      obtain ⟨q₁, h₁⟩ := hreq.mpr hone
      obtain ⟨q', h⟩ := (ih hlt q₁).1.mpr hrest
      exact ⟨q', q₁, h₁, h⟩
    · rintro q' ⟨q₁, h₁, h⟩
      exact (serves_of_procAdminReq hd h₁).trans ((ih hlt q₁).2 q' h)

/-- `nvmev_proc_admin_sq` returns exactly if the commands from the old to the new doorbell value
stay in bounds, and then it serves them. -/
theorem procAdminSq_spec (hd : 0 < d.cqDepth) {newDb oldDb : ℕ} (hnew : newDb < d.sqDepth)
    (hold : oldDb < d.sqDepth) (q : Queue) :
    ((∃ q', procAdminSq d w sq newDb oldDb q = .ok q') ↔
        ∀ c ∈ (ring d.sqDepth oldDb newDb).map fun e => (e, sq e), c.2.InBounds w) ∧
      ∀ q', procAdminSq d w sq newDb oldDb q = .ok q' → Serves d phase q q'
        ((ring d.sqDepth oldDb newDb).map fun e => (e, sq e)) := by
  have hnum : (if (newDb : ℤ) - oldDb < 0 then (newDb : ℤ) - oldDb + d.sqDepth
      else (newDb : ℤ) - oldDb).toNat = (newDb + d.sqDepth - oldDb) % d.sqDepth := by
    split
    · rename_i hneg
      rw [Nat.mod_eq_of_lt (by omega)]
      omega
    · rename_i hpos
      rw [show newDb + d.sqDepth - oldDb = newDb - oldDb + d.sqDepth by omega, Nat.add_mod_right,
        Nat.mod_eq_of_lt (by omega)]
      omega
  unfold procAdminSq ring
  dsimp only
  rw [hnum, List.map_map]
  exact procLoop_spec hd hold q

/-- A run returns exactly if the commands of its updates stay in bounds, and then it serves
them. -/
theorem run_spec (hd : 0 < d.cqDepth) {oldDb : ℕ} {us : List Update} (hold : oldDb < d.sqDepth)
    (hus : ∀ u ∈ us, u.newDb < d.sqDepth) (q : Queue) :
    ((∃ q', run d w oldDb us q = .ok q') ↔ ∀ c ∈ commands d oldDb us, c.2.InBounds w) ∧
      ∀ q', run d w oldDb us q = .ok q' → Serves d phase q q' (commands d oldDb us) := by
  induction us generalizing oldDb q with
  | nil =>
    refine ⟨⟨fun _ c hc => absurd hc List.not_mem_nil, fun _ => ⟨q, rfl⟩⟩, fun q' h => ?_⟩
    cases h
    exact Serves.refl q
  | cons u us ih =>
    have hnew := hus u List.mem_cons_self
    obtain ⟨hiff, hserves⟩ := @procAdminSq_spec d w u.sq phase hd u.newDb oldDb hnew hold q
    have hrest := fun q₁ => ih hnew (fun v hv => hus v (List.mem_cons_of_mem _ hv)) q₁
    rw [run, commands]
    simp only [bind_eq_ok, List.forall_mem_append]
    refine ⟨⟨?_, ?_⟩, ?_⟩
    · rintro ⟨q', q₁, h₁, h⟩
      exact ⟨hiff.mp ⟨q₁, h₁⟩, (hrest q₁).1.mp ⟨q', h⟩⟩
    · rintro ⟨hone, hmore⟩
      obtain ⟨q₁, h₁⟩ := hiff.mpr hone
      obtain ⟨q', h⟩ := (hrest q₁).1.mpr hmore
      exact ⟨q', q₁, h₁, h⟩
    · rintro q' ⟨q₁, h₁, h⟩
      exact (hserves q₁ h₁).trans ((hrest q₁).2 q' h)

/-- In every run of doorbell updates, the commands are handled in the order of the ring and
each is completed once, in consecutive slots of the completion ring with the phase bit
flipping at each wrap, exactly if none of them is an abort and all of them stay in bounds. -/
theorem run_completes_iff (d : Depths) (w : Host) (q : Queue) (hq : q.cqHead < d.cqDepth)
    {oldDb : ℕ} (hold : oldDb < d.sqDepth) (us : List Update)
    (hus : ∀ u ∈ us, u.newDb < d.sqDepth) :
    (∃ q', run d w oldDb us q = .ok q' ∧
      q'.handled = q.handled ++ (commands d oldDb us).map Prod.fst ∧
      q'.written.map stamp = q.written.map stamp ++
        ((commands d oldDb us).zipIdx q.cqHead).map (stampAt d q.phase)) ↔
      ∀ c ∈ commands d oldDb us, c.2.isAbort = false ∧ c.2.InBounds w := by
  obtain ⟨hiff, hserves⟩ := @run_spec d w q.phase (by omega) oldDb us hold hus q
  have hat : At d q.phase q.cqHead q := by
    refine ⟨(Nat.mod_eq_of_lt hq).symm, ?_⟩
    rw [Nat.div_eq_of_lt hq]
    simp
  constructor
  · rintro ⟨q', hrun, -, hall⟩ c hc
    obtain ⟨-, hwritten⟩ := (hserves q' hrun).ring _ hat
    rw [hall] at hwritten
    have hlen := congrArg List.length (List.append_cancel_left hwritten)
    rw [List.length_map, List.length_map, List.length_zipIdx, List.length_zipIdx] at hlen
    have hfilter := List.length_filter_eq_length_iff.mp hlen.symm
    exact ⟨by simpa using hfilter c hc, hiff.mp ⟨q', hrun⟩ c hc⟩
  · intro hno
    obtain ⟨q', hrun⟩ := hiff.mpr fun c hc => (hno c hc).2
    obtain ⟨-, hwritten⟩ := (hserves q' hrun).ring _ hat
    refine ⟨q', hrun, (hserves q' hrun).handled, ?_⟩
    rw [hwritten, List.filter_eq_self.mpr fun c hc => by rw [(hno c hc).1]; rfl]

/-- An empty admin queue with four slots each way. -/
def fresh : Queue where
  phase := true
  cqHead := 0
  nrSq := 0
  nrCq := 0
  handled := []
  written := []

/-- One namespace, and a host that owns the memory from 8 to 16 MiB. -/
def oneNamespace : Host where
  nrNs := 1
  owns addr len := decide (2 ^ 23 ≤ addr ∧ addr + len ≤ 2 ^ 24)

/-- A ring full of commands with one opcode, numbered by their slots. -/
def ringOf (opcode : UInt8) (dword10 : ℕ) : ℕ → Cmd := fun i =>
  { opcode := opcode, commandId := i, nsid := 1, prp1 := 2 ^ 23 + 512, dword10 := dword10
    dword11 := 0 }

/-- Three identifies of a namespace, then a SMART log and a queue that is deleted, around the
end of the ring. -/
def identifies : List Update := [⟨ringOf 6 0, 3⟩, ⟨ringOf 2 (127 * 2 ^ 16 + 2), 0⟩, ⟨ringOf 0 72, 1⟩]

theorem run_completes_identify :
    ∃ q', run ⟨4, 4⟩ oneNamespace 0 identifies fresh = .ok q' ∧
      q'.handled = fresh.handled ++ (commands ⟨4, 4⟩ 0 identifies).map Prod.fst ∧
      q'.written.map stamp = fresh.written.map stamp ++
        ((commands ⟨4, 4⟩ 0 identifies).zipIdx fresh.cqHead).map (stampAt ⟨4, 4⟩ fresh.phase) :=
  (run_completes_iff ⟨4, 4⟩ oneNamespace fresh (by decide) (by decide) identifies
    (by decide)).mpr (by decide)

/-- An abort gets no completion. -/
theorem run_abort_silent :
    commands ⟨4, 4⟩ 0 [⟨ringOf 8 0, 1⟩] = [(0, ringOf 8 0 0)] ∧
      ∃ q', run ⟨4, 4⟩ oneNamespace 0 [⟨ringOf 8 0, 1⟩] fresh = .ok q' ∧ q'.handled = [0] ∧
        q'.written = [] :=
  ⟨rfl, _, rfl, rfl, rfl⟩

end Virtkv.Admin
