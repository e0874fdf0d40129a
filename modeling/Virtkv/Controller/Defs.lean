import Virtkv.Config

/-!
# The controller registers

The host sets the controller up by writing registers of the BAR: the sizes of the admin queue
(`aqa`), its addresses (`asq`, `acq`, in two halves each) and the configuration (`cc`). The
dispatcher polls the registers, compares them with the values it has processed (`old_bar`) and
processes one change in each round, in an order of its own. It does not see in which order the
host wrote.

A step is one access of the dispatcher to a register, so the place where it stands in
`nvmev_proc_bars` is part of the state. A register that has changed is read again when it is
recorded and while it is used, and the host can write it between any two of these accesses.

## Main definitions

- `Ctrl` — the registers, the admin queue and the place of the dispatcher
- `Ctrl.access` — the next access of `nvmev_proc_bars`
- `Permitted` — writes of the host that do not race with the round under way
- `Reaches` — the states that writes of the host and accesses of the dispatcher lead to
-/

namespace Virtkv.Controller

/-- The registers the host writes (`struct nvme_ctrl_regs`), in words. -/
structure Regs where
  aqa : ℕ
  asqLo : ℕ
  asqHi : ℕ
  acqLo : ℕ
  acqHi : ℕ
  cc : ℕ

/-- The values processed last (`struct __nvme_bar`). -/
structure OldBar where
  aqa : ℕ
  asq : ℕ
  acq : ℕ
  cc : ℕ

/-- The bit fields `asqs` and `acqs` of `aqa`, `en` and `shn` of `cc`. -/
def asqs (aqa : ℕ) : ℕ := aqa % 2 ^ 12
def acqs (aqa : ℕ) : ℕ := aqa / 2 ^ 16 % 2 ^ 12
def en (cc : ℕ) : ℕ := cc % 2
def shn (cc : ℕ) : ℕ := cc / 2 ^ 14 % 2 ^ 2

/-- `u_asq` and `u_acq`. -/
def Regs.asq (r : Regs) : ℕ := r.asqLo + 2 ^ 32 * r.asqHi
def Regs.acq (r : Regs) : ℕ := r.acqLo + 2 ^ 32 * r.acqHi

/-- The admin queue (`struct nvmev_admin_queue`); the tables hold the numbers of the pages. -/
structure AdminQueue where
  phase : Bool
  sqDepth : ℕ
  cqDepth : ℕ
  cqHead : ℕ
  nvmeSq : Option (List ℕ)
  nvmeCq : Option (List ℕ)

/-- `kzalloc`. -/
def AdminQueue.zero : AdminQueue where
  phase := false
  sqDepth := 0
  cqDepth := 0
  cqHead := 0
  nvmeSq := none
  nvmeCq := none

/-- Where the dispatcher stands in `nvmev_proc_bars`: at the comparison of a register, or in the
branch of a register that has changed. In the loop over a page table, `i` is the loop counter. -/
inductive Point where
  | aqa
  | aqaRecord
  | aqaAsqs
  | aqaAcqs
  | asq
  | asqRecord
  | asqDepth
  | asqPage (i numPages : ℕ)
  | acq
  | acqRecord
  | acqDepth
  | acqPage (i numPages : ℕ)
  | cc
  | ccEn
  | ccDis
  | ccShn
  | ccRecord
  deriving DecidableEq

/-- The device: registers, `csts`, processed values, admin queue, admin doorbells and the place
of the dispatcher. -/
structure Ctrl where
  bar : Regs
  rdy : Bool
  shst : ℕ
  oldBar : OldBar
  adminQ : Option AdminQueue
  sqDb : ℕ
  cqDb : ℕ
  oldSqDb : ℕ
  oldCqDb : ℕ
  point : Point

/-- `__init_nvme_ctrl_regs` and `__create_pci_bus`. -/
def Ctrl.init : Ctrl where
  bar := { aqa := 0, asqLo := 0, asqHi := 0, acqLo := 0, acqHi := 0, cc := 0 }
  rdy := false
  shst := 0
  oldBar := { aqa := 0, asq := 0, acq := 0, cc := 0 }
  adminQ := none
  sqDb := 0
  cqDb := 0
  oldSqDb := 0
  oldCqDb := 0
  point := .aqa

/-- `sizeof(struct nvme_command)` and `sizeof(struct nvme_completion)`. -/
def commandSz : ℕ := 64
def completionSz : ℕ := 16

/-- `num_pages` of a ring of `depth` entries of `size` bytes. -/
def numPages (depth size : ℕ) : ℕ := (depth * size + pageSize - 1) / pageSize

namespace Ctrl

variable (s : Ctrl)

def goTo (p : Point) : Ctrl := { s with point := p }

/-! ### `aqa` has changed: the admin queue is set up, or set back -/

def recordAqa : Ctrl :=
  { s with
    oldBar := { s.oldBar with aqa := s.bar.aqa }
    adminQ := some { s.adminQ.getD .zero with cqHead := 0, phase := true }
    point := .aqaAsqs }

def setAsqs (queue : AdminQueue) : Ctrl :=
  { s with adminQ := some { queue with sqDepth := asqs s.bar.aqa + 1 }, point := .aqaAcqs }

def setAcqs (queue : AdminQueue) : Ctrl :=
  { s with
    adminQ := some { queue with cqDepth := acqs s.bar.aqa + 1 }
    sqDb := 0, oldSqDb := 0, cqDb := 0, oldCqDb := 0
    point := .aqa }

/-! ### `asq` has changed: the old table is freed and a new one is filled page by page -/

def recordAsq (queue : AdminQueue) : Ctrl :=
  { s with
    oldBar := { s.oldBar with asq := s.bar.asq }
    adminQ := some { queue with nvmeSq := none }
    point := .asqDepth }

def allocSq (queue : AdminQueue) : Ctrl :=
  let sqDepth := asqs s.bar.aqa + 1
  let n := numPages sqDepth commandSz
  { s with
    adminQ := some { queue with sqDepth := sqDepth, nvmeSq := some (List.replicate n 0) }
    point := .asqPage 0 n }

def fillSq (queue : AdminQueue) (table : List ℕ) (i n : ℕ) : Ctrl :=
  if i < n then
    { s with
      adminQ := some { queue with nvmeSq := some (table.set i (s.bar.asq / pageSize + i)) }
      point := .asqPage (i + 1) n }
  else { s with sqDb := 0, oldSqDb := 0, point := .aqa }

/-! ### `acq` has changed -/

def recordAcq (queue : AdminQueue) : Ctrl :=
  { s with
    oldBar := { s.oldBar with acq := s.bar.acq }
    adminQ := some { queue with nvmeCq := none }
    point := .acqDepth }

def allocCq (queue : AdminQueue) : Ctrl :=
  let cqDepth := acqs s.bar.aqa + 1
  let n := numPages cqDepth completionSz
  { s with
    adminQ := some { queue with
      cqDepth := cqDepth, cqHead := 0, nvmeCq := some (List.replicate n 0) }
    point := .acqPage 0 n }

def fillCq (queue : AdminQueue) (table : List ℕ) (i n : ℕ) : Ctrl :=
  if i < n then
    { s with
      adminQ := some { queue with nvmeCq := some (table.set i (s.bar.acq / pageSize + i)) }
      point := .acqPage (i + 1) n }
  else { s with cqDb := 0, oldCqDb := 0, point := .aqa }

/-! ### `cc` has changed: the controller is enabled or disabled, and shut down -/

/-- `if (bar->cc.en == 1)`. -/
def enable : Ctrl :=
  if en s.bar.cc = 1 then { s with rdy := s.adminQ.isSome || s.rdy, point := .ccShn }
  else s.goTo .ccDis

/-- `else if (bar->cc.en == 0)`. -/
def disable : Ctrl := { s with rdy := if en s.bar.cc = 0 then false else s.rdy, point := .ccShn }

/-- A shutdown uses the admin queue without looking whether there is one. -/
def shutdown : Except Fault Ctrl :=
  if shn s.bar.cc = 1 then
    match s.adminQ with
    | none => .error .badAccess
    | some queue => .ok { s with
        shst := 2, sqDb := 0, oldSqDb := 0, cqDb := 0, oldCqDb := 0
        adminQ := some { queue with cqHead := 0 }
        point := .ccRecord }
  else .ok (s.goTo .ccRecord)

def recordCc : Ctrl := { s with oldBar := { s.oldBar with cc := s.bar.cc }, point := .aqa }

/-! ### A round -/

/-- The branch of a register uses the admin queue. -/
def withQueue (f : AdminQueue → Ctrl) : Except Fault Ctrl :=
  match s.adminQ with
  | none => .error .badAccess
  | some queue => .ok (f queue)

/-- The branch fills a page table. -/
def withTable (table : AdminQueue → Option (List ℕ)) (f : AdminQueue → List ℕ → Ctrl) :
    Except Fault Ctrl :=
  match s.adminQ with
  | none => .error .badAccess
  | some queue =>
    match table queue with
    | none => .error .badAccess
    | some pages => .ok (f queue pages)

/-- The next access of `nvmev_proc_bars`. Without an admin queue, changes of `asq` and `acq` wait
for `aqa`. -/
def access : Except Fault Ctrl :=
  match s.point with
  | .aqa => .ok (s.goTo (if s.oldBar.aqa = s.bar.aqa then .asq else .aqaRecord))
  | .aqaRecord => .ok s.recordAqa
  | .aqaAsqs => s.withQueue s.setAsqs
  | .aqaAcqs => s.withQueue s.setAcqs
  | .asq => .ok (s.goTo (if s.oldBar.asq = s.bar.asq then .acq
      else if s.adminQ.isNone then .aqa else .asqRecord))
  | .asqRecord => s.withQueue s.recordAsq
  | .asqDepth => s.withQueue s.allocSq
  | .asqPage i n => s.withTable AdminQueue.nvmeSq fun queue table => s.fillSq queue table i n
  | .acq => .ok (s.goTo (if s.oldBar.acq = s.bar.acq then .cc
      else if s.adminQ.isNone then .aqa else .acqRecord))
  | .acqRecord => s.withQueue s.recordAcq
  | .acqDepth => s.withQueue s.allocCq
  | .acqPage i n => s.withTable AdminQueue.nvmeCq fun queue table => s.fillCq queue table i n
  | .cc => .ok (s.goTo (if s.oldBar.cc = s.bar.cc then .aqa else .ccEn))
  | .ccEn => .ok s.enable
  | .ccDis => .ok s.disable
  | .ccShn => s.shutdown
  | .ccRecord => .ok s.recordCc

/-- The dispatcher alone goes on to the end of its round, and through more rounds. -/
inductive Rounds : ℕ → Ctrl → Ctrl → Prop where
  | done {s : Ctrl} : s.point = .aqa → Rounds 0 s s
  | access {s t u : Ctrl} {n : ℕ} :
    s.access = .ok t → t.point ≠ .aqa → Rounds n t u → Rounds n s u
  | last {s t u : Ctrl} {n : ℕ} :
    s.access = .ok t → t.point = .aqa → Rounds n t u → Rounds (n + 1) s u

end Ctrl

/-! ### The host -/

/-- A register of 32 bits. -/
inductive Reg where
  | aqa
  | asqLo
  | asqHi
  | acqLo
  | acqHi
  | cc
  deriving DecidableEq

/-- The host writes a register. -/
def Regs.write (r : Regs) (v : ℕ) : Reg → Regs
  | .aqa => { r with aqa := v }
  | .asqLo => { r with asqLo := v }
  | .asqHi => { r with asqHi := v }
  | .acqLo => { r with acqLo := v }
  | .acqHi => { r with acqHi := v }
  | .cc => { r with cc := v }

namespace Point

/-- The round has recorded `asq` and fills the page table. -/
def fillsSq : Point → Bool
  | asqDepth | asqPage _ _ => true
  | _ => false

/-- The round has recorded `acq` and fills the page table. -/
def fillsCq : Point → Bool
  | acqDepth | acqPage _ _ => true
  | _ => false

/-- The round has read `cc` and has not recorded it yet. -/
def takesCc : Point → Bool
  | ccDis | ccShn | ccRecord => true
  | _ => false

/-- The round compares `aqa` next, or has found that it changed. -/
def seesAqa : Point → Bool
  | aqa | aqaRecord => true
  | _ => false

end Point

/-- The host gives the admin queue one size, not 0. It does not write an address while its page
table is filled, nor the configuration between the first read and the record of it. It enables
or shuts down the controller behind the size: no round that has missed the size is under way. -/
def Permitted (s : Ctrl) (v : ℕ) : Reg → Prop
  | .aqa => v ≠ 0 ∧ (s.bar.aqa = 0 ∨ s.bar.aqa = v)
  | .asqLo | .asqHi => s.point.fillsSq = false
  | .acqLo | .acqHi => s.point.fillsCq = false
  | .cc => s.point.takesCc = false ∧
      (en v = 1 ∨ shn v = 1 → s.bar.aqa ≠ 0 ∧ (s.oldBar.aqa ≠ 0 ∨ s.point.seesAqa = true))

instance : ∀ (s : Ctrl) (v : ℕ) (r : Reg), Decidable (Permitted s v r)
  | _, _, .aqa => inferInstanceAs (Decidable (_ ∧ _))
  | _, _, .asqLo => inferInstanceAs (Decidable (_ = _))
  | _, _, .asqHi => inferInstanceAs (Decidable (_ = _))
  | _, _, .acqLo => inferInstanceAs (Decidable (_ = _))
  | _, _, .acqHi => inferInstanceAs (Decidable (_ = _))
  | _, _, .cc => inferInstanceAs (Decidable (_ ∧ (_ → _)))

/-- The states that writes of the host and accesses of the dispatcher lead to, in any order. -/
inductive Reaches : Ctrl → Prop where
  | init : Reaches Ctrl.init
  | write {s : Ctrl} {v : ℕ} {r : Reg} :
    Reaches s → Permitted s v r → Reaches { s with bar := s.bar.write v r }
  | access {s t : Ctrl} : Reaches s → s.access = .ok t → Reaches t

/-- A write of the host, or an access of the dispatcher. -/
inductive Act where
  | write (v : ℕ) (r : Reg)
  | access

/-- A run, which looks whether its writes are permitted. -/
def Ctrl.run : Ctrl → List Act → Option Ctrl
  | s, [] => some s
  | s, .write v r :: acts =>
    if Permitted s v r then Ctrl.run { s with bar := s.bar.write v r } acts else none
  | s, .access :: acts => s.access.toOption.bind fun t => t.run acts

theorem Reaches.run {s t : Ctrl} {acts : List Act} (hr : Reaches s) (h : s.run acts = some t) :
    Reaches t := by
  induction acts generalizing s with
  | nil =>
    cases h
    exact hr
  | cons act acts ih =>
    cases act with
    | write v r =>
      rw [Ctrl.run] at h
      split_ifs at h with hp
      exact ih (hr.write hp) h
    | access =>
      rw [Ctrl.run] at h
      cases hacc : s.access with
      | error e =>
        rw [hacc] at h
        cases h
      | ok u =>
        rw [hacc] at h
        exact ih (hr.access hacc) h

end Virtkv.Controller
