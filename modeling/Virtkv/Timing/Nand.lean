import Virtkv.Geometry
import Virtkv.Timing.Channel

/-!
# The timing of flash commands

`ssd_advance_nand` of `ssd.c`: every LUN has a time from which on it is available. A command
starts there or at its own start time, whichever is later, and moves the LUN's time behind its
work in the array and its transfers over the channel. A read is cut into transfers, and each
may be followed by one over PCIe. The latencies are not negative.

Every call of `chmodel_request` reads the wall clock; `clock` holds the values it reads one
after the other.

## Main results

- `readLoop_spec` — the transfers of a read follow each other
- `Runs.causal` — the LUNs are busy with one command after the other
-/

namespace Virtkv

open Outcome

/-- The part of `struct ssdparams` for the timing. -/
structure NandParams where
  chBandwidth : ℕ
  pcieBandwidth : ℕ
  fwChXferLat : ℕ
  maxChXferSize : ℕ
  pgsPerFlashpg : ℕ
  cellMode : ℕ
  pg4kbRdLat : ℕ → ℕ
  pgRdLat : ℕ → ℕ
  pgWrLat : ℕ
  blkErLat : ℕ

/-- `NAND_READ`, `NAND_WRITE`, `NAND_ERASE`, `NAND_NOP`, and any other number. -/
inductive NandOp where
  | read
  | write
  | erase
  | nop
  | unsupported
  deriving DecidableEq

/-- `struct nand_cmd`; `none` is the address `UNMAPPED_PPA`. -/
structure NandCmd where
  cmd : NandOp
  xferSize : ℕ
  stime : ℕ
  interleavePciDma : Bool
  ppa : Option Ppa

/-- The timing state of `struct ssd`: `next_lun_avail_time` by channel and LUN, the channels,
PCIe, and the lock `adv_spin`. -/
structure Nand where
  nextLunAvailTime : ℕ × ℕ → ℕ
  ch : ℕ → ChannelModel
  pcie : ChannelModel
  advSpin : Bool

namespace Nand

variable (p : NandParams)

/-- `ssd_init`. -/
def ssdInit : Nand where
  nextLunAvailTime := fun _ => 0
  ch := fun _ =>
    let c := ChannelModel.chmodelInit p.chBandwidth
    { c with xferLat := (c.xferLat + p.fwChXferLat * unitXferSize / 2 ^ 12) % 2 ^ 32 }
  pcie := ChannelModel.chmodelInit p.pcieBandwidth
  advSpin := false

def setCh (n : Nand) (i : ℕ) (c : ChannelModel) : Nand := { n with ch := Function.update n.ch i c }
def setPcie (n : Nand) (c : ChannelModel) : Nand := { n with pcie := c }
def setAvail (n : Nand) (lun : ℕ × ℕ) (time : ℕ) : Nand :=
  { n with nextLunAvailTime := Function.update n.nextLunAvailTime lun time }
def setSpin (n : Nand) (b : Bool) : Nand := { n with advSpin := b }

/-- A transfer over channel `i`. -/
def advanceCh (n : Nand) (i clock stime size : ℕ) : Except Fault (ℕ × Nand) := do
  let (etime, c) ← (n.ch i).chmodelRequest clock stime size
  return (etime, n.setCh i c)

/-- `ssd_advance_pcie`. -/
def ssdAdvancePcie (n : Nand) (clock stime size : ℕ) : Except Fault (ℕ × Nand) := do
  let (etime, c) ← n.pcie.chmodelRequest clock stime size
  return (etime, n.setPcie c)

/-- The transfer over PCIe that follows one over the channel, if the command asks for it. -/
def interleaved (interleave : Bool) (n : Nand) (clock stime size : ℕ) : Except Fault (ℕ × Nand) :=
  if interleave then n.ssdAdvancePcie clock stime size else .ok (stime, n)

/-- The loop of a read with `remaining` bytes left, which are not zero: the end of the last
transfer, and the completion time. -/
def readLoop (interleave : Bool) (i : ℕ) (clock : ℕ → ℕ) :
    ℕ → ℕ → ℕ → ℕ → Nand → Except Fault (ℕ × ℕ × Nand)
  | 0, _, _, _, _ => .error .hang
  | fuel + 1, k, remaining, chnlStime, n => do
    let size := min remaining p.maxChXferSize
    let (chnlEtime, n) ← n.advanceCh i (clock k) chnlStime size
    let (completed, n) ← interleaved interleave n (clock (k + 1)) chnlEtime size
    if remaining - size = 0 then return (chnlEtime, completed, n)
    readLoop interleave i clock fuel (k + 2) (remaining - size) chnlEtime n

/-- `get_cell`. -/
def getCell (pg : ℕ) : ℕ := pg / p.pgsPerFlashpg % (p.cellMode + 1)

/-- The latency of the array for a read. -/
def rdLat (xferSize pg : ℕ) : ℕ :=
  if xferSize = 4096 then p.pg4kbRdLat (getCell p pg) else p.pgRdLat (getCell p pg)

/-- The time from which on a LUN works on a command. -/
def startTime (n : Nand) (lun : ℕ × ℕ) (cmdStime : ℕ) : ℕ := max (n.nextLunAvailTime lun) cmdStime

/-- The `switch` of `ssd_advance_nand` for a LUN: its new time and the completion time. A read of
no bytes would use a time that was never set. -/
def advanceLun (n : Nand) (clock : ℕ → ℕ) (start : ℕ) (cmd : NandCmd) (ppa : Ppa) :
    Except Fault (ℕ × ℕ × Nand) :=
  match cmd.cmd with
  | .read => do
    ensure (cmd.xferSize ≠ 0) .badAccess
    readLoop p cmd.interleavePciDma ppa.ch clock (cmd.xferSize + 1) 0 cmd.xferSize
      ((start + rdLat p cmd.xferSize ppa.pg) % 2 ^ 64) n
  | .write => do
    let (chnlEtime, n) ← n.advanceCh ppa.ch (clock 0) start cmd.xferSize
    let nandEtime := (chnlEtime + p.pgWrLat) % 2 ^ 64
    return (nandEtime, nandEtime, n)
  | .erase =>
    let nandEtime := (start + p.blkErLat) % 2 ^ 64
    .ok (nandEtime, nandEtime, n)
  | .nop | .unsupported => .ok (start, start, n)

/-- `cmd_stime`. -/
def cmdStime (ioclock : ℕ) (cmd : NandCmd) : ℕ := if cmd.stime = 0 then ioclock else cmd.stime

/-- `ssd_advance_nand`. Returns the completion time. For an unmapped address and an unsupported
command it keeps the lock. -/
def ssdAdvanceNand (n : Nand) (ioclock : ℕ) (clock : ℕ → ℕ) (cmd : NandCmd) :
    Except Fault (ℕ × Nand) := do
  ensure (n.advSpin = false) .deadlock
  let n := n.setSpin true
  match cmd.ppa with
  | none => return (cmdStime ioclock cmd, n)
  | some ppa =>
    if cmd.cmd = .unsupported then return (0, n)
    let lun := (ppa.ch, ppa.lun)
    let (time, completed, n) ←
      n.advanceLun p clock (n.startTime lun (cmdStime ioclock cmd)) cmd ppa
    return (completed, (n.setAvail lun time).setSpin false)

/-! ### Transfers -/

variable {p : NandParams} {n : Nand}

/-- Every channel has bandwidth. -/
structure Funded (n : Nand) : Prop where
  ch : ∀ i, (n.ch i).maxCredits ≠ 0
  pcie : n.pcie.maxCredits ≠ 0

/-- Transfers leave the LUNs as they are. -/
structure SameLuns (n n' : Nand) : Prop where
  avail : n'.nextLunAvailTime = n.nextLunAvailTime
  advSpin : n'.advSpin = n.advSpin
  funded : Funded n'

theorem SameLuns.trans {n' n'' : Nand} (h : SameLuns n n') (h' : SameLuns n' n'') :
    SameLuns n n'' where
  avail := h'.avail.trans h.avail
  advSpin := h'.advSpin.trans h.advSpin
  funded := h'.funded

/-- A transfer over a channel takes less than 2^33 ns. -/
theorem advanceCh_spec (hn : Funded n) (i clock size stime : ℕ) (h : stime + 2 ^ 33 ≤ 2 ^ 64) :
    ∃ etime n', n.advanceCh i clock stime size = .ok (etime, n') ∧ stime ≤ etime ∧
      etime < stime + 2 ^ 33 ∧ SameLuns n n' := by
  obtain ⟨etime, c, lat, hrun, hret, hlat, hmax, -⟩ :=
    ChannelModel.chmodelRequest_returns (n.ch i) (hn.ch i) clock size
      (show stime < 2 ^ 64 by omega)
  refine ⟨etime, n.setCh i c, ?_, by omega, by omega, rfl, rfl, fun j => ?_, hn.pcie⟩
  · rw [advanceCh, hrun]
    rfl
  · rw [setCh]
    dsimp only
    rw [Function.update_apply]
    split
    · rw [hmax]
      exact hn.ch i
    · exact hn.ch j

/-- A transfer over PCIe as well. -/
theorem ssdAdvancePcie_spec (hn : Funded n) (clock size : ℕ) {stime : ℕ}
    (h : stime + 2 ^ 33 ≤ 2 ^ 64) :
    ∃ etime n', n.ssdAdvancePcie clock stime size = .ok (etime, n') ∧ stime ≤ etime ∧
      SameLuns n n' := by
  obtain ⟨etime, c, lat, hrun, hret, hlat, hmax, -⟩ :=
    ChannelModel.chmodelRequest_returns n.pcie hn.pcie clock size
      (show stime < 2 ^ 64 by omega)
  refine ⟨etime, n.setPcie c, ?_, by omega, rfl, rfl, hn.ch, ?_⟩
  · rw [ssdAdvancePcie, hrun]
    rfl
  · rw [setPcie, hmax]
    exact hn.pcie

theorem interleaved_spec (interleave : Bool) (hn : Funded n) (clock size stime : ℕ)
    (h : stime + 2 ^ 33 ≤ 2 ^ 64) :
    ∃ etime n', interleaved interleave n clock stime size = .ok (etime, n') ∧ stime ≤ etime ∧
      SameLuns n n' := by
  rw [interleaved]
  split
  · exact ssdAdvancePcie_spec hn clock size h
  · exact ⟨stime, n, rfl, le_rfl, rfl, rfl, hn⟩

/-- The number of transfers of a read. -/
def transfers (p : NandParams) (size : ℕ) : ℕ := (size + p.maxChXferSize - 1) / p.maxChXferSize

theorem transfers_more {size : ℕ} (hmax : 0 < p.maxChXferSize) (hlt : p.maxChXferSize < size) :
    transfers p size = transfers p (size - p.maxChXferSize) + 1 := by
  rw [transfers, transfers, ← Nat.add_div_right _ hmax]
  congr 1
  omega

/-- The transfers of a read follow each other, and the last one ends no later than the
command. -/
theorem readLoop_spec (hmax : 0 < p.maxChXferSize) (interleave : Bool) (i : ℕ) (clock : ℕ → ℕ)
    {fuel : ℕ} (k remaining stime : ℕ) (hn : Funded n) (hrem : 0 < remaining)
    (hfuel : remaining < fuel)
    (hroom : stime + (transfers p remaining + 1) * 2 ^ 33 ≤ 2 ^ 64) :
    ∃ etime completed n',
      readLoop p interleave i clock fuel k remaining stime n = .ok (etime, completed, n') ∧
      stime ≤ etime ∧ etime ≤ completed ∧ SameLuns n n' := by
  induction fuel generalizing k remaining stime n with
  | zero => omega
  | succ fuel ih =>
    have htransfers : 1 ≤ transfers p remaining := Nat.div_pos (by omega) hmax
    obtain ⟨e1, n1, hch, hle1, hlt1, hsame1⟩ :=
      advanceCh_spec hn i (clock k) (min remaining p.maxChXferSize) stime (by omega)
    obtain ⟨e2, n2, hpcie, hle2, hsame2⟩ := interleaved_spec interleave hsame1.funded
      (clock (k + 1)) (min remaining p.maxChXferSize) e1 (by omega)
    rw [readLoop]
    dsimp only
    rw [hch, ok_bind]
    dsimp only
    rw [hpcie, ok_bind]
    dsimp only
    -- the transfer of this round ends the command, or leaves one transfer less to go
    by_cases hlast : remaining ≤ p.maxChXferSize
    · rw [Nat.min_eq_left hlast, if_pos (Nat.sub_self _)]
      exact ⟨e1, e2, n2, rfl, hle1, hle2, hsame1.trans hsame2⟩
    · have hmore := transfers_more hmax (Nat.lt_of_not_le hlast)
      rw [Nat.min_eq_right (by omega), if_neg (by omega)]
      obtain ⟨etime, completed, n', hrun, hle, hcomp, hsame⟩ :=
        ih (k + 2) (remaining - p.maxChXferSize) e1 hsame2.funded
          (by omega) (by omega) (by omega)
      exact ⟨etime, completed, n', hrun, hle1.trans hle, hcomp, (hsame1.trans hsame2).trans hsame⟩

/-! ### Commands -/

/-- The most a command takes: its latency in the array, and 2^33 ns for every transfer. -/
def budget (p : NandParams) (cmd : NandCmd) (ppa : Ppa) : ℕ :=
  match cmd.cmd with
  | .read => rdLat p cmd.xferSize ppa.pg + (transfers p cmd.xferSize + 1) * 2 ^ 33
  | .write => 2 ^ 33 + p.pgWrLat
  | .erase => p.blkErLat
  | .nop | .unsupported => 0

/-- A command with an address, a known kind and something to read, whose time stays below
2^64. -/
structure Proper (p : NandParams) (n : Nand) (ioclock : ℕ) (cmd : NandCmd) (ppa : Ppa) : Prop where
  mapped : cmd.ppa = some ppa
  supported : cmd.cmd ≠ .unsupported
  size : cmd.cmd = .read → 1 ≤ cmd.xferSize
  room : n.startTime (ppa.ch, ppa.lun) (cmdStime ioclock cmd) + budget p cmd ppa < 2 ^ 64

/-- The new time of the LUN lies behind the start, and the completion not before it. -/
theorem advanceLun_spec (hmax : 0 < p.maxChXferSize) (hn : Funded n) (clock : ℕ → ℕ) {start : ℕ}
    {cmd : NandCmd} {ppa : Ppa} (hsize : cmd.cmd = .read → 1 ≤ cmd.xferSize)
    (hroom : start + budget p cmd ppa < 2 ^ 64) :
    ∃ time completed n', n.advanceLun p clock start cmd ppa = .ok (time, completed, n') ∧
      start ≤ time ∧ time ≤ completed ∧ SameLuns n n' := by
  rw [advanceLun]
  cases hcmd : cmd.cmd with
  | read =>
    have hne : cmd.xferSize ≠ 0 := by
      have := hsize hcmd
      omega
    rw [budget, hcmd] at hroom
    dsimp only at hroom ⊢
    -- the array latency, and 2^33 ns for each transfer behind it
    rw [ensure_of hne, ok_bind, Nat.mod_eq_of_lt (by omega)]
    obtain ⟨etime, completed, n', hrun, hle, hcomp, hsame⟩ :=
      readLoop_spec hmax cmd.interleavePciDma ppa.ch clock 0 cmd.xferSize
        (start + rdLat p cmd.xferSize ppa.pg) hn (Nat.pos_of_ne_zero hne) (Nat.lt_succ_self _)
        (by omega)
    exact ⟨etime, completed, n', hrun, by omega, hcomp, hsame⟩
  | write =>
    rw [budget, hcmd] at hroom
    dsimp only at hroom ⊢
    obtain ⟨etime, n', hrun, hle, hlt, hsame⟩ :=
      advanceCh_spec hn ppa.ch (clock 0) cmd.xferSize start (by omega)
    rw [hrun, ok_bind]
    refine ⟨_, _, n', rfl, ?_, le_rfl, hsame⟩
    rw [Nat.mod_eq_of_lt (by omega)]
    omega
  | erase =>
    rw [budget, hcmd] at hroom
    dsimp only at hroom ⊢
    refine ⟨_, _, n, rfl, ?_, le_rfl, rfl, rfl, hn⟩
    rw [Nat.mod_eq_of_lt hroom]
    exact Nat.le_add_right _ _
  | nop => exact ⟨_, _, n, rfl, le_rfl, le_rfl, rfl, rfl, hn⟩
  | unsupported => exact ⟨_, _, n, rfl, le_rfl, le_rfl, rfl, rfl, hn⟩

/-- A command moves the time of its LUN alone, forward, and completes no earlier. -/
theorem ssdAdvanceNand_spec (hmax : 0 < p.maxChXferSize) (hn : Funded n) (hspin : n.advSpin = false)
    (clock : ℕ → ℕ) {ioclock : ℕ} {cmd : NandCmd} {ppa : Ppa} (hc : Proper p n ioclock cmd ppa) :
    ∃ completed n', n.ssdAdvanceNand p ioclock clock cmd = .ok (completed, n') ∧
      n.startTime (ppa.ch, ppa.lun) (cmdStime ioclock cmd) ≤ n'.nextLunAvailTime (ppa.ch, ppa.lun) ∧
      n'.nextLunAvailTime (ppa.ch, ppa.lun) ≤ completed ∧
      (∀ l, l ≠ (ppa.ch, ppa.lun) → n'.nextLunAvailTime l = n.nextLunAvailTime l) ∧
      Funded n' ∧ n'.advSpin = false := by
  obtain ⟨time, completed, n', hrun, hle, hcomp, hsame⟩ :=
    advanceLun_spec (n := n.setSpin true) hmax ⟨hn.ch, hn.pcie⟩ clock hc.size hc.room
  refine ⟨completed, (n'.setAvail (ppa.ch, ppa.lun) time).setSpin false, ?_, ?_, ?_, fun l hl => ?_,
    ⟨hsame.funded.ch, hsame.funded.pcie⟩, rfl⟩
  · rw [ssdAdvanceNand, ensure_of hspin, ok_bind, hc.mapped]
    dsimp only
    rw [if_neg hc.supported]
    rw [show (n.setSpin true).startTime = n.startTime from rfl, hrun]
    rfl
  · show _ ≤ Function.update n'.nextLunAvailTime _ _ _
    rw [Function.update_self]
    exact hle
  · show Function.update n'.nextLunAvailTime _ _ _ ≤ _
    rw [Function.update_self]
    exact hcomp
  · show Function.update n'.nextLunAvailTime _ _ _ = _
    rw [Function.update_of_ne hl, hsame.avail]
    rfl

/-! ### Runs -/

/-- A LUN works on a command from `start` to `stop`. -/
structure Busy where
  lun : ℕ × ℕ
  start : ℕ
  stop : ℕ

/-- The states after commands, with the times the LUNs were busy, the last command first. -/
inductive Runs (p : NandParams) : List Busy → Nand → Prop where
  | init : Runs p [] (ssdInit p)
  | command {hist : List Busy} {n n' : Nand} {ioclock completed : ℕ} {clock : ℕ → ℕ}
      {cmd : NandCmd} {ppa : Ppa} :
    Runs p hist n → Proper p n ioclock cmd ppa →
    n.ssdAdvanceNand p ioclock clock cmd = .ok (completed, n') →
    Runs p ({ lun := (ppa.ch, ppa.lun)
              start := n.startTime (ppa.ch, ppa.lun) (cmdStime ioclock cmd)
              stop := n'.nextLunAvailTime (ppa.ch, ppa.lun) } :: hist) n'

/-- The channels have bandwidth, and transfers a size. -/
structure Usable (p : NandParams) : Prop where
  ch : (ChannelModel.chmodelInit p.chBandwidth).maxCredits ≠ 0
  pcie : (ChannelModel.chmodelInit p.pcieBandwidth).maxCredits ≠ 0
  maxChXferSize : 0 < p.maxChXferSize

/-- Every LUN is free again when it says, and was busy with one command at a time. -/
structure Scheduled (hist : List Busy) (n : Nand) : Prop where
  funded : Funded n
  advSpin : n.advSpin = false
  le_avail : ∀ b ∈ hist, b.stop ≤ n.nextLunAvailTime b.lun
  forward : ∀ b ∈ hist, b.start ≤ b.stop
  apart : hist.Pairwise fun b b' => b.lun = b'.lun → b'.stop ≤ b.start

theorem Runs.scheduled (hp : Usable p) {hist : List Busy} (hr : Runs p hist n) :
    Scheduled hist n := by
  induction hr with
  | init =>
    exact ⟨⟨fun _ => hp.ch, hp.pcie⟩, rfl, fun _ h => absurd h List.not_mem_nil,
      fun _ h => absurd h List.not_mem_nil, List.Pairwise.nil⟩
  | @command hist n n' ioclock completed clock cmd ppa _ hc hrun ih =>
    obtain ⟨completed', n'', hrun', hle, -, hother, hfunded, hspin⟩ :=
      ssdAdvanceNand_spec hp.maxChXferSize ih.funded ih.advSpin clock hc
    cases hrun.symm.trans hrun'
    -- a command starts when its LUN is available, so behind all earlier ones of the LUN
    have hstart : n.nextLunAvailTime (ppa.ch, ppa.lun) ≤
        n.startTime (ppa.ch, ppa.lun) (cmdStime ioclock cmd) := Nat.le_max_left _ _
    refine ⟨hfunded, hspin, fun b hb => ?_, fun b hb => ?_, List.pairwise_cons.mpr ⟨?_, ih.apart⟩⟩
    · rcases List.mem_cons.mp hb with rfl | hb
      · exact le_rfl
      · have hold := ih.le_avail b hb
        by_cases hlun : b.lun = (ppa.ch, ppa.lun)
        · rw [hlun] at hold ⊢
          omega
        · rw [hother _ hlun]
          exact hold
    · rcases List.mem_cons.mp hb with rfl | hb
      · exact hle
      · exact ih.forward b hb
    · intro b hb hlun
      have hold := ih.le_avail b hb
      rw [← hlun] at hold
      exact hold.trans hstart

/-- In every run the commands of a LUN are worked on one after the other, and a command moves
the time of its own LUN alone, forward, and completes neither before its start time nor before
the LUN was available. -/
theorem Runs.causal (p : NandParams) (hp : Usable p) (hist : List Busy) (n : Nand)
    (hr : Runs p hist n) :
    hist.Pairwise (fun b b' => b.lun = b'.lun → b'.stop ≤ b.start) ∧
      (∀ b ∈ hist, b.start ≤ b.stop) ∧
      ∀ ioclock clock cmd ppa, Proper p n ioclock cmd ppa →
        ∃ completed n', n.ssdAdvanceNand p ioclock clock cmd = .ok (completed, n') ∧
          (∀ l, n.nextLunAvailTime l ≤ n'.nextLunAvailTime l) ∧
          (∀ l, l ≠ (ppa.ch, ppa.lun) → n'.nextLunAvailTime l = n.nextLunAvailTime l) ∧
          cmdStime ioclock cmd ≤ completed ∧ n.nextLunAvailTime (ppa.ch, ppa.lun) ≤ completed := by
  have hs := hr.scheduled hp
  refine ⟨hs.apart, hs.forward, fun ioclock clock cmd ppa hc => ?_⟩
  obtain ⟨completed, n', hrun, hle, hcomp, hother, -, -⟩ :=
    ssdAdvanceNand_spec hp.maxChXferSize hs.funded hs.advSpin clock hc
  have havail : n.nextLunAvailTime (ppa.ch, ppa.lun) ≤
      n.startTime (ppa.ch, ppa.lun) (cmdStime ioclock cmd) := Nat.le_max_left _ _
  have hstime : cmdStime ioclock cmd ≤
      n.startTime (ppa.ch, ppa.lun) (cmdStime ioclock cmd) := Nat.le_max_right _ _
  refine ⟨completed, n', hrun, fun l => ?_, hother, by omega, by omega⟩
  by_cases hl : l = (ppa.ch, ppa.lun)
  · rw [hl]
    exact havail.trans hle
  · rw [hother l hl]

/-- The header's configuration. -/
def headerParams : NandParams where
  chBandwidth := 800
  pcieBandwidth := 3360
  fwChXferLat := 0
  maxChXferSize := 16384
  pgsPerFlashpg := 8
  cellMode := 2
  pg4kbRdLat := fun cell => [29760, 41760, 0].getD cell 0
  pgRdLat := fun cell => [30013, 42013, 0].getD cell 0
  pgWrLat := 185000
  blkErLat := 0

theorem usable_headerParams : Usable headerParams := ⟨by decide, by decide, by decide⟩

/-- A command on page 3 of a block of LUN 2 of channel 1. -/
def onPage (cmd : NandOp) (xferSize stime : ℕ) : NandCmd where
  cmd := cmd
  xferSize := xferSize
  stime := stime
  interleavePciDma := true
  ppa := some { ch := 1, lun := 2, blk := 5, pg := 3 }

/-- A read of two transfers, each followed by one over PCIe. -/
theorem Runs.causal_read :
    ∃ b n completed, Runs headerParams [b] n ∧ b.start ≤ b.stop ∧ 5000 ≤ completed ∧
      (ssdInit headerParams).ssdAdvanceNand headerParams 0 (fun _ => 0) (onPage .read 20000 5000) =
        .ok (completed, n) := by
  have hproper : Proper headerParams (ssdInit headerParams) 0 (onPage .read 20000 5000)
      { ch := 1, lun := 2, blk := 5, pg := 3 } :=
    ⟨rfl, by decide, fun _ => by decide, by decide⟩
  obtain ⟨-, -, hnext⟩ := Runs.causal headerParams usable_headerParams [] _ Runs.init
  obtain ⟨completed, n, hrun, -, -, hle, -⟩ := hnext 0 (fun _ => 0) _ _ hproper
  have hr := Runs.command Runs.init hproper hrun
  obtain ⟨-, hforward, -⟩ := Runs.causal headerParams usable_headerParams _ n hr
  exact ⟨_, n, completed, hr, hforward _ List.mem_cons_self, hle, hrun⟩

/-- At the end of the 64-bit time a write completes before it starts. -/
theorem not_causal :
    ¬ ∀ p, Usable p → ∀ hist n, Runs p hist n → ∀ ioclock clock cmd ppa, cmd.ppa = some ppa →
      cmd.cmd ≠ .unsupported → (cmd.cmd = .read → 1 ≤ cmd.xferSize) → cmd.stime < 2 ^ 64 →
      ∃ completed n', n.ssdAdvanceNand p ioclock clock cmd = .ok (completed, n') ∧
        cmdStime ioclock cmd ≤ completed := by
  intro hall
  obtain ⟨completed, n', hrun, hle⟩ := hall headerParams usable_headerParams [] _ Runs.init 0
    (fun _ => 2 ^ 64 - 1) (onPage .write 32768 (2 ^ 64 - 1)) _ rfl (by decide) (by decide)
    (by decide)
  have hwrap : ((ssdInit headerParams).ssdAdvanceNand headerParams 0 (fun _ => 2 ^ 64 - 1)
      (onPage .write 32768 (2 ^ 64 - 1))).map (fun r => decide (r.1 < 2 ^ 20)) = .ok true := by
    decide +kernel
  rw [hrun] at hwrap
  have hsmall : completed < 2 ^ 20 := by simpa [Except.map] using hwrap
  rw [show cmdStime 0 (onPage .write 32768 (2 ^ 64 - 1)) = 2 ^ 64 - 1 from rfl] at hle
  omega

end Nand

end Virtkv
