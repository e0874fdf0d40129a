import Virtkv.Flash.Defs

/-!
# The invalid-mapping log of the Plus build

Overwritten and deleted pairs are recorded per line, first in a page-sized buffer
and, when that is full, in invalid-mapping pages on flash, listed in
`inv_mapping_xa`. Before a line is collected, `__get_inv_mappings` decodes both
into two hash tables. Buffers and pages are modelled as their 64-bit words.
-/

namespace Virtkv

open Outcome

/-- A page read as 64-bit words. -/
abbrev LogWords := ℕ → ℕ

/-- `inv_mapping_bufs`, `inv_mapping_offs`, `inv_mapping_xa` (in index order),
`inv_m_hash` and `off_del_hash` (the last added first). -/
structure InvLog where
  bufs : ℕ → LogWords
  offs : ℕ → ℕ
  xa : List (ℕ × LogWords)
  invMHash : List ℕ
  offDelHash : List (ℕ × ℕ)

/-- The log after `demand_init`. -/
def InvLog.init : InvLog where
  bufs := fun _ _ => 0
  offs := fun _ => 0
  xa := []
  invMHash := []
  offDelHash := []

/-- `sizeof(uint64_t)` and `INV_ENTRY_SZ`. -/
def invEntrySz : ℕ := 8

/-- `INV_PAGE_SZ / INV_ENTRY_SZ`. -/
def invPageEntries : ℕ := pageSize / invEntrySz

/-- The key of an index and a grain in both hash tables, and the word of a record. -/
def invKey (lpa ppa : ℕ) : ℕ := ppa * 2 ^ 32 + lpa

/-- The second word of an offset delete. -/
def offMarker (off len : ℕ) : ℕ := (off * 2 ^ 32 + len) ||| 2 ^ 63

/-- `xa_store`. -/
def xaStore (idx : ℕ) (page : LogWords) : List (ℕ × LogWords) → List (ℕ × LogWords)
  | [] => [(idx, page)]
  | e :: xa =>
    if idx < e.1 then (idx, page) :: e :: xa
    else if idx = e.1 then (idx, page) :: xa
    else e :: xaStore idx page xa

/-- `xa_erase` and `xa_load`. -/
def xaErase (idx : ℕ) (xa : List (ℕ × LogWords)) : List (ℕ × LogWords) :=
  xa.filter fun e => e.1 ≠ idx
def xaLoad (idx : ℕ) (xa : List (ℕ × LogWords)) : Option LogWords :=
  (xa.find? fun e => e.1 = idx).map Prod.snd

/-- The index of a page that holds records of a line. -/
def xaIdx (line pgidx : ℕ) : ℕ := line * 2 ^ 32 + pgidx

namespace InvLog

variable (d : Device)

/-- The allocation in the flush branch of `__record_inv_mapping`. -/
def flushPageLoop : ℕ → Flash → Except Fault (ℕ × Flash)
  | 0, _ => .error .hang
  | fuel + 1, f => do
    let next ← d.geo.ppa2pgidx (f.getNewPage .map)
    ensure (f.pgInvCnt next = 0) .bug
    let (_, pgidx, f) ← f.takePage d .map
    let f ← f.markGrainValid d (d.ppaToPga pgidx 0) d.gpp
    if pgidx = 0 then do
      let f ← f.markGrainInvalid d (d.ppaToPga 0 0) d.gpp
      flushPageLoop fuel f
    else return (pgidx, f)

/-- The out-of-band words of an invalid-mapping page. -/
def tagLogPage (f : Flash) (pgidx line : ℕ) : Flash :=
  (((f.setOob d pgidx 0 (uintMax - 5)).setOob d pgidx 1 line).setOob d pgidx 2 pgidx).fillOob
    d pgidx 3 uintMax

/-- The flush branch of `__record_inv_mapping`: the buffer of the line goes to a new
page and is zeroed. -/
def flush (f : Flash) (log : InvLog) (line : ℕ) : Except Fault (Flash × InvLog) := do
  let (pgidx, f) ← flushPageLoop d (d.geo.ttPgs + 1) f
  return (tagLogPage d f pgidx line,
    { log with
      xa := xaStore (xaIdx line pgidx) (log.bufs line) log.xa
      bufs := Function.update log.bufs line (fun _ => 0)
      offs := Function.update log.offs line 0 })

/-- Append a word to the buffer of a line. -/
def push (log : InvLog) (line w : ℕ) : InvLog :=
  { log with
    bufs := Function.update log.bufs line
      (Function.update (log.bufs line) (log.offs line / invEntrySz) w)
    offs := Function.update log.offs line (log.offs line + invEntrySz) }

/-- `__grain2lineid`. -/
def grain2lineid (grain : ℕ) : Except Fault ℕ := do
  let p ← d.geo.ppaToStruct (d.gIdx grain)
  return p.blk

/-- Flush the buffer of the line if `need` more bytes do not fit. Returns the credits. -/
def makeRoom (f : Flash) (log : InvLog) (line need : ℕ) : Except Fault (ℕ × Flash × InvLog) :=
  if pageSize < log.offs line + need then do
    let (f, log) ← flush d f log line
    return (d.gpp, f, log)
  else .ok (0, f, log)

/-- The words of a record, put behind those in the buffer. -/
def append (log : InvLog) (line lpa ppa off len : ℕ) : InvLog :=
  let log := log.push line (invKey lpa ppa)
  if off ≠ uintMax then log.push line (offMarker off len) else log

/-- The part of `__record_inv_mapping` after the line is known. Returns the credits. -/
def recordAt (f : Flash) (log : InvLog) (line lpa ppa off len : ℕ) :
    Except Fault (ℕ × Flash × InvLog) := do
  let extra := if off ≠ uintMax then invEntrySz else 0
  let (credits, f, log) ← makeRoom d f log line (invEntrySz + extra)
  return (credits, f, log.append line lpa ppa off len)

/-- `__record_inv_mapping`. -/
def recordInvMapping (f : Flash) (log : InvLog) (lpa ppa off len : ℕ) :
    Except Fault (ℕ × Flash × InvLog) := do
  let line ← grain2lineid d ppa
  recordAt d f log line lpa ppa off len

/-- The offset of an offset delete, if the next word is tagged as one. -/
def tagged (w : LogWords) (cnt j : ℕ) : Option ℕ :=
  if j + 1 < cnt ∧ w (j + 1) / 2 ^ 63 % 2 = 1 then some (w (j + 1) % 2 ^ 63) else none

/-- The index and the key of the record in word `j`. -/
def recLpa (w : LogWords) (j : ℕ) : ℕ := w j % 2 ^ 32
def recKey (w : LogWords) (j : ℕ) : ℕ := invKey (recLpa w j) (w j / 2 ^ 32 % 2 ^ 32)

/-- Add a key to `inv_m_hash`, unless it is there: then remove it. -/
def toggle (key : ℕ) (log : InvLog) : InvLog :=
  if key ∈ log.invMHash then { log with invMHash := log.invMHash.erase key }
  else { log with invMHash := key :: log.invMHash }

def addInv (key : ℕ) (log : InvLog) : InvLog := { log with invMHash := key :: log.invMHash }

def addOffDel (key off : ℕ) (log : InvLog) : InvLog :=
  { log with offDelHash := (key, off) :: log.offDelHash }

/-- The loop of `__get_inv_mappings` over the words of a flushed page from `j` on. -/
def decodePage (w : LogWords) (cnt : ℕ) : ℕ → ℕ → InvLog → InvLog
  | 0, _, log => log
  | n + 1, j, log =>
    if recLpa w j = uintMax then decodePage w cnt n (j + 1) log
    else
      match tagged w cnt j with
      | none => decodePage w cnt n (j + 1) (toggle (recKey w j) log)
      | some off => decodePage w cnt n (j + 1) (addOffDel (recKey w j) off log)

/-- The loop of `__get_inv_mappings` over the words of the buffer from `j` on. -/
def decodeBuf (w : LogWords) (cnt : ℕ) : ℕ → ℕ → InvLog → InvLog
  | 0, _, log => log
  | n + 1, j, log =>
    if cnt ≤ j then log
    else if recLpa w j = uintMax then decodeBuf w cnt n (j + 1) log
    else
      match tagged w cnt j with
      | none => decodeBuf w cnt n (j + 1) (addInv (recKey w j) log)
      | some off => decodeBuf w cnt n (j + 2) (addOffDel (recKey w j) off log)

/-- The entries `xa_for_each_range` visits for a line; the upper end is included. -/
def linePages (log : InvLog) (line : ℕ) : List (ℕ × LogWords) :=
  log.xa.filter fun e => xaIdx line 0 ≤ e.1 ∧ e.1 ≤ xaIdx (line + 1) 0

/-- The page loop of `__get_inv_mappings`. -/
def drainPages : List (ℕ × LogWords) → Flash → InvLog → Except Fault (Flash × InvLog)
  | [], f, log => .ok (f, log)
  | e :: es, f, log => do
    let log := decodePage e.2 invPageEntries invPageEntries 0 log
    let log := { log with xa := xaErase e.1 log.xa }
    let f ← f.markGrainInvalid d (d.ppaToPga (e.1 % 2 ^ 32) 0) d.gpp
    drainPages es f log

/-- `__get_inv_mappings`. -/
def getInvMappings (f : Flash) (log : InvLog) (line : ℕ) : Except Fault (Flash × InvLog) := do
  let (f, log) ← drainPages d (log.linePages line) f log
  let cnt := log.offs line / invEntrySz
  let log := decodeBuf (log.bufs line) cnt cnt 0 log
  return (f, { log with offs := Function.update log.offs line 0 })

/-- `__valid_mapping` (Plus). -/
def validMapping (log : InvLog) (lpa ppa : ℕ) : Bool := invKey lpa ppa ∉ log.invMHash

/-- `__off_del` (Plus): take the offset of the first delete for the key. -/
def offDel (log : InvLog) (lpa ppa : ℕ) : Option ℕ × InvLog :=
  match log.offDelHash.find? fun e => e.1 = invKey lpa ppa with
  | none => (none, log)
  | some e => (some e.2, { log with offDelHash := log.offDelHash.erase e })

/-- `__clear_gc_data`. -/
def clearGcData (log : InvLog) : InvLog := { log with invMHash := [], offDelHash := [] }

end InvLog

end Virtkv
