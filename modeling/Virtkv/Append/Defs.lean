import Virtkv.Command.Defs

/-!
# Appends

`__store` with `append` set. Appended data is collected in four buffers that look like the
memory of a pair: key length, key, value length, value. A key without a buffer first gets
one, with a copy of its pair if it has a pair; when all buffers are in use, the least
recently used one is flushed to the table. Copies of the IO worker are immediate.
-/

namespace Virtkv

open Outcome

namespace Shard

variable (d : Device)

/-- `__get_append_buf` leaves `need_new` set: all buffers are in use. -/
def needNew (s : Shard) : Bool := (List.range numAppendBufs).all fun i => (s.buf i).klen ≠ 0

/-- `__assign_buf`. -/
def assignBuf (s : Shard) (key : List UInt8) : Except Fault (ℕ × Shard) :=
  match (List.range numAppendBufs).find? fun i => (s.buf i).klen = 0 with
  | none => .error .bug
  | some i => do
    ensure ((s.buf i).wbIdx = 0) .bug
    let k ← PairMem.write (s.buf i).key 0 key
    return (i, (s.setBuf i { s.buf i with klen := key.length, key := k }).setLru
      (Lru.set s.appendBufs.lru i))

/-- What an append returns to the host: its status and where in the value the data is. -/
structure AppendReply where
  status : Status
  offset : ℕ
  deriving DecidableEq

def AppendReply.small : AppendReply := { status := .bufferSmall, offset := 0 }

/-- The key a buffer is for. -/
def bufKey (b : AppendBuf) : List UInt8 := b.key.take b.klen

/-- The first append to a buffer writes the header. -/
def startBuf (b : AppendBuf) : Except Fault AppendBuf :=
  if b.wbIdx = 0 then do
    let bytes ← PairMem.write b.bytes 0 (PairMem.header (bufKey b) 0)
    return { b with bytes := bytes, wbIdx := PairMem.metaSz b.klen }
  else .ok b

/-- Data goes to the end of a buffer, if there is room. -/
def appendTo (s : Shard) (i : ℕ) (data : List UInt8) : Except Fault (AppendReply × Shard) :=
  if wbSize ≤ ((s.buf i).wbIdx + data.length) % 2 ^ 32 then .ok (AppendReply.small, s)
  else do
    let b ← startBuf (s.buf i)
    let bytes ← PairMem.write b.bytes b.wbIdx data
    return ({ status := .success, offset := b.wbIdx - PairMem.metaSz b.klen },
      s.setBuf i { b with bytes := bytes, wbIdx := (b.wbIdx + data.length) % 2 ^ 32 })

/-- A pair is copied into a buffer of its own. -/
def copyToBuf (s : Shard) (key mem : List UInt8) : Except Fault (ℕ × Shard) := do
  let realVlen ← PairMem.vlenFromValue mem
  let prevKlen ← PairMem.klenFromValue mem
  let (i, s) ← s.assignBuf key
  let wb := (realVlen + PairMem.metaSz prevKlen) % 2 ^ 32
  let old ← PairMem.read mem 0 wb
  let bytes ← PairMem.write (s.buf i).bytes 0 old
  return (i, s.setBuf i { s.buf i with bytes := bytes, wbIdx := wb })

/-- An append with `checking_len` set, to a key without a buffer, with `credits` to pay. -/
def checkLen (s : Shard) (key data : List UInt8) (credits : ℕ) :
    Except Fault (AppendReply × Shard) := do
  ensure (key.length ≤ maxKlen) .bug
  let credits := credits + d.grainsOf data.length + s.leftoverCredits
  let (sl, s) ← storeLoop d key data.length (2 ^ 32) 0 credits { s with leftoverCredits := 0 }
  match sl.old with
  | none => do
    let (i, s) ← s.assignBuf key
    (s.unlock d sl.lpa).appendTo i data
  | some x =>
    if wbSize < (x.glen * d.gu + data.length) % 2 ^ 32 then
      return (AppendReply.small, s.unlock d sl.lpa)
    else do
      let (i, s) ← s.copyToBuf key x.mem
      let s ← s.releaseMap d sl.lpa
      s.appendTo i data

/-- The memory for the pair of a flushed buffer, a copy of the first `wb` bytes. -/
def flushMemory (b : AppendBuf) (wb : ℕ) (junk : ℕ → UInt8) :
    Option Found → Except Fault (List UInt8)
  | some _ => do
    let src ← PairMem.read b.bytes 0 wb
    PairMem.write (List.replicate (d.grainsOf wb * d.gu) 0) 0 src
  | none => do
    let src ← PairMem.read b.bytes 0 wb
    let mem ← PairMem.write (freshBytes junk (d.grainsOf wb * d.gu)) 0 src
    let klen ← PairMem.klenFromValue mem
    ensure (0 < klen) .bug
    return mem

/-- An append with `flushing_prev` set: the buffer goes to the table, and the header of its
pair is written. Key comparisons on the way use the length of the append. Returns the
credits. -/
def flushBuf (s : Shard) (i vlen : ℕ) (junk : ℕ → UInt8) : Except Fault (ℕ × Shard) := do
  let b := s.buf i
  let key := bufKey b
  let wb := sub32 b.wbIdx b.invCnt
  let (sl, s) ← storeLoop d key vlen (2 ^ 32) 0 (d.grainsOf wb + s.leftoverCredits)
    { s with leftoverCredits := 0 }
  let mem ← flushMemory d b wb junk sl.old
  let (credits, s) ← s.placeAt d wb mem sl
  let mem ← PairMem.write mem 0 (PairMem.header key (sub32 wb (PairMem.metaSz b.klen)))
  return (credits, ((s.setPair sl.lpa (some mem)).clearBuf i).unlock d sl.lpa)

/-- The least recently used buffer is freed; it is flushed unless its data was deleted.
Returns the credits. -/
def freeOldest (s : Shard) (key : List UInt8) (vlen : ℕ) (junk : ℕ → UInt8) :
    Except Fault (ℕ × Shard) :=
  match Lru.getOldest s.appendBufs.lru with
  | none => .error .badAccess
  | some (i, l) => do
    let valid := sub32 (s.buf i).wbIdx (PairMem.metaSz (s.buf i).klen)
    ensure ((s.buf i).invCnt ≤ valid) .bug
    if (s.buf i).invCnt = valid then return (0, (s.setLru l).clearBuf i)
    else do
      ensure (key.length ≤ maxKlen) .bug
      (s.setLru l).flushBuf d i vlen junk

/-- An append, and the copy of the IO worker. -/
def append (s : Shard) (key data : List UInt8) (junk : ℕ → UInt8) :
    Except Fault (AppendReply × Shard) :=
  match s.getAppendBuf key with
  | some i => do
    let s ← s.touchBuf i
    s.appendTo i data
  | none =>
    if s.needNew then do
      let (credits, s) ← s.freeOldest d key data.length junk
      s.checkLen d key data credits
    else s.checkLen d key data 0

end Shard

end Virtkv
