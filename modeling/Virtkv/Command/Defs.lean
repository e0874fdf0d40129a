import Virtkv.Cache.Defs

/-!
# Store, retrieve and delete

The host commands of `demand_ftl.c` together with the copy the IO worker makes for
them. Pair memory is a byte string: key length, key, value length, value, and
whatever lies behind. Fresh memory from `kmalloc` has arbitrary contents, given by
`junk`. The section lock is released when the command and its copy are done.
-/

namespace Virtkv

open Outcome

/-- A 32-bit number in little-endian bytes. -/
def le32 (n : ℕ) : List UInt8 :=
  [UInt8.ofNat n, UInt8.ofNat (n / 2 ^ 8), UInt8.ofNat (n / 2 ^ 16), UInt8.ofNat (n / 2 ^ 24)]

/-- The number in the first four bytes. -/
def ofLe32 (bs : List UInt8) : ℕ :=
  (bs.getD 0 0).toNat + (bs.getD 1 0).toNat * 2 ^ 8 + (bs.getD 2 0).toNat * 2 ^ 16 +
    (bs.getD 3 0).toNat * 2 ^ 24

/-- The first `n` bytes of a fresh allocation. -/
def freshBytes (junk : ℕ → UInt8) (n : ℕ) : List UInt8 := (List.range n).map junk

/-! ### Pair memory -/

namespace PairMem

/-- `memcpy(mem + off, src, len)`. -/
def write (mem : List UInt8) (off : ℕ) (src : List UInt8) : Except Fault (List UInt8) := do
  ensure (off + src.length ≤ mem.length) .badAccess
  return mem.take off ++ src ++ mem.drop (off + src.length)

/-- `memcpy(dst, mem + off, len)`. -/
def read (mem : List UInt8) (off len : ℕ) : Except Fault (List UInt8) := do
  ensure (off + len ≤ mem.length) .badAccess
  return (mem.drop off).take len

/-- `__klen_from_value`. -/
def klenFromValue (mem : List UInt8) : Except Fault ℕ := do
  let b ← read mem 0 klenMarkerSz
  return (b.getD 0 0).toNat

/-- `__vlen_from_value`. -/
def vlenFromValue (mem : List UInt8) : Except Fault ℕ := do
  let klen ← klenFromValue mem
  let b ← read mem (klenMarkerSz + klen) vlenMarkerSz
  ensure (0 < ofLe32 b) .bug
  return ofLe32 b

/-- The bytes before the value. -/
def metaSz (klen : ℕ) : ℕ := klenMarkerSz + klen + vlenMarkerSz

/-- Key length, key and value length. -/
def header (key : List UInt8) (vlen : ℕ) : List UInt8 :=
  UInt8.ofNat key.length :: (key ++ le32 vlen)

end PairMem

/-! ### Probing -/

namespace Device

variable (d : Device)

/-- `PROBING_FUNC(hash, cnt) % (nr_valid_tentries - 1) + 1`, for the 32-bit hash. -/
def probe (hash cnt : ℕ) : ℕ := (hash + cnt + cnt * cnt) % 2 ^ 32 % (d.nrValidTentries - 1) + 1

/-- The loop of `get_hash_idx`: the index and the count it is found at. -/
def getHashIdxLoop (hash : ℕ) : ℕ → ℕ → Except Fault (ℕ × ℕ)
  | 0, _ => .error .hang
  | fuel + 1, cnt =>
    if d.probe hash cnt ≤ d.epp then getHashIdxLoop hash fuel (cnt + 1)
    else .ok (d.probe hash cnt, cnt)

/-- `get_hash_idx`. The count is a 32-bit number; when it wraps, the probe sequence starts
again. -/
def getHashIdx (hash cnt : ℕ) : Except Fault (ℕ × ℕ) := d.getHashIdxLoop hash (2 ^ 32 - cnt) cnt

/-- `h.hash`. -/
def hash32 (key : List UInt8) : ℕ := d.hash key % 2 ^ 32

end Device

/-! ### Reading and comparing a pair -/

namespace Compare

variable (d : Device)

/-- Faults inside the page walk that only serves timing. -/
def asPageWalk {α : Type} : Except Fault α → Except Fault α
  | .ok a => .ok a
  | .error _ => .error .pageWalk

/-- `is_same_flash_page`. -/
def isSameFlashPage (p q : Ppa) : Bool :=
  p.ch = q.ch ∧ p.lun = q.lun ∧ p.blk = q.blk ∧
    p.pg / d.geo.pgsPerOneshotpg = q.pg / d.geo.pgsPerOneshotpg

/-- `__skip_ppas` by one page. -/
def skipPpa (p : Ppa) : Except Fault Ppa :=
  let pg := p.pg + 1
  if pg % d.geo.pgsPerOneshotpg ≠ 0 then .ok { p with pg := pg }
  else do
    let pg := pg - d.geo.pgsPerOneshotpg
    ensure (p.ch < d.geo.nchs) .bug
    if p.ch + 1 ≠ d.geo.nchs then return { p with pg := pg, ch := p.ch + 1 }
    ensure (p.lun < d.geo.lunsPerCh) .bug
    if p.lun + 1 ≠ d.geo.lunsPerCh then return { p with pg := pg, ch := 0, lun := p.lun + 1 }
    let pg := pg + d.geo.pgsPerOneshotpg
    return { p with
      pg := pg, ch := 0, lun := 0, blk := if pg ≠ d.geo.pgsPerBlk then p.blk else p.blk + 1 }

/-- The last loop of `__retrieve_and_compare`, with `rem` grains to go. A line has fewer
pages than the fuel, so without fuel the walk has left it. -/
def walkLoop (line : ℕ) : ℕ → Ppa → Ppa → ℕ → ℕ → Except Fault Unit
  | 0, _, _, _, _ => .error .pageWalk
  | fuel + 1, toRead, nextRead, offset, rem =>
    if rem = 0 then .ok ()
    else do
      let sz := min rem (d.gpp - offset % d.gpp)
      ensure (toRead.blk = line) .pageWalk
      if rem - sz = 0 then return
      let nextRead ← d.geo.peekNextPage nextRead
      let toRead := if isSameFlashPage d toRead nextRead then toRead else nextRead
      walkLoop line fuel toRead nextRead 0 (rem - sz)

/-- The `int` that a 32-bit number is stored in. -/
def toInt (x : ℤ) : ℤ := x.bmod (2 ^ 32)

/-- The number of grains the walk reads; C's `int` arithmetic. -/
def walkGrains (readLen : ℤ) : ℕ :=
  let n := readLen.tdiv d.gu
  ((if n.tmod d.gu ≠ 0 then n + 1 else n) % 2 ^ 32).toNat

/-- The part of `__retrieve_and_compare` behind a matching key that does not fit the first
page. For a delete it only looks up the next page. -/
def pageWalk (p : Ppa) (readOffset : ℕ) (readLen : ℤ) (forDel : Bool) : Except Fault Unit := do
  let readLen := if readOffset ≤ pageSize then
      toInt (readLen - (pageSize - readOffset % pageSize : ℕ))
    else readLen
  let readOffset := if readOffset ≤ pageSize then pageSize else readOffset
  let next ← skipPpa d p
  if forDel then do
    let _ ← d.geo.ppa2pgidx next
    return
  walkLoop d p.blk (d.geo.pgsPerLine + 2) next next (readOffset % pageSize / d.gu)
    (walkGrains d readLen)

/-- The key comparison: length first, then the bytes. -/
def keyMatches (mem key : List UInt8) : Except Fault Bool := do
  let klen ← PairMem.klenFromValue mem
  if klen ≠ key.length then return false
  let k ← PairMem.read mem klenMarkerSz klen
  return k = key

/-- `__retrieve_and_compare`: whether the pair in memory has the key. -/
def retrieveAndCompare (grain : ℕ) (mem key : List UInt8) (readLen readOffset : ℕ)
    (forDel : Bool) : Except Fault Bool := do
  let p ← d.geo.ppaToStruct (d.gIdx grain)
  let eq ← keyMatches mem key
  if ¬eq then return false
  if (readOffset + readLen) % 2 ^ 32 ≤ pageSize then return true
  let _ ← asPageWalk (pageWalk d p readOffset (toInt readLen) forDel)
  return true

end Compare

/-! ### Commands -/

/-- The statuses of commands. -/
inductive Status where
  | success
  | keyNotExist
  | bufferSmall
  deriving DecidableEq

/-- What a command returns to the host: its status, the value length and the bytes the
IO worker copies. -/
structure Reply where
  status : Status
  valueLen : ℕ
  bytes : List UInt8
  deriving DecidableEq

namespace Reply

def notExist : Reply := { status := .keyNotExist, valueLen := 0, bytes := [] }

end Reply

/-- `NUM_APPEND_BUFS` and `WB_SIZE`. -/
def numAppendBufs : ℕ := 4
def wbSize : ℕ := 8192

/-- What `init` allocates for a buffer. -/
def bufAlloc : ℕ := wbSize + klenMarkerSz + maxKlen + vlenMarkerSz

/-! The LRU cache of `lru.c` as the list of its ids, from head to tail. -/

namespace Lru

/-- `MAX_CAPACITY`, and the capacity `buf_lru` is made with. -/
def maxCapacity : ℕ := 128
def capacity : ℕ := 32

/-- `lru_cache_get`. -/
def get (l : List ℕ) (id : ℕ) : Except Fault (List ℕ) :=
  if l = [] ∨ maxCapacity ≤ id then .ok l
  else do
    ensure (id ∈ l) .bug
    return id :: l.erase id

/-- `lru_cache_set`. -/
def set (l : List ℕ) (id : ℕ) : List ℕ := id :: if l.length = capacity then l.dropLast else l

/-- `lru_cache_remove`. -/
def remove (l : List ℕ) (id : ℕ) : Except Fault (List ℕ) := do
  ensure (l ≠ [] ∧ id < maxCapacity) .bug
  ensure (id ∈ l) .bug
  return l.erase id

/-- `lru_cache_get_oldest`. -/
def getOldest (l : List ℕ) : Option (ℕ × List ℕ) := l.getLast?.map fun id => (id, l.dropLast)

end Lru

namespace Shard

variable (d : Device)

/-- An append buffer. -/
def buf (s : Shard) (i : ℕ) : AppendBuf := s.appendBufs.buf i

/-- `__get_append_buf`. -/
def getAppendBuf (s : Shard) (key : List UInt8) : Option ℕ :=
  (List.range numAppendBufs).find? fun i =>
    (s.buf i).klen = key.length ∧ (s.buf i).key.take key.length = key

def setBuf (s : Shard) (i : ℕ) (b : AppendBuf) : Shard :=
  { s with appendBufs := { s.appendBufs with buf := Function.update s.appendBufs.buf i b } }

def setLru (s : Shard) (l : List ℕ) : Shard :=
  { s with appendBufs := { s.appendBufs with lru := l } }

/-- `__clear_buf`. -/
def clearBuf (s : Shard) (i : ℕ) : Shard :=
  s.setBuf i { s.buf i with klen := 0, wbIdx := 0, invCnt := 0 }

/-- `lru_cache_get` on the buffers. -/
def touchBuf (s : Shard) (i : ℕ) : Except Fault Shard := do
  let l ← Lru.get s.appendBufs.lru i
  return s.setLru l

/-- `cache_get_ht` on a shard. -/
def getHt (s : Shard) (lpa : ℕ) : Except Fault Shard := do
  let c ← s.cache.getHt d lpa
  return s.setCache c

def unlock (s : Shard) (lpa : ℕ) : Shard := s.setCache (s.cache.unlock (d.idx lpa))

/-- `__release_map`. -/
def releaseMap (s : Shard) (lpa : ℕ) : Except Fault Shard := do
  let c ← s.cache.release (d.idx lpa)
  return s.setCache c

/-- The pair in a slot, with its grain, the length in its out-of-band word and its
memory. -/
structure Found where
  grain : ℕ
  glen : ℕ
  mem : List UInt8

/-- The pair of a mapped slot; without memory the code stops with `fault`. -/
def foundAt (s : Shard) (lpa grain : ℕ) (fault : Fault) : Except Fault Found :=
  match s.pairMem lpa with
  | none => .error fault
  | some mem => .ok { grain := grain, glen := s.flash.oob grain / 2 ^ 32, mem := mem }

/-- A pair, if it has the key. -/
def matching (x : Found) (key : List UInt8) (readLen readOffset : ℕ) (forDel : Bool) :
    Except Fault (Option Found) := do
  let eq ← Compare.retrieveAndCompare d x.grain x.mem key readLen readOffset forDel
  return if eq then some x else none

/-! ### `__retrieve` -/

/-- What the probe loop of `__retrieve` ends with. -/
inductive Hit where
  /-- the key is not there; the lock that is still held -/
  | miss (held : Option ℕ)
  /-- a slot with the key -/
  | slot (lpa pos : ℕ) (x : Found)

/-- What the probe loop does with a mapped slot: its value length is read, then the keys
are compared. -/
def retrieveAt (s : Shard) (lpa grain : ℕ) (key : List UInt8) (vlen rOffset : ℕ)
    (forDel : Bool) : Except Fault (Option Found) := do
  let x ← s.foundAt lpa grain .badAccess
  let _ ← PairMem.vlenFromValue x.mem
  matching d x key vlen rOffset forDel

/-- The probe loop of `__retrieve` from count `cnt` on. -/
def retrieveLoop (key : List UInt8) (vlen rOffset : ℕ) (forDel : Bool) :
    ℕ → ℕ → Shard → Except Fault (Hit × Shard)
  | 0, _, _ => .error .hang
  | fuel + 1, cnt, s => do
    let (lpa, cnt) ← d.getHashIdx (d.hash32 key) cnt
    let s ← s.getHt d lpa
    if s.maxTry < cnt then return (.miss (some lpa), s)
    if (s.sec (d.idx lpa)).tPpa = uintMax then
      retrieveLoop key vlen rOffset forDel fuel (cnt + 1) (s.unlock d lpa)
    else do
      let s ← s.loadSection d (d.idx lpa) false
      let (grain, pos) := s.cache.hidxToGrain d lpa
      if grain = uintMax then return (.miss none, s.unlock d lpa)
      match ← s.retrieveAt d lpa grain key vlen rOffset forDel with
      | none => retrieveLoop key vlen rOffset forDel fuel (cnt + 1) (s.unlock d lpa)
      | some x => return (.slot lpa pos x, s)

/-- What a read leaves in the command for the IO worker: the status, `value_len`, and where
in the pair memory `rsvd` points; without a place it is `U64_MAX`. -/
structure Source where
  status : Status
  valueLen : ℕ
  rsvd : Option ℕ
  deriving DecidableEq

/-- The end of `__retrieve` for a read. The offset is a 32-bit number, and `meta_sz` is
added to it before the checks and subtracted in them. -/
def readSource (realVlen klen vlen rOffset : ℕ) : Source :=
  let start := (rOffset + PairMem.metaSz klen) % 2 ^ 32
  let offset := (start + 2 ^ 32 - PairMem.metaSz klen) % 2 ^ 32
  if offset ≠ 0 then
    if (offset + vlen) % 2 ^ 32 ≤ realVlen then
      { status := .success, valueLen := vlen, rsvd := some start }
    else
      { status := .success, valueLen := (realVlen + 2 ^ 32 - offset) % 2 ^ 32, rsvd := some start }
  else if vlen < realVlen then { status := .bufferSmall, valueLen := realVlen, rsvd := none }
  else { status := .success, valueLen := realVlen, rsvd := some start }

/-- The bytes `__do_perform_io_kv` copies for a read. -/
def performRead (mem : List UInt8) (x : Source) : Except Fault (List UInt8) :=
  match x.rsvd with
  | none => .ok []
  | some start => PairMem.read mem start x.valueLen

/-- The reply of a read of a pair, and the copy of the IO worker. -/
def readPair (mem : List UInt8) (vlen rOffset : ℕ) : Except Fault Reply := do
  let realVlen ← PairMem.vlenFromValue mem
  let klen ← PairMem.klenFromValue mem
  let x := readSource realVlen klen vlen rOffset
  let bytes ← performRead mem x
  return { status := x.status, valueLen := x.valueLen, bytes := bytes }

/-- The full delete of a pair. Returns the credits. -/
def deletePair (s : Shard) (lpa pos : ℕ) (x : Found) : Except Fault (ℕ × Shard) := do
  let f ← s.flash.markGrainInvalid d x.grain x.glen
  (s.setFlash f).updateMap d lpa none uintMax pos true

/-- The grain where an offset delete starts, after the walk over its pages. -/
def delGrainLoop (forGrain : ℕ) : ℕ → Ppa → ℕ → ℕ → Except Fault ℕ
  | 0, _, _, _ => .error .hang
  | fuel + 1, p, rem, remInPage =>
    if rem - min rem remInPage = 0 then .ok forGrain
    else do
      let p ← d.geo.peekNextPage p
      let pgidx ← d.geo.ppa2pgidx p
      delGrainLoop (pgidx * d.gu) fuel p (rem - min rem remInPage) d.gpp

/-- The delete of a part of a pair; `rOffset` counts from the start of the pair memory.
Returns the credits. -/
def deletePart (s : Shard) (lpa rOffset vlen : ℕ) (x : Found) : Except Fault (ℕ × Shard) := do
  let p ← d.geo.ppaToStruct (d.gIdx x.grain)
  let g ← delGrainLoop d x.grain (vlen + 1) p (vlen / d.gu) (d.gpp - x.grain % d.gpp)
  let f ← s.flash.markGrainInvalid d (g + rOffset / d.gu) (d.grainsOf vlen)
  match d.build with
  | .original => .ok (0, s.setFlash f)
  | .plus => do
    let (credits, f, log) ← InvLog.recordInvMapping d f s.log lpa x.grain rOffset vlen
    return (credits, (s.setFlash f).setLog log)

/-- A delete, whole or in part. Returns the credits. -/
def deleteAt (s : Shard) (lpa pos vlen rOffset : ℕ) (x : Found) : Except Fault (ℕ × Shard) := do
  let klen ← PairMem.klenFromValue x.mem
  if rOffset = 0 ∧ vlen = 0 then s.deletePair d lpa pos x
  else s.deletePart d lpa (PairMem.metaSz klen + rOffset) vlen x

/-- The head of `__retrieve`: pay the left-over credits and make room in the cache. -/
def beginRetrieve (s : Shard) : Except Fault Shard :=
  { s with leftoverCredits := 0 }.makeRoom d s.leftoverCredits

/-- A read or delete of a key that has an append buffer. -/
def retrieveFromBuf (s : Shard) (i vlen rOffset : ℕ) (forDel : Bool) :
    Except Fault (Reply × Shard) := do
  let b := s.buf i
  let start := (rOffset + PairMem.metaSz b.klen) % 2 ^ 32
  if start < PairMem.metaSz b.klen ∨ b.wbIdx ≤ start then return (Reply.notExist, s)
  if b.wbIdx < (start + vlen) % 2 ^ 32 then do
    let bytes ← PairMem.read b.bytes start (b.wbIdx - start)
    return ({ status := .success, valueLen := b.wbIdx - start, bytes := bytes }, s)
  if ¬forDel then do
    let bytes ← PairMem.read b.bytes start vlen
    return ({ status := .success, valueLen := vlen, bytes := bytes }, s)
  let moved ← PairMem.read b.bytes (start + vlen) vlen
  let bytes ← PairMem.write b.bytes start moved
  ensure (b.invCnt + vlen ≤ wbSize) .bug
  return ({ status := .success, valueLen := vlen, bytes := [] },
    s.setBuf i { b with bytes := bytes, invCnt := b.invCnt + vlen })

/-- The lookup of `__retrieve` and what it does with the pair it finds. -/
def retrieveFromTable (s : Shard) (key : List UInt8) (vlen rOffset : ℕ) (forDel : Bool) :
    Except Fault (Reply × Shard) := do
  let s ← s.beginRetrieve d
  let (hit, s) ← retrieveLoop d key vlen rOffset forDel (2 ^ 32) 0 s
  match hit with
  | .miss none => return (Reply.notExist, s)
  | .miss (some lpa) => do
    let s ← s.releaseMap d lpa
    return (Reply.notExist, s)
  | .slot lpa pos x =>
    if forDel then do
      let (credits, s) ← s.deleteAt d lpa pos vlen rOffset x
      let s ← { s with leftoverCredits := s.leftoverCredits + credits }.releaseMap d lpa
      return ({ status := .success, valueLen := vlen, bytes := [] }, s)
    else do
      let r ← readPair x.mem vlen rOffset
      let s ← s.releaseMap d lpa
      return (r, s)

/-- `__retrieve`, with the copy of the IO worker. -/
def retrieve (s : Shard) (key : List UInt8) (vlen rOffset : ℕ) (forDel : Bool) :
    Except Fault (Reply × Shard) := do
  ensure (rOffset % 4 = 0) .bug
  ensure (key.length ≤ maxKlen) .bug
  match s.getAppendBuf key with
  | some i => do
    let s ← s.touchBuf i
    s.retrieveFromBuf i vlen rOffset forDel
  | none => s.retrieveFromTable d key vlen rOffset forDel

/-! ### `__store` -/

/-- The slot a store goes to: the key's own, or the first free one. -/
structure Slot where
  lpa : ℕ
  pos : ℕ
  cnt : ℕ
  old : Option Found

/-- The probe loop of `__store` from count `cnt` on, with `credits` to pay. -/
def storeLoop (key : List UInt8) (total : ℕ) : ℕ → ℕ → ℕ → Shard → Except Fault (Slot × Shard)
  | 0, _, _, _ => .error .hang
  | fuel + 1, cnt, credits, s => do
    let (lpa, cnt) ← d.getHashIdx (d.hash32 key) cnt
    let s ← s.makeRoom d credits
    let s ← s.getHt d lpa
    let s ← s.openSection d (d.idx lpa)
    let (grain, pos) := s.cache.hidxToGrain d lpa
    if grain = uintMax then
      return ({ lpa := lpa, pos := pos, cnt := cnt, old := none }, s)
    let x ← s.foundAt lpa grain .bug
    match ← matching d x key total 0 false with
    | none => storeLoop key total fuel (cnt + 1) 0 (s.unlock d lpa)
    | some x => return ({ lpa := lpa, pos := pos, cnt := cnt, old := some x }, s)

/-- The memory a store writes to, with the header in place: the old memory if the length
in grains is the same, cleared memory if it is not, fresh memory for a new pair. -/
def pairMemory (key : List UInt8) (vlen glen : ℕ) (junk : ℕ → UInt8) :
    Option Found → Except Fault (List UInt8)
  | some x =>
    if x.glen = glen then PairMem.write x.mem (klenMarkerSz + key.length) (le32 vlen)
    else if glen < x.glen then do
      let mem ← PairMem.write x.mem 0 (List.replicate (x.glen * d.gu) 0)
      PairMem.write mem 0 (PairMem.header key vlen)
    else PairMem.write (List.replicate (glen * d.gu) 0) 0 (PairMem.header key vlen)
  | none => PairMem.write (freshBytes junk (glen * d.gu)) 0 (PairMem.header key vlen)

/-- The grains of the pair that is overwritten become invalid. -/
def dropOld (s : Shard) : Option Found → Except Fault Shard
  | none => .ok s
  | some x => do
    let f ← s.flash.markGrainInvalid d x.grain x.glen
    return s.setFlash f

/-- A pair of `total` bytes goes to flash and into its slot. Returns the credits. -/
def placeAt (s : Shard) (total : ℕ) (mem : List UInt8) (sl : Slot) : Except Fault (ℕ × Shard) := do
  let s ← s.dropOld d sl.old
  let (grain, credits, user, f) ← s.flash.placePair d s.user sl.lpa total
  let s := { s with
    flash := f, user := user, maxTry := max s.maxTry sl.cnt
    leftoverCredits := s.leftoverCredits + credits }
  let (more, s) ← s.updateMap d sl.lpa (some mem) grain sl.pos true
  return (credits + more, { s with leftoverCredits := s.leftoverCredits + credits + more })

/-- The part of `__store` behind the probe loop. -/
def storeAt (s : Shard) (key : List UInt8) (vlen : ℕ) (junk : ℕ → UInt8) (sl : Slot) :
    Except Fault Shard := do
  let total := PairMem.metaSz key.length + vlen
  let mem ← pairMemory d key vlen (d.grainsOf total) junk sl.old
  let (_, s) ← s.placeAt d total mem sl
  return s

/-- The head of a store: an append buffer of the key is dropped. -/
def dropAppendBuf (s : Shard) (key : List UInt8) : Except Fault Shard :=
  match s.getAppendBuf key with
  | some i => do
    let l ← Lru.remove s.appendBufs.lru i
    return (s.setLru l).clearBuf i
  | none => .ok s

/-- `__store` without the copy of the value; the section stays locked. Returns the
index. -/
def storeMapping (s : Shard) (key : List UInt8) (vlen : ℕ) (junk : ℕ → UInt8) :
    Except Fault (ℕ × Shard) := do
  let total := PairMem.metaSz key.length + vlen
  let s ← s.dropAppendBuf key
  ensure (key.length ≤ maxKlen) .bug
  let credits := d.grainsOf total + s.leftoverCredits
  let (sl, s) ← storeLoop d key total (2 ^ 32) 0 credits { s with leftoverCredits := 0 }
  let s ← s.storeAt d key vlen junk sl
  return (sl.lpa, s)

/-- The copy of the IO worker for a store: the value goes behind the header. -/
def copyValue (s : Shard) (lpa : ℕ) (key value : List UInt8) : Except Fault Shard :=
  match s.pairMem lpa with
  | none => .error .badAccess
  | some mem => do
    let mem ← PairMem.write mem (PairMem.metaSz key.length) value
    return s.setPair lpa (some mem)

/-- A store command and the copy of the IO worker. -/
def store (s : Shard) (key value : List UInt8) (junk : ℕ → UInt8) : Except Fault Shard := do
  let (lpa, s) ← s.storeMapping d key value.length junk
  let s ← s.copyValue lpa key value
  s.releaseMap d lpa

end Shard

end Virtkv
