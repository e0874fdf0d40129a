import Virtkv.Flash.Place
import Virtkv.InvMapping.Defs
import Virtkv.TwoLevel.Defs

/-!
# The mapping cache and the shard

Hash table sections, their eviction and their loading, over the state of a shard.
A section keeps its mapping page in memory for ever once it has one; `cached`
says whether `mappings` points to it. Collecting victims runs in a thread of its
own; `collectVictims` is what that thread does until it has victims or the FIFO is
empty.
-/

namespace Virtkv

open Outcome

/-- `mapping_state`. -/
inductive SecState where
  | clean
  | dirty
  | cCandidate
  | dCandidate
  deriving DecidableEq

/-- `struct ht_section` without the pair memory. `mappings` is `mem` or `NULL`. `written`
is history: the table when the section was last written to its page. -/
structure Section where
  tPpa : ℕ
  state : SecState
  cached : Bool
  hasMem : Bool
  table : Table
  gOff : ℕ
  lenOnDisk : ℕ
  outgoing : Bool
  written : PageWords

/-- `struct cache` with the victim buffer and the collector's state. -/
structure Cache where
  secs : ℕ → Section
  fifo : List ℕ
  nrCached : ℤ
  ring : List ℕ
  candidates : ℕ
  haveVictims : ℕ
  collecting : Bool

/-- One append buffer: `append_klens`, `append_keys`, `append_bufs`, `wb_idxs` and
`inv_cnts` at its number. -/
structure AppendBuf where
  klen : ℕ
  key : List UInt8
  bytes : List UInt8
  wbIdx : ℕ
  invCnt : ℕ

/-- The append buffers, and `buf_lru` from its head to its tail. -/
structure AppendBufs where
  buf : ℕ → AppendBuf
  lru : List ℕ

/-- `struct demand_shard` and the globals of `demand_ftl.c`. -/
structure Shard where
  flash : Flash
  log : InvLog
  cache : Cache
  pairMem : ℕ → Option (List UInt8)
  user : UserPos
  maxTry : ℕ
  leftoverCredits : ℕ
  writeCredits : ℕ
  creditsToRefill : ℕ
  appendBufs : AppendBufs

namespace Device

variable (d : Device)

/-- `IDX` and `OFFSET`. -/
def idx (lpa : ℕ) : ℕ := lpa / d.epp
def secOffset (lpa : ℕ) : ℕ := lpa % d.epp

/-- `gc_thres_lines` and `gc_thres_lines_high`. -/
def gcThresLines : ℕ := 8
def gcThresLinesHigh : ℕ :=
  match d.build with
  | .original => 2
  | .plus => 4

end Device

/-- Subtraction of unsigned 32-bit numbers. -/
def sub32 (a b : ℕ) : ℕ := if b ≤ a then a - b else a + 2 ^ 32 - b

/-- `RING_BUFFER_SIZE` of the FIFO. -/
def ringBufferSize : ℕ := 600000

namespace Cache

variable (d : Device)

def setSec (c : Cache) (i : ℕ) (x : Section) : Cache :=
  { c with secs := Function.update c.secs i x }

/-- `cache_full`. -/
def full (c : Cache) : Bool := (d.maxCached : ℤ) ≤ c.nrCached

/-- `cache_hidx_to_grain`: the grain and the position it stores. -/
def hidxToGrain (c : Cache) (lpa : ℕ) : ℕ × ℕ :=
  let m := (c.secs (d.idx lpa)).table.mem
  match d.build with
  | .original => (m (d.secOffset lpa), d.secOffset lpa)
  | .plus => ((TwoLevel.twolevelFind m lpa).1, (TwoLevel.twolevelFind m lpa).2.getD uintMax)

/-- `while(atomic_cmpxchg(&ht->outgoing, 0, 1) != 0)`. -/
def lock (c : Cache) (i : ℕ) : Except Fault Cache := do
  ensure (i < d.nrValidTpages) .badAccess
  ensure ((c.secs i).outgoing = false) .deadlock
  return c.setSec i { c.secs i with outgoing := true }

/-- `atomic_set(&ht->outgoing, 0)`. -/
def unlock (c : Cache) (i : ℕ) : Cache := c.setSec i { c.secs i with outgoing := false }

/-- `atomic_dec(&ht->outgoing)`. Of a lock that is not held the counter would go below
zero. -/
def release (c : Cache) (i : ℕ) : Except Fault Cache := do
  ensure ((c.secs i).outgoing = true) .underflow
  return c.unlock i

/-- `cache_get_ht`. -/
def getHt (c : Cache) (lpa : ℕ) : Except Fault Cache := c.lock d (d.idx lpa)

/-- `__entries_to_grains`. -/
def entriesToGrains (c : Cache) (i : ℕ) : ℕ :=
  match d.build with
  | .original => d.gpp
  | .plus => rootG + TwoLevel.cnt (c.secs i).table.mem

/-- `__mark_dirty`. -/
def dirtied : SecState → SecState
  | .cCandidate => .dCandidate
  | .dCandidate => .dCandidate
  | .clean => .dirty
  | .dirty => .dirty

/-- `fifo_enqueue`: a full ring drops the section. -/
def enqueue (c : Cache) (i : ℕ) : Cache :=
  if (c.fifo.length + 1) % ringBufferSize = 0 then c else { c with fifo := c.fifo ++ [i] }

/-- A section chosen for eviction. -/
def markCandidate (c : Cache) (i : ℕ) : Cache :=
  c.setSec i
    { c.secs i with state := if (c.secs i).state = .dirty then .dCandidate else .cCandidate }

/-- Put a section on the victim ring and count its grains. -/
def pushRing (c : Cache) (i : ℕ) : Cache :=
  { c with ring := c.ring ++ [i], candidates := c.candidates + c.entriesToGrains d i }

/-- What `__collect_victims` does with a section it dequeued. -/
def takeVictim (c : Cache) (i : ℕ) : Except Fault Cache := do
  let c ← c.lock d i
  ensure ((c.secs i).state ≠ .cCandidate ∧ (c.secs i).state ≠ .dCandidate) .bug
  return ((c.markCandidate i).pushRing d i).unlock i

/-- The dequeuing loops of `__collect_victims` over the sections in the FIFO. -/
def collectLoop : List ℕ → Cache → Except Fault Cache
  | [], c => .ok { c with fifo := [] }
  | i :: is, c => do
    let c ← c.takeVictim d i
    if d.gpp ≤ c.candidates then return { c with fifo := is, haveVictims := 1, collecting := false }
    collectLoop is c

/-- One turn of `bg_ev_t`. With an empty FIFO and too few candidates the thread stays in
`__collect_victims`. -/
def collectVictims (c : Cache) : Except Fault Cache :=
  if c.haveVictims ≠ 0 then .ok c
  else if c.collecting then collectLoop d c.fifo c
  else if d.gpp * 10 < c.ring.length then .ok { c with candidates := 0, haveVictims := 1 }
  else collectLoop d c.fifo { c with candidates := 0, collecting := true }

end Cache

namespace Shard

variable (d : Device)

def setFlash (s : Shard) (f : Flash) : Shard := { s with flash := f }
def setLog (s : Shard) (l : InvLog) : Shard := { s with log := l }
def setCache (s : Shard) (c : Cache) : Shard := { s with cache := c }
def setPair (s : Shard) (lpa : ℕ) (m : Option (List UInt8)) : Shard :=
  { s with pairMem := Function.update s.pairMem lpa m }

def sec (s : Shard) (i : ℕ) : Section := s.cache.secs i
def setSec (s : Shard) (i : ℕ) (x : Section) : Shard := s.setCache (s.cache.setSec i x)

/-- Add to `nr_cached_tentries`. -/
def addCached (s : Shard) (n : ℤ) : Shard :=
  s.setCache { s.cache with nrCached := s.cache.nrCached + n }

/-- `consume_write_credit`. -/
def consumeWriteCredit (s : Shard) (len : ℕ) : Shard :=
  { s with writeCredits := sub32 s.writeCredits (len % 2 ^ 32) }

/-- `check_and_refill_write_credit`: without credits, wait until the collector has freed
lines. -/
def checkAndRefillWriteCredit (s : Shard) : Except Fault Unit :=
  ensure ((0 < s.writeCredits ∧ s.writeCredits < 2 ^ 31) ∨
    d.gcThresLinesHigh < s.flash.freeLineCnt) .blocked

/-! ### Evicting sections -/

/-- The page an eviction is filling, and how many of its grains are used. -/
structure Filling where
  ppa : ℕ
  grain : ℕ
  gotPpa : Bool
  allClean : Bool
  evicted : ℕ
  credits : ℕ

/-- The rest of the page, given up. -/
def clearPage (s : Shard) (ppa grain : ℕ) : Except Fault Shard := do
  let f ← s.flash.discardFrom d ppa grain
  return s.setFlash (f.fillOob d ppa grain uintMax)

/-- The page for a dirty victim: the one being filled, or a new one. -/
def evictPage (s : Shard) (e : Filling) : Except Fault (Filling × Shard) :=
  if e.gotPpa then .ok (e, s)
  else do
    let (_, ppa, f) ← s.flash.newPage d .map
    return ({ e with ppa := ppa, gotPpa := true, credits := e.credits + d.gpp }, s.setFlash f)

/-- The grains of a victim on flash become invalid if its size is still the same. -/
def dropOnDisk (s : Shard) (i gLen : ℕ) : Except Fault Shard :=
  let x := s.sec i
  if gLen = x.lenOnDisk then do
    let f ← s.flash.markGrainInvalid d (d.ppaToPga x.tPpa x.gOff) x.lenOnDisk
    return s.setFlash f
  else do
    ensure (d.build = .plus) .bug
    return s

/-- The grains of a victim go to the page being filled. In ORIGINAL a victim is a whole
page. -/
def placeVictim (s : Shard) (e : Filling) (i : ℕ) : Except Fault (Filling × Shard) := do
  let gLen := s.cache.entriesToGrains d i
  let grain := match d.build with
    | .original => 0
    | .plus => e.grain
  ensure (d.build = .original → (s.sec i).gOff = 0) .bug
  let f := s.flash.setOob d e.ppa grain (gLen * 2 ^ 32 + i * d.epp)
  let f ← f.markGrainValid d (d.ppaToPga e.ppa grain) gLen
  let s := (s.setFlash f).setSec i
    { s.sec i with
      tPpa := e.ppa, gOff := grain, lenOnDisk := gLen, written := (s.sec i).table.mem }
  ensure (grain < d.gpp) .bug
  return ({ e with grain := grain + gLen, allClean := false }, s)

/-- The part of `__evict_one` for a dirty victim. -/
def writeVictim (s : Shard) (e : Filling) (i : ℕ) : Except Fault (Filling × Shard) := do
  let s ← s.dropOnDisk d i (s.cache.entriesToGrains d i)
  ensure (d.build = .original → e.gotPpa = false) .bug
  ensure (d.build = .original → (s.sec i).lenOnDisk = d.gpp) .bug
  let (e, s) ← s.evictPage d e
  s.placeVictim d e i

/-- A victim is out of the cache. -/
def dropVictim (s : Shard) (i gLen : ℕ) : Shard :=
  (s.setSec i { s.sec i with cached := false, state := .clean, outgoing := false }).addCached
    (-(gLen : ℤ))

/-- A dirty victim that does not fit ends the page being filled. -/
def turnPage (s : Shard) (e : Filling) (i gLen : ℕ) : Except Fault (Filling × Shard) :=
  if (s.sec i).state = .dCandidate ∧ d.gpp < e.grain + gLen then do
    ensure (e.gotPpa = true) .bug
    let s ← s.clearPage d e.ppa e.grain
    return ({ e with grain := 0, gotPpa := false }, s)
  else .ok (e, s)

/-- Only a dirty victim is written. -/
def writeIfDirty (s : Shard) (e : Filling) (i : ℕ) : Except Fault (Filling × Shard) :=
  if (s.sec i).state = .dCandidate then s.writeVictim d e i else .ok (e, s)

def popRing (s : Shard) : Shard := s.setCache { s.cache with ring := s.cache.ring.tail }

/-- One round of `__evict_one` with the victim `i` at the tail of the ring. -/
def evictRound (s : Shard) (e : Filling) (i : ℕ) : Except Fault (Filling × Shard) := do
  let e := if e.grain = d.gpp then { e with grain := 0, gotPpa := false } else e
  ensure ((s.sec i).hasMem = true) .bug
  ensure ((s.sec i).state = .cCandidate ∨ (s.sec i).state = .dCandidate) .bug
  let c ← s.cache.lock d i
  let s := s.setCache c
  let gLen := s.cache.entriesToGrains d i
  ensure (gLen ≤ d.gpp) .bug
  let (e, s) ← s.turnPage d e i gLen
  let (e, s) ← s.popRing.writeIfDirty d e i
  return ({ e with evicted := e.evicted + gLen }, s.dropVictim i gLen)

/-- The loop of `__evict_one`; every round takes a section from the ring. -/
def evictLoop : ℕ → Filling → Shard → Except Fault (Filling × Shard)
  | 0, _, _ => .error .hang
  | fuel + 1, e, s =>
    if s.cache.nrCached ≤ (d.maxCached : ℤ) - d.gpp then .ok (e, s)
    else
      match s.cache.ring with
      | [] => .error .bug
      | i :: _ => do
        let (e, s) ← s.evictRound d e i
        if d.gpp ≤ e.evicted then return (e, s)
        evictLoop fuel e s

/-- Wait for the collector: `have_victims` goes from 1 to 2. -/
def awaitVictims (s : Shard) : Except Fault Shard := do
  let c ← s.cache.collectVictims d
  ensure (c.haveVictims = 1) .blocked
  return s.setCache { c with haveVictims := 2 }

/-- The rest of the last page of an eviction is given up. -/
def closePage (s : Shard) (e : Filling) : Except Fault Shard :=
  if e.allClean = false ∧ e.grain < d.gpp then s.clearPage d e.ppa e.grain else .ok s

/-- `__evict_one`. Returns the credits. -/
def evictOne (s : Shard) : Except Fault (ℕ × Shard) := do
  let s ← s.awaitVictims d
  let (e, s) ← evictLoop d (s.cache.ring.length + 1)
    { ppa := uintMax, grain := 0, gotPpa := false, allClean := true, evicted := 0, credits := 0 } s
  let s ← s.closePage d e
  return (e.credits, s.setCache { s.cache with haveVictims := 0 })

/-- `while(cache_full(cache)) __evict_one(..)`; every turn evicts at least one section. -/
def evictWhileFull : ℕ → ℕ → Shard → Except Fault (ℕ × Shard)
  | 0, _, _ => .error .hang
  | fuel + 1, credits, s =>
    if s.cache.full d then do
      let (n, s) ← s.evictOne d
      evictWhileFull fuel (credits + n) s
    else .ok (credits, s)

/-- Make room in the cache and pay the credits. -/
def makeRoom (s : Shard) (credits : ℕ) : Except Fault Shard := do
  let (credits, s) ← evictWhileFull d (s.cache.nrCached.toNat + 1) credits s
  let s := s.consumeWriteCredit credits
  s.checkAndRefillWriteCredit d
  return s

/-! ### Loading and updating sections -/

/-- The empty mapping page of a build. -/
def emptyPage : PageWords :=
  match d.build with
  | .original => fun _ => uintMax
  | .plus => TwoLevel.twolevelInit fun _ => 0

/-- `len_on_disk` of a section when it is first used. -/
def firstLen : ℕ :=
  match d.build with
  | .original => d.gpp
  | .plus => origGlen

/-- The pair memory of a section is empty. -/
def clearPairs (s : Shard) (i : ℕ) : Shard :=
  { s with pairMem := fun lpa => if d.idx lpa = i then none else s.pairMem lpa }

/-- The section part of `__get_one`. -/
def getMappings (s : Shard) (i : ℕ) (first : Bool) : Except Fault Shard :=
  if first then
    .ok ((s.setSec i
      { s.sec i with
        cached := true, hasMem := true, gOff := 0, lenOnDisk := firstLen d
        table := { (s.sec i).table with mem := emptyPage d } }).clearPairs d i)
  else do
    ensure ((s.sec i).tPpa ≠ uintMax) .bug
    let _ ← d.geo.ppaToStruct (s.sec i).tPpa
    return s.setSec i { s.sec i with cached := (s.sec i).hasMem }

/-- `__get_one`. -/
def getOne (s : Shard) (i : ℕ) (first : Bool) : Except Fault Shard := do
  let s ← s.getMappings d i first
  let s := s.setCache (s.cache.enqueue i)
  return s.addCached (s.sec i).lenOnDisk

/-- The `cache` label of `__store` and `__retrieve`: a section that is not cached is
loaded; without memory it is loaded again and again. -/
def loadSection (s : Shard) (i : ℕ) (first : Bool) : Except Fault Shard :=
  if (s.sec i).cached then .ok s
  else do
    let s ← s.getOne d i first
    ensure ((s.sec i).cached = true) .hang
    return s

/-- A page for one section: it is all valid, page 0 is given up. -/
def mapPageLoop : ℕ → Flash → Except Fault (ℕ × Flash)
  | 0, _ => .error .hang
  | fuel + 1, f => do
    let (_, ppa, f) ← f.takePage d .map
    let f ← f.markGrainValid d (d.ppaToPga ppa 0) d.gpp
    if ppa = 0 then do
      let f ← f.markGrainInvalid d (d.ppaToPga 0 0) d.gpp
      mapPageLoop fuel f
    else return (ppa, f)

/-- The out-of-band words of such a page, and its unused grains. -/
def tagMapPage (f : Flash) (ppa i len start : ℕ) : Except Fault Flash :=
  let f := (f.setOob d ppa 0 (len * 2 ^ 32 + i * d.epp)).fillOob d ppa start uintMax
  if len < d.gpp then f.markGrainInvalid d (d.ppaToPga ppa len) (d.gpp - len) else .ok f

/-- The part of `__store` that gives a section its first page. -/
def allocSection (s : Shard) (i : ℕ) : Except Fault Shard := do
  let (ppa, f) ← mapPageLoop d (d.geo.ttPgs + 1) s.flash
  let f ← tagMapPage d f ppa i (firstLen d) 1
  let x := s.sec i
  return (s.setFlash f).setSec i
    { x with
      tPpa := ppa, cached := false, lenOnDisk := firstLen d, state := .clean
      written := emptyPage d
      table := { x.table with cachedCnt := match d.build with
        | .original => x.table.cachedCnt
        | .plus => 0 } }

/-- `__store` uses the section of an index: the section gets a page if it has none, and is
cached. -/
def openSection (s : Shard) (i : ℕ) : Except Fault Shard :=
  if (s.sec i).tPpa = uintMax then do
    let s ← s.allocSection d i
    s.loadSection d i true
  else s.loadSection d i false

/-- `__expand_map_entry`. -/
def expandMapEntry (s : Shard) (i : ℕ) : Except Fault Shard := do
  let x := s.sec i
  let f ← s.flash.markGrainInvalid d (d.ppaToPga x.tPpa x.gOff) x.lenOnDisk
  ensure (x.lenOnDisk < d.gpp) .bug
  let (ppa, f) ← mapPageLoop d (d.geo.ttPgs + 1) f
  let f ← tagMapPage d f ppa i (x.lenOnDisk + 1) (x.lenOnDisk + 1)
  let s := (s.setFlash f).addCached 1
  let s := s.setCache { s.cache with
    candidates := if x.state = .cCandidate ∨ x.state = .dCandidate then s.cache.candidates + 1
      else s.cache.candidates }
  return s.setSec i
    { x with tPpa := ppa, gOff := 0, lenOnDisk := x.lenOnDisk + 1, state := Cache.dirtied x.state }

/-- The growing of a full table in `__update_map`. -/
def growTable (s : Shard) (i pos : ℕ) : Except Fault Shard :=
  let t := (s.sec i).table
  if t.cachedCnt = TwoLevel.cnt t.mem * inLeaf ∧ pos = uintMax then do
    let s ← s.expandMapEntry d i
    let t ← TwoLevel.twolevelReload { t with mem := TwoLevel.twolevelExpand t.mem } uintMax uintMax
    return s.setSec i { s.sec i with table := t }
  else .ok s

/-- `__update_map` records the grain it replaces. Returns the credits. -/
def recordOld (s : Shard) (i lpa pos : ℕ) (record : Bool) : Except Fault (ℕ × Shard) :=
  let old := TwoLevel.twolevelDirectRead (s.sec i).table.mem pos
  if pos ≠ uintMax ∧ old ≠ uintMax ∧ record then do
    let (credits, f, log) ← InvLog.recordInvMapping d s.flash s.log lpa old uintMax 0
    return (credits, (s.setFlash f).setLog log)
  else .ok (0, s)

/-- `__update_map` in ORIGINAL. -/
def updateFlat (s : Shard) (lpa : ℕ) (mem : Option (List UInt8)) (ppa : ℕ) : Shard :=
  let x := s.sec (d.idx lpa)
  (s.setSec (d.idx lpa)
    { x with table :=
      { x.table with mem := Function.update x.table.mem (d.secOffset lpa) ppa } }).setPair lpa mem

/-- `__update_map` in Plus. -/
def updateTwolevel (s : Shard) (lpa : ℕ) (mem : Option (List UInt8)) (ppa pos : ℕ)
    (record : Bool) : Except Fault (ℕ × Shard) := do
  let s ← s.growTable d (d.idx lpa) pos
  let (credits, s) ← s.recordOld d (d.idx lpa) lpa pos record
  let t ← TwoLevel.twolevelInsert (s.sec (d.idx lpa)).table lpa ppa pos
  return (credits, (s.setSec (d.idx lpa) { s.sec (d.idx lpa) with table := t }).setPair lpa mem)

def markDirty (s : Shard) (i : ℕ) : Shard :=
  s.setSec i { s.sec i with state := Cache.dirtied (s.sec i).state }

/-- `__update_map`. Returns the credits. -/
def updateMap (s : Shard) (lpa : ℕ) (mem : Option (List UInt8)) (ppa pos : ℕ) (record : Bool) :
    Except Fault (ℕ × Shard) := do
  ensure ((s.sec (d.idx lpa)).cached = true) .bug
  match d.build with
  | .original => .ok (0, (s.markDirty (d.idx lpa)).updateFlat d lpa mem ppa)
  | .plus => (s.markDirty (d.idx lpa)).updateTwolevel d lpa mem ppa pos record

end Shard

end Virtkv
