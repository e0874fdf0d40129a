import Virtkv.Gc.Shift

/-!
# Garbage collection

`do_gc` takes the line with the fewest valid grains, copies what is live in it to
pages of the two write pointers of the collector, and erases it. What is live in a
line is found out from the out-of-band words: mapping pages against the place of
their section, pairs against the mapping of their index, in ORIGINAL with the grain
bitmap, in Plus with the invalid-mapping log.

Sections that have to be read are put on a shadow list and enter the cache after a
flash page.
-/

namespace Virtkv

open Outcome

/-! ### Victims and erased blocks -/

namespace Flash

variable (d : Device)

/-- A line that `select_victim_line` had popped goes back. -/
def putBack (f : Flash) : Option ℕ → Except Fault Flash
  | none => .ok f
  | some l => f.pqInsert d l

/-- `pqueue_pop` of the victim queue. -/
def popVictim (f : Flash) : Flash := f.setPq (f.victimPq.pop f.pri)

/-- The victim is in nobody's hands but the collector's. -/
def takeVictim (f : Flash) (l : ℕ) : Flash :=
  let f := f.popVictim
  let f := f.setPq { f.victimPq with pos := Function.update f.victimPq.pos l 0 }
  f.setVictimCnt (dec32 f.victimLineCnt)

/-- The `again` loop of `select_victim_line`; the line under `shard->offset` is passed
over. -/
def selectLoop (offset : ℕ) : ℕ → Option ℕ → Flash → Except Fault (Option ℕ × Flash)
  | 0, _, _ => .error .hang
  | fuel + 1, dummy, f =>
    match f.victimPq.peek with
    | none => do
      let f ← f.putBack d dummy
      return (none, f)
    | some l => do
      let cur ← InvLog.grain2lineid d (offset / d.gu)
      if l = cur then selectLoop offset fuel (some l) f.popVictim
      else do
        let f ← (f.takeVictim l).putBack d dummy
        return (some l, f)

/-- `select_victim_line`. -/
def selectVictimLine (f : Flash) (offset : ℕ) : Except Fault (Option ℕ × Flash) :=
  selectLoop d offset (f.victimPq.size + 1) none f

/-- The pages of a block are free, their words and bits are cleared. -/
def erasePages (f : Flash) (base n : ℕ) : Flash :=
  { f with
    status := fun q => if base ≤ q ∧ q < base + n then .free else f.status q
    pgInvCnt := fun q => if base ≤ q ∧ q < base + n then 0 else f.pgInvCnt q
    oob := fun g => if base * d.gpp ≤ g ∧ g < (base + n) * d.gpp then 2 else f.oob g
    grainBitmap := fun g =>
      if base * d.gpp ≤ g ∧ g < (base + n) * d.gpp then false else f.grainBitmap g }

def clearBlk (f : Flash) (b : ℕ) : Flash :=
  { f with blkVgc := Function.update f.blkVgc b 0, blkIgc := Function.update f.blkIgc b 0 }

/-- `mark_block_free`. -/
def markBlockFree (f : Flash) (p : Ppa) : Except Fault Flash := do
  let base ← d.geo.ppa2pgidx { p with pg := 0 }
  return (f.erasePages d base d.geo.pgsPerBlk).clearBlk (blkOf d base)

/-- `mark_line_free`. -/
def markLineFree (f : Flash) (l : ℕ) : Flash :=
  (f.setLine l { f.lines l with vgc := 0, igc := 0 }).addFree l

/-- The bits of the rest of a page are cleared (ORIGINAL). -/
def clearBits (f : Flash) (pgidx start : ℕ) : Flash :=
  match d.build with
  | .original =>
    { f with grainBitmap := fun g =>
        if d.ppaToPga pgidx start ≤ g ∧ g < d.ppaToPga pgidx d.gpp then false
        else f.grainBitmap g }
  | .plus => f

end Flash

namespace Gc

variable (d : Device)

/-- `struct gc_data`: the page the collector fills. -/
structure Pos where
  ppa : Ppa
  pgidx : ℕ
  offset : ℕ

/-- No page is being filled. -/
def Pos.none : Pos where
  ppa := { ch := 0, lun := 0, blk := 0, pg := 0 }
  pgidx := uintMax
  offset := d.gpp

/-- The shard with the page of the collector and the shadow list. -/
structure State where
  shard : Shard
  pos : Pos
  shadow : List ℕ

def State.setShard (c : State) (s : Shard) : State := { c with shard := s }

/-- `__new_gc_ppa`. -/
def newGcPpa (f : Flash) (map : Bool) : Except Fault (Pos × Flash) := do
  let (p, pgidx, f) ← f.newPage d (if map then .gcMap else .gc)
  return ({ ppa := p, pgidx := pgidx, offset := 0 }, f)

/-- A page that is full is followed by a new one. -/
def openPage (f : Flash) (q : Pos) (map : Bool) : Except Fault (Pos × Flash) :=
  if d.gpp ≤ q.offset then newGcPpa d f map else .ok (q, f)

/-! ### Mapping lines -/

/-- The page `__copy_map` and `__copy_inv_map` write `len` grains to: a page without room
is given up. -/
def roomFor (f : Flash) (q : Pos) (len : ℕ) : Except Fault (Pos × Flash) := do
  let (q, f) ← openPage d f q true
  if len ≤ d.gpp - q.offset then return (q, f)
  ensure (0 < q.offset) .bug
  let f ← f.discardFrom d q.pgidx q.offset
  let (q, f) ← newGcPpa d (f.fillOob d q.pgidx q.offset uintMax) true
  ensure (len ≤ d.gpp) .bug
  return (q, f)

/-- `__copy_map`. -/
def copyMap (s : Shard) (q : Pos) (i len : ℕ) : Except Fault (Pos × Shard) := do
  let (q, f) ← roomFor d s.flash q len
  let f ← f.markGrainValid d (d.ppaToPga q.pgidx q.offset) len
  let s := s.setSec i { s.sec i with tPpa := q.pgidx, gOff := q.offset }
  let s := s.setFlash (f.setOob d q.pgidx q.offset (len * 2 ^ 32 + i * d.epp))
  return ({ q with offset := q.offset + len }, s)

/-- `__copy_inv_map`. -/
def copyInvMap (s : Shard) (q : Pos) (line : ℕ) (page : LogWords) : Except Fault (Pos × Shard) := do
  let (q, f) ← roomFor d s.flash q d.gpp
  let f ← f.markGrainValid d (d.ppaToPga q.pgidx 0) d.gpp
  ensure (d.build = .plus) .bug
  ensure (q.offset = 0) .bug
  let s := s.setFlash (InvLog.tagLogPage d f q.pgidx line)
  let s := s.setLog { s.log with xa := xaStore (xaIdx line q.pgidx) page s.log.xa }
  return ({ q with offset := q.offset + d.gpp }, s)

/-- A live invalid-mapping page in the victim. -/
def moveLogPage (c : State) (pgidx : ℕ) : Except Fault State := do
  ensure (d.build = .plus) .bug
  let line := c.shard.flash.oobAt d pgidx 1 % 2 ^ 32
  let key := xaIdx line (c.shard.flash.oobAt d pgidx 2 % 2 ^ 32)
  match xaLoad key c.shard.log.xa with
  | none => .error .bug
  | some page => do
    let s := c.shard.setLog { c.shard.log with xa := xaErase key c.shard.log.xa }
    let (q, s) ← copyInvMap d s c.pos line page
    let f ← s.flash.markGrainInvalid d (d.ppaToPga pgidx 0) d.gpp
    return { c with shard := s.setFlash f, pos := q }

/-- The length of a section on flash. -/
def sectionLen (w : ℕ) : ℕ :=
  match d.build with
  | .original => d.gpp
  | .plus => w / 2 ^ 32 % 2 ^ 32

/-- A mapping page, or a part of one, in the victim. Returns the grains to go on by. -/
def moveSection (c : State) (pgidx i : ℕ) : Except Fault (ℕ × State) := do
  let w := c.shard.flash.oobAt d pgidx i
  let lpa := w % 2 ^ 32
  ensure (0 < d.idx lpa) .bug
  let s ← c.shard.getHt d lpa
  let len := sectionLen d w
  let x := s.sec (d.idx lpa)
  ensure (d.build = .original → x.gOff = 0 ∧ i = 0) .bug
  if x.tPpa ≠ pgidx ∨ x.gOff ≠ i then return (len, c.setShard (s.unlock d lpa))
  ensure (x.lenOnDisk = len) .bug
  let f ← s.flash.markGrainInvalid d (d.ppaToPga pgidx i) len
  let (q, s) ← copyMap d (s.setFlash f) c.pos (d.idx lpa) len
  return (len, { c with shard := s.unlock d lpa, pos := q })

/-! ### Data lines -/

/-- A pair that does not fit on the stripe: the rest of the stripe is given up. -/
def skipUnlessFits (f : Flash) (q : Pos) (len : ℕ) : Except Fault (Pos × Flash) := do
  let enough ← Flash.enoughSpaceInLine d q.ppa q.offset len
  if enough then return (q, f)
  let (_, f) ← f.clearRestOfLine d q.ppa q.offset .gc
  newGcPpa d f false

/-- The loop of `__copy_valid_pair` that marks the grains of a pair valid. A page that is
filled up is followed by a new one at once. -/
def copyLoop : ℕ → Flash → Pos → ℕ → Except Fault (Pos × Flash)
  | 0, _, _, _ => .error .hang
  | fuel + 1, f, q, rem =>
    if rem = 0 then .ok (q, f)
    else do
      let sz := min rem (d.gpp - q.offset % d.gpp)
      let f ← f.markGrainValid d (d.ppaToPga q.pgidx q.offset) sz
      let q := { q with offset := q.offset + sz }
      if rem - sz = 0 ∧ q.offset % d.gpp ≠ 0 then return (q, f)
      let (q, f) ← newGcPpa d f false
      copyLoop fuel f q (rem - sz)

/-- The mapping of a pair that was copied is switched to its new grain. -/
def switchMapping (s : Shard) (lpa pos grain line : ℕ) : Except Fault Shard := do
  let i := d.idx lpa
  let t := (s.sec i).table
  match d.build with
  | .original => do
    let l ← InvLog.grain2lineid d (t.mem pos)
    ensure (l = line) .bug
    return s.setSec i { s.sec i with table := { t with mem := Function.update t.mem pos grain } }
  | .plus => do
    let l ← InvLog.grain2lineid d (TwoLevel.twolevelDirectRead t.mem pos)
    ensure (l = line) .bug
    let t ← TwoLevel.twolevelInsert t lpa grain pos
    return s.setSec i { s.sec i with table := t }

/-- `__copy_valid_pair`. -/
def copyValidPair (s : Shard) (q : Pos) (lpa len pos line : ℕ) : Except Fault (Pos × Shard) := do
  let (q, f) ← openPage d s.flash q false
  let (q, f) ← skipUnlessFits d f q len
  let (q', f) ← copyLoop d (len + 1) f q len
  ensure (lpa ≠ uintMax) .bug
  let f ← f.tagPair d (d.ppaToPga q.pgidx q.offset) lpa len
  let s ← switchMapping d (s.setFlash f) lpa pos (d.ppaToPga q.pgidx q.offset) line
  return (q', s)

/-- A section that is not cached is read and put on the shadow list. -/
def shadowRead (c : State) (i : ℕ) : State :=
  if (c.shard.sec i).cached then c
  else
    { c with
      shard := c.shard.setSec i { c.shard.sec i with cached := (c.shard.sec i).hasMem }
      shadow := c.shadow ++ [i] }

/-- A live pair: recorded deletes are carried out, and what is left of it is copied. -/
def relocate (c : State) (lpa len grain pos line : ℕ) : Except Fault State := do
  match c.shard.pairMem lpa with
  | none => .error .badAccess
  | some mem => do
    let (pre, log) := Shift.collect d c.shard.log lpa grain
    let s := c.shard.setLog log
    match ← Shift.shiftPair d len mem pre with
    | none => do
      let (_, s) ← s.updateMap d lpa none uintMax pos false
      return c.setShard s
    | some (newLen, mem) => do
      let (q, s) ← copyValidPair d (s.setPair lpa (some mem)) c.pos lpa newLen pos line
      return { c with shard := s, pos := q }

/-- `__valid_mapping`. -/
def validMapping (log : InvLog) (lpa grain : ℕ) : Bool :=
  match d.build with
  | .original => true
  | .plus => log.validMapping lpa grain

/-- A pair that is not known to be invalid: it is live if its index is mapped to its
grain. In Plus any other pair is recorded once more. -/
def moveIfLive (c : State) (lpa len grain line : ℕ) : Except Fault State := do
  let c := shadowRead c (d.idx lpa)
  ensure ((c.shard.sec (d.idx lpa)).cached = true) .badAccess
  let (g, pos) := c.shard.cache.hidxToGrain d lpa
  if g = grain then relocate d c lpa len grain pos line
  else
    match d.build with
    | .original => .ok c
    | .plus => do
      let (_, f, log) ← InvLog.recordInvMapping d c.shard.flash c.shard.log lpa grain uintMax 0
      return c.setShard ((c.shard.setFlash f).setLog log)

/-- A pair that the log has as invalid is passed over. -/
def moveUnlessInvalid (c : State) (lpa len grain line : ℕ) : Except Fault State :=
  if validMapping d c.shard.log lpa grain then moveIfLive d c lpa len grain line else .ok c

/-- A pair in the victim. Returns the grains to go on by. -/
def movePair (c : State) (pgidx i line : ℕ) : Except Fault (ℕ × State) := do
  let w := c.shard.flash.oobAt d pgidx i
  let grain := d.ppaToPga pgidx i
  let lpa := w % 2 ^ 32
  let len := w / 2 ^ 32 % 2 ^ 32
  ensure (d.build = .plus → c.shard.flash.pgInvCnt pgidx ≤ d.gpp) .bug
  ensure (lpa ≠ uintMax) .bug
  ensure (lpa ≤ d.nrValidTentries) .bug
  let s ← c.shard.getHt d lpa
  let c ← moveUnlessInvalid d (c.setShard s) lpa len grain line
  return (len, c.setShard (c.shard.unlock d lpa))

/-! ### Pages -/

/-- The grain bitmap of ORIGINAL tells live grains; Plus looks at every grain. -/
def validG (f : Flash) (grain : ℕ) : Bool :=
  match d.build with
  | .original => f.grainBitmap grain
  | .plus => true

/-- The grain that stores are to go to is collected. -/
def resetOffset (s : Shard) (grain : ℕ) : Shard :=
  if s.user.offset / d.gu = grain then { s with user := { s.user with offset := 0 } } else s

/-- What is at a grain goes to the pages of the collector. Returns the grains to go on
by. -/
def moveGrain (map : Bool) (line : ℕ) (c : State) (pgidx i : ℕ) : Except Fault (ℕ × State) :=
  if map then moveSection d c pgidx i else movePair d c pgidx i line

/-- The body of the loop over the grains of a page. Returns the next grain. -/
def cleanGrain (map : Bool) (line : ℕ) (c : State) (pgidx i : ℕ) : Except Fault (ℕ × State) :=
  let w := c.shard.flash.oobAt d pgidx i
  if w = uintMax - 11 then do
    ensure (i = 0) .bug
    return (i + 1, c)
  else if w = uintMax - 10 then do
    ensure (i = 0) .bug
    ensure (c.shard.flash.oobAt d pgidx 1 ≤ d.gpp) .bug
    return (i + c.shard.flash.oobAt d pgidx 1, c)
  else if w = uintMax then .ok (i + d.gpp + 1, c)
  else do
    let c := c.setShard (resetOffset d c.shard (d.ppaToPga pgidx i))
    if i = 0 ∧ map = true ∧ w = uintMax - 5 then do
      let c ← moveLogPage d c pgidx
      return (i + d.gpp + 1, c)
    else if validG d c.shard.flash (d.ppaToPga pgidx i) then do
      let (n, c) ← moveGrain d map line c pgidx i
      return (i + n, c)
    else return (i + 1, c)

/-- The loop over the grains of a page. -/
def cleanPageLoop (map : Bool) (line pgidx : ℕ) : ℕ → ℕ → State → Except Fault State
  | 0, _, _ => .error .hang
  | fuel + 1, i, c =>
    if d.gpp ≤ i then .ok c
    else do
      let (i, c) ← cleanGrain d map line c pgidx i
      cleanPageLoop map line pgidx fuel i c

/-- In ORIGINAL the first page of a flash page is found to be invalid only now. -/
def noticeInvalid (f : Flash) (pgidx k : ℕ) : Except Fault Flash :=
  if d.build = .original ∧ k = 0 ∧ f.pageGrainsInvalid d pgidx = true then f.markPageInvalid d pgidx
  else .ok f

/-- The loop of `clean_one_flashpg` over the pages of a flash page, with the number of
valid pages so far. -/
def cleanPages (map : Bool) (p : Ppa) : ℕ → ℕ → ℕ → State → Except Fault (ℕ × State)
  | 0, _, cnt, c => .ok (cnt, c)
  | n + 1, k, cnt, c => do
    let pgidx ← d.geo.ppa2pgidx { p with pg := p.pg + k }
    let f ← noticeInvalid d c.shard.flash pgidx k
    let c := c.setShard (c.shard.setFlash f)
    match f.status pgidx with
    | .free => .error .bug
    | .valid => do
      let c ← cleanPageLoop d map p.blk pgidx (d.gpp + 1) 0 c
      cleanPages map p n (k + 1) (cnt + 1) c
    | .invalid => do
      ensure (d.build = .plus → f.pgInvCnt pgidx = d.gpp) .bug
      cleanPages map p n (k + 1) cnt c

/-- The sections of the shadow list enter the cache. -/
def flushShadow : List ℕ → Shard → Except Fault Shard
  | [], s => .ok s
  | i :: is, s => do
    let s ← s.getHt d (i * d.epp)
    let s := s.setCache (s.cache.enqueue i)
    let s := s.addCached (s.sec i).lenOnDisk
    flushShadow is (s.setCache (s.cache.unlock i))

/-- `clean_one_flashpg`. -/
def cleanOneFlashpg (map : Bool) (c : State) (p : Ppa) : Except Fault State := do
  let (cnt, c) ← cleanPages d map p d.geo.pgsPerOneshotpg 0 0 c
  if cnt = 0 then return c
  let s ← flushShadow d c.shadow c.shard
  return { c with shard := s, shadow := [] }

/-! ### Lines -/

/-- The flash pages of a line in the order `do_gc` visits them, each with whether its
block is erased behind it. -/
def flashPages (g : Geometry) (line : ℕ) : List (Ppa × Bool) :=
  (List.range g.oneshotpgsPerBlk).flatMap fun k =>
    (List.range g.nchs).flatMap fun ch =>
      (List.range g.lunsPerCh).map fun lun =>
        ({ ch := ch, lun := lun, blk := line, pg := k * g.pgsPerOneshotpg },
          decide (k + 1 = g.oneshotpgsPerBlk))

/-- A flash page is looked at as long as the line has valid grains. -/
def cleanIfLive (map : Bool) (line : ℕ) (c : State) (p : Ppa) : Except Fault State :=
  if 0 < (c.shard.flash.lines line).vgc then cleanOneFlashpg d map c p else .ok c

/-- A block is erased behind its last flash page. -/
def eraseIfLast (f : Flash) (p : Ppa) (last : Bool) : Except Fault Flash :=
  if last then f.markBlockFree d p else .ok f

/-- The copy loop of `do_gc`. -/
def cleanLine (map : Bool) (line : ℕ) : List (Ppa × Bool) → State → Except Fault State
  | [], c => .ok c
  | (p, last) :: ps, c => do
    let c ← cleanIfLive d map line c p
    let f ← eraseIfLast d c.shard.flash p last
    cleanLine map line ps (c.setShard (c.shard.setFlash f))

/-- The rest of the page the collector was filling is given up. -/
def closePage (f : Flash) (q : Pos) : Except Fault Flash :=
  if q.offset < d.gpp then
    ((f.fillOob d q.pgidx q.offset uintMax).clearBits d q.pgidx q.offset).discardFrom d q.pgidx
      q.offset
  else .ok f

/-- The log of a data line with live grains is read (Plus). -/
def readLog (s : Shard) (line : ℕ) (map : Bool) : Except Fault Shard :=
  if d.build = .plus ∧ 0 < (s.flash.lines line).vgc ∧ map = false then do
    let (f, log) ← InvLog.getInvMappings d s.flash s.log line
    return (s.setFlash f).setLog log
  else .ok s

/-- `__clear_gc_data` behind a data line (Plus). -/
def dropLog (s : Shard) (map : Bool) : Shard :=
  if d.build = .plus ∧ map = false then s.setLog s.log.clearGcData else s

/-- `do_gc` behind the choice of the victim. -/
def collectLine (s : Shard) (line : ℕ) : Except Fault Shard := do
  let map := (s.flash.lines line).map
  let s := { s with creditsToRefill := (s.flash.lines line).igc }
  let s ← readLog d s line map
  let c ← cleanLine d map line (flashPages d.geo line) { shard := s, pos := Pos.none d, shadow := [] }
  let f ← closePage d c.shard.flash c.pos
  return dropLog d (c.shard.setFlash (f.markLineFree line)) map

/-- `do_gc`: the victim, if there is one. -/
def doGc (s : Shard) : Except Fault (Option ℕ × Shard) := do
  let (v, f) ← s.flash.selectVictimLine d s.user.offset
  match v with
  | none => return (none, s.setFlash f)
  | some line => do
    let s ← collectLine d (s.setFlash f) line
    return (some line, s)

/-- A turn of `bg_gc_t` that collects: the credits of the victim are refilled. -/
def turn (s : Shard) : Except Fault Shard := do
  let (v, s) ← doGc d s
  return match v with
    | none => s
    | some _ => { s with writeCredits := (s.writeCredits + s.creditsToRefill) % 2 ^ 32 }

end Gc

end Virtkv
