import Virtkv.Run.Defs
import Virtkv.TwoLevel.Bulk

/-!
# Fast fill

`fast_fill_t` of the Plus build: the keys `1, 2, ..` are stored without a mapping, every
index with its pair and its grain in the arrays `pair_mem` and `fm_grains`. Then every
section but the first gets a mapping page, and its table is loaded from the arrays at once.

Between two stores the thread hands back finished requests and reports its speed; that part
is left out.
-/

namespace Virtkv

open Outcome

/-- The shard, with what only the fast mode uses: `fm_grains` of all sections, by index, and
`shard->fastmode`. -/
structure FastShard where
  shard : Shard
  fmGrains : ℕ → ℕ
  fastmode : Bool

/-- `init_cache` over memory that holds `old`: `cached_cnt`, `g_off` and the words of the
tables are not set. -/
def Cache.initOver (old : ℕ → Section) : Cache :=
  { Cache.init with
    secs := fun i =>
      { old i with
        tPpa := uintMax, state := .clean, cached := false, hasMem := false, lenOnDisk := 0
        outgoing := false } }

namespace Device

variable (d : Device)

/-- The loop of a fast store from count `cnt` on: the first index in the probe sequence that
is not taken, and its count. -/
def freeIdx (hash : ℕ) (taken : ℕ → Bool) : ℕ → ℕ → Except Fault (ℕ × ℕ)
  | 0, _ => .error .hang
  | fuel + 1, cnt => do
    let (lpa, cnt) ← d.getHashIdx hash cnt
    if taken lpa then freeIdx hash taken fuel (cnt + 1) else return (lpa, cnt)

/-- The key of pair `i`: eight bytes. -/
def fillKey (i : ℕ) : List UInt8 := le32 i ++ le32 (i / 2 ^ 32)

/-- The indices of the first `n` keys, the last one first: every key takes the first index in
its probe sequence that no earlier key has. -/
def fillSlots : ℕ → Except Fault (List ℕ)
  | 0 => .ok []
  | n + 1 => do
    let slots ← fillSlots n
    let (lpa, _) ← d.freeIdx (d.hash32 (fillKey (n + 1))) (fun x => x ∈ slots) (2 ^ 32) 0
    return lpa :: slots

end Device

namespace FastShard

variable (d : Device)

/-- `conv_init_ftl` over memory that holds `old` and `grains`. -/
def init (old : ℕ → Section) (grains : ℕ → ℕ) : Except Fault FastShard := do
  let s ← Shard.init d
  return { shard := s.setCache (Cache.initOver old), fmGrains := grains, fastmode := false }

/-! ### Storing the pairs -/

/-- The probe loop of `__store` in fast mode from count `cnt` on, with `credits` to pay. An
index that has a pair is taken. -/
def fastLoop (key : List UInt8) : ℕ → ℕ → ℕ → Shard → Except Fault (ℕ × ℕ × Shard)
  | 0, _, _, _ => .error .hang
  | fuel + 1, cnt, credits, s => do
    let (lpa, cnt) ← d.getHashIdx (d.hash32 key) cnt
    let s ← s.makeRoom d credits
    let s ← s.getHt d lpa
    match s.pairMem lpa with
    | none => return (lpa, cnt, s)
    | some _ => do
      let s ← { s with maxTry := max s.maxTry (cnt + 1) }.releaseMap d lpa
      fastLoop key fuel (cnt + 1) 0 s

/-- `__store` in fast mode behind the probe loop: the pair goes to flash, to memory and to the
arrays. -/
def fastPlace (s : FastShard) (key value : List UInt8) (lpa cnt : ℕ) : Except Fault FastShard := do
  let t := s.shard
  let total := PairMem.metaSz key.length + value.length
  let glen := d.grainsOf total
  let (grain, credits, user, f) ← t.flash.placePair d t.user lpa total
  let f := f.setOob d (d.gIdx grain) (d.gOffset grain) (glen * 2 ^ 32 + lpa)
  let mem ← PairMem.write (List.replicate (glen * d.gu) 0) (PairMem.metaSz key.length) value
  let mem ← PairMem.write mem 0 (PairMem.header key value.length)
  let t := { t with
    flash := f, user := user, maxTry := max t.maxTry cnt
    leftoverCredits := t.leftoverCredits + credits }
  let t ← (t.setPair lpa (some mem)).releaseMap d lpa
  return { s with shard := t, fmGrains := Function.update s.fmGrains lpa grain }

/-- `__store` in fast mode. -/
def fastStore (s : FastShard) (key value : List UInt8) : Except Fault FastShard := do
  let t ← s.shard.dropAppendBuf key
  ensure (key.length ≤ maxKlen) .bug
  let credits := d.grainsOf (PairMem.metaSz key.length + value.length) + t.leftoverCredits
  let (lpa, cnt, t) ← fastLoop d key (2 ^ 32) 0 credits { t with leftoverCredits := 0 }
  { s with shard := t }.fastPlace d key value lpa cnt

/-- The first loop of `fast_fill_t` over `n` keys. The value length is sent in words. -/
def fillPairs (vlen : ℕ) : ℕ → FastShard → Except Fault FastShard
  | 0, s => .ok s
  | n + 1, s => do
    let s ← fillPairs vlen n s
    s.fastStore d (Device.fillKey (n + 1)) (List.replicate (vlen / 4 * 4) 0)

/-! ### Loading the tables -/

/-- The indices of section `i` that have a pair. -/
def occupied (s : FastShard) (i : ℕ) : List ℕ :=
  (List.range' (i * d.epp) d.epp).filter fun lpa => (s.shard.pairMem lpa).isSome

/-- The entry array for section `i`. -/
def entries (s : FastShard) (i : ℕ) : List LeafE :=
  (s.occupied d i).map fun lpa => (lpa, s.fmGrains lpa)

/-- `glen`: the grains of a mapping page with `cnt` entries. -/
def mapGlen (cnt : ℕ) : ℕ :=
  if (origGlen - rootG) * d.gu < cnt * d.build.entrySize then
    rootG + d.grainsOf (cnt * d.build.entrySize)
  else origGlen

def setFlash (s : FastShard) (f : Flash) : FastShard := { s with shard := s.shard.setFlash f }
def setSec (s : FastShard) (i : ℕ) (x : Section) : FastShard :=
  { s with shard := s.shard.setSec i x }

/-- A section with a fresh mapping page of `glen` grains. -/
def mapped (x : Section) (ppa glen : ℕ) : Section :=
  { x with
    tPpa := ppa, cached := true, hasMem := true, gOff := 0, lenOnDisk := glen
    table := { x.table with mem := TwoLevel.prepared (glen - rootG) fun _ => 0 } }

/-- A section whose table was loaded with `n` entries. -/
def loaded (x : Section) (mem : PageWords) (n : ℕ) : Section :=
  { x with
    state := .dirty, cached := false
    table := { cachedCnt := (x.table.cachedCnt + n) % 2 ^ 32, mem := mem } }

/-- The mapping page of a section that has none. -/
def mapSection (s : FastShard) (i cnt : ℕ) : Except Fault FastShard :=
  if (s.shard.sec i).tPpa = uintMax then do
    let (ppa, f) ← Shard.mapPageLoop d (d.geo.ttPgs + 1) s.shard.flash
    let f ← Shard.tagMapPage d f ppa i (mapGlen d cnt) 1
    return (s.setFlash f).setSec i (mapped (s.shard.sec i) ppa (mapGlen d cnt))
  else .ok s

/-- The second loop of `fast_fill_t` for one section. -/
def fillSection (s : FastShard) (i : ℕ) : Except Fault FastShard := do
  let es := s.entries d i
  let s ← s.mapSection d i es.length
  ensure ((s.shard.sec i).cached = true) .badAccess
  let (mem, _) ← TwoLevel.twolevelBulkInsert (s.shard.sec i).table.mem es
  return s.setSec i (loaded (s.shard.sec i) mem es.length)

/-- The second loop of `fast_fill_t` over `n` sections from `i` on. -/
def fillMaps : ℕ → ℕ → FastShard → Except Fault FastShard
  | 0, _, s => .ok s
  | n + 1, i, s => do
    let s ← s.fillSection d i
    fillMaps n (i + 1) s

/-- `fast_fill_t`. A value length whose grains do not divide a page is refused. -/
def fastFillT (s : FastShard) (vlen pairs : ℕ) : Except Fault FastShard := do
  let s := { s with fastmode := true }
  ensure (d.grainsOf vlen ≠ 0) .bug
  if d.gpp % d.grainsOf vlen ≠ 0 then return s
  let s ← s.fillPairs d vlen (pairs - 1)
  let s ← fillMaps d (d.nrValidTpages - 1) 1 s
  return { s with fastmode := false }

end FastShard

end Virtkv
