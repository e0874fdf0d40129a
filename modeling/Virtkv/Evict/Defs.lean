import Virtkv.Cache.Defs

/-!
# The threads that share the mapping cache

Three threads and the callbacks of completed commands work on the cache at the
same time. The dispatcher loads sections, changes and expands them for stores
and evicts victims (`__get_one`, `__update_map`, `__evict_one`). The collector
(`bg_ev_t`, `__collect_victims`) takes sections from the FIFO and puts them on
the victim ring. The garbage collector reads sections that are not cached into a
shadow list and puts them on the FIFO after a flash page (`clean_one_flashpg`).

A step is one access to shared data: the program counters of the threads are
part of the state. Section locks, `have_victims`, `candidates` and
`nr_cached_tentries` are accessed atomically, as in the source (`atomic_t`,
`entry_spin`, `fifo_spin`). The contents of the mapping tables and the flash
are left out, except for the number of leaves `root->cnt`, which is the length
of a section.

`filled`, `consumed` and `growth` are history: the sections ever put on the
ring, how many of them were read, and the growth charged for sections on the
shadow list.

## Main definitions

- `State` — the cache with the program counters of the threads
- `collect`, `dispatch`, `collectGarbage` — a step of each thread
- `step` — a step of the system
-/

namespace Virtkv.Evict

/-- `VICTIM_RB_SZ` and `MAX_SEARCH`. -/
def victimRbSz : ℕ := 131072
def maxSearch : ℕ := 131072

/-- Who holds `outgoing` of a section; `worker` is the callback of a command that
waits for its completion. -/
inductive Holder where
  | collector
  | dispatcher
  | gc
  | worker
  deriving DecidableEq

/-- A section, with `cnt` for the contents of its table. -/
structure Sec where
  state : SecState
  cached : Bool
  hasMem : Bool
  cnt : ℕ
  lenOnDisk : ℕ
  outgoing : Option Holder

/-- Where `bg_ev_t` and `__collect_victims` stand. `n` is the loop counter. -/
inductive Collector where
  | poll
  | reset
  | measure
  | dequeue (n : ℕ)
  | lock (n i : ℕ)
  | mark (n i : ℕ)
  | push (n i : ℕ)
  | count (n i : ℕ)
  | check (n i : ℕ)
  | unlock (n i : ℕ) (stop : Bool)
  | recheck
  | publish
  deriving DecidableEq

/-- Where the dispatcher stands: between two accesses to the cache, in
`__get_one`, in `__expand_map_entry` and `twolevel_expand`, or in `__evict_one`
with the grains evicted so far and the grains of its page. -/
inductive Dispatcher where
  | idle
  | enqueue (i : ℕ)
  | charge (i : ℕ)
  | grow (i : ℕ)
  | count (i : ℕ)
  | expand (i : ℕ) (counted : Bool)
  | evLoop (evicted grain : ℕ)
  | evRead (evicted grain : ℕ) (locked : Bool)
  | evLock (evicted grain i : ℕ)
  | evFit (evicted grain i : ℕ)
  | evPop (evicted grain i : ℕ)
  | evDrop (evicted grain i gLen : ℕ)
  | evClean (evicted grain i : ℕ)
  | evEnd
  deriving DecidableEq

/-- Where the garbage collector stands: between two sections, with a section, or
in the loop that puts the shadow list on the FIFO. -/
inductive Gc where
  | idle
  | held (i : ℕ)
  | flush (k : ℕ)
  | enqueue (k i : ℕ)
  | charge (k i : ℕ)
  | unlock (k i : ℕ)
  deriving DecidableEq

/-- The cache, the threads and the history. -/
structure State where
  secs : ℕ → Sec
  fifo : List ℕ
  hts : ℕ → ℕ
  head : ℕ
  tail : ℕ
  candidates : ℕ
  haveVictims : ℕ
  nrCached : ℤ
  shadow : List ℕ
  collector : Collector
  dispatcher : Dispatcher
  gc : Gc
  filled : List ℕ
  consumed : ℕ
  growth : ℕ

/-- The build and `max_cached_tentries`. -/
structure Params where
  build : Build
  maxCached : ℤ

namespace State

def setSec (s : State) (i : ℕ) (x : Sec) : State :=
  { s with secs := Function.update s.secs i x }

/-- `atomic_cmpxchg(&ht->outgoing, 0, 1)` that succeeds. -/
def acquire (s : State) (i : ℕ) (h : Holder) : State :=
  s.setSec i { s.secs i with outgoing := some h }

/-- `atomic_set(&ht->outgoing, 0)`. -/
def release (s : State) (i : ℕ) : State :=
  s.setSec i { s.secs i with outgoing := none }

/-- `fifo_enqueue`: a full ring drops the section. -/
def fifoEnqueue (s : State) (i : ℕ) : State :=
  if s.fifo.length + 1 = ringBufferSize then s else { s with fifo := s.fifo ++ [i] }

/-- `vb.head - vb.tail`, modulo the size of the ring. -/
def dist (s : State) : ℕ :=
  if s.head < s.tail then s.head + victimRbSz - s.tail else s.head - s.tail

/-- Put a section on the victim ring. -/
def pushRing (s : State) (i : ℕ) : State :=
  { s with
    hts := Function.update s.hts s.head i
    head := (s.head + 1) % victimRbSz
    filled := s.filled ++ [i] }

/-- Take a section from the victim ring. -/
def popRing (s : State) : State :=
  { s with tail := (s.tail + 1) % victimRbSz, consumed := s.consumed + 1 }

def addCached (s : State) (n : ℤ) : State := { s with nrCached := s.nrCached + n }

/-- The sections of the shadow list that are not on the FIFO yet. -/
def pending (s : State) : List ℕ :=
  match s.gc with
  | .idle => s.shadow
  | .held _ => s.shadow
  | .flush k => s.shadow.drop k
  | .enqueue k _ => s.shadow.drop k
  | .charge k _ => s.shadow.drop (k + 1)
  | .unlock k _ => s.shadow.drop (k + 1)

def setCollector (s : State) (pc : Collector) : State := { s with collector := pc }
def setDispatcher (s : State) (pc : Dispatcher) : State := { s with dispatcher := pc }
def setGc (s : State) (pc : Gc) : State := { s with gc := pc }

end State

variable (p : Params)

/-- `__entries_to_grains`. -/
def grains (x : Sec) : ℕ :=
  match p.build with
  | .original => p.build.grainPerPage
  | .plus => rootG + x.cnt

/-- The section is chosen for eviction. -/
def Chosen (x : Sec) : Prop := x.state = .cCandidate ∨ x.state = .dCandidate

instance (x : Sec) : Decidable (Chosen x) :=
  inferInstanceAs (Decidable (x.state = .cCandidate ∨ x.state = .dCandidate))

/-! ### The collector -/

/-- The state of a section that is chosen. -/
def chosenState (x : Sec) : SecState := if x.state = .dirty then .dCandidate else .cCandidate

/-- The next step of `bg_ev_t` and `__collect_victims`; no step is a spin or a
failed assertion. -/
def collect (s : State) : Option State :=
  match s.collector with
  | .poll => some (s.setCollector (if s.haveVictims = 0 then .reset else .poll))
  | .reset => some { s with candidates := 0, collector := .measure }
  | .measure =>
    some (s.setCollector (if p.build.grainPerPage * 10 < s.dist then .publish else .dequeue 0))
  | .dequeue n =>
    match s.fifo with
    | [] => some (s.setCollector .recheck)
    | i :: fifo =>
      -- the section dequeued after the last turn of the loop is not looked at
      some { s with fifo := fifo, collector := if n < maxSearch then .lock n i else .recheck }
  | .lock n i =>
    if (s.secs i).outgoing = none then some ((s.acquire i .collector).setCollector (.mark n i))
    else none
  | .mark n i =>
    if Chosen (s.secs i) then none
    else some ((s.setSec i { s.secs i with state := chosenState (s.secs i) }).setCollector (.push n i))
  | .push n i => some ((s.pushRing i).setCollector (.count n i))
  | .count n i =>
    some { s with candidates := s.candidates + grains p (s.secs i), collector := .check n i }
  | .check n i =>
    some (s.setCollector (.unlock n i (decide (p.build.grainPerPage ≤ s.candidates))))
  | .unlock n i stop =>
    some ((s.release i).setCollector (if stop then .recheck else .dequeue (n + 1)))
  | .recheck =>
    some (s.setCollector (if s.candidates < p.build.grainPerPage then .dequeue 0 else .publish))
  | .publish => some { s with haveVictims := 1, collector := .poll }

/-! ### The dispatcher -/

/-- What the dispatcher begins between two accesses. -/
inductive Begin where
  | acquire (i : ℕ)
  | pass (i : ℕ)
  | release (i : ℕ)
  | load (i : ℕ)
  | dirty (i : ℕ)
  | expand (i : ℕ)
  | evict

/-- The section part of `__get_one`: a section without memory is used for the
first time. -/
def loaded (x : Sec) : Sec :=
  if x.hasMem then { x with cached := true }
  else
    { x with
      cached := true, hasMem := true, state := .clean, cnt := origGlen - rootG
      lenOnDisk := match p.build with
        | .original => p.build.grainPerPage
        | .plus => origGlen }

/-- The dispatcher holds the lock of the section. -/
def Holds (s : State) (i : ℕ) : Prop := (s.secs i).outgoing = some .dispatcher

instance (s : State) (i : ℕ) : Decidable (Holds s i) :=
  inferInstanceAs (Decidable ((s.secs i).outgoing = some .dispatcher))

/-- `__mark_dirty`. -/
def State.markDirty (s : State) (i : ℕ) : State :=
  s.setSec i { s.secs i with state := Cache.dirtied (s.secs i).state }

/-- The dispatcher begins an access. An expansion is for sections shorter than a
page (Plus). -/
def begin (s : State) : Begin → Option State
  | .acquire i =>
    if (s.secs i).outgoing = none then some (s.acquire i .dispatcher) else none
  | .pass i => if Holds s i then some (s.acquire i .worker) else none
  | .release i => if Holds s i then some (s.release i) else none
  | .load i =>
    if Holds s i ∧ (s.secs i).cached = false then
      some ((s.setSec i (loaded p (s.secs i))).setDispatcher (.enqueue i))
    else none
  | .dirty i =>
    if Holds s i ∧ (s.secs i).cached = true then some (s.markDirty i) else none
  | .expand i =>
    if Holds s i ∧ (s.secs i).cached = true ∧ p.build = .plus ∧
        (s.secs i).lenOnDisk < p.build.grainPerPage then
      some ((s.setSec i { s.secs i with lenOnDisk := (s.secs i).lenOnDisk + 1 }).setDispatcher
        (.grow i))
    else none
  | .evict =>
    if s.haveVictims = 1 then some { s with haveVictims := 2, dispatcher := .evLoop 0 0 } else none

/-- The growth of a section on the shadow list is charged at once. -/
def State.chargeGrowth (s : State) (i : ℕ) : State :=
  { s.addCached 1 with growth := if i ∈ s.pending then s.growth + 1 else s.growth }

/-- An expansion counts for the collector if the section is chosen, and makes
the section dirty. -/
def State.countGrowth (s : State) (i : ℕ) : State :=
  { s.setSec i { s.secs i with state := Cache.dirtied (s.secs i).state } with
    candidates := if Chosen (s.secs i) then s.candidates + 1 else s.candidates }

/-- `twolevel_expand`. -/
def State.addLeaf (s : State) (i : ℕ) : State :=
  s.setSec i { s.secs i with cnt := (s.secs i).cnt + 1 }

/-- The victim leaves the cache. -/
def State.dropVictim (s : State) (i : ℕ) : State :=
  s.setSec i { s.secs i with cached := false, state := .clean, outgoing := none }

/-- A dirty victim is written: in Plus its length on flash is its length now. -/
def State.writeVictim (s : State) (i : ℕ) : State :=
  s.setSec i { s.secs i with
    lenOnDisk := match p.build with
      | .original => (s.secs i).lenOnDisk
      | .plus => grains p (s.secs i) }

/-- The victim at the tail of the ring fits on the page, or a new page is begun
and the victim is read again. -/
def evFit (s : State) (evicted grain i : ℕ) : Option State :=
  let gLen := grains p (s.secs i)
  if gLen ≤ p.build.grainPerPage then
    if (s.secs i).state = .dCandidate ∧ p.build.grainPerPage < grain + gLen then
      some (s.setDispatcher (.evRead evicted 0 true))
    else some (s.setDispatcher (.evPop evicted grain i))
  else none

/-- The victim is taken from the ring and written if it is dirty. -/
def evPop (s : State) (evicted grain i : ℕ) : State :=
  let gLen := grains p (s.secs i)
  if (s.secs i).state = .dCandidate then
    (s.popRing.writeVictim p i).setDispatcher (.evDrop evicted (grain + gLen) i gLen)
  else s.popRing.setDispatcher (.evDrop evicted grain i gLen)

/-- The next step of the dispatcher in `__get_one`, `__expand_map_entry` or
`__evict_one`. -/
def dispatch (s : State) : Option State :=
  match s.dispatcher with
  | .idle => none
  | .enqueue i => some ((s.fifoEnqueue i).setDispatcher (.charge i))
  | .charge i => some ((s.addCached (s.secs i).lenOnDisk).setDispatcher .idle)
  | .grow i => some ((s.chargeGrowth i).setDispatcher (.count i))
  | .count i => some ((s.countGrowth i).setDispatcher (.expand i (decide (Chosen (s.secs i)))))
  | .expand i _ => some ((s.addLeaf i).setDispatcher .idle)
  | .evLoop evicted grain =>
    some (s.setDispatcher
      (if p.maxCached - p.build.grainPerPage < s.nrCached then .evRead evicted grain false
      else .evEnd))
  | .evRead evicted grain locked =>
    let i := s.hts s.tail
    let grain := if grain = p.build.grainPerPage then 0 else grain
    if (s.secs i).hasMem = true ∧ Chosen (s.secs i) then
      some (s.setDispatcher (if locked then .evFit evicted grain i else .evLock evicted grain i))
    else none
  | .evLock evicted grain i =>
    if (s.secs i).outgoing = none then
      some ((s.acquire i .dispatcher).setDispatcher (.evFit evicted grain i))
    else none
  | .evFit evicted grain i => evFit p s evicted grain i
  | .evPop evicted grain i => some (evPop p s evicted grain i)
  | .evDrop evicted grain i gLen =>
    some ((s.addCached (-(gLen : ℤ))).setDispatcher (.evClean (evicted + gLen) grain i))
  | .evClean evicted grain i =>
    some ((s.dropVictim i).setDispatcher
      (if p.build.grainPerPage ≤ evicted then .evEnd else .evLoop evicted grain))
  | .evEnd => some { s with haveVictims := 0, dispatcher := .idle }

/-! ### The garbage collector -/

/-- What the garbage collector does with a section: it locks it, reads it into
the shadow list if it is not cached, marks it dirty if a pair of it is wiped
(`__update_map`), unlocks it; after a flash page it puts the shadow list on the
FIFO. -/
inductive GcAct where
  | acquire (i : ℕ)
  | shadow
  | dirty
  | release
  | flush
  | next

/-- A section that is not cached is put on the shadow list. -/
def State.shadowRead (s : State) (i : ℕ) : State :=
  { s.setSec i { s.secs i with cached := true } with shadow := s.shadow ++ [i] }

/-- A step of the garbage collector. -/
def collectGarbage (s : State) : GcAct → Option State
  | .acquire i =>
    if s.gc = .idle ∧ (s.secs i).outgoing = none then some ((s.acquire i .gc).setGc (.held i))
    else none
  | .shadow =>
    match s.gc with
    | .held i =>
      if (s.secs i).cached = false ∧ (s.secs i).hasMem = true then some (s.shadowRead i) else none
    | _ => none
  | .dirty =>
    match s.gc with
    | .held i => if (s.secs i).cached = true then some (s.markDirty i) else none
    | _ => none
  | .release =>
    match s.gc with
    | .held i => some ((s.release i).setGc .idle)
    | _ => none
  | .flush => if s.gc = .idle then some (s.setGc (.flush 0)) else none
  | .next =>
    match s.gc with
    | .flush k =>
      match s.shadow[k]? with
      | some i =>
        if (s.secs i).outgoing = none then some ((s.acquire i .gc).setGc (.enqueue k i)) else none
      | none => some { s with shadow := [], growth := 0, gc := .idle }
    | .enqueue k i => some ((s.fifoEnqueue i).setGc (.charge k i))
    | .charge k i => some ((s.addCached (s.secs i).lenOnDisk).setGc (.unlock k i))
    | .unlock k i => some ((s.release i).setGc (.flush (k + 1)))
    | _ => none

/-! ### The system -/

/-- Who moves. `callback` is the callback of a completed command, which unlocks
its section. -/
inductive Event where
  | collector
  | begin (b : Begin)
  | dispatcher
  | gc (a : GcAct)
  | callback (i : ℕ)

/-- A step of the system, if the thread that is to move can. -/
def step (s : State) : Event → Option State
  | .collector => collect p s
  | .begin b => if s.dispatcher = .idle then begin p s b else none
  | .dispatcher => dispatch p s
  | .gc a => collectGarbage s a
  | .callback i =>
    if (s.secs i).outgoing = some .worker then some (s.release i) else none

/-- The states a run can reach. -/
inductive Reaches (s : State) : State → Prop where
  | start : Reaches s s
  | step {t u : State} {e : Event} : Reaches s t → step p t e = some u → Reaches s u

end Virtkv.Evict
