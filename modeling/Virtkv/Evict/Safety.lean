import Virtkv.Evict.Serve

/-!
# The hand-off of victims is safe

The eviction reads the slot at the tail of the ring without looking whether the
ring is empty. From an empty ring, in every state the threads can reach, the
slot it is about to read was filled by the collector and not read before, the
section in it is chosen for eviction, no unread slot was overwritten and no
section is on the ring twice.

## Main results

- `handOff_safe` — the ring is read as it was filled, in every run
-/

namespace Virtkv.Evict

variable {p : Params} {s t : State}

/-- Nothing is chosen, on the ring or under way; the sections on the FIFO are
cached. Anything may be locked, and for any reason. -/
structure Start (s : State) : Prop where
  ring : Ring.Holds victimRbSz s.hts s.head s.tail s.filled s.consumed
  empty : s.consumed = s.filled.length
  fifo : s.fifo.Nodup
  cached : ∀ i ∈ s.fifo, (s.secs i).cached = true ∧ (s.secs i).hasMem = true
  chosen : ∀ i, ¬Chosen (s.secs i)
  shadow : s.shadow = []
  collector : s.collector = .poll
  dispatcher : s.dispatcher = .idle
  gc : s.gc = .idle
  haveVictims : s.haveVictims = 0

theorem Start.unread (h : Start s) : s.unread = [] := by
  rw [State.unread, h.empty]
  exact List.drop_length ..

theorem Start.known (h : Start s) : s.known = s.fifo := by
  rw [State.known, h.unread, show s.hand = [] by rw [State.hand, h.collector],
    show s.taken = [] by rw [State.taken, h.dispatcher],
    show s.entering = [] by rw [State.entering, h.dispatcher],
    show s.pending = [] by rw [State.pending, h.gc]; exact h.shadow]
  simp

theorem Start.inv (h : Start s) : Inv p s where
  ring := h.ring
  short := by
    rw [h.unread]
    exact Nat.zero_le _
  locks := by
    refine ⟨?_, ?_, ?_⟩
    · rw [h.collector]
      trivial
    · rw [h.dispatcher]
      trivial
    · rw [h.gc]
      trivial
  placed := by
    refine ⟨?_, ?_, ?_, ?_⟩
    · rw [h.known]
      exact h.fifo
    · rw [h.known]
      exact h.cached
    · intro i
      rw [h.unread, show s.taken = [] by rw [State.taken, h.dispatcher],
        show s.marked = [] by rw [State.marked, h.collector]]
      simp [h.chosen i]
    · rw [h.gc]
      trivial
  counted := by
    rw [Counted, h.collector]
    trivial
  evicting := by
    rw [Evicting, h.dispatcher, h.haveVictims]
    exact ⟨by decide, fun hx => absurd hx (by decide)⟩
  growing := by
    rw [Growing, h.dispatcher]
    trivial
  flag := by
    rw [h.haveVictims]
    exact Nat.zero_le _
  reset := fun _ => h.haveVictims

theorem Inv.reaches (h : Inv p s) (hr : Reaches p s t) : Inv p t := by
  induction hr with
  | start => exact h
  | step _ hs ih => exact ih.step hs

/-- In every state of every run that starts with an empty ring: the reader is not
ahead of the writer, fewer than `VICTIM_RB_SZ` sections are unread and every one
of them is still in its slot, none is there twice, and a section that an eviction
reads is unread and chosen. -/
theorem handOff_safe (p : Params) (s t : State) (h : Start s) (hr : Reaches p s t) :
    t.tail = t.consumed % victimRbSz ∧ t.head = t.filled.length % victimRbSz ∧
    t.consumed ≤ t.filled.length ∧ t.filled.length - t.consumed < victimRbSz ∧
    (∀ k, t.consumed ≤ k → (hk : k < t.filled.length) → t.hts (k % victimRbSz) = t.filled[k]) ∧
    (t.filled.drop t.consumed).Nodup ∧
    ∀ evicted grain locked, t.dispatcher = .evRead evicted grain locked →
      t.consumed < t.filled.length ∧
      ((t.secs (t.hts t.tail)).state = .cCandidate ∨
        (t.secs (t.hts t.tail)).state = .dCandidate) := by
  have hinv : Inv p t := h.inv.reaches hr
  refine ⟨hinv.ring.tail_eq, hinv.ring.head_eq, hinv.ring.taken_le, hinv.ring.unread_lt,
    hinv.ring.slot, hinv.placed.unread_nodup, ?_⟩
  intro evicted grain locked hpc
  have hev := hinv.evicting
  rw [Evicting, hpc] at hev
  obtain ⟨hlt, hhead⟩ := hinv.head_unread (by omega)
  refine ⟨hlt, (hinv.placed.chosen _).mpr (.inl ?_)⟩
  exact List.mem_of_head? hhead

/-! ### A run -/

/-- The state after some steps, if they can all be made. -/
def run (p : Params) : State → List Event → Option State
  | s, [] => some s
  | s, e :: es => (step p s e).bind fun u => run p u es

theorem reaches_of_run (es : List Event) (hs : run p s es = some t) : Reaches p s t := by
  suffices hall : ∀ u, Reaches p s u → run p u es = some t → Reaches p s t from
    hall s .start hs
  clear hs
  induction es with
  | nil =>
    intro u hu hrun
    cases hrun
    exact hu
  | cons e es ih =>
    intro u hu hrun
    rw [run, Option.bind_eq_some_iff] at hrun
    obtain ⟨v, hv, hrun⟩ := hrun
    exact ih v (.step hu hv) hrun

/-- Sections with memory, not locked; the first one is cached. -/
def oneCached : State where
  secs i := { state := .clean, cached := i = 0, hasMem := true, cnt := 60, lenOnDisk := 64,
              outgoing := none }
  fifo := [0]
  hts _ := 0
  head := 0
  tail := 0
  candidates := 0
  haveVictims := 0
  nrCached := 64
  shadow := []
  collector := .poll
  dispatcher := .idle
  gc := .idle
  filled := []
  consumed := 0
  growth := 0

theorem start_oneCached : Start oneCached where
  ring := Ring.holds_empty (by decide) _
  empty := rfl
  fifo := List.nodup_singleton 0
  cached := by
    intro i hi
    rw [List.mem_singleton.mp hi]
    exact ⟨rfl, rfl⟩
  chosen := by
    rintro i (h | h) <;> cases h
  shadow := rfl
  collector := rfl
  dispatcher := rfl
  gc := rfl
  haveVictims := rfl

/-- A cache of two pages of grains (Plus). -/
def twoPages : Params where
  build := .plus
  maxCached := 100

/-- The collector takes the section while the dispatcher makes it dirty, and an
eviction is about to read it. -/
def collectOne : List Event :=
  List.replicate 3 .collector ++ [.begin (.acquire 0), .begin (.dirty 0), .begin (.release 0)] ++
    List.replicate 9 .collector ++ [.begin .evict, .dispatcher]

theorem handOff_safe_collectOne : ∃ t, run twoPages oneCached collectOne = some t ∧
    t.dispatcher = .evRead 0 0 false ∧ t.filled = [0] ∧
    ((t.secs (t.hts t.tail)).state = .cCandidate ∨ (t.secs (t.hts t.tail)).state = .dCandidate) := by
  refine ⟨_, rfl, rfl, rfl, ?_⟩
  exact ((handOff_safe twoPages oneCached _ start_oneCached
    (reaches_of_run collectOne rfl)).2.2.2.2.2.2 0 0 false rfl).2

end Virtkv.Evict
