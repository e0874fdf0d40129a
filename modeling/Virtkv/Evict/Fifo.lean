import Virtkv.Evict.Safety

/-!
# The FIFO of the cache

The FIFO is a ring buffer of pointers, written at `head` and read at `tail`. The threads see
of it what `fifo_dequeue` returns and nothing else. A run of the threads on the ring is a run
of the threads on the list of the sections in it.

## Main definitions

- `RingBuffer` — `struct ring_buffer` with its functions
- `stepOn` — a step of the threads on a ring buffer

## Main results

- `Follows.stepOn` — steps on the ring are steps on the list
-/

namespace Virtkv

/-- `struct ring_buffer`. -/
structure RingBuffer (α : Type*) where
  buffer : ℕ → α
  head : ℕ
  tail : ℕ

namespace RingBuffer

variable {α : Type*} (rb : RingBuffer α)

/-- `rb_init`. -/
def init : RingBuffer α := { rb with head := 0, tail := 0 }

/-- `rb_is_full`. -/
def isFull : Bool := (rb.head + 1) % ringBufferSize == rb.tail

/-- `rb_is_empty`. -/
def isEmpty : Bool := rb.head == rb.tail

/-- `rb_push`. -/
def push (data : α) : ℤ × RingBuffer α :=
  if rb.isFull then (-1, rb)
  else
    (0, { rb with
      buffer := Function.update rb.buffer rb.head data
      head := (rb.head + 1) % ringBufferSize })

/-- `rb_pop`. -/
def pop : Option α × RingBuffer α :=
  if rb.isEmpty then (none, rb)
  else (some (rb.buffer rb.tail), { rb with tail := (rb.tail + 1) % ringBufferSize })

/-- `fifo_enqueue`: what `rb_push` returns is not looked at. -/
def fifoEnqueue (data : α) : RingBuffer α := (rb.push data).2

/-- `fifo_dequeue`. -/
def fifoDequeue : Option α × RingBuffer α := if rb.isEmpty then (none, rb) else rb.pop

/-! ### The ring as a queue -/

/-- The values in the ring, the oldest first. -/
def Contains (l : List α) : Prop := Ring.Contains ringBufferSize rb.buffer rb.head rb.tail l

variable {rb} {l : List α} {x : α}

theorem contains_init : rb.init.Contains [] := Ring.contains_empty (by decide) rb.buffer

theorem Contains.isEmpty_iff (h : rb.Contains l) : rb.isEmpty = true ↔ l = [] := by
  rw [isEmpty, beq_iff_eq]
  exact h.empty_iff

theorem Contains.isFull_iff (h : rb.Contains l) :
    rb.isFull = true ↔ l.length + 1 = ringBufferSize := by
  rw [isFull, beq_iff_eq]
  exact h.full_iff

theorem Contains.push_eq_zero_iff (h : rb.Contains l) (x : α) :
    (rb.push x).1 = 0 ↔ l.length + 1 ≠ ringBufferSize := by
  rw [push, ne_eq, ← h.isFull_iff]
  split
  · rename_i hfull
    exact ⟨fun hc => absurd (show (-1 : ℤ) = 0 from hc) (by decide), fun hc => absurd hfull hc⟩
  · rename_i hfull
    exact ⟨fun _ => hfull, fun _ => rfl⟩

/-- A full ring drops the value. -/
theorem Contains.fifoEnqueue (h : rb.Contains l) (x : α) : (rb.fifoEnqueue x).Contains
    (if l.length + 1 = ringBufferSize then l else l ++ [x]) := by
  rw [RingBuffer.fifoEnqueue, push]
  by_cases hfull : l.length + 1 = ringBufferSize
  · rw [if_pos (h.isFull_iff.mpr hfull), if_pos hfull]
    exact h
  · rw [if_neg (mt h.isFull_iff.mp hfull), if_neg hfull]
    have hlt := h.length_lt
    exact h.push x (by omega)

theorem Contains.fifoDequeue (h : rb.Contains l) :
    rb.fifoDequeue.1 = l.head? ∧ rb.fifoDequeue.2.Contains l.tail := by
  rw [RingBuffer.fifoDequeue]
  cases l with
  | nil =>
    rw [if_pos (h.isEmpty_iff.mpr rfl)]
    exact ⟨rfl, h⟩
  | cons x l =>
    have hne : ¬rb.isEmpty = true := mt h.isEmpty_iff.mp (List.cons_ne_nil x l)
    obtain ⟨hx, hrest⟩ := Ring.Contains.pop h
    rw [if_neg hne, pop, if_neg hne]
    exact ⟨congrArg some hx, hrest⟩

end RingBuffer

namespace Evict

variable {p : Params} {s s' t : State} {rb rb' : RingBuffer ℕ} {e : Event}

/-! ### The threads on the ring -/

/-- A call of the FIFO. -/
inductive FifoCall where
  | enqueue (i : ℕ)
  | dequeue

/-- The call of the FIFO a step makes. -/
def State.fifoCall (s : State) : Event → Option FifoCall
  | .collector =>
    match s.collector with
    | .dequeue _ => some .dequeue
    | _ => none
  | .dispatcher =>
    match s.dispatcher with
    | .enqueue i => some (.enqueue i)
    | _ => none
  | .gc .next =>
    match s.gc with
    | .enqueue _ i => some (.enqueue i)
    | _ => none
  | _ => none

/-- The ring after a call, with the section that was dequeued. -/
def FifoCall.on (rb : RingBuffer ℕ) : Option FifoCall → Option ℕ × RingBuffer ℕ
  | none => (none, rb)
  | some (.enqueue i) => (none, rb.fifoEnqueue i)
  | some .dequeue => rb.fifoDequeue

/-- The state without the list. -/
def State.unlisted (s : State) : State := { s with fifo := [] }

/-- A step of the threads on a ring buffer. All the threads see of the FIFO is the section
that was dequeued. -/
def stepOn (p : Params) (s : State) (rb : RingBuffer ℕ) (e : Event) :
    Option (State × RingBuffer ℕ) :=
  let (v, rb) := FifoCall.on rb (s.fifoCall e)
  (step p { s with fifo := v.toList } e).map fun s => (s.unlisted, rb)

/-- The ring holds the list of the state. -/
structure Follows (s : State) (c : State × RingBuffer ℕ) : Prop where
  same : c.1 = s.unlisted
  contains : c.2.Contains s.fifo

/-! ### Steps that do not use the FIFO -/

/-- The state with another list. -/
def State.relist (s : State) (l : List ℕ) : State := { s with fifo := l }

theorem relist_ite (l : List ℕ) (P : Prop) [Decidable P] (a b : Option State) :
    (if P then a else b).map (·.relist l) = if P then a.map (·.relist l) else b.map (·.relist l) :=
  apply_ite _ P a b

theorem collect_relist (p : Params) (s : State) (l : List ℕ) (hpc : s.fifoCall .collector = none) :
    collect p (s.relist l) = (collect p s).map (·.relist l) := by
  have hpc' : (s.relist l).collector = s.collector := rfl
  unfold collect
  rw [hpc']
  cases h : s.collector with
  | dequeue n =>
    rw [State.fifoCall, h] at hpc
    cases hpc
  | lock n i =>
    dsimp only
    rw [relist_ite]
    rfl
  | mark n i =>
    dsimp only
    rw [relist_ite]
    rfl
  | _ => rfl

theorem begin_relist (p : Params) (s : State) (l : List ℕ) (b : Begin) :
    begin p (s.relist l) b = (begin p s b).map (·.relist l) := by
  unfold begin
  cases b <;> dsimp only <;> rw [relist_ite] <;> rfl

theorem dispatch_relist (p : Params) (s : State) (l : List ℕ)
    (hpc : s.fifoCall .dispatcher = none) :
    dispatch p (s.relist l) = (dispatch p s).map (·.relist l) := by
  have hpc' : (s.relist l).dispatcher = s.dispatcher := rfl
  unfold dispatch
  rw [hpc']
  cases h : s.dispatcher with
  | enqueue i =>
    rw [State.fifoCall, h] at hpc
    cases hpc
  | evRead evicted grain locked =>
    dsimp only
    rw [relist_ite]
    rfl
  | evLock evicted grain i =>
    dsimp only
    rw [relist_ite]
    rfl
  | evFit evicted grain i =>
    dsimp only [evFit]
    rw [relist_ite, relist_ite]
    rfl
  | evPop evicted grain i =>
    dsimp only [evPop]
    rw [Option.map_some, apply_ite (State.relist · l)]
    rfl
  | _ => rfl

theorem collectGarbage_relist (s : State) (l : List ℕ) (a : GcAct)
    (hpc : s.fifoCall (.gc a) = none) :
    collectGarbage (s.relist l) a = (collectGarbage s a).map (·.relist l) := by
  have hpc' : (s.relist l).gc = s.gc := rfl
  unfold collectGarbage
  cases a with
  | next =>
    rw [hpc']
    cases h : s.gc with
    | enqueue k i =>
      rw [State.fifoCall, h] at hpc
      cases hpc
    | flush k =>
      dsimp only
      rw [show (s.relist l).shadow = s.shadow from rfl]
      cases s.shadow[k]? with
      | none => rfl
      | some i =>
        dsimp only
        rw [relist_ite]
        rfl
    | _ => rfl
  | shadow =>
    rw [hpc']
    cases h : s.gc with
    | held i =>
      dsimp only
      rw [relist_ite]
      rfl
    | _ => rfl
  | dirty =>
    rw [hpc']
    cases h : s.gc with
    | held i =>
      dsimp only
      rw [relist_ite]
      rfl
    | _ => rfl
  | release =>
    rw [hpc']
    cases h : s.gc <;> rfl
  | _ =>
    dsimp only
    rw [relist_ite]
    rfl

/-- A step that does not call the FIFO neither reads nor changes it. -/
theorem step_relist (p : Params) (s : State) (l : List ℕ) (e : Event) (hpc : s.fifoCall e = none) :
    step p (s.relist l) e = (step p s e).map (·.relist l) := by
  cases e with
  | collector => exact collect_relist p s l hpc
  | begin b =>
    rw [step, step, begin_relist, relist_ite]
    rfl
  | dispatcher => exact dispatch_relist p s l hpc
  | gc a => exact collectGarbage_relist s l a hpc
  | callback i =>
    rw [step, step, relist_ite]
    rfl

/-! ### Steps on the ring -/

theorem fifoCall_relist (s : State) (l : List ℕ) (e : Event) :
    (s.relist l).fifoCall e = s.fifoCall e := by
  cases e with
  | gc a => cases a <;> rfl
  | _ => rfl

theorem fifo_of_step (hpc : s.fifoCall e = none) (hs : step p s e = some s') :
    s'.fifo = s.fifo := by
  have h := step_relist p s s.fifo e hpc
  rw [show s.relist s.fifo = s from rfl, hs, Option.map_some, Option.some_inj] at h
  rw [h]
  rfl

theorem unlisted_fifoEnqueue (s : State) (l : List ℕ) (i : ℕ) :
    ((s.relist l).fifoEnqueue i).unlisted = s.unlisted := by
  rw [State.fifoEnqueue]
  split <;> rfl

theorem fifo_fifoEnqueue (s : State) (i : ℕ) : (s.fifoEnqueue i).fifo =
    if s.fifo.length + 1 = ringBufferSize then s.fifo else s.fifo ++ [i] := by
  rw [State.fifoEnqueue]
  split <;> rfl

/-- The step of a thread that puts a section on the FIFO. -/
theorem step_of_enqueue {i : ℕ} (hpc : s.fifoCall e = some (.enqueue i)) :
    ∃ f : State → State, (∀ u l, (f u).relist l = f (u.relist l)) ∧ (∀ u, (f u).fifo = u.fifo) ∧
      ∀ l, step p (s.relist l) e = some (f ((s.relist l).fifoEnqueue i)) := by
  cases e with
  | collector =>
    rw [State.fifoCall] at hpc
    split at hpc <;> cases hpc
  | begin b => cases hpc
  | dispatcher =>
    rw [State.fifoCall] at hpc
    split at hpc
    · rename_i hd
      cases hpc
      refine ⟨fun u => u.setDispatcher (.charge i), fun _ _ => rfl, fun _ => rfl, fun l => ?_⟩
      have hd' : (s.relist l).dispatcher = .enqueue i := hd
      rw [step, dispatch, hd']
    · cases hpc
  | gc a =>
    cases a with
    | next =>
      rw [State.fifoCall] at hpc
      split at hpc
      · rename_i k j hd
        cases hpc
        refine ⟨fun u => u.setGc (.charge k i), fun _ _ => rfl, fun _ => rfl, fun l => ?_⟩
        have hd' : (s.relist l).gc = .enqueue k i := hd
        rw [step, collectGarbage, hd']
      · cases hpc
    | _ => cases hpc
  | callback i => cases hpc

/-- The step of the collector that takes a section from the FIFO. -/
theorem step_of_dequeue (hpc : s.fifoCall e = some .dequeue) :
    ∃ f : Option ℕ → State, ∀ l, step p (s.relist l) e = some ((f l.head?).relist l.tail) := by
  cases e with
  | collector =>
    rw [State.fifoCall] at hpc
    split at hpc
    · rename_i n hd
      refine ⟨fun v => v.elim (s.unlisted.setCollector .recheck) fun i =>
        s.unlisted.setCollector (if n < maxSearch then .lock n i else .recheck), fun l => ?_⟩
      have hd' : (s.relist l).collector = .dequeue n := hd
      rw [step, collect, hd']
      cases l <;> rfl
    · cases hpc
  | begin b => cases hpc
  | dispatcher =>
    rw [State.fifoCall] at hpc
    split at hpc <;> cases hpc
  | gc a =>
    cases a with
    | next =>
      rw [State.fifoCall] at hpc
      split at hpc <;> cases hpc
    | _ => cases hpc
  | callback i => cases hpc

/-- The threads can make a step on the ring if and only if they can make it on the list, and
the ring holds the list afterwards. -/
theorem Follows.stepOn {c : State × RingBuffer ℕ} (h : Follows s c) (e : Event) :
    ∃ rb, (Evict.stepOn p c.1 c.2 e = (step p s e).map fun s' => (s'.unlisted, rb)) ∧
      ∀ s', step p s e = some s' → rb.Contains s'.fifo := by
  obtain ⟨hsame, hcont⟩ := h
  have hcall : c.1.fifoCall e = s.fifoCall e := by
    rw [hsame]
    exact fifoCall_relist s [] e
  rw [Evict.stepOn, hcall, hsame]
  dsimp only
  change ∃ rb, ((step p (s.relist _) e).map fun s' => (s'.unlisted, _)) = _ ∧ _
  have hs : s.relist s.fifo = s := rfl
  cases hpc : s.fifoCall e with
  | none =>
    refine ⟨c.2, ?_, fun s' hs' => ?_⟩
    · rw [step_relist p s _ e hpc, Option.map_map]
      rfl
    · rw [fifo_of_step hpc hs']
      exact hcont
  | some call =>
    cases call with
    | enqueue i =>
      obtain ⟨f, hf, hfifo, hstep⟩ := step_of_enqueue (p := p) hpc
      have hmine := hstep s.fifo
      rw [hs] at hmine
      refine ⟨c.2.fifoEnqueue i, ?_, fun s' hs' => ?_⟩
      · rw [hstep, hmine]
        have hunl : ∀ u, (f u).unlisted = f u.unlisted := fun u => hf u []
        change some ((f _).unlisted, _) = some ((f _).unlisted, _)
        rw [hunl, hunl, unlisted_fifoEnqueue, ← hs, unlisted_fifoEnqueue]
        rfl
      · rw [hmine] at hs'
        cases hs'
        rw [hfifo, fifo_fifoEnqueue]
        exact hcont.fifoEnqueue i
    | dequeue =>
      obtain ⟨f, hstep⟩ := step_of_dequeue (p := p) hpc
      have hmine := hstep s.fifo
      rw [hs] at hmine
      obtain ⟨hv, htail⟩ := hcont.fifoDequeue
      refine ⟨c.2.fifoDequeue.2, ?_, fun s' hs' => ?_⟩
      · rw [show (FifoCall.on c.2 (some .dequeue)).1 = s.fifo.head? from hv, hstep, hmine]
        cases s.fifo <;> rfl
      · rw [hmine] at hs'
        cases hs'
        exact htail

end Evict

end Virtkv
