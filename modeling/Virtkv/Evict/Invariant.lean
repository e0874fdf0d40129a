import Mathlib.Data.List.Perm.Basic
import Mathlib.Algebra.BigOperators.Group.List.Basic
import Virtkv.Evict.Defs
import Virtkv.Lib.Ring

/-!
# The invariant of the shared cache

Every section that some thread knows of is in one place: on the FIFO, in the
hand of the collector, unread on the ring, taken by an eviction, on its way to
the FIFO or on the shadow list. A section is chosen exactly if it is unread on
the ring, or between being marked and pushed, or between being popped and
dropped.

The consumer of the ring does not look whether it is empty. What protects it is
that the grains on the ring are at least a page whenever `have_victims` is set:
`candidates` never exceeds them, up to an expansion that has counted its new
grain and not yet grown the table.

## Main definitions

- `State.unread`, `State.hand`, `State.taken`, `State.entering` — the places
- `Inv` — the invariant

## Main results

- `Inv.step` — every step keeps the invariant
-/

namespace Virtkv.Evict

/-! ### Places -/

namespace State

/-- The sections on the ring that were not read yet. -/
def unread (s : State) : List ℕ := s.filled.drop s.consumed

/-- The section the collector has taken from the FIFO and not yet put on the ring. -/
def hand (s : State) : List ℕ :=
  match s.collector with
  | .lock _ i => [i]
  | .mark _ i => [i]
  | .push _ i => [i]
  | _ => []

/-- The section the collector has marked and not yet put on the ring. -/
def marked (s : State) : List ℕ :=
  match s.collector with
  | .push _ i => [i]
  | _ => []

/-- The victim the dispatcher has taken from the ring and not yet dropped. -/
def taken (s : State) : List ℕ :=
  match s.dispatcher with
  | .evDrop _ _ i _ => [i]
  | .evClean _ _ i => [i]
  | _ => []

/-- The section the dispatcher has loaded and not yet put on the FIFO. -/
def entering (s : State) : List ℕ :=
  match s.dispatcher with
  | .enqueue i => [i]
  | _ => []

/-- All sections some thread knows of. -/
def known (s : State) : List ℕ :=
  s.fifo ++ s.hand ++ s.unread ++ s.taken ++ s.entering ++ s.pending

end State

/-- The grains of a list of sections. -/
def total (g : ℕ → ℕ) (l : List ℕ) : ℕ := (l.map g).sum

variable (p : Params)

/-- The grains of the sections unread on the ring. -/
def State.ringGrains (s : State) : ℕ := total (fun i => grains p (s.secs i)) s.unread

/-- The grain an expansion has counted for the collector before the table has it. -/
def State.owed (s : State) : ℕ :=
  match s.dispatcher with
  | .expand _ true => 1
  | _ => 0

/-! ### The parts of the invariant -/

/-- The section the collector works on is locked for it. -/
def Collector.Locked (secs : ℕ → Sec) : Collector → Prop
  | .mark _ i | .push _ i | .count _ i | .check _ i | .unlock _ i _ =>
    (secs i).outgoing = some .collector
  | _ => True

/-- The section the dispatcher works on is locked for it; `victim` is the section
at the tail of the ring. -/
def Dispatcher.Locked (secs : ℕ → Sec) (victim : ℕ) : Dispatcher → Prop
  | .enqueue i | .charge i | .grow i | .count i | .expand i _ | .evFit _ _ i | .evPop _ _ i
  | .evDrop _ _ i _ | .evClean _ _ i => (secs i).outgoing = some .dispatcher
  | .evRead _ _ true => (secs victim).outgoing = some .dispatcher
  | _ => True

/-- The section the garbage collector works on is locked for it. -/
def Gc.Locked (secs : ℕ → Sec) : Gc → Prop
  | .held i | .enqueue _ i | .charge _ i | .unlock _ i => (secs i).outgoing = some .gc
  | _ => True

/-- The sections a thread works on are locked for it. -/
structure Locks (s : State) : Prop where
  collector : s.collector.Locked s.secs
  dispatcher : s.dispatcher.Locked s.secs (s.hts s.tail)
  gc : s.gc.Locked s.secs

/-- The garbage collector works on the section of the shadow list it has reached. -/
def Gc.Flushes (shadow : List ℕ) : Gc → Prop
  | .enqueue k i | .charge k i | .unlock k i => shadow[k]? = some i
  | _ => True

/-- The places of the sections. -/
structure Placed (s : State) : Prop where
  nodup : s.known.Nodup
  cached : ∀ i ∈ s.known, (s.secs i).cached = true ∧ (s.secs i).hasMem = true
  chosen : ∀ i, Chosen (s.secs i) ↔ i ∈ s.unread ∨ i ∈ s.taken ∨ i ∈ s.marked
  gc : s.gc.Flushes s.shadow

/-- What the collector has counted in its round. -/
def Counted (s : State) : Prop :=
  match s.collector with
  | .poll | .reset => True
  | .measure => s.haveVictims = 0 ∧ s.candidates ≤ s.ringGrains p + s.owed
  | .dequeue n | .lock n _ | .mark n _ | .push n _ =>
    s.haveVictims = 0 ∧ s.candidates ≤ s.ringGrains p + s.owed ∧ n ≤ s.candidates ∧
      n < p.build.grainPerPage ∧ s.unread.length ≤ p.build.grainPerPage * 10 + s.candidates ∧
      s.unread.length < p.build.grainPerPage * 11
  | .count n i =>
    s.haveVictims = 0 ∧ s.candidates + grains p (s.secs i) ≤ s.ringGrains p + s.owed ∧
      n ≤ s.candidates ∧ i ∈ s.unread ∧
      s.unread.length ≤ p.build.grainPerPage * 10 + s.candidates + 1
  | .check n _ =>
    s.haveVictims = 0 ∧ s.candidates ≤ s.ringGrains p + s.owed ∧ n + 1 ≤ s.candidates ∧
      s.unread.length ≤ p.build.grainPerPage * 10 + s.candidates
  | .unlock n _ stop =>
    s.haveVictims = 0 ∧ s.candidates ≤ s.ringGrains p + s.owed ∧ n + 1 ≤ s.candidates ∧
      s.unread.length ≤ p.build.grainPerPage * 10 + s.candidates ∧
      (stop = false → n + 1 < p.build.grainPerPage ∧ s.unread.length < p.build.grainPerPage * 11)
  | .recheck =>
    s.haveVictims = 0 ∧ s.candidates ≤ s.ringGrains p + s.owed ∧
      s.unread.length ≤ p.build.grainPerPage * 10 + s.candidates
  | .publish => s.haveVictims = 0 ∧ p.build.grainPerPage ≤ s.ringGrains p + s.owed

/-- What an eviction still finds on the ring. -/
def Evicting (s : State) : Prop :=
  match s.dispatcher with
  | .evLoop evicted _ | .evRead evicted _ _ =>
    s.haveVictims = 2 ∧ evicted < p.build.grainPerPage ∧
      p.build.grainPerPage ≤ evicted + s.ringGrains p
  | .evLock evicted _ i | .evFit evicted _ i | .evPop evicted _ i =>
    s.haveVictims = 2 ∧ evicted < p.build.grainPerPage ∧
      p.build.grainPerPage ≤ evicted + s.ringGrains p ∧ s.unread.head? = some i
  | .evDrop evicted _ _ gLen =>
    s.haveVictims = 2 ∧ p.build.grainPerPage ≤ evicted + gLen + s.ringGrains p
  | .evClean evicted _ _ =>
    s.haveVictims = 2 ∧ p.build.grainPerPage ≤ evicted + s.ringGrains p
  | .evEnd => s.haveVictims = 2
  | _ => s.haveVictims ≠ 2 ∧ (s.haveVictims = 1 → p.build.grainPerPage ≤ s.ringGrains p + s.owed)

/-- Only tables of Plus grow; a section whose growth is counted is on the ring. -/
def Growing (s : State) : Prop :=
  match s.dispatcher with
  | .grow _ | .count _ | .expand _ false => p.build = .plus
  | .expand i true => p.build = .plus ∧ i ∈ s.unread
  | _ => True

/-- The invariant. -/
structure Inv (s : State) : Prop where
  ring : Ring.Holds victimRbSz s.hts s.head s.tail s.filled s.consumed
  short : s.unread.length ≤ p.build.grainPerPage * 11
  locks : Locks s
  placed : Placed s
  counted : Counted p s
  evicting : Evicting p s
  growing : Growing p s
  flag : s.haveVictims ≤ 2
  reset : s.collector = .reset → s.haveVictims = 0

/-! ### Transport -/

variable {p} {s s' : State}

theorem total_append (g : ℕ → ℕ) (l l' : List ℕ) : total g (l ++ l') = total g l + total g l' := by
  rw [total, List.map_append, List.sum_append]
  rfl

theorem total_cons (g : ℕ → ℕ) (i : ℕ) (l : List ℕ) : total g (i :: l) = g i + total g l := by
  rw [total, List.map_cons, List.sum_cons]
  rfl

theorem total_congr {g g' : ℕ → ℕ} {l : List ℕ} (h : ∀ i ∈ l, g i = g' i) :
    total g l = total g' l := by
  rw [total, List.map_congr_left h, total]

theorem length_le_total {g : ℕ → ℕ} {l : List ℕ} (h : ∀ i ∈ l, 1 ≤ g i) : l.length ≤ total g l := by
  induction l with
  | nil => exact Nat.le_refl _
  | cons x l ih =>
    have h1 := h x (List.mem_cons_self ..)
    have h2 := ih fun i hi => h i (List.mem_cons_of_mem _ hi)
    rw [total_cons, List.length_cons]
    omega

/-- One section of a list without repetitions has one grain more. -/
theorem total_succ {g g' : ℕ → ℕ} {l : List ℕ} {i : ℕ} (hn : l.Nodup) (hi : i ∈ l)
    (hg : g' i = g i + 1) (hs : ∀ j, j ≠ i → g' j = g j) : total g' l = total g l + 1 := by
  obtain ⟨a, b, rfl⟩ := List.append_of_mem hi
  have hperm : (a ++ i :: b).Perm (i :: (a ++ b)) := List.perm_middle
  have hni : i ∉ a ++ b := (List.nodup_cons.mp (hperm.nodup_iff.mp hn)).1
  have hsame : total g' (a ++ b) = total g (a ++ b) :=
    total_congr fun j hj => hs j fun hji => hni (hji ▸ hj)
  rw [total_append, total_append] at hsame
  rw [total_append, total_append, total_cons, total_cons, hg]
  omega

theorem grainPerPage_bounds (b : Build) : 8 ≤ b.grainPerPage ∧ b.grainPerPage ≤ 64 := by
  cases b <;> decide

theorem one_le_grains (x : Sec) : 1 ≤ grains p x := by
  have := (grainPerPage_bounds p.build).1
  unfold grains
  split
  · omega
  · exact Nat.le_trans (by decide) (Nat.le_add_right rootG x.cnt)

/-- The collector's account carries over when no more is counted than added. -/
theorem Counted.mono (h : Counted p s) (hpc : s'.collector = s.collector)
    (hv : s'.haveVictims = s.haveVictims) (hu : s'.unread = s.unread)
    (hle : s.candidates ≤ s'.candidates)
    (hg : s'.candidates + (s.ringGrains p + s.owed) ≤ s.candidates + (s'.ringGrains p + s'.owed))
    (hcount : ∀ n i, s.collector = .count n i → grains p (s'.secs i) = grains p (s.secs i)) :
    Counted p s' := by
  unfold Counted at h ⊢
  rw [hpc, hv, hu]
  cases hc : s.collector with
  | poll => trivial
  | reset => trivial
  | count n i =>
    rw [hc] at h
    dsimp only at h ⊢
    rw [hcount n i hc]
    obtain ⟨h1, h2, h3, h4, h5⟩ := h
    exact ⟨h1, by omega, by omega, h4, by omega⟩
  | unlock n i stop =>
    rw [hc] at h
    obtain ⟨h1, h2, h3, h4, h5⟩ := h
    exact ⟨h1, by omega, by omega, by omega, h5⟩
  | _ =>
    rw [hc] at h
    dsimp only at h ⊢
    omega

/-- What an eviction finds carries over when the ring only grows. -/
theorem Evicting.mono (h : Evicting p s) (hpc : s'.dispatcher = s.dispatcher)
    (hv : s'.haveVictims = s.haveVictims) (hg : s.ringGrains p ≤ s'.ringGrains p)
    (hhead : ∀ i, s.unread.head? = some i → s'.unread.head? = some i) : Evicting p s' := by
  have howed : s'.owed = s.owed := by rw [State.owed, State.owed, hpc]
  unfold Evicting at h ⊢
  rw [hpc, hv, howed]
  cases hc : s.dispatcher with
  | evLock e g i =>
    rw [hc] at h
    exact ⟨h.1, h.2.1, by have := h.2.2.1; omega, hhead i h.2.2.2⟩
  | evFit e g i =>
    rw [hc] at h
    exact ⟨h.1, h.2.1, by have := h.2.2.1; omega, hhead i h.2.2.2⟩
  | evPop e g i =>
    rw [hc] at h
    exact ⟨h.1, h.2.1, by have := h.2.2.1; omega, hhead i h.2.2.2⟩
  | _ =>
    rw [hc] at h
    dsimp only at h ⊢
    omega

theorem Growing.mono (h : Growing p s) (hpc : s'.dispatcher = s.dispatcher)
    (hu : ∀ i ∈ s.unread, i ∈ s'.unread) : Growing p s' := by
  unfold Growing at h ⊢
  rw [hpc]
  cases hc : s.dispatcher with
  | expand i b =>
    rw [hc] at h
    cases b with
    | true => exact ⟨h.1, hu i h.2⟩
    | false => exact h
  | grow i | count i =>
    rw [hc] at h
    exact h
  | _ => trivial

/-- The holder `o` keeps its locks. -/
def Keeps (o : Holder) (secs secs' : ℕ → Sec) : Prop :=
  ∀ i, (secs i).outgoing = some o → (secs' i).outgoing = some o

theorem keeps_update {o : Holder} {secs : ℕ → Sec} {i : ℕ} {x : Sec}
    (h : x.outgoing = (secs i).outgoing ∨ (secs i).outgoing ≠ some o) :
    Keeps o secs (Function.update secs i x) := by
  intro j hj
  by_cases hji : j = i
  · subst hji
    rw [Function.update_self]
    rcases h with h | h
    · rw [h]
      exact hj
    · exact absurd hj h
  · rw [Function.update_of_ne hji]
    exact hj

/-- Taking a free lock disturbs no holder. -/
theorem keeps_of_free {o : Holder} {i : ℕ} {x : Sec} (h : (s.secs i).outgoing = none) :
    Keeps o s.secs (s.setSec i x).secs :=
  keeps_update (.inr (by rw [h]; nofun))

/-- A holder disturbs no other. -/
theorem keeps_of_held {o o' : Holder} {i : ℕ} {x : Sec} (h : (s.secs i).outgoing = some o')
    (ho : o ≠ o') : Keeps o s.secs (s.setSec i x).secs := by
  refine keeps_update (.inr ?_)
  rw [h]
  exact fun he => ho (Option.some.inj he).symm

/-- Changing a section without its lock disturbs no holder. -/
theorem keeps_of_eq {o : Holder} {i : ℕ} {x : Sec} (h : x.outgoing = (s.secs i).outgoing) :
    Keeps o s.secs (s.setSec i x).secs :=
  keeps_update (.inl h)

@[simp] theorem State.setSec_self (s : State) (i : ℕ) (x : Sec) : (s.setSec i x).secs i = x :=
  Function.update_self ..

theorem State.setSec_of_ne (s : State) {i j : ℕ} (x : Sec) (h : j ≠ i) :
    (s.setSec i x).secs j = s.secs j :=
  Function.update_of_ne h ..

theorem Collector.Locked.mono {pc : Collector} {secs secs' : ℕ → Sec} (h : pc.Locked secs)
    (hk : Keeps .collector secs secs') : pc.Locked secs' := by
  cases pc with
  | mark n i | push n i | count n i | check n i | unlock n i => exact hk _ h
  | _ => trivial

theorem Dispatcher.Locked.mono {pc : Dispatcher} {secs secs' : ℕ → Sec} {v : ℕ}
    (h : pc.Locked secs v) (hk : Keeps .dispatcher secs secs') : pc.Locked secs' v := by
  cases pc with
  | evRead e g locked =>
    cases locked with
    | true => exact hk _ h
    | false => trivial
  | idle | evLoop | evLock | evEnd => trivial
  | _ => exact hk _ h

theorem Gc.Locked.mono {pc : Gc} {secs secs' : ℕ → Sec} (h : pc.Locked secs)
    (hk : Keeps .gc secs secs') : pc.Locked secs' := by
  cases pc with
  | idle | flush => trivial
  | _ => exact hk _ h

/-- Sections keep their places when the places are rearranged. -/
theorem Placed.of_perm (h : Placed s) (hk : s'.known.Perm s.known)
    (hc : ∀ i ∈ s.known, (s'.secs i).cached = (s.secs i).cached ∧
      (s'.secs i).hasMem = (s.secs i).hasMem)
    (hch : ∀ i, Chosen (s'.secs i) ↔ i ∈ s'.unread ∨ i ∈ s'.taken ∨ i ∈ s'.marked)
    (hgc : s'.gc.Flushes s'.shadow) : Placed s' where
  nodup := hk.nodup_iff.mpr h.nodup
  cached := fun i hi => by
    have hi' := hk.mem_iff.mp hi
    rw [(hc i hi').1, (hc i hi').2]
    exact h.cached i hi'
  chosen := hch
  gc := hgc

end Virtkv.Evict
