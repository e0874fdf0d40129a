import Virtkv.Lock.Balanced
import Virtkv.Run.Clean

/-!
# No run leaves a section locked

The collector locks the section of a mapping page or of a pair while it moves it, and those of
its shadow list when they enter the cache. With that, every operation of a run that starts
without a lock ends without one, its callback included.

The word `outgoing` is 0 or 1. A lock is taken by exchanging 0 for 1, which with the lock in the
operation's own hands would wait for ever (`deadlock`), and a decrement of 0 would leave the two
values (`underflow`).

## Main results

- `Gc.locks_turn` — a collection
- `locksBalanced_of_runs` — every reachable state, and the operation behind it
-/

namespace Virtkv

open Outcome

namespace Gc

variable (d : Device) {s : Shard} {c : State} {q : Pos} {l : ℕ → Bool}

/-! ### The pages of the collector -/

@[simp] theorem quiet_newGcPpa (f : Flash) (map : Bool) : Quiet (newGcPpa d f map) := by
  simp [newGcPpa]

@[simp] theorem quiet_openPage (f : Flash) (map : Bool) : Quiet (openPage d f q map) := by
  simp [openPage]

@[simp] theorem quiet_roomFor (f : Flash) (len : ℕ) : Quiet (roomFor d f q len) := by
  simp [roomFor]

@[simp] theorem quiet_skipUnlessFits (f : Flash) (len : ℕ) :
    Quiet (skipUnlessFits d f q len) := by
  simp [skipUnlessFits]

@[simp] theorem quiet_copyLoop (fuel : ℕ) (f : Flash) (rem : ℕ) :
    Quiet (copyLoop d fuel f q rem) := by
  induction fuel generalizing f q rem with
  | zero => simp [copyLoop]
  | succ fuel ih => simp [copyLoop, ih]

/-! ### What is moved -/

theorem locks_copyMap (i len : ℕ) (h : s.locks = l) :
    Yields (copyMap d s q i len) Fault.OffLock fun r => r.2.locks = l := by
  refine Quiet.bind (by simp) fun r => ?_
  refine Quiet.bind (by simp) fun f => ?_
  exact Shard.locks_setSec h rfl

theorem locks_copyInvMap (line : ℕ) (page : LogWords) (h : s.locks = l) :
    Yields (copyInvMap d s q line page) Fault.OffLock fun r => r.2.locks = l := by
  refine Quiet.bind (by simp) fun _ => ?_
  refine Quiet.bind (by simp) fun _ => ?_
  refine Quiet.bind (by simp) fun _ => ?_
  exact Quiet.bind (by simp) fun _ => h

theorem locks_moveLogPage (pgidx : ℕ) (h : c.shard.locks = l) :
    Yields (moveLogPage d c pgidx) Fault.OffLock fun c' => c'.shard.locks = l := by
  refine Quiet.bind (by simp) fun _ => ?_
  dsimp only
  split
  · exact offLock_bug
  · rename_i page _
    refine Yields.bind (locks_copyInvMap d _ page (s := c.shard.setLog _) h) fun r hr => ?_
    exact Quiet.bind (by simp) fun _ => hr

/-- The section of a mapping page is locked while it moves. -/
theorem locks_moveSection (pgidx i : ℕ) (h : c.shard.locks = noLocks) :
    Yields (moveSection d c pgidx i) Fault.OffLock fun r => r.2.shard.locks = noLocks := by
  refine Quiet.bind (by simp) fun _ => ?_
  refine Yields.bind (Shard.locks_getHt d _ h) fun s hs => ?_
  refine Quiet.bind (by simp) fun _ => ?_
  split
  · exact Shard.locks_unlock d hs
  · refine Quiet.bind (by simp) fun _ => ?_
    refine Quiet.bind (by simp) fun f => ?_
    refine Yields.bind (locks_copyMap d _ _ (s := s.setFlash f) hs) fun r hr => ?_
    exact Shard.locks_unlock d hr

theorem locks_switchMapping (lpa pos grain line : ℕ) (h : s.locks = l) :
    Yields (switchMapping d s lpa pos grain line) Fault.OffLock fun s' => s'.locks = l := by
  unfold switchMapping
  dsimp only
  split
  · refine Quiet.bind (by simp) fun _ => ?_
    exact Quiet.bind (by simp) fun _ => Shard.locks_setSec h rfl
  · refine Quiet.bind (by simp) fun _ => ?_
    refine Quiet.bind (by simp) fun _ => ?_
    exact Quiet.bind (by simp) fun _ => Shard.locks_setSec h rfl

theorem locks_copyValidPair (lpa len pos line : ℕ) (h : s.locks = l) :
    Yields (copyValidPair d s q lpa len pos line) Fault.OffLock fun r => r.2.locks = l := by
  refine Quiet.bind (by simp) fun _ => ?_
  refine Quiet.bind (by simp) fun _ => ?_
  refine Quiet.bind (by simp) fun _ => ?_
  refine Quiet.bind (by simp) fun _ => ?_
  refine Quiet.bind (by simp) fun f => ?_
  exact Yields.bind (locks_switchMapping d _ _ _ _ (s := s.setFlash f) h) fun _ hs => hs

theorem locks_relocate (lpa len grain pos line : ℕ) (h : c.shard.locks = l) :
    Yields (relocate d c lpa len grain pos line) Fault.OffLock fun c' => c'.shard.locks = l := by
  unfold relocate
  split
  · exact offLock_badAccess
  · refine Quiet.bind (by simp) fun shifted => ?_
    cases shifted with
    | none => exact Yields.bind (Shard.locks_updateMap d _ _ _ _ _ h) fun _ hr => hr
    | some x => exact Yields.bind (locks_copyValidPair d _ _ _ _ h) fun _ hr => hr

theorem locks_shadowRead (i : ℕ) (h : c.shard.locks = l) : (shadowRead c i).shard.locks = l := by
  unfold shadowRead
  split
  · exact h
  · exact Shard.locks_setSec h rfl

theorem locks_moveUnlessInvalid (lpa len grain line : ℕ) (h : c.shard.locks = l) :
    Yields (moveUnlessInvalid d c lpa len grain line) Fault.OffLock fun c' =>
      c'.shard.locks = l := by
  have hread := locks_shadowRead (d.idx lpa) h
  unfold moveUnlessInvalid
  split
  · refine Quiet.bind (by simp) fun _ => ?_
    dsimp only
    split
    · exact locks_relocate d _ _ _ _ _ hread
    · split
      · exact hread
      · exact Quiet.bind (by simp) fun _ => hread
  · exact h

/-- The section of a pair is locked while it moves. -/
theorem locks_movePair (pgidx i line : ℕ) (h : c.shard.locks = noLocks) :
    Yields (movePair d c pgidx i line) Fault.OffLock fun r => r.2.shard.locks = noLocks := by
  refine Quiet.bind (by simp) fun _ => ?_
  refine Quiet.bind (by simp) fun _ => ?_
  refine Quiet.bind (by simp) fun _ => ?_
  refine Yields.bind (Shard.locks_getHt d _ h) fun s hs => ?_
  exact Yields.bind (locks_moveUnlessInvalid d _ _ _ _ (c := c.setShard s) hs) fun _ hc =>
    Shard.locks_unlock d hc

theorem locks_moveGrain (map : Bool) (line pgidx i : ℕ) (h : c.shard.locks = noLocks) :
    Yields (moveGrain d map line c pgidx i) Fault.OffLock fun r => r.2.shard.locks = noLocks := by
  unfold moveGrain
  split
  · exact locks_moveSection d _ _ h
  · exact locks_movePair d _ _ _ h

/-! ### Pages and lines -/

theorem locks_cleanGrain (map : Bool) (line pgidx i : ℕ) (h : c.shard.locks = noLocks) :
    Yields (cleanGrain d map line c pgidx i) Fault.OffLock fun r =>
      r.2.shard.locks = noLocks := by
  have hreset : (resetOffset d c.shard (d.ppaToPga pgidx i)).locks = noLocks := by
    unfold resetOffset
    split
    · exact h
    · exact h
  unfold cleanGrain
  dsimp only
  split
  · exact Quiet.bind (by simp) fun _ => h
  split
  · refine Quiet.bind (by simp) fun _ => ?_
    exact Quiet.bind (by simp) fun _ => h
  split
  · exact h
  split
  · exact Yields.bind (locks_moveLogPage d _ hreset) fun _ hc => hc
  split
  · exact Yields.bind (locks_moveGrain d map line pgidx i hreset) fun _ hr => hr
  · exact hreset

theorem locks_cleanPageLoop (map : Bool) (line pgidx fuel i : ℕ) (h : c.shard.locks = noLocks) :
    Yields (cleanPageLoop d map line pgidx fuel i c) Fault.OffLock fun c' =>
      c'.shard.locks = noLocks := by
  induction fuel generalizing i c with
  | zero => exact offLock_hang
  | succ fuel ih =>
    unfold cleanPageLoop
    split
    · exact h
    · exact Yields.bind (locks_cleanGrain d map line pgidx i h) fun r hr => ih r.1 hr

theorem locks_cleanPages (map : Bool) (p : Ppa) (n k cnt : ℕ) (h : c.shard.locks = noLocks) :
    Yields (cleanPages d map p n k cnt c) Fault.OffLock fun r => r.2.shard.locks = noLocks := by
  induction n generalizing k cnt c with
  | zero => exact h
  | succ n ih =>
    unfold cleanPages
    refine Quiet.bind (by simp) fun pgidx => ?_
    refine Quiet.bind (by simp [noticeInvalid]) fun f => ?_
    dsimp only
    split
    · exact offLock_bug
    · exact Yields.bind (locks_cleanPageLoop d map _ _ _ _ (c := c.setShard (c.shard.setFlash f)) h)
        fun _ hc => ih _ _ hc
    · exact Quiet.bind (by simp) fun _ => ih _ _ h

/-- The sections of the shadow list are locked one after the other. -/
theorem locks_flushShadow (is : List ℕ) (h : s.locks = noLocks) :
    Yields (flushShadow d is s) Fault.OffLock fun s' => s'.locks = noLocks := by
  induction is generalizing s with
  | nil => exact h
  | cons i is ih =>
    refine Yields.bind (Shard.locks_getHt d _ h) fun s1 h1 => ih ?_
    rw [Device.idx, Nat.mul_div_cancel i d.epp_pos] at h1
    exact Cache.locks_unlock ((Cache.locks_enqueue ..).trans h1)

theorem locks_cleanOneFlashpg (map : Bool) (p : Ppa) (h : c.shard.locks = noLocks) :
    Yields (cleanOneFlashpg d map c p) Fault.OffLock fun c' => c'.shard.locks = noLocks := by
  refine Yields.bind (locks_cleanPages d map p _ 0 0 h) fun r hr => ?_
  dsimp only
  split
  · exact hr
  · exact Yields.bind (locks_flushShadow d _ hr) fun _ hs => hs

theorem locks_cleanLine (map : Bool) (line : ℕ) (ps : List (Ppa × Bool))
    (h : c.shard.locks = noLocks) :
    Yields (cleanLine d map line ps c) Fault.OffLock fun c' => c'.shard.locks = noLocks := by
  induction ps generalizing c with
  | nil => exact h
  | cons x ps ih =>
    have hclean : Yields (cleanIfLive d map line c x.1) Fault.OffLock fun c' =>
        c'.shard.locks = noLocks := by
      unfold cleanIfLive
      split
      · exact locks_cleanOneFlashpg d map x.1 h
      · exact h
    refine Yields.bind hclean fun c1 h1 => ?_
    exact Quiet.bind (by simp [eraseIfLast, Flash.markBlockFree]) fun _ => ih h1

theorem locks_readLog (line : ℕ) (map : Bool) (h : s.locks = l) :
    Yields (readLog d s line map) Fault.OffLock fun s' => s'.locks = l := by
  unfold readLog
  split
  · exact Quiet.bind (by simp) fun _ => h
  · exact h

theorem locks_collectLine (line : ℕ) (h : s.locks = noLocks) :
    Yields (collectLine d s line) Fault.OffLock fun s' => s'.locks = noLocks := by
  refine Yields.bind (locks_readLog d line _
    (s := { s with creditsToRefill := (s.flash.lines line).igc }) h) fun s1 h1 => ?_
  refine Yields.bind (locks_cleanLine d _ line _ (c := ⟨s1, Pos.none d, []⟩) h1) fun c1 h2 => ?_
  refine Quiet.bind (by simp [closePage]) fun f => ?_
  show (dropLog d _ _).locks = noLocks
  unfold dropLog
  split
  · exact h2
  · exact h2

theorem locks_turn (h : s.locks = noLocks) :
    Yields (turn d s) Fault.OffLock fun s' => s'.locks = noLocks := by
  have hgc : Yields (doGc d s) Fault.OffLock fun r => r.2.locks = noLocks := by
    refine Quiet.bind (by simp) fun r => ?_
    dsimp only
    split
    · exact h
    · exact Yields.bind (locks_collectLine d _ (s := s.setFlash r.2) h) fun _ hs => hs
  refine Yields.bind hgc fun r hr => ?_
  dsimp only
  split
  · exact hr
  · exact hr

end Gc

/-! ### Runs -/

/-- An operation that finds no section locked leaves none locked behind its callback, and no lock
is what stops it. -/
theorem Op.unlocked_run (d : Device) {s : Shard} (op : Op) (h : s.Unlocked) :
    Yields (op.run d s) Fault.OffLock Shard.Unlocked := by
  cases op with
  | store key value junk => exact Shard.locks_store d key value junk h
  | append key data junk => exact Yields.bind (Shard.locks_append d key data junk h) fun _ hr => hr
  | retrieve key vlen rOffset =>
    exact Yields.bind (Shard.locks_retrieve d key vlen rOffset false h) fun _ hr => hr
  | delete key vlen rOffset =>
    exact Yields.bind (Shard.locks_retrieve d key vlen rOffset true h) fun _ hr => hr
  | evict => exact Yields.bind (Shard.locks_evictOne d h) fun _ hr => hr
  | gc => exact Gc.locks_turn d h

theorem Shard.unlocked_init {d : Device} {s : Shard} (h : Shard.init d = .ok s) : s.Unlocked := by
  simp only [Shard.init, bind_eq_ok] at h
  obtain ⟨f, -, h⟩ := h
  cases h
  rfl

/-- In every reachable state all section locks are free, and every operation leaves them free
when it has returned and its callback has run. On the way it does not wait for a lock it holds
itself, nor release one that is free. -/
theorem locksBalanced_of_runs {d : Device} {ok : Shard → Op → Prop} {s t : Shard}
    (hinit : Shard.init d = .ok s) (hr : Runs d ok s t) :
    t.Unlocked ∧ ∀ op : Op, Yields (op.run d t) Fault.OffLock Shard.Unlocked := by
  have ht : t.Unlocked := hr.invariant (Shard.unlocked_init hinit) fun u v op hu _ hrun =>
    (op.unlocked_run d hu).of_eq_ok hrun
  exact ⟨ht, fun op => op.unlocked_run d ht⟩

/-- Stores of clashing keys and a collection; then the section is evicted. -/
theorem locksBalanced_of_runs_clashing : ∃ s t u, Shard.init tableDevice = .ok s ∧
    runOps tableDevice (clashingOps.take 3 ++ [.gc]) s = .ok t ∧ t.Unlocked ∧
    Op.evict.run tableDevice t = .ok u ∧ u.Unlocked := by
  obtain ⟨s, t, hs, ht, hend⟩ := exists_of_endsWith tableDevice (clashingOps.take 3 ++ [.gc])
    (fun t => (Op.evict.run tableDevice t).isOk) (by decide +kernel)
  have hr : Runs tableDevice (fun _ _ => True) s t :=
    Runs.start.runOps (fun _ _ _ => trivial) ht
  obtain ⟨hfree, hop⟩ := locksBalanced_of_runs hs hr
  cases hu : Op.evict.run tableDevice t with
  | error e =>
    rw [hu] at hend
    cases hend
  | ok u => exact ⟨s, t, u, hs, ht, hfree, hu, (hop .evict).of_eq_ok hu⟩

end Virtkv
