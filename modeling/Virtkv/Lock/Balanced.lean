import Virtkv.Lock.Frame

/-!
# Section locks are balanced

A command probes with one section locked at a time: a collision releases the lock before the
next probe, and what the probe ends with is released by the code behind it or by the callback
of the command. The collector locks the section of what it moves. So every operation that
starts without a lock ends without one, and never waits for a lock of its own.
-/

namespace Virtkv

open Outcome

namespace Shard

variable (d : Device) {s : Shard}

/-! ### Taking and releasing -/

theorem locks_getHt (lpa : ℕ) (h : s.locks = noLocks) :
    Yields (s.getHt d lpa) Fault.OffLock fun s' => s'.locks = onlyLock (d.idx lpa) :=
  Yields.bind (Cache.locks_lock d h) fun _ hc => hc

theorem locks_unlock {lpa : ℕ} (h : s.locks = onlyLock (d.idx lpa)) :
    (s.unlock d lpa).locks = noLocks :=
  Cache.locks_unlock h

theorem locks_releaseMap {lpa : ℕ} (h : s.locks = onlyLock (d.idx lpa)) :
    Yields (s.releaseMap d lpa) Fault.OffLock fun s' => s'.locks = noLocks :=
  Yields.bind (Cache.locks_release h) fun _ hc => hc

@[simp] theorem quiet_foundAt (s : Shard) (lpa grain : ℕ) {e : Fault} (he : e.OffLock) :
    Quiet (s.foundAt lpa grain e) := by
  unfold foundAt
  split
  · exact he
  · exact quiet_ok _

@[simp] theorem quiet_matching (x : Found) (key : List UInt8) (readLen readOffset : ℕ)
    (forDel : Bool) : Quiet (matching d x key readLen readOffset forDel) := by
  simp [matching]

/-! ### Reads and deletes -/

/-- The lock a probe of `__retrieve` ends with. -/
def Hit.lock : Hit → ℕ → Bool
  | .miss none => noLocks
  | .miss (some lpa) => onlyLock (d.idx lpa)
  | .slot lpa _ _ => onlyLock (d.idx lpa)

theorem locks_retrieveLoop (key : List UInt8) (vlen rOffset : ℕ) (forDel : Bool) (fuel cnt : ℕ)
    (h : s.locks = noLocks) :
    Yields (retrieveLoop d key vlen rOffset forDel fuel cnt s) Fault.OffLock fun r =>
      r.2.locks = r.1.lock d := by
  induction fuel generalizing cnt s with
  | zero => exact offLock_hang
  | succ fuel ih =>
    unfold retrieveLoop
    refine Quiet.bind (by simp) fun r => ?_
    refine Yields.bind (locks_getHt d r.1 h) fun s1 h1 => ?_
    split
    · exact h1
    split
    · exact ih _ (locks_unlock d h1)
    · refine Yields.bind (locks_loadSection d false h1) fun s2 h2 => ?_
      dsimp only
      split
      · exact locks_unlock d h2
      refine Quiet.bind (by simp [retrieveAt]) fun o => ?_
      cases o with
      | none => exact ih _ (locks_unlock d h2)
      | some x => exact h2

theorem locks_deleteAt (lpa pos vlen rOffset : ℕ) (x : Found) {l : ℕ → Bool} (h : s.locks = l) :
    Yields (s.deleteAt d lpa pos vlen rOffset x) Fault.OffLock fun r => r.2.locks = l := by
  have hgrain : ∀ forGrain fuel p rem n, Quiet (delGrainLoop d forGrain fuel p rem n) := by
    intro forGrain fuel
    induction fuel generalizing forGrain with
    | zero => simp [delGrainLoop]
    | succ fuel ih => simp [delGrainLoop, ih]
  refine Quiet.bind (by simp) fun klen => ?_
  split
  · exact Quiet.bind (by simp) fun f => locks_updateMap d lpa none uintMax pos true h
  · refine Quiet.bind (by simp) fun p => ?_
    refine Quiet.bind (hgrain _ _ _ _ _) fun g => ?_
    refine Quiet.bind (by simp) fun f => ?_
    split
    · exact h
    · exact Quiet.bind (by simp) fun _ => h

theorem locks_retrieveFromTable (key : List UInt8) (vlen rOffset : ℕ) (forDel : Bool)
    (h : s.locks = noLocks) :
    Yields (s.retrieveFromTable d key vlen rOffset forDel) Fault.OffLock fun r =>
      r.2.locks = noLocks := by
  refine Yields.bind (locks_makeRoom d _ h) fun s1 h1 => ?_
  refine Yields.bind (locks_retrieveLoop d key vlen rOffset forDel (2 ^ 32) 0 h1) fun r h2 => ?_
  obtain ⟨hit, s2⟩ := r
  cases hit with
  | miss o =>
    cases o with
    | none => exact h2
    | some lpa => exact Yields.bind (locks_releaseMap d h2) fun _ h3 => h3
  | slot lpa pos x =>
    dsimp only
    split
    · refine Yields.bind (locks_deleteAt d lpa pos vlen rOffset x h2) fun r h3 => ?_
      exact Yields.bind (locks_releaseMap d h3) fun _ h4 => h4
    · have hread : Quiet (readPair x.mem vlen rOffset) := by
        have hcopy : ∀ y : Source, Quiet (performRead x.mem y) := by
          intro y
          unfold performRead
          split <;> simp
        simp [readPair, hcopy]
      refine Quiet.bind hread fun _ => ?_
      exact Yields.bind (locks_releaseMap d h2) fun _ h3 => h3

theorem locks_touchBuf (i : ℕ) (h : s.locks = noLocks) :
    Yields (s.touchBuf i) Fault.OffLock fun s' => s'.locks = noLocks :=
  Quiet.bind (by simp) fun _ => h

theorem locks_retrieveFromBuf (i vlen rOffset : ℕ) (forDel : Bool) (h : s.locks = noLocks) :
    Yields (s.retrieveFromBuf i vlen rOffset forDel) Fault.OffLock fun r =>
      r.2.locks = noLocks := by
  unfold retrieveFromBuf
  dsimp only
  split
  · exact h
  split
  · exact Quiet.bind (by simp) fun _ => h
  split
  · exact Quiet.bind (by simp) fun _ => h
  refine Quiet.bind (by simp) fun _ => ?_
  refine Quiet.bind (by simp) fun _ => ?_
  exact Quiet.bind (by simp) fun _ => h

theorem locks_retrieve (key : List UInt8) (vlen rOffset : ℕ) (forDel : Bool)
    (h : s.locks = noLocks) :
    Yields (s.retrieve d key vlen rOffset forDel) Fault.OffLock fun r => r.2.locks = noLocks := by
  refine Quiet.bind (by simp) fun _ => ?_
  refine Quiet.bind (by simp) fun _ => ?_
  split
  · refine Yields.bind (locks_touchBuf _ h) fun s1 h1 => ?_
    exact locks_retrieveFromBuf _ vlen rOffset forDel h1
  · exact locks_retrieveFromTable d key vlen rOffset forDel h

/-! ### Stores -/

/-- The probe loop of `__store` ends with the section of its slot locked. -/
theorem locks_storeLoop (key : List UInt8) (total fuel cnt credits : ℕ) (h : s.locks = noLocks) :
    Yields (storeLoop d key total fuel cnt credits s) Fault.OffLock fun r =>
      r.2.locks = onlyLock (d.idx r.1.lpa) := by
  induction fuel generalizing cnt credits s with
  | zero => exact offLock_hang
  | succ fuel ih =>
    unfold storeLoop
    refine Quiet.bind (by simp) fun r => ?_
    refine Yields.bind (locks_makeRoom d credits h) fun s1 h1 => ?_
    refine Yields.bind (locks_getHt d r.1 h1) fun s2 h2 => ?_
    refine Yields.bind (locks_openSection d h2) fun s3 h3 => ?_
    dsimp only
    split
    · exact h3
    refine Quiet.bind (by simp) fun x => ?_
    refine Quiet.bind (by simp) fun o => ?_
    cases o with
    | none => exact ih _ _ (locks_unlock d h3)
    | some x => exact h3

theorem locks_placeAt (total : ℕ) (mem : List UInt8) (sl : Slot) {l : ℕ → Bool} (h : s.locks = l) :
    Yields (s.placeAt d total mem sl) Fault.OffLock fun r => r.2.locks = l := by
  have hdrop : Yields (s.dropOld d sl.old) Fault.OffLock fun s' => s'.locks = l := by
    cases sl.old with
    | none => exact h
    | some x => exact Quiet.bind (by simp) fun _ => h
  refine Yields.bind hdrop fun s1 h1 => ?_
  refine Quiet.bind (by simp) fun r => ?_
  exact Yields.bind (locks_updateMap d sl.lpa (some mem) r.1 sl.pos true h1) fun _ h2 => h2

@[simp] theorem quiet_pairMemory (key : List UInt8) (vlen glen : ℕ) (junk : ℕ → UInt8)
    (old : Option Found) : Quiet (pairMemory d key vlen glen junk old) := by
  cases old with
  | none => exact PairMem.quiet_write _ _ _
  | some x => simp [pairMemory]

theorem locks_storeAt (key : List UInt8) (vlen : ℕ) (junk : ℕ → UInt8) (sl : Slot)
    {l : ℕ → Bool} (h : s.locks = l) :
    Yields (s.storeAt d key vlen junk sl) Fault.OffLock fun s' => s'.locks = l :=
  Quiet.bind (by simp) fun mem => Yields.bind (locks_placeAt d _ mem sl h) fun _ h1 => h1

theorem locks_storeMapping (key : List UInt8) (vlen : ℕ) (junk : ℕ → UInt8)
    (h : s.locks = noLocks) :
    Yields (s.storeMapping d key vlen junk) Fault.OffLock fun r =>
      r.2.locks = onlyLock (d.idx r.1) := by
  have hdrop : Yields (s.dropAppendBuf key) Fault.OffLock fun s' => s'.locks = noLocks := by
    unfold dropAppendBuf
    split
    · exact Quiet.bind (by simp) fun _ => h
    · exact h
  refine Yields.bind hdrop fun s1 h1 => ?_
  refine Quiet.bind (by simp) fun _ => ?_
  refine Yields.bind (locks_storeLoop d key _ (2 ^ 32) 0 _ h1) fun r h2 => ?_
  exact Yields.bind (locks_storeAt d key vlen junk r.1 h2) fun _ h3 => h3

/-- The callback of a store releases the section of its slot. -/
theorem locks_store (key value : List UInt8) (junk : ℕ → UInt8) (h : s.locks = noLocks) :
    Yields (s.store d key value junk) Fault.OffLock fun s' => s'.locks = noLocks := by
  refine Yields.bind (locks_storeMapping d key value.length junk h) fun r h1 => ?_
  have hcopy : Yields (r.2.copyValue r.1 key value) Fault.OffLock fun s' =>
      s'.locks = onlyLock (d.idx r.1) := by
    unfold copyValue
    split
    · exact offLock_badAccess
    · exact Quiet.bind (by simp) fun _ => h1
  exact Yields.bind hcopy fun s2 h2 => locks_releaseMap d h2

/-! ### Appends -/

theorem locks_assignBuf (key : List UInt8) {l : ℕ → Bool} (h : s.locks = l) :
    Yields (s.assignBuf key) Fault.OffLock fun r => r.2.locks = l := by
  unfold assignBuf
  split
  · exact offLock_bug
  · refine Quiet.bind (by simp) fun _ => ?_
    exact Quiet.bind (by simp) fun _ => h

theorem locks_appendTo (i : ℕ) (data : List UInt8) (h : s.locks = noLocks) :
    Yields (s.appendTo i data) Fault.OffLock fun r => r.2.locks = noLocks := by
  have hstart : Quiet (startBuf (s.buf i)) := by simp [startBuf]
  unfold appendTo
  split
  · exact h
  · refine Quiet.bind hstart fun b => ?_
    exact Quiet.bind (by simp) fun _ => h

theorem locks_copyToBuf (key mem : List UInt8) {l : ℕ → Bool} (h : s.locks = l) :
    Yields (s.copyToBuf key mem) Fault.OffLock fun r => r.2.locks = l := by
  refine Quiet.bind (by simp) fun _ => ?_
  refine Quiet.bind (by simp) fun _ => ?_
  refine Yields.bind (locks_assignBuf key h) fun r h1 => ?_
  refine Quiet.bind (by simp) fun _ => ?_
  exact Quiet.bind (by simp) fun _ => h1

/-- The lookup of an append releases the section before the data is written: with
`atomic_set` if there is no pair or no room, with `atomic_dec` behind the copy of the pair. -/
theorem locks_checkLen (key data : List UInt8) (credits : ℕ) (h : s.locks = noLocks) :
    Yields (s.checkLen d key data credits) Fault.OffLock fun r => r.2.locks = noLocks := by
  refine Quiet.bind (by simp) fun _ => ?_
  refine Yields.bind (locks_storeLoop d key _ (2 ^ 32) 0 _ h) fun r h1 => ?_
  obtain ⟨sl, s1⟩ := r
  dsimp only
  split
  · refine Yields.bind (locks_assignBuf key h1) fun r h2 => ?_
    exact locks_appendTo r.1 data (locks_unlock d h2)
  · rename_i x hx
    split
    · exact locks_unlock d h1
    · refine Yields.bind (locks_copyToBuf key x.mem h1) fun r h2 => ?_
      exact Yields.bind (locks_releaseMap d h2) fun _ h3 => locks_appendTo r.1 data h3

theorem locks_flushBuf (i vlen : ℕ) (junk : ℕ → UInt8) (h : s.locks = noLocks) :
    Yields (s.flushBuf d i vlen junk) Fault.OffLock fun r => r.2.locks = noLocks := by
  have hmem : ∀ wb old, Quiet (flushMemory d (s.buf i) wb junk old) := by
    intro wb old
    cases old <;> simp [flushMemory]
  refine Yields.bind (locks_storeLoop d _ vlen (2 ^ 32) 0 _ h) fun r h1 => ?_
  refine Quiet.bind (hmem _ _) fun mem => ?_
  refine Yields.bind (locks_placeAt d _ mem r.1 h1) fun r2 h2 => ?_
  exact Quiet.bind (by simp) fun _ => locks_unlock d h2

theorem locks_freeOldest (key : List UInt8) (vlen : ℕ) (junk : ℕ → UInt8) (h : s.locks = noLocks) :
    Yields (s.freeOldest d key vlen junk) Fault.OffLock fun r => r.2.locks = noLocks := by
  unfold freeOldest
  split
  · exact offLock_badAccess
  · refine Quiet.bind (by simp) fun _ => ?_
    split
    · exact h
    · refine Quiet.bind (by simp) fun _ => ?_
      exact locks_flushBuf d _ vlen junk h

theorem locks_append (key data : List UInt8) (junk : ℕ → UInt8) (h : s.locks = noLocks) :
    Yields (s.append d key data junk) Fault.OffLock fun r => r.2.locks = noLocks := by
  unfold append
  split
  · exact Yields.bind (locks_touchBuf _ h) fun _ h1 => locks_appendTo _ data h1
  split
  · refine Yields.bind (locks_freeOldest d key data.length junk h) fun r h1 => ?_
    exact locks_checkLen d key data r.1 h1
  · exact locks_checkLen d key data 0 h

end Shard

end Virtkv
