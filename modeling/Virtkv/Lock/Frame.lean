import Virtkv.Lock.Quiet

/-!
# Which section locks are held

`Shard.locks` reads the `outgoing` words off a shard. Every function of the mapping cache is
specified by the locks it starts and ends with; a function that stops, stops for another
reason than a lock. What runs with a section locked leaves all locks alone; an eviction takes
and releases one lock after the other.
-/

namespace Virtkv

open Outcome

/-- No lock is held. -/
def noLocks : ℕ → Bool := fun _ => false

/-- The lock of one section is held. -/
def onlyLock (i : ℕ) : ℕ → Bool := Function.update noLocks i true

/-- Code that takes no lock can be followed by anything. -/
theorem Quiet.bind {α β : Type} {x : Except Fault α} {f : α → Except Fault β} {Q : β → Prop}
    (hx : Quiet x) (hf : ∀ a, Yields (f a) Fault.OffLock Q) :
    Yields (x >>= f) Fault.OffLock Q :=
  Yields.bind hx fun a _ => hf a

/-! ### The locks of a cache -/

namespace Cache

variable (d : Device) {c : Cache} {l : ℕ → Bool} {i : ℕ}

/-- The section locks. -/
def locks (c : Cache) (i : ℕ) : Bool := (c.secs i).outgoing

/-- A section that is replaced. -/
theorem locks_setSec (c : Cache) (i : ℕ) (x : Section) :
    (c.setSec i x).locks = Function.update c.locks i x.outgoing := by
  funext j
  show (Function.update c.secs i x j).outgoing = _
  by_cases hj : j = i
  · rw [hj, Function.update_self, Function.update_self]
  · rw [Function.update_of_ne hj, Function.update_of_ne hj]
    rfl

/-- A section that keeps its lock. -/
theorem locks_setSec_of_eq {x : Section} (h : x.outgoing = c.locks i) :
    (c.setSec i x).locks = c.locks := by
  rw [locks_setSec, h, Function.update_eq_self]

@[simp] theorem locks_enqueue (c : Cache) (i : ℕ) : (c.enqueue i).locks = c.locks := by
  unfold enqueue
  split <;> rfl

theorem locks_lock (h : c.locks = noLocks) :
    Yields (c.lock d i) Fault.OffLock fun c' => c'.locks = onlyLock i := by
  have hi : (c.secs i).outgoing = false := congrFun h i
  refine Quiet.bind (by simp) fun _ => ?_
  refine Quiet.bind (by simp [hi]) fun _ => ?_
  show Cache.locks _ = _
  rw [locks_setSec, h]
  rfl

/-- The section that is locked becomes free. -/
theorem locks_clear {x : Section} (h : c.locks = onlyLock i) (hx : x.outgoing = false) :
    (c.setSec i x).locks = noLocks := by
  rw [locks_setSec, h, hx, onlyLock, Function.update_idem]
  exact Function.update_eq_self i noLocks

theorem locks_unlock (h : c.locks = onlyLock i) : (c.unlock i).locks = noLocks := locks_clear h rfl

theorem locks_release (h : c.locks = onlyLock i) :
    Yields (c.release i) Fault.OffLock fun c' => c'.locks = noLocks := by
  have hi : (c.secs i).outgoing = true := (congrFun h i).trans (Function.update_self ..)
  exact Quiet.bind (by simp [hi]) fun _ => locks_unlock h

/-- The collector locks every section it looks at for a moment. -/
theorem locks_takeVictim (h : c.locks = noLocks) :
    Yields (c.takeVictim d i) Fault.OffLock fun c' => c'.locks = noLocks := by
  refine Yields.bind (locks_lock d h) fun c1 h1 => ?_
  refine Quiet.bind (by simp) fun _ => ?_
  refine locks_unlock (Eq.trans ?_ h1)
  exact locks_setSec_of_eq rfl

theorem locks_collectLoop (is : List ℕ) (h : c.locks = noLocks) :
    Yields (collectLoop d is c) Fault.OffLock fun c' => c'.locks = noLocks := by
  induction is generalizing c with
  | nil => exact h
  | cons i is ih =>
    refine Yields.bind (locks_takeVictim d h) fun c1 h1 => ?_
    split
    · exact h1
    · exact ih h1

theorem locks_collectVictims (h : c.locks = noLocks) :
    Yields (c.collectVictims d) Fault.OffLock fun c' => c'.locks = noLocks := by
  unfold collectVictims
  split
  · exact h
  split
  · exact locks_collectLoop d _ h
  split
  · exact h
  · exact locks_collectLoop d _ h

end Cache

namespace Shard

variable (d : Device) {s : Shard} {l : ℕ → Bool} {i : ℕ}

/-- The section locks. -/
def locks (s : Shard) : ℕ → Bool := s.cache.locks

/-- No section is locked. -/
def Unlocked (s : Shard) : Prop := s.locks = noLocks

@[simp] theorem locks_setFlash (s : Shard) (f : Flash) : (s.setFlash f).locks = s.locks := rfl

@[simp] theorem locks_setLog (s : Shard) (l : InvLog) : (s.setLog l).locks = s.locks := rfl

@[simp] theorem locks_setPair (s : Shard) (lpa : ℕ) (m : Option (List UInt8)) :
    (s.setPair lpa m).locks = s.locks := rfl

@[simp] theorem locks_setCache (s : Shard) (c : Cache) : (s.setCache c).locks = c.locks := rfl

@[simp] theorem locks_addCached (s : Shard) (n : ℤ) : (s.addCached n).locks = s.locks := rfl

@[simp] theorem locks_setBuf (s : Shard) (i : ℕ) (b : AppendBuf) : (s.setBuf i b).locks = s.locks :=
  rfl

@[simp] theorem locks_setLru (s : Shard) (l : List ℕ) : (s.setLru l).locks = s.locks := rfl

@[simp] theorem locks_clearBuf (s : Shard) (i : ℕ) : (s.clearBuf i).locks = s.locks := rfl

/-- A section that keeps its lock. -/
theorem locks_setSec {x : Section} (h : s.locks = l) (hx : x.outgoing = (s.sec i).outgoing) :
    (s.setSec i x).locks = l :=
  (Cache.locks_setSec_of_eq hx).trans h

/-! ### Evictions -/

theorem locks_clearPage (ppa grain : ℕ) (h : s.locks = l) :
    Yields (s.clearPage d ppa grain) Fault.OffLock fun s' => s'.locks = l :=
  Quiet.bind (by simp) fun _ => h

theorem locks_turnPage (e : Filling) (gLen : ℕ) (h : s.locks = l) :
    Yields (s.turnPage d e i gLen) Fault.OffLock fun r => r.2.locks = l := by
  unfold turnPage
  split
  · refine Quiet.bind (by simp) fun _ => ?_
    exact Yields.bind (locks_clearPage d _ _ h) fun _ h1 => h1
  · exact h

theorem locks_dropOnDisk (gLen : ℕ) (h : s.locks = l) :
    Yields (s.dropOnDisk d i gLen) Fault.OffLock fun s' => s'.locks = l := by
  unfold dropOnDisk
  dsimp only
  split
  · exact Quiet.bind (by simp) fun _ => h
  · exact Quiet.bind (by simp) fun _ => h

theorem locks_evictPage (e : Filling) (h : s.locks = l) :
    Yields (s.evictPage d e) Fault.OffLock fun r => r.2.locks = l := by
  unfold evictPage
  split
  · exact h
  · exact Quiet.bind (by simp) fun _ => h

theorem locks_placeVictim (e : Filling) (h : s.locks = l) :
    Yields (s.placeVictim d e i) Fault.OffLock fun r => r.2.locks = l := by
  refine Quiet.bind (by simp) fun _ => ?_
  refine Quiet.bind (by simp) fun f => ?_
  refine Quiet.bind (by simp) fun _ => ?_
  exact locks_setSec (s := s.setFlash f) h rfl

theorem locks_writeIfDirty (e : Filling) (h : s.locks = l) :
    Yields (s.writeIfDirty d e i) Fault.OffLock fun r => r.2.locks = l := by
  unfold writeIfDirty
  split
  · refine Yields.bind (locks_dropOnDisk d _ h) fun s1 h1 => ?_
    refine Quiet.bind (by simp) fun _ => ?_
    refine Quiet.bind (by simp) fun _ => ?_
    exact Yields.bind (locks_evictPage d e h1) fun _ h2 => locks_placeVictim d _ h2
  · exact h

/-- A round locks its victim and releases it when it is out of the cache. -/
theorem locks_evictRound (e : Filling) (h : s.locks = noLocks) :
    Yields (s.evictRound d e i) Fault.OffLock fun r => r.2.locks = noLocks := by
  refine Quiet.bind (by simp) fun _ => ?_
  refine Quiet.bind (by simp) fun _ => ?_
  refine Yields.bind (Cache.locks_lock d h) fun c hc => ?_
  refine Quiet.bind (by simp) fun _ => ?_
  refine Yields.bind (locks_turnPage d _ _ (s := s.setCache c) hc) fun r1 h1 => ?_
  refine Yields.bind (locks_writeIfDirty d _ (s := r1.2.popRing) h1) fun r2 h2 => ?_
  exact Cache.locks_clear h2 rfl

theorem locks_evictLoop (fuel : ℕ) (e : Filling) (h : s.locks = noLocks) :
    Yields (evictLoop d fuel e s) Fault.OffLock fun r => r.2.locks = noLocks := by
  induction fuel generalizing e s with
  | zero => exact offLock_hang
  | succ fuel ih =>
    unfold evictLoop
    split
    · exact h
    split
    · exact offLock_bug
    · refine Yields.bind (locks_evictRound d e h) fun r hr => ?_
      dsimp only
      split
      · exact hr
      · exact ih _ hr

theorem locks_evictOne (h : s.locks = noLocks) :
    Yields (s.evictOne d) Fault.OffLock fun r => r.2.locks = noLocks := by
  have hawait : Yields (s.awaitVictims d) Fault.OffLock fun s' => s'.locks = noLocks :=
    Yields.bind (Cache.locks_collectVictims d h) fun c hc => Quiet.bind (by simp) fun _ => hc
  refine Yields.bind hawait fun s1 h1 => ?_
  refine Yields.bind (locks_evictLoop d _ _ h1) fun r h2 => ?_
  have hclose : Yields (r.2.closePage d r.1) Fault.OffLock fun s' => s'.locks = noLocks := by
    unfold closePage
    split
    · exact locks_clearPage d _ _ h2
    · exact h2
  exact Yields.bind hclose fun s3 h3 => h3

theorem locks_makeRoom (credits : ℕ) (h : s.locks = noLocks) :
    Yields (s.makeRoom d credits) Fault.OffLock fun s' => s'.locks = noLocks := by
  have hloop : ∀ fuel credits s, s.locks = noLocks →
      Yields (evictWhileFull d fuel credits s) Fault.OffLock fun r => r.2.locks = noLocks := by
    intro fuel
    induction fuel with
    | zero => exact fun _ _ _ => offLock_hang
    | succ fuel ih =>
      intro credits s h
      unfold evictWhileFull
      split
      · exact Yields.bind (locks_evictOne d h) fun r hr => ih _ _ hr
      · exact h
  refine Yields.bind (hloop _ _ _ h) fun r hr => ?_
  exact Quiet.bind (by simp [checkAndRefillWriteCredit]) fun _ => hr

/-! ### Loading and updating sections -/

theorem locks_loadSection (first : Bool) (h : s.locks = l) :
    Yields (s.loadSection d i first) Fault.OffLock fun s' => s'.locks = l := by
  have hmap : Yields (s.getMappings d i first) Fault.OffLock fun s' => s'.locks = l := by
    unfold getMappings
    split
    · exact locks_setSec h rfl
    · refine Quiet.bind (by simp) fun _ => ?_
      refine Quiet.bind (by simp) fun _ => ?_
      exact locks_setSec h rfl
  have hone : Yields (s.getOne d i first) Fault.OffLock fun s' => s'.locks = l :=
    Yields.bind hmap fun s1 h1 => (Cache.locks_enqueue ..).trans h1
  unfold loadSection
  split
  · exact h
  · exact Yields.bind hone fun s2 h2 => Quiet.bind (by simp) fun _ => h2

@[simp] theorem quiet_mapPageLoop (fuel : ℕ) (f : Flash) : Quiet (mapPageLoop d fuel f) := by
  induction fuel generalizing f with
  | zero => simp [mapPageLoop]
  | succ fuel ih => simp [mapPageLoop, ih]

@[simp] theorem quiet_tagMapPage (f : Flash) (ppa i len start : ℕ) :
    Quiet (tagMapPage d f ppa i len start) := by
  simp [tagMapPage]

theorem locks_openSection (h : s.locks = l) :
    Yields (s.openSection d i) Fault.OffLock fun s' => s'.locks = l := by
  have halloc : Yields (s.allocSection d i) Fault.OffLock fun s' => s'.locks = l := by
    refine Quiet.bind (by simp) fun _ => ?_
    refine Quiet.bind (by simp) fun _ => ?_
    exact locks_setSec h rfl
  unfold openSection
  split
  · exact Yields.bind halloc fun s1 h1 => locks_loadSection d true h1
  · exact locks_loadSection d false h

theorem locks_expandMapEntry (h : s.locks = l) :
    Yields (s.expandMapEntry d i) Fault.OffLock fun s' => s'.locks = l := by
  refine Quiet.bind (by simp) fun f => ?_
  refine Quiet.bind (by simp) fun _ => ?_
  refine Quiet.bind (by simp) fun r => ?_
  refine Quiet.bind (by simp) fun f => ?_
  exact locks_setSec h rfl

theorem locks_growTable (pos : ℕ) (h : s.locks = l) :
    Yields (s.growTable d i pos) Fault.OffLock fun s' => s'.locks = l := by
  unfold growTable
  dsimp only
  split
  · refine Yields.bind (locks_expandMapEntry d h) fun s1 h1 => ?_
    exact Quiet.bind (by simp) fun _ => locks_setSec h1 rfl
  · exact h

theorem locks_recordOld (lpa pos : ℕ) (record : Bool) (h : s.locks = l) :
    Yields (s.recordOld d i lpa pos record) Fault.OffLock fun r => r.2.locks = l := by
  unfold recordOld
  dsimp only
  split
  · exact Quiet.bind (by simp) fun _ => h
  · exact h

theorem locks_updateMap (lpa : ℕ) (mem : Option (List UInt8)) (ppa pos : ℕ) (record : Bool)
    (h : s.locks = l) :
    Yields (s.updateMap d lpa mem ppa pos record) Fault.OffLock fun r => r.2.locks = l := by
  have hdirty : (s.markDirty (d.idx lpa)).locks = l := locks_setSec h rfl
  refine Quiet.bind (by simp) fun _ => ?_
  split
  · exact locks_setSec hdirty rfl
  · refine Yields.bind (locks_growTable d pos hdirty) fun s1 h1 => ?_
    refine Yields.bind (locks_recordOld d lpa pos record h1) fun r h2 => ?_
    exact Quiet.bind (by simp) fun _ => locks_setSec h2 rfl

end Shard

end Virtkv
