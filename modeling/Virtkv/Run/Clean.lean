import Virtkv.Command.Keep
import Virtkv.Run.KeyValue

/-!
# Clean sections

A section that is clean is dropped from the cache without a flash write. It should
then have the mappings it had when it was last written to its page. Stores, deletes
and expansions mark the section dirty; the garbage collector changes the mapping of a
pair it moves and marks nothing.

`Tame` says what an operation may do to the sections: a section that is clean
afterwards was clean before, with the same table and the same page contents. All
operations but evictions and the first use of a section are tame, the garbage collector
as long as no clean section has a pair in the line it collects.

## Main definitions

- `Shard.Faithful` — clean sections have the mappings that were written
- `SparesClean` — no clean section has a pair in the victim

## Main results

- `faithful_of_runs` — runs whose collections spare clean sections
- `collected_section_stays_clean` — a collection that does not
-/

namespace Virtkv

open Outcome

/-! ### Sections -/

namespace Section

variable {x₀ x y : Section}

/-- The section would be evicted without a flash write. -/
def Clean (x : Section) : Prop := x.state = .clean ∨ x.state = .cCandidate

/-- A clean section that was written has the table that was written. -/
def Faithful (x : Section) : Prop := x.Clean → x.tPpa ≠ uintMax → x.table.mem = x.written

/-- What becomes of a section: it is not clean, or it was clean with the same table. -/
def Tame (x₀ x : Section) : Prop :=
  x.Clean → x.tPpa ≠ uintMax →
    x₀.Clean ∧ x₀.tPpa ≠ uintMax ∧ x.table = x₀.table ∧ x.written = x₀.written

theorem Tame.refl (x : Section) : x.Tame x := fun h h' => ⟨h, h', rfl, rfl⟩

theorem Tame.trans (h : x₀.Tame x) (h' : x.Tame y) : x₀.Tame y := by
  intro hc ht
  obtain ⟨hc, ht, h1, h2⟩ := h' hc ht
  obtain ⟨hc, ht, h3, h4⟩ := h hc ht
  exact ⟨hc, ht, h1.trans h3, h2.trans h4⟩

theorem Tame.of_same (hs : x.state = x₀.state) (hp : x.tPpa = x₀.tPpa) (ht : x.table = x₀.table)
    (hw : x.written = x₀.written) : x₀.Tame x := by
  intro hc hne
  rw [Clean, hs] at hc
  rw [hp] at hne
  exact ⟨hc, hne, ht, hw⟩

theorem Tame.of_dirty (h : ¬x.Clean) : x₀.Tame x := fun hc => absurd hc h

theorem Faithful.of_tame (h : x₀.Faithful) (ht : x₀.Tame x) : x.Faithful := by
  intro hc hp
  obtain ⟨hc, hp, h1, h2⟩ := ht hc hp
  rw [h1, h2]
  exact h hc hp

theorem not_clean_dirtied (st : SecState) (hx : x.state = Cache.dirtied st) : ¬x.Clean := by
  rw [Clean, hx]
  cases st <;> exact fun h => h.elim nofun nofun

end Section

/-! ### Shards -/

namespace Shard

variable {d : Device} {s s' s'' : Shard} {i : ℕ}

/-- Clean sections have the mappings that were written. -/
def Faithful (s : Shard) : Prop := ∀ i, (s.sec i).Faithful

/-- No section becomes clean, and no clean section changes its table. -/
def Tame (s s' : Shard) : Prop := ∀ i, (s.sec i).Tame (s'.sec i)

theorem Tame.refl (s : Shard) : s.Tame s := fun _ => .refl _

theorem Tame.trans (h : s.Tame s') (h' : s'.Tame s'') : s.Tame s'' := fun i => (h i).trans (h' i)

theorem Faithful.of_tame (h : s.Faithful) (ht : s.Tame s') : s'.Faithful := fun i =>
  (h i).of_tame (ht i)

theorem Tame.of_secs (h : s'.cache.secs = s.cache.secs) : s.Tame s' := by
  intro i
  rw [show s'.sec i = s.sec i by rw [sec, sec, h]]
  exact .refl _

theorem Tame.setSec {x : Section} (h : (s.sec i).Tame x) : s.Tame (s.setSec i x) := by
  intro j
  by_cases hj : j = i
  · rw [hj, sec_setSec_self]
    exact h
  · rw [sec_setSec_of_ne s x hj]
    exact .refl _

/-- A change of the cache that is tame. -/
theorem Tame.setCache {c : Cache} (h : ∀ i, (s.sec i).Tame (c.secs i)) : s.Tame (s.setCache c) := h

end Shard

namespace Cache

variable {d : Device} {c c' : Cache} {i : ℕ}

/-- No section becomes clean, and no clean section changes its table. -/
def Tame (c c' : Cache) : Prop := ∀ i, (c.secs i).Tame (c'.secs i)

theorem Tame.refl (c : Cache) : c.Tame c := fun _ => .refl _

theorem Tame.trans {c'' : Cache} (h : c.Tame c') (h' : c'.Tame c'') : c.Tame c'' := fun i =>
  (h i).trans (h' i)

theorem Tame.of_secs (h : c'.secs = c.secs) : c.Tame c' := by
  intro i
  rw [h]
  exact .refl _

theorem Tame.setSec {x : Section} (h : (c.secs i).Tame x) : c.Tame (c.setSec i x) := by
  intro j
  by_cases hj : j = i
  · subst hj
    rw [setSec_secs, Function.update_self]
    exact h
  · rw [setSec_secs, Function.update_of_ne hj]
    exact .refl _

theorem tame_lock (h : c.lock d i = .ok c') : c.Tame c' := by
  simp only [lock, bind_eq_ok, ensure_eq_ok] at h
  obtain ⟨-, -, -, -, h⟩ := h
  cases h
  exact Tame.setSec (.of_same rfl rfl rfl rfl)

theorem tame_unlock (c : Cache) (i : ℕ) : c.Tame (c.unlock i) :=
  Tame.setSec (.of_same rfl rfl rfl rfl)

theorem secs_enqueue (c : Cache) (i : ℕ) : (c.enqueue i).secs = c.secs := by
  unfold enqueue
  split <;> rfl

/-- A section that is chosen was clean or dirty. -/
theorem tame_takeVictim (h : c.takeVictim d i = .ok c') : c.Tame c' := by
  simp only [takeVictim, bind_eq_ok, ensure_eq_ok] at h
  obtain ⟨c1, h1, -, hst, h⟩ := h
  cases h
  have hmark : c1.Tame (c1.markCandidate i) := by
    refine Tame.setSec ?_
    intro hc ht
    refine ⟨?_, ht, rfl, rfl⟩
    rw [Section.Clean] at hc ⊢
    dsimp only at hc
    cases hstate : (c1.secs i).state with
    | clean => exact .inl rfl
    | dirty =>
      rw [hstate, if_pos rfl] at hc
      exact hc.elim (by rintro ⟨⟩) (by rintro ⟨⟩)
    | cCandidate => exact absurd hstate hst.1
    | dCandidate => exact absurd hstate hst.2
  have hpush : (c1.markCandidate i).Tame ((c1.markCandidate i).pushRing d i) := Tame.of_secs rfl
  exact (((tame_lock h1).trans hmark).trans hpush).trans (tame_unlock _ i)

theorem tame_collectLoop {is : List ℕ} (h : collectLoop d is c = .ok c') : c.Tame c' := by
  induction is generalizing c with
  | nil =>
    cases h
    exact Tame.of_secs rfl
  | cons i is ih =>
    simp only [collectLoop, bind_eq_ok] at h
    obtain ⟨c1, h1, h⟩ := h
    split at h
    · cases h
      exact (tame_takeVictim h1).trans (Tame.of_secs rfl)
    · exact (tame_takeVictim h1).trans (ih h)

theorem tame_collectVictims (h : c.collectVictims d = .ok c') : c.Tame c' := by
  unfold collectVictims at h
  split at h
  · cases h
    exact .refl c
  split at h
  · exact tame_collectLoop h
  split at h
  · cases h
    exact Tame.of_secs rfl
  · exact (Tame.of_secs rfl : c.Tame { c with candidates := 0, collecting := true }).trans
      (tame_collectLoop h)

end Cache

/-! ### Eviction -/

namespace Shard

variable {d : Device} {s s' : Shard} {i : ℕ}

theorem secs_clearPage {ppa grain : ℕ} (h : s.clearPage d ppa grain = .ok s') :
    s'.cache.secs = s.cache.secs := by
  simp only [clearPage, bind_eq_ok] at h
  obtain ⟨f, -, h⟩ := h
  cases h
  rfl

theorem secs_turnPage {e e' : Filling} {gLen : ℕ} (h : s.turnPage d e i gLen = .ok (e', s')) :
    s'.cache.secs = s.cache.secs := by
  unfold turnPage at h
  split at h
  · simp only [bind_eq_ok, ensure_eq_ok] at h
    obtain ⟨-, -, s1, h1, h⟩ := h
    cases h
    exact secs_clearPage h1
  · cases h
    rfl

theorem secs_dropOnDisk {gLen : ℕ} (h : s.dropOnDisk d i gLen = .ok s') :
    s'.cache.secs = s.cache.secs := by
  unfold dropOnDisk at h
  dsimp only at h
  split at h
  · simp only [bind_eq_ok] at h
    obtain ⟨f, -, h⟩ := h
    cases h
    rfl
  · simp only [bind_eq_ok, ensure_eq_ok] at h
    obtain ⟨-, -, h⟩ := h
    cases h
    rfl

theorem secs_evictPage {e e' : Filling} (h : s.evictPage d e = .ok (e', s')) :
    s'.cache.secs = s.cache.secs := by
  unfold evictPage at h
  split at h
  · cases h
    rfl
  · simp only [bind_eq_ok] at h
    obtain ⟨⟨p, ppa, f⟩, -, h⟩ := h
    cases h
    rfl

/-- A victim that is dirty is written, any other is left alone. -/
theorem writeIfDirty_sec {e e' : Filling} (h : s.writeIfDirty d e i = .ok (e', s')) :
    (∀ j, j ≠ i → s'.sec j = s.sec j) ∧
      ((s'.sec i).table.mem = (s'.sec i).written ∨
        (s.sec i).state ≠ .dCandidate ∧ s'.sec i = s.sec i) := by
  unfold writeIfDirty at h
  split at h
  · simp only [writeVictim, placeVictim, bind_eq_ok, ensure_eq_ok] at h
    obtain ⟨s1, h1, -, -, -, -, ⟨e2, s2⟩, h2, -, -, f, -, -, -, h⟩ := h
    cases h
    have hsecs : s2.cache.secs = s.cache.secs := (secs_evictPage h2).trans (secs_dropOnDisk h1)
    refine ⟨fun j hj => ?_, .inl ?_⟩
    · rw [sec_setSec_of_ne _ _ hj]
      exact congrFun hsecs j
    · rw [sec_setSec_self]
  · rename_i hst
    cases h
    exact ⟨fun _ _ => rfl, .inr ⟨hst, rfl⟩⟩

/-- A victim leaves the cache with the table that was written, now or before. -/
theorem Faithful.evictRound (hf : s.Faithful) {e e' : Filling}
    (h : s.evictRound d e i = .ok (e', s')) : s'.Faithful := by
  simp only [Shard.evictRound, bind_eq_ok, ensure_eq_ok] at h
  obtain ⟨-, -, -, hst, c, hc, -, -, ⟨e1, s1⟩, h1, ⟨e2, s2⟩, h2, h⟩ := h
  cases h
  have hlock : s.Tame (s.setCache c) := Cache.tame_lock hc
  have hturn : s1.cache.secs = (s.setCache c).cache.secs := secs_turnPage h1
  have hsecs : s1.popRing.cache.secs = (s.setCache c).cache.secs := hturn
  have hf1 : s1.popRing.Faithful := hf.of_tame (hlock.trans (.of_secs hsecs))
  obtain ⟨hother, hself⟩ := writeIfDirty_sec h2
  intro j
  by_cases hj : j = i
  · subst hj
    rw [sec_dropVictim_self]
    intro _ ht
    rcases hself with hw | ⟨hnd, hsame⟩
    · exact hw
    · -- it was chosen while clean, and is as it was
      have hstate : (s1.popRing.sec j).state = .cCandidate := by
        have hsec : s1.popRing.sec j = c.secs j := congrFun hsecs j
        have hcst : (c.secs j).state = (s.sec j).state := by
          simp only [Cache.lock, bind_eq_ok, ensure_eq_ok] at hc
          obtain ⟨-, -, -, -, hc⟩ := hc
          cases hc
          rw [Cache.setSec_secs, Function.update_self]
          rfl
        rw [hsec, hcst] at hnd ⊢
        exact hst.resolve_right hnd
      rw [hsame] at ht ⊢
      exact hf1 j (.inr hstate) ht
  · rw [sec_dropVictim_of_ne _ _ hj, hother j hj]
    exact hf1 j

theorem Faithful.evictLoop {fuel : ℕ} (hf : s.Faithful) {e e' : Filling}
    (h : Shard.evictLoop d fuel e s = .ok (e', s')) : s'.Faithful := by
  induction fuel generalizing s e with
  | zero => cases h
  | succ fuel ih =>
    unfold Shard.evictLoop at h
    split at h
    · cases h
      exact hf
    split at h
    · cases h
    · simp only [bind_eq_ok] at h
      obtain ⟨⟨e1, s1⟩, h1, h⟩ := h
      have hf1 := hf.evictRound h1
      split at h
      · cases h
        exact hf1
      · exact ih hf1 h

theorem Faithful.evictOne (hf : s.Faithful) {n : ℕ} (h : s.evictOne d = .ok (n, s')) :
    s'.Faithful := by
  simp only [Shard.evictOne, awaitVictims, bind_eq_ok, ensure_eq_ok] at h
  obtain ⟨s0, ⟨c, hc, -, -, h0⟩, ⟨e1, s1⟩, h1, s2, h2, h⟩ := h
  cases h0
  cases h
  have hcoll : s.cache.Tame c := Cache.tame_collectVictims hc
  have ht : s.Tame (s.setCache { c with haveVictims := 2 }) := hcoll
  have hf1 := (hf.of_tame ht).evictLoop h1
  have hf2 : s2.Faithful := by
    unfold closePage at h2
    split at h2
    · exact hf1.of_tame (.of_secs (secs_clearPage h2))
    · cases h2
      exact hf1
  exact hf2.of_tame (.of_secs rfl)

theorem Faithful.evictWhileFull {fuel : ℕ} (hf : s.Faithful) {n n' : ℕ}
    (h : Shard.evictWhileFull d fuel n s = .ok (n', s')) : s'.Faithful := by
  induction fuel generalizing s n with
  | zero => cases h
  | succ fuel ih =>
    unfold Shard.evictWhileFull at h
    split at h
    · simp only [bind_eq_ok] at h
      obtain ⟨⟨k, s1⟩, h1, h⟩ := h
      exact ih (hf.evictOne h1) h
    · cases h
      exact hf

theorem Faithful.makeRoom (hf : s.Faithful) {n : ℕ} (h : s.makeRoom d n = .ok s') :
    s'.Faithful := by
  simp only [Shard.makeRoom, bind_eq_ok] at h
  obtain ⟨⟨k, s1⟩, h1, u, -, h⟩ := h
  cases h
  exact (hf.evictWhileFull h1).of_tame (.of_secs rfl)

/-! ### Commands -/

theorem tame_getHt {lpa : ℕ} (h : s.getHt d lpa = .ok s') : s.Tame s' := by
  simp only [getHt, Cache.getHt, bind_eq_ok] at h
  obtain ⟨c, hc, h⟩ := h
  cases h
  exact Cache.tame_lock hc

theorem tame_unlock (s : Shard) (lpa : ℕ) : s.Tame (s.unlock d lpa) :=
  Tame.setCache (Cache.tame_unlock s.cache _)

theorem tame_loadSection (h : s.loadSection d i false = .ok s') : s.Tame s' := by
  unfold loadSection at h
  split at h
  · cases h
    exact .refl s
  · simp only [getOne, getMappings, bind_eq_ok, ensure_eq_ok, Bool.false_eq_true, if_false] at h
    obtain ⟨s1, ⟨s2, ⟨-, -, p, -, h2⟩, h1⟩, -, -, h⟩ := h
    cases h2
    cases h1
    cases h
    have h1 : s.Tame (s.setSec i { s.sec i with cached := (s.sec i).hasMem }) :=
      Tame.setSec (.of_same rfl rfl rfl rfl)
    exact h1.trans (.of_secs (Cache.secs_enqueue _ i))

/-- The first page of a section is written with an empty table. -/
theorem Faithful.openSection (hf : s.Faithful) (h : s.openSection d i = .ok s') : s'.Faithful := by
  by_cases hi : (s.sec i).tPpa = uintMax
  · obtain ⟨ppa, -, hsecs, -⟩ := openSection_new hi h
    intro j
    rw [sec, hsecs]
    by_cases hj : j = i
    · subst hj
      rw [Function.update_self]
      exact fun _ _ => rfl
    · rw [Function.update_of_ne hj]
      exact hf j
  · rw [Shard.openSection, if_neg hi] at h
    exact hf.of_tame (tame_loadSection h)

/-- Only section `i` changes, and it is not clean afterwards. -/
def Dirties (s s' : Shard) (i : ℕ) : Prop :=
  (∀ j, j ≠ i → s'.sec j = s.sec j) ∧ ¬(s'.sec i).Clean

theorem Dirties.tame (h : Dirties s s' i) : s.Tame s' := by
  intro j
  by_cases hj : j = i
  · rw [hj]
    exact .of_dirty h.2
  · rw [h.1 j hj]
    exact .refl _

theorem dirties_markDirty (s : Shard) (i : ℕ) : Dirties s (s.markDirty i) i := by
  refine ⟨fun j hj => sec_setSec_of_ne s _ hj, ?_⟩
  rw [markDirty, sec_setSec_self]
  exact Section.not_clean_dirtied _ rfl

/-- A section that is not clean may change as long as its state stays. -/
theorem Dirties.update (h : Dirties s s' i) {s'' : Shard} {x : Section}
    (hs : s''.cache.secs = Function.update s'.cache.secs i x) (hx : x.state = (s'.sec i).state) :
    Dirties s s'' i := by
  refine ⟨fun j hj => ?_, ?_⟩
  · rw [sec, hs, Function.update_of_ne hj]
    exact h.1 j hj
  · rw [sec, hs, Function.update_self, Section.Clean, hx]
    exact h.2

theorem Dirties.of_secs {s'' : Shard} (h : Dirties s s' i) (hs : s''.cache.secs = s'.cache.secs) :
    Dirties s s'' i := by
  have hsec : ∀ j, s''.sec j = s'.sec j := fun j => congrFun hs j
  refine ⟨fun j hj => (hsec j).trans (h.1 j hj), ?_⟩
  rw [hsec]
  exact h.2

theorem Dirties.growTable (h : Dirties s s' i) {s'' : Shard} {pos : ℕ}
    (hg : s'.growTable d i pos = .ok s'') : Dirties s s'' i := by
  unfold Shard.growTable at hg
  dsimp only at hg
  split at hg
  · simp only [expandMapEntry, bind_eq_ok, ensure_eq_ok] at hg
    obtain ⟨s1, ⟨f1, -, -, -, ⟨ppa, f2⟩, -, f3, -, hs1⟩, t, -, hg⟩ := hg
    cases hs1
    cases hg
    refine Dirties.update ⟨fun j hj => ?_, ?_⟩ rfl rfl
    · rw [sec_setSec_of_ne _ _ hj]
      exact h.1 j hj
    · rw [sec_setSec_self]
      exact Section.not_clean_dirtied _ rfl
  · cases hg
    exact h

theorem secs_recordOld {lpa pos n : ℕ} {record : Bool}
    (h : s.recordOld d i lpa pos record = .ok (n, s')) : s'.cache.secs = s.cache.secs := by
  unfold recordOld at h
  dsimp only at h
  split at h
  · simp only [bind_eq_ok] at h
    obtain ⟨⟨k, f, log⟩, -, h⟩ := h
    cases h
    rfl
  · cases h
    rfl

theorem dirties_updateMap {lpa ppa pos n : ℕ} {mem : Option (List UInt8)} {record : Bool}
    (h : s.updateMap d lpa mem ppa pos record = .ok (n, s')) : Dirties s s' (d.idx lpa) := by
  have hd := dirties_markDirty s (d.idx lpa)
  simp only [updateMap, bind_eq_ok, ensure_eq_ok] at h
  obtain ⟨-, -, h⟩ := h
  split at h
  · cases h
    exact hd.update rfl rfl
  · simp only [updateTwolevel, bind_eq_ok] at h
    obtain ⟨s1, h1, ⟨k, s2⟩, h2, t, -, h⟩ := h
    cases h
    have hs2 := (hd.growTable h1).of_secs (secs_recordOld h2)
    exact hs2.update rfl rfl

theorem Faithful.retrieveLoop {key : List UInt8} {vlen rOffset : ℕ} {forDel : Bool} {fuel cnt : ℕ}
    {hit : Hit} (hf : s.Faithful)
    (h : Shard.retrieveLoop d key vlen rOffset forDel fuel cnt s = .ok (hit, s')) :
    s'.Faithful := by
  induction fuel generalizing s cnt with
  | zero => cases h
  | succ fuel ih =>
    simp only [Shard.retrieveLoop, bind_eq_ok] at h
    obtain ⟨⟨lpa, c⟩, -, s1, h1, h⟩ := h
    have hf1 := hf.of_tame (tame_getHt h1)
    dsimp only at h
    split at h
    · cases h
      exact hf1
    split at h
    · exact ih (hf1.of_tame (tame_unlock s1 lpa)) h
    · simp only [bind_eq_ok] at h
      obtain ⟨s2, h2, h⟩ := h
      have hf2 := hf1.of_tame (tame_loadSection h2)
      split at h
      · cases h
        exact hf2.of_tame (tame_unlock s2 lpa)
      · simp only [bind_eq_ok] at h
        obtain ⟨x, -, h⟩ := h
        cases x with
        | none => exact ih (hf2.of_tame (tame_unlock s2 lpa)) h
        | some x =>
          cases h
          exact hf2

theorem tame_deleteAt {lpa pos vlen rOffset n : ℕ} {x : Found}
    (h : s.deleteAt d lpa pos vlen rOffset x = .ok (n, s')) : s.Tame s' := by
  simp only [deleteAt, bind_eq_ok] at h
  obtain ⟨klen, -, h⟩ := h
  split at h
  · simp only [deletePair, bind_eq_ok] at h
    obtain ⟨f, -, h⟩ := h
    exact (Tame.of_secs rfl : s.Tame (s.setFlash f)).trans (dirties_updateMap h).tame
  · simp only [deletePart, bind_eq_ok] at h
    obtain ⟨p, -, g, -, f, -, h⟩ := h
    split at h
    · cases h
      exact .of_secs rfl
    · simp only [bind_eq_ok] at h
      obtain ⟨⟨k, f', log⟩, -, h⟩ := h
      cases h
      exact .of_secs rfl

theorem Faithful.retrieve {key : List UInt8} {vlen rOffset : ℕ} {forDel : Bool} {r : Reply}
    (hf : s.Faithful) (h : s.retrieve d key vlen rOffset forDel = .ok (r, s')) : s'.Faithful := by
  simp only [Shard.retrieve, bind_eq_ok, ensure_eq_ok] at h
  obtain ⟨-, -, -, -, h⟩ := h
  split at h
  · -- a key in an append buffer does not touch the table
    refine hf.of_tame (.of_secs ?_)
    simp only [bind_eq_ok] at h
    obtain ⟨s1, h1, h⟩ := h
    obtain ⟨b1, rfl⟩ := touchBuf_eq h1
    obtain ⟨b2, rfl⟩ := retrieveFromBuf_eq h
    rfl
  · simp only [retrieveFromTable, beginRetrieve, bind_eq_ok] at h
    obtain ⟨s1, h1, ⟨hit, s2⟩, h2, h⟩ := h
    have hf0 : { s with leftoverCredits := 0 }.Faithful := hf.of_tame (.of_secs rfl)
    have hf1 := hf0.makeRoom h1
    have hf2 := hf1.retrieveLoop h2
    cases hit with
    | miss held =>
      cases held with
      | none =>
        cases h
        exact hf2
      | some lpa =>
        simp only [bind_eq_ok] at h
        obtain ⟨s3, h3, h⟩ := h
        cases h
        rw [releaseMap_eq h3]
        exact hf2.of_tame (tame_unlock s2 lpa)
    | slot lpa pos x =>
      dsimp only at h
      split at h
      · simp only [bind_eq_ok] at h
        obtain ⟨⟨k, s3⟩, h3, s4, h4, h⟩ := h
        cases h
        rw [releaseMap_eq h4]
        exact ((hf2.of_tame (tame_deleteAt h3)).of_tame (.of_secs rfl)).of_tame (tame_unlock _ lpa)
      · simp only [bind_eq_ok] at h
        obtain ⟨r', -, s3, h3, h⟩ := h
        cases h
        rw [releaseMap_eq h3]
        exact hf2.of_tame (tame_unlock s2 lpa)

theorem Faithful.storeLoop {key : List UInt8} {total fuel cnt credits : ℕ} {sl : Slot}
    (hf : s.Faithful) (h : Shard.storeLoop d key total fuel cnt credits s = .ok (sl, s')) :
    s'.Faithful := by
  induction fuel generalizing s cnt credits with
  | zero => cases h
  | succ fuel ih =>
    simp only [Shard.storeLoop, bind_eq_ok] at h
    obtain ⟨⟨lpa, c⟩, -, s1, h1, s2, h2, s3, h3, h⟩ := h
    have hf3 := Faithful.openSection ((hf.makeRoom h1).of_tame (tame_getHt h2)) h3
    dsimp only at h
    split at h
    · cases h
      exact hf3
    · simp only [bind_eq_ok] at h
      obtain ⟨x, -, m, -, h⟩ := h
      cases m with
      | none => exact ih (hf3.of_tame (tame_unlock s3 lpa)) h
      | some y =>
        cases h
        exact hf3

theorem tame_placeAt {total credits' : ℕ} {mem : List UInt8} {sl : Slot}
    (h : s.placeAt d total mem sl = .ok (credits', s')) : s.Tame s' := by
  simp only [placeAt, bind_eq_ok] at h
  obtain ⟨s1, h1, ⟨grain, credits, user, f⟩, -, ⟨more, s2⟩, h2, h⟩ := h
  cases h
  have hdrop : s.Tame s1 := by
    cases hold : sl.old with
    | none =>
      rw [hold] at h1
      cases h1
      exact .refl s
    | some x =>
      rw [hold] at h1
      simp only [dropOld, bind_eq_ok] at h1
      obtain ⟨f, -, h1⟩ := h1
      cases h1
      exact .of_secs rfl
  exact (hdrop.trans (.of_secs rfl)).trans ((dirties_updateMap h2).tame.trans (.of_secs rfl))

theorem Faithful.store {key value : List UInt8} {junk : ℕ → UInt8} (hf : s.Faithful)
    (h : s.store d key value junk = .ok s') : s'.Faithful := by
  simp only [Shard.store, storeMapping, storeAt, bind_eq_ok, ensure_eq_ok] at h
  obtain ⟨⟨lpa, s3⟩, ⟨s1, h0, -, -, ⟨sl, s2⟩, h2, s3', ⟨mem, -, ⟨k, s5⟩, h3, h5⟩, h1⟩, s4, h4, h⟩ := h
  cases h5
  cases h1
  obtain ⟨b, rfl⟩ := dropAppendBuf_eq h0
  have hdrop : s.Tame { s with appendBufs := b, leftoverCredits := 0 } := .of_secs rfl
  have hf3 := ((hf.of_tame hdrop).storeLoop h2).of_tame (tame_placeAt h3)
  have hcopy : s5.Tame s4 := by
    unfold copyValue at h4
    split at h4
    · cases h4
    · simp only [bind_eq_ok] at h4
      obtain ⟨mem, -, h4⟩ := h4
      cases h4
      exact .of_secs rfl
  rw [releaseMap_eq h]
  exact (hf3.of_tame hcopy).of_tame (tame_unlock s4 _)

/-! ### Appends -/

theorem tame_assignBuf {key : List UInt8} {i : ℕ} (h : s.assignBuf key = .ok (i, s')) :
    s.Tame s' := by
  unfold assignBuf at h
  split at h
  · cases h
  · simp only [bind_eq_ok] at h
    obtain ⟨-, -, k, -, h⟩ := h
    cases h
    exact .of_secs rfl

theorem tame_appendTo {i : ℕ} {data : List UInt8} {r : AppendReply}
    (h : s.appendTo i data = .ok (r, s')) : s.Tame s' := by
  unfold appendTo at h
  split at h
  · cases h
    exact .refl s
  · simp only [bind_eq_ok] at h
    obtain ⟨b, -, bytes, -, h⟩ := h
    cases h
    exact .of_secs rfl

theorem tame_copyToBuf {key mem : List UInt8} {i : ℕ} (h : s.copyToBuf key mem = .ok (i, s')) :
    s.Tame s' := by
  simp only [copyToBuf, bind_eq_ok] at h
  obtain ⟨v, -, k, -, ⟨j, s1⟩, h1, old, -, bytes, -, h⟩ := h
  cases h
  exact (tame_assignBuf h1).trans (.of_secs rfl)

theorem Faithful.checkLen {key data : List UInt8} {credits : ℕ} {r : AppendReply}
    (hf : s.Faithful) (h : s.checkLen d key data credits = .ok (r, s')) : s'.Faithful := by
  simp only [Shard.checkLen, bind_eq_ok, ensure_eq_ok] at h
  obtain ⟨-, -, ⟨sl, s1⟩, h1, h⟩ := h
  have hf0 : { s with leftoverCredits := 0 }.Faithful := hf.of_tame (.of_secs rfl)
  have hf1 := hf0.storeLoop h1
  dsimp only at h
  split at h
  · simp only [bind_eq_ok] at h
    obtain ⟨⟨i, s2⟩, h2, h⟩ := h
    exact (hf1.of_tame ((tame_assignBuf h2).trans (tame_unlock s2 _))).of_tame (tame_appendTo h)
  · split at h
    · cases h
      exact hf1.of_tame (tame_unlock s1 _)
    · simp only [bind_eq_ok] at h
      obtain ⟨⟨i, s2⟩, h2, s3, h3, h⟩ := h
      rw [releaseMap_eq h3] at h
      exact (hf1.of_tame ((tame_copyToBuf h2).trans (tame_unlock s2 _))).of_tame (tame_appendTo h)

theorem Faithful.flushBuf {i vlen credits : ℕ} {junk : ℕ → UInt8} (hf : s.Faithful)
    (h : s.flushBuf d i vlen junk = .ok (credits, s')) : s'.Faithful := by
  simp only [Shard.flushBuf, bind_eq_ok] at h
  obtain ⟨⟨sl, s1⟩, h1, mem, -, ⟨k, s2⟩, h2, mem', -, h⟩ := h
  cases h
  have hf0 : { s with leftoverCredits := 0 }.Faithful := hf.of_tame (.of_secs rfl)
  have htame : s2.Tame ((s2.setPair sl.lpa (some mem')).clearBuf i) := .of_secs rfl
  exact ((hf0.storeLoop h1).of_tame (tame_placeAt h2)).of_tame (htame.trans (tame_unlock _ _))

theorem Faithful.append {key data : List UInt8} {junk : ℕ → UInt8} {r : AppendReply}
    (hf : s.Faithful) (h : s.append d key data junk = .ok (r, s')) : s'.Faithful := by
  unfold Shard.append at h
  split at h
  · simp only [bind_eq_ok] at h
    obtain ⟨s1, h1, h⟩ := h
    obtain ⟨b, rfl⟩ := touchBuf_eq h1
    have hf1 : { s with appendBufs := b }.Faithful := hf.of_tame (.of_secs rfl)
    exact hf1.of_tame (tame_appendTo h)
  · split at h
    · simp only [bind_eq_ok] at h
      obtain ⟨⟨credits, s1⟩, h1, h⟩ := h
      refine Faithful.checkLen ?_ h
      unfold freeOldest at h1
      split at h1
      · cases h1
      · rename_i i l _
        simp only [bind_eq_ok] at h1
        obtain ⟨-, -, h1⟩ := h1
        have hl : (s.setLru l).Faithful := hf.of_tame (.of_secs rfl)
        split at h1
        · cases h1
          exact hl.of_tame (.of_secs rfl)
        · simp only [bind_eq_ok] at h1
          obtain ⟨-, -, h1⟩ := h1
          exact hl.flushBuf h1
    · exact hf.checkLen h

end Shard

/-! ### Collection -/

/-- Grains are smaller than the empty mapping. -/
def Device.GrainsFit (d : Device) : Prop := d.geo.ttPgs * d.gpp ≤ uintMax

/-- No clean section has a pair in the line. -/
def Shard.SparesClean (d : Device) (s : Shard) (line : ℕ) : Prop :=
  ∀ lpa, (s.sec (d.idx lpa)).Clean → (s.sec (d.idx lpa)).tPpa ≠ uintMax →
    InvLog.grain2lineid d (s.cache.hidxToGrain d lpa).1 ≠ .ok line

namespace TwoLevel

/-- The position `twolevel_find` returns is where the grain is. -/
theorem directRead_of_findInLeaf {m : PageWords} {i h n j : ℕ}
    (hne : (findInLeaf m i h n j).1 ≠ uintMax) :
    twolevelDirectRead m ((findInLeaf m i h n j).2.getD uintMax) = (findInLeaf m i h n j).1 := by
  induction n generalizing j with
  | zero => exact absurd rfl hne
  | succ n ih =>
    unfold findInLeaf at hne ⊢
    split at hne
    · rename_i hj
      rw [if_pos hj]
      change m (4 * (leafBase i + inLeaf + j) / 4) = ppa m i j
      rw [Nat.mul_div_cancel_left _ (by decide)]
      rfl
    · rename_i hj
      rw [if_neg hj]
      split at hne
      · exact absurd rfl hne
      · rename_i hu
        rw [if_neg hu]
        exact ih hne

theorem directRead_of_find {m : PageWords} {h : ℕ} (hne : (twolevelFind m h).1 ≠ uintMax) :
    twolevelDirectRead m ((twolevelFind m h).2.getD uintMax) = (twolevelFind m h).1 := by
  unfold twolevelFind at hne ⊢
  dsimp only at hne ⊢
  split at hne
  · exact absurd rfl hne
  · rename_i hi
    rw [if_neg hi]
    exact directRead_of_findInLeaf hne

end TwoLevel

namespace Gc

variable {d : Device} {s₀ s s' : Shard} {c c' : State} {line : ℕ}

theorem tame_copyMap {q q' : Pos} {i len : ℕ} (hi : (s.sec i).tPpa ≠ uintMax)
    (h : copyMap d s q i len = .ok (q', s')) : s.Tame s' := by
  simp only [copyMap, bind_eq_ok] at h
  obtain ⟨⟨q1, f1⟩, -, f2, -, h⟩ := h
  cases h
  have hset : s.Tame (s.setSec i { s.sec i with tPpa := q1.pgidx, gOff := q1.offset }) :=
    Shard.Tame.setSec fun hc _ => ⟨hc, hi, rfl, rfl⟩
  exact hset.trans (.of_secs rfl)

theorem secs_moveLogPage {pgidx : ℕ} (h : moveLogPage d c pgidx = .ok c') :
    c'.shard.cache.secs = c.shard.cache.secs := by
  simp only [moveLogPage, bind_eq_ok, ensure_eq_ok] at h
  obtain ⟨-, -, h⟩ := h
  split at h
  · cases h
  · simp only [copyInvMap, bind_eq_ok, ensure_eq_ok] at h
    obtain ⟨⟨q, s1⟩, ⟨⟨q1, f1⟩, -, f2, -, -, -, -, -, h1⟩, f3, -, h⟩ := h
    cases h1
    cases h
    rfl

theorem tame_moveSection {pgidx i n : ℕ} (hp : pgidx ≠ uintMax)
    (h : moveSection d c pgidx i = .ok (n, c')) : c.shard.Tame c'.shard := by
  simp only [moveSection, bind_eq_ok, ensure_eq_ok] at h
  obtain ⟨-, -, s1, h1, -, -, h⟩ := h
  have ht1 := Shard.tame_getHt h1
  split at h
  · cases h
    exact ht1.trans (Shard.tame_unlock s1 _)
  · rename_i hplace
    simp only [bind_eq_ok, ensure_eq_ok] at h
    obtain ⟨-, -, f, -, ⟨q, s2⟩, h2, h⟩ := h
    cases h
    have hhere : (s1.sec (d.idx (c.shard.flash.oobAt d pgidx i % 2 ^ 32))).tPpa = pgidx := by
      by_contra hne
      exact hplace (.inl hne)
    have ht2 : (s1.setFlash f).Tame s2 := by
      refine tame_copyMap ?_ h2
      change (s1.sec _).tPpa ≠ uintMax
      rw [hhere]
      exact hp
    exact (ht1.trans (.of_secs rfl)).trans (ht2.trans (Shard.tame_unlock s2 _))

/-- The mapping that is switched is in the line that is collected. -/
theorem switchMapping_line {lpa grain : ℕ} (hne : (s.cache.hidxToGrain d lpa).1 ≠ uintMax)
    (h : switchMapping d s lpa (s.cache.hidxToGrain d lpa).2 grain line = .ok s') :
    InvLog.grain2lineid d (s.cache.hidxToGrain d lpa).1 = .ok line ∧
      ∃ t, s' = s.setSec (d.idx lpa) { s.sec (d.idx lpa) with table := t } := by
  unfold switchMapping at h
  unfold Cache.hidxToGrain at hne h ⊢
  dsimp only at hne h ⊢
  cases hb : d.build with
  | original =>
    rw [hb] at h hne
    simp only [bind_eq_ok, ensure_eq_ok] at h
    obtain ⟨l, hl, -, rfl, h⟩ := h
    cases h
    exact ⟨hl, _, rfl⟩
  | plus =>
    rw [hb] at h hne
    simp only [bind_eq_ok, ensure_eq_ok] at h
    obtain ⟨l, hl, -, rfl, t, -, h⟩ := h
    cases h
    refine ⟨?_, t, rfl⟩
    have hread := TwoLevel.directRead_of_find hne
    rw [← hl]
    exact congrArg _ hread.symm

/-- A section with a pair in the victim is not clean. -/
theorem not_clean_of_spares (hsp : s₀.SparesClean d line) (ht : s₀.Tame s) {lpa : ℕ}
    (hl : InvLog.grain2lineid d (s.cache.hidxToGrain d lpa).1 = .ok line)
    (hp : (s.sec (d.idx lpa)).tPpa ≠ uintMax) : ¬(s.sec (d.idx lpa)).Clean := by
  intro hc
  obtain ⟨hc0, hp0, htab, -⟩ := ht (d.idx lpa) hc hp
  have hsame : s.cache.hidxToGrain d lpa = s₀.cache.hidxToGrain d lpa := by
    have hm : (s.cache.secs (d.idx lpa)).table = (s₀.cache.secs (d.idx lpa)).table := htab
    rw [Cache.hidxToGrain, Cache.hidxToGrain, hm]
  rw [hsame] at hl
  exact hsp lpa hc0 hp0 hl

theorem tame_copyValidPair (hsp : s₀.SparesClean d line) (ht : s₀.Tame s) {q q' : Pos}
    {lpa len : ℕ} (hne : (s.cache.hidxToGrain d lpa).1 ≠ uintMax)
    (h : copyValidPair d s q lpa len (s.cache.hidxToGrain d lpa).2 line = .ok (q', s')) :
    s₀.Tame s' := by
  simp only [copyValidPair, bind_eq_ok, ensure_eq_ok] at h
  obtain ⟨⟨q1, f1⟩, -, ⟨q2, f2⟩, -, ⟨q3, f3⟩, -, -, -, f4, -, s1, h1, h⟩ := h
  cases h
  have hf : s₀.Tame (s.setFlash f4) := ht.trans (.of_secs rfl)
  obtain ⟨hl, t, rfl⟩ := switchMapping_line (s := s.setFlash f4) hne h1
  intro j
  by_cases hj : j = d.idx lpa
  · subst hj
    rw [Shard.sec_setSec_self]
    intro hc hp
    exact absurd hc (not_clean_of_spares hsp hf hl hp)
  · rw [Shard.sec_setSec_of_ne _ _ hj]
    exact hf j

theorem tame_relocate (hsp : s₀.SparesClean d line) (ht : s₀.Tame c.shard) {lpa len grain : ℕ}
    (hne : (c.shard.cache.hidxToGrain d lpa).1 ≠ uintMax)
    (h : relocate d c lpa len grain (c.shard.cache.hidxToGrain d lpa).2 line = .ok c') :
    s₀.Tame c'.shard := by
  unfold relocate at h
  split at h
  · cases h
  · dsimp only at h
    simp only [bind_eq_ok] at h
    obtain ⟨r, -, h⟩ := h
    cases r with
    | none =>
      simp only [bind_eq_ok] at h
      obtain ⟨⟨n, s1⟩, h1, h⟩ := h
      cases h
      exact (ht.trans (.of_secs rfl)).trans (Shard.dirties_updateMap h1).tame
    | some r =>
      simp only [bind_eq_ok] at h
      obtain ⟨⟨q, s1⟩, h1, h⟩ := h
      cases h
      exact tame_copyValidPair hsp
        (s := (c.shard.setLog (Shift.collect d c.shard.log lpa grain).2).setPair lpa (some r.2))
        (ht.trans (.of_secs rfl)) hne h1

theorem tame_shadowRead (c : State) (i : ℕ) : c.shard.Tame (shadowRead c i).shard := by
  unfold shadowRead
  split
  · exact .refl _
  · exact Shard.Tame.setSec (.of_same rfl rfl rfl rfl)

theorem tame_moveIfLive (hsp : s₀.SparesClean d line) (ht : s₀.Tame c.shard) {lpa len grain : ℕ}
    (hg : grain ≠ uintMax) (h : moveIfLive d c lpa len grain line = .ok c') :
    s₀.Tame c'.shard := by
  simp only [moveIfLive, bind_eq_ok, ensure_eq_ok] at h
  obtain ⟨-, -, h⟩ := h
  have hsh := ht.trans (tame_shadowRead c (d.idx lpa))
  split at h
  · rename_i hlive
    exact tame_relocate hsp hsh (hlive ▸ hg) h
  · split at h
    · cases h
      exact hsh
    · simp only [bind_eq_ok] at h
      obtain ⟨⟨n, f, log⟩, -, h⟩ := h
      cases h
      exact hsh.trans (.of_secs rfl)

theorem tame_movePair (hsp : s₀.SparesClean d line) (ht : s₀.Tame c.shard) {pgidx i n : ℕ}
    (hg : d.ppaToPga pgidx i ≠ uintMax) (h : movePair d c pgidx i line = .ok (n, c')) :
    s₀.Tame c'.shard := by
  simp only [movePair, bind_eq_ok, ensure_eq_ok] at h
  obtain ⟨-, -, -, -, -, -, s1, h1, c2, h2, h⟩ := h
  cases h
  have ht1 := ht.trans (Shard.tame_getHt h1)
  have ht2 : s₀.Tame c2.shard := by
    unfold moveUnlessInvalid at h2
    split at h2
    · exact tame_moveIfLive hsp (c := c.setShard s1) ht1 hg h2
    · cases h2
      exact ht1
  exact ht2.trans (Shard.tame_unlock _ _)

theorem tame_cleanGrain (hsp : s₀.SparesClean d line) (ht : s₀.Tame c.shard) {map : Bool}
    {pgidx i n : ℕ} (hp : pgidx ≠ uintMax) (hg : d.ppaToPga pgidx i ≠ uintMax)
    (h : cleanGrain d map line c pgidx i = .ok (n, c')) : s₀.Tame c'.shard := by
  unfold cleanGrain at h
  dsimp only at h
  split at h
  · simp only [bind_eq_ok, ensure_eq_ok] at h
    obtain ⟨-, -, h⟩ := h
    cases h
    exact ht
  split at h
  · simp only [bind_eq_ok, ensure_eq_ok] at h
    obtain ⟨-, -, -, -, h⟩ := h
    cases h
    exact ht
  split at h
  · cases h
    exact ht
  have hreset : s₀.Tame (resetOffset d c.shard (d.ppaToPga pgidx i)) := by
    refine ht.trans (.of_secs ?_)
    unfold resetOffset
    split <;> rfl
  split at h
  · simp only [bind_eq_ok] at h
    obtain ⟨c1, h1, h⟩ := h
    cases h
    exact hreset.trans (.of_secs (secs_moveLogPage h1))
  split at h
  · simp only [bind_eq_ok] at h
    obtain ⟨⟨k, c1⟩, h1, h⟩ := h
    cases h
    unfold moveGrain at h1
    split at h1
    · exact hreset.trans (tame_moveSection hp h1)
    · exact tame_movePair hsp hreset hg h1
  · cases h
    exact hreset

theorem tame_cleanPageLoop (hfit : d.GrainsFit) (hsp : s₀.SparesClean d line) {map : Bool}
    {pgidx : ℕ} (hp : pgidx < d.geo.ttPgs) {fuel i : ℕ} (ht : s₀.Tame c.shard)
    (h : cleanPageLoop d map line pgidx fuel i c = .ok c') : s₀.Tame c'.shard := by
  induction fuel generalizing i c with
  | zero => cases h
  | succ fuel ih =>
    unfold cleanPageLoop at h
    split at h
    · cases h
      exact ht
    · rename_i hi
      simp only [bind_eq_ok] at h
      obtain ⟨⟨n, c1⟩, h1, h⟩ := h
      have hgrain : d.ppaToPga pgidx i < uintMax := by
        unfold Device.GrainsFit at hfit
        calc d.ppaToPga pgidx i
            = pgidx * d.gpp + i := rfl
          _ < pgidx * d.gpp + d.gpp := by omega
          _ = (pgidx + 1) * d.gpp := by rw [Nat.add_mul, Nat.one_mul]
          _ ≤ d.geo.ttPgs * d.gpp := Nat.mul_le_mul_right _ hp
          _ ≤ uintMax := hfit
      have hpage : pgidx < uintMax := by
        have hle : pgidx * 1 ≤ pgidx * d.gpp := Nat.mul_le_mul_left _ d.gpp_pos
        unfold Device.ppaToPga at hgrain
        omega
      exact ih (tame_cleanGrain hsp ht (Nat.ne_of_lt hpage) (Nat.ne_of_lt hgrain) h1) h

theorem tame_cleanPages (hfit : d.GrainsFit) {map : Bool} {p : Ppa} (hsp : s₀.SparesClean d p.blk)
    {n k cnt cnt' : ℕ} (ht : s₀.Tame c.shard)
    (h : cleanPages d map p n k cnt c = .ok (cnt', c')) : s₀.Tame c'.shard := by
  induction n generalizing k cnt c with
  | zero =>
    cases h
    exact ht
  | succ n ih =>
    simp only [cleanPages, bind_eq_ok] at h
    obtain ⟨pgidx, hpg, f, -, h⟩ := h
    have hlt : pgidx < d.geo.ttPgs := by
      simp only [Geometry.ppa2pgidx, bind_eq_ok, ensure_eq_ok] at hpg
      obtain ⟨-, hlt, hpg⟩ := hpg
      cases hpg
      exact hlt
    have hf : s₀.Tame (c.shard.setFlash f) := ht.trans (.of_secs rfl)
    split at h
    · cases h
    · simp only [bind_eq_ok] at h
      obtain ⟨c1, h1, h⟩ := h
      exact ih (tame_cleanPageLoop hfit hsp hlt (c := c.setShard (c.shard.setFlash f)) hf h1) h
    · simp only [bind_eq_ok, ensure_eq_ok] at h
      obtain ⟨-, -, h⟩ := h
      exact ih (c := c.setShard (c.shard.setFlash f)) hf h

theorem tame_flushShadow {is : List ℕ} (h : flushShadow d is s = .ok s') : s.Tame s' := by
  induction is generalizing s with
  | nil =>
    cases h
    exact .refl _
  | cons i is ih =>
    simp only [flushShadow, bind_eq_ok] at h
    obtain ⟨s1, h1, h⟩ := h
    have henq : s1.Tame ((s1.setCache (s1.cache.enqueue i)).addCached
        ((s1.setCache (s1.cache.enqueue i)).sec i).lenOnDisk) :=
      .of_secs (Cache.secs_enqueue _ i)
    have hun := Shard.Tame.setCache (Cache.tame_unlock ((s1.setCache (s1.cache.enqueue i)).addCached
      ((s1.setCache (s1.cache.enqueue i)).sec i).lenOnDisk).cache i)
    exact (((Shard.tame_getHt h1).trans henq).trans hun).trans (ih h)

theorem tame_cleanLine (hfit : d.GrainsFit) (hsp : s₀.SparesClean d line) {map : Bool}
    {ps : List (Ppa × Bool)} (hps : ∀ p ∈ ps, p.1.blk = line) (ht : s₀.Tame c.shard)
    (h : cleanLine d map line ps c = .ok c') : s₀.Tame c'.shard := by
  induction ps generalizing c with
  | nil =>
    cases h
    exact ht
  | cons p ps ih =>
    obtain ⟨p, last⟩ := p
    simp only [cleanLine, bind_eq_ok] at h
    obtain ⟨c1, h1, f, -, h⟩ := h
    have hblk : p.blk = line := hps (p, last) (List.mem_cons_self ..)
    have ht1 : s₀.Tame c1.shard := by
      unfold cleanIfLive at h1
      split at h1
      · simp only [cleanOneFlashpg, bind_eq_ok] at h1
        obtain ⟨⟨cnt, c2⟩, h2, h1⟩ := h1
        have ht2 := tame_cleanPages hfit (hblk ▸ hsp) ht h2
        dsimp only at h1
        split at h1
        · cases h1
          exact ht2
        · simp only [bind_eq_ok] at h1
          obtain ⟨s3, h3, h1⟩ := h1
          cases h1
          exact ht2.trans (tame_flushShadow h3)
      · cases h1
        exact ht
    exact ih (fun q hq => hps q (List.mem_cons_of_mem _ hq))
      (c := c1.setShard (c1.shard.setFlash f)) (ht1.trans (.of_secs rfl)) h

theorem blk_of_mem_flashPages {g : Geometry} {p : Ppa × Bool} (h : p ∈ flashPages g line) :
    p.1.blk = line := by
  simp only [flashPages, List.mem_flatMap, List.mem_map] at h
  obtain ⟨k, -, ch, -, lun, -, rfl⟩ := h
  rfl

theorem tame_collectLine (hfit : d.GrainsFit) (hsp : s.SparesClean d line)
    (h : collectLine d s line = .ok s') : s.Tame s' := by
  simp only [collectLine, bind_eq_ok] at h
  obtain ⟨s1, h1, c, hc, f, -, h⟩ := h
  cases h
  have hlog : s.Tame s1 := by
    refine .of_secs ?_
    unfold readLog at h1
    split at h1
    · simp only [bind_eq_ok] at h1
      obtain ⟨⟨f, log⟩, -, h1⟩ := h1
      cases h1
      rfl
    · cases h1
      rfl
  have hclean := tame_cleanLine hfit hsp (fun p hp => blk_of_mem_flashPages hp) hlog hc
  refine hclean.trans (.of_secs ?_)
  unfold dropLog
  split <;> rfl

end Gc

/-! ### Runs -/

/-- A collection spares the clean sections: none of them has a pair in the line that
`select_victim_line` chooses. -/
def SparesClean (d : Device) (s : Shard) : Op → Prop
  | .gc => ∀ line f, s.flash.selectVictimLine d s.user.offset = .ok (some line, f) →
      s.SparesClean d line
  | _ => True

theorem Gc.tame_turn {d : Device} {s s' : Shard} (hfit : d.GrainsFit)
    (hsp : Virtkv.SparesClean d s .gc) (h : Gc.turn d s = .ok s') : s.Tame s' := by
  simp only [turn, doGc, bind_eq_ok] at h
  obtain ⟨⟨v, s1⟩, ⟨⟨v', f⟩, hsel, h1⟩, h⟩ := h
  cases v' with
  | none =>
    cases h1
    cases h
    exact .of_secs rfl
  | some line =>
    simp only [bind_eq_ok] at h1
    obtain ⟨s2, h2, h1⟩ := h1
    cases h1
    cases h
    have hline : (s.setFlash f).SparesClean d line := hsp line f hsel
    have hset : s.Tame (s.setFlash f) := .of_secs rfl
    exact (hset.trans (tame_collectLine hfit hline h2)).trans (.of_secs rfl)

theorem Shard.Faithful.run {d : Device} {s s' : Shard} {op : Op} (hfit : d.GrainsFit)
    (hf : s.Faithful) (hok : Virtkv.SparesClean d s op) (h : op.run d s = .ok s') : s'.Faithful := by
  cases op with
  | store key value junk => exact hf.store h
  | append key data junk =>
    simp only [Op.run, bind_eq_ok] at h
    obtain ⟨⟨r, s1⟩, h1, h⟩ := h
    cases h
    exact hf.append h1
  | retrieve key vlen rOffset =>
    simp only [Op.run, bind_eq_ok] at h
    obtain ⟨⟨r, s1⟩, h1, h⟩ := h
    cases h
    exact hf.retrieve h1
  | delete key vlen rOffset =>
    simp only [Op.run, bind_eq_ok] at h
    obtain ⟨⟨r, s1⟩, h1, h⟩ := h
    cases h
    exact hf.retrieve h1
  | evict =>
    simp only [Op.run, bind_eq_ok] at h
    obtain ⟨⟨n, s1⟩, h1, h⟩ := h
    cases h
    exact hf.evictOne h1
  | gc => exact hf.of_tame (Gc.tame_turn hfit hok h)

theorem Shard.faithful_init {d : Device} {s : Shard} (h : Shard.init d = .ok s) : s.Faithful := by
  simp only [Shard.init, bind_eq_ok] at h
  obtain ⟨f, -, h⟩ := h
  cases h
  exact fun i _ hp => absurd rfl hp

/-- In every run from a fresh device whose collections spare the clean sections, every
clean section that was written has exactly the mappings it was written with. -/
theorem faithful_of_runs (d : Device) (hfit : d.GrainsFit) (s t : Shard)
    (hinit : Shard.init d = .ok s) (hr : Runs d (SparesClean d) s t) (i : ℕ)
    (hc : (t.sec i).state = .clean ∨ (t.sec i).state = .cCandidate)
    (hp : (t.sec i).tPpa ≠ uintMax) : (t.sec i).table.mem = (t.sec i).written :=
  hr.invariant (Shard.faithful_init hinit) (fun _ _ _ hf hok h => hf.run hfit hok h) i hc hp

/-! ### A collection that does not spare a clean section -/

def smallDevice : Device where
  build := .original
  geo :=
    { nchs := 1, lunsPerCh := 2, blksPerPl := 64, oneshotpgsPerBlk := 1, pgsPerOneshotpg := 2 }
  maxCached := 12
  hash := fun k => 1100 + k.length

theorem grainsFit_smallDevice : smallDevice.GrainsFit := by
  unfold Device.GrainsFit
  decide

/-- Two keys of one section on 64 lines of four pages. The second pair fills the rest of
the first line and is then overwritten; the line keeps the first pair. -/
def clashingOps : List Op :=
  [.store [0] [7] fun _ => 0, .store [0, 0] (List.replicate 4000 7) fun _ => 0,
    .store [0, 0] [7] fun _ => 0, .evict]

/-- Nothing but section 1 is mapped after the stores. -/
theorem sparesClean_clashing {s u : Shard} (hs : Shard.init tableDevice = .ok s)
    (hu : runOps tableDevice (clashingOps.take 3) s = .ok u) (htry : u.maxTry = 0)
    (hdirty : (u.sec 1).state = .dirty) (line : ℕ) : u.SparesClean tableDevice line := by
  have hops : ∀ op ∈ clashingOps.take 3,
      (op.Fair ∧ op.Sized) ∧ ∀ key vlen rOffset, op ≠ .delete key vlen rOffset := by
    simp only [clashingOps, List.take_succ_cons, List.take_zero, List.mem_cons, List.not_mem_nil,
      or_false]
    rintro op (rfl | rfl | rfl) <;>
      exact ⟨by simp [-List.reduceReplicate, Op.Fair, Op.Sized, maxKlen, PairMem.metaSz,
        klenMarkerSz, vlenMarkerSz, pageSize], fun key vlen rOffset h => by cases h⟩
  have hm := (showsMap_init hs).runOps fits_tableDevice indexed_tableDevice hops hu
  intro lpa hclean hp hline
  by_cases hmap : (u.cache.hidxToGrain tableDevice lpa).1 = uintMax
  · rw [hmap] at hline
    cases hline
  · obtain ⟨k, c, hk, hc, rfl⟩ := hm.exists_slot ⟨hp, hmap⟩
    have hidx : tableDevice.idx (tableDevice.scheme.slot k c) = 1 := by
      rw [htry, Nat.le_zero] at hc
      subst hc
      show (((1100 + k.length) % 2 ^ 32 + 0 + 0 * 0) % 2 ^ 32 % 4095 + 1) / 1024 = 1
      rw [maxKlen] at hk
      omega
    rw [hidx, Section.Clean, hdirty] at hclean
    rcases hclean with h | h <;> cases h

/-- The collection takes the line of the first pair while the section is dirty, and the eviction
writes the section with the new grain. -/
theorem faithful_of_runs_collected :
    ∃ s t, Shard.init tableDevice = .ok s ∧ Runs tableDevice (SparesClean tableDevice) s t ∧
      (t.sec 1).state = .clean ∧ (t.sec 1).tPpa ≠ uintMax ∧ (t.sec 1).table.mem 78 = 48 ∧
      (t.sec 1).table.mem = (t.sec 1).written := by
  obtain ⟨s, u, hs, hu, hp⟩ := exists_of_endsWith tableDevice (clashingOps.take 3)
    (fun u => decide (u.maxTry = 0 ∧ (u.sec 1).state = .dirty ∧ (u.sec 1).table.mem 78 = 8) &&
      match runOps tableDevice [.gc, .evict] u with
      | .error _ => false
      | .ok t => decide ((t.sec 1).state = .clean ∧ (t.sec 1).tPpa ≠ uintMax ∧
          (t.sec 1).table.mem 78 = 48)) (by decide +kernel)
  rw [Bool.and_eq_true] at hp
  obtain ⟨hmid, hend⟩ := hp
  obtain ⟨htry, hdirty, -⟩ := of_decide_eq_true hmid
  split at hend
  · cases hend
  rename_i t ht
  obtain ⟨hc, hne, hmem⟩ := of_decide_eq_true hend
  have hspare := sparesClean_clashing hs hu htry hdirty
  have hru : Runs tableDevice (SparesClean tableDevice) s u := by
    refine Runs.start.runOps (fun op hop v => ?_) hu
    simp only [clashingOps, List.take_succ_cons, List.take_zero, List.mem_cons, List.not_mem_nil,
      or_false] at hop
    rcases hop with rfl | rfl | rfl <;> trivial
  simp only [runOps, bind_eq_ok] at ht
  obtain ⟨v, hv, t', ht', h⟩ := ht
  cases h
  have hgc : SparesClean tableDevice u .gc := fun line _ _ => hspare line
  have hrt := (hru.step hgc hv).step (show SparesClean tableDevice v .evict from trivial) ht'
  have hfit : tableDevice.GrainsFit := by
    unfold Device.GrainsFit
    decide
  exact ⟨s, t, hs, hrt, hc, hne, hmem,
    faithful_of_runs tableDevice hfit s t hs hrt 1 (.inl hc) hne⟩

/-- The garbage collector moves the first pair and leaves the section clean, with a
mapping that was never written. -/
theorem collected_section_stays_clean :
    ¬ ∀ (d : Device), d.GrainsFit → ∀ s t, Shard.init d = .ok s → Runs d (fun _ _ => True) s t →
      ∀ i, (t.sec i).state = .clean ∨ (t.sec i).state = .cCandidate →
        (t.sec i).tPpa ≠ uintMax → (t.sec i).table.mem = (t.sec i).written := by
  intro hall
  obtain ⟨s, t, hs, ht, hp⟩ := exists_of_endsWith smallDevice (clashingOps ++ [.gc])
    (fun t => decide ((t.sec 1).state = .clean ∧ (t.sec 1).tPpa ≠ uintMax ∧
      (t.sec 1).table.mem 78 ≠ (t.sec 1).written 78)) (by decide +kernel)
  obtain ⟨hc, hne, hm⟩ := of_decide_eq_true hp
  have hr : Runs smallDevice (fun _ _ => True) s t :=
    Runs.start.runOps (fun _ _ _ => trivial) ht
  exact hm (congrFun (hall smallDevice grainsFit_smallDevice s t hs hr 1 (.inl hc) hne) 78)

end Virtkv
