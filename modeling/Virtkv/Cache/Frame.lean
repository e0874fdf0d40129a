import Virtkv.Cache.Defs
import Virtkv.Flash.Frame

/-!
# What caching leaves alone

Collecting, evicting and loading sections moves mapping pages on flash and changes the
bookkeeping of the cache. It does not change what a section maps, which sections exist
or the pair memory: `SameTable`.
-/

namespace Virtkv

open Outcome

/-- Page numbers are smaller than the empty mapping. -/
def Device.PagesFit (d : Device) : Prop := d.geo.ttPgs ≤ uintMax

namespace Flash

variable {d : Device} {f f' : Flash}

theorem takePage_lt {io : IoType} {p : Ppa} {pgidx : ℕ}
    (h : f.takePage d io = .ok (p, pgidx, f')) : pgidx < d.geo.ttPgs :=
  (takePage_takesPage h).2

theorem takePageLoop_lt {io : IoType} {fuel : ℕ} {p : Ppa} {pgidx : ℕ}
    (h : takePageLoop d io fuel f = .ok (p, pgidx, f')) : pgidx < d.geo.ttPgs := by
  induction fuel generalizing f with
  | zero => cases h
  | succ fuel ih =>
    simp only [takePageLoop, bind_eq_ok] at h
    obtain ⟨⟨q, pg, f1⟩, h1, h⟩ := h
    split at h
    · simp only [bind_eq_ok] at h
      obtain ⟨f2, -, h⟩ := h
      exact ih h
    · cases h
      exact takePage_lt h1

theorem newPage_lt {io : IoType} {p : Ppa} {pgidx : ℕ}
    (h : f.newPage d io = .ok (p, pgidx, f')) : pgidx < d.geo.ttPgs :=
  takePageLoop_lt h

end Flash

/-! ### Sections -/

namespace Cache

variable {d : Device} {c c' : Cache}

@[simp] theorem setSec_secs (c : Cache) (i : ℕ) (x : Section) :
    (c.setSec i x).secs = Function.update c.secs i x := rfl

/-- The same sections exist, with the same tables. -/
structure SameSecs (c c' : Cache) : Prop where
  table : ∀ i, (c'.secs i).table = (c.secs i).table
  missing : ∀ i, (c'.secs i).tPpa = uintMax ↔ (c.secs i).tPpa = uintMax
  hasMem : ∀ i, (c'.secs i).hasMem = (c.secs i).hasMem

theorem SameSecs.refl (c : Cache) : SameSecs c c := ⟨fun _ => rfl, fun _ => Iff.rfl, fun _ => rfl⟩

theorem SameSecs.trans {c'' : Cache} (h : SameSecs c c') (h' : SameSecs c' c'') :
    SameSecs c c'' where
  table i := (h'.table i).trans (h.table i)
  missing i := (h'.missing i).trans (h.missing i)
  hasMem i := (h'.hasMem i).trans (h.hasMem i)

/-- Only the sections matter. -/
theorem SameSecs.of_eq (h : c'.secs = c.secs) : SameSecs c c' := by
  constructor <;> intro i <;> rw [h]

/-- An update of one section that keeps its table and its existence. -/
theorem SameSecs.setSec {i : ℕ} {x : Section} (ht : x.table = (c.secs i).table)
    (hm : x.tPpa = uintMax ↔ (c.secs i).tPpa = uintMax) (hh : x.hasMem = (c.secs i).hasMem) :
    SameSecs c (c.setSec i x) := by
  constructor <;> intro j <;> by_cases hj : j = i
  · simpa [hj] using ht
  · simp [hj]
  · simpa [hj] using hm
  · simp [hj]
  · simpa [hj] using hh
  · simp [hj]

theorem sameSecs_lock {i : ℕ} (h : c.lock d i = .ok c') : SameSecs c c' := by
  simp only [lock, bind_eq_ok, ensure_eq_ok] at h
  obtain ⟨-, -, -, -, h⟩ := h
  cases h
  exact SameSecs.setSec rfl Iff.rfl rfl

theorem sameSecs_unlock (c : Cache) (i : ℕ) : SameSecs c (c.unlock i) :=
  SameSecs.setSec rfl Iff.rfl rfl

theorem sameSecs_enqueue (c : Cache) (i : ℕ) : SameSecs c (c.enqueue i) := by
  unfold enqueue
  split
  · exact SameSecs.refl c
  · exact SameSecs.of_eq rfl

theorem sameSecs_takeVictim {i : ℕ} (h : c.takeVictim d i = .ok c') : SameSecs c c' := by
  simp only [takeVictim, bind_eq_ok, ensure_eq_ok] at h
  obtain ⟨c1, h1, -, -, h⟩ := h
  cases h
  have hmark : SameSecs c1 (c1.markCandidate i) := SameSecs.setSec rfl Iff.rfl rfl
  have hpush : SameSecs (c1.markCandidate i) ((c1.markCandidate i).pushRing d i) :=
    SameSecs.of_eq rfl
  exact (((sameSecs_lock h1).trans hmark).trans hpush).trans (sameSecs_unlock _ i)

theorem sameSecs_collectLoop {is : List ℕ} (h : collectLoop d is c = .ok c') :
    SameSecs c c' := by
  induction is generalizing c with
  | nil =>
    cases h
    exact SameSecs.of_eq rfl
  | cons i is ih =>
    simp only [collectLoop, bind_eq_ok] at h
    obtain ⟨c1, h1, h⟩ := h
    split at h
    · cases h
      exact (sameSecs_takeVictim h1).trans (SameSecs.of_eq rfl)
    · exact (sameSecs_takeVictim h1).trans (ih h)

theorem sameSecs_collectVictims (h : c.collectVictims d = .ok c') : SameSecs c c' := by
  unfold collectVictims at h
  split at h
  · cases h
    exact SameSecs.refl c
  split at h
  · exact sameSecs_collectLoop h
  split at h
  · cases h
    exact SameSecs.of_eq rfl
  · exact (SameSecs.of_eq rfl :
      SameSecs c { c with candidates := 0, collecting := true }).trans (sameSecs_collectLoop h)

end Cache

namespace Shard

variable {d : Device} {s s' : Shard}

/-- Sections with a mapping page in memory have one on flash. -/
def MemOk (s : Shard) : Prop := ∀ i, (s.sec i).hasMem = true → (s.sec i).tPpa ≠ uintMax

/-- The same sections exist, with the same tables and the same pairs. -/
structure SameTable (s s' : Shard) : Prop where
  secs : Cache.SameSecs s.cache s'.cache
  pairMem : s'.pairMem = s.pairMem
  maxTry : s'.maxTry = s.maxTry
  appendBufs : s'.appendBufs = s.appendBufs

namespace SameTable

theorem refl (s : Shard) : SameTable s s := ⟨Cache.SameSecs.refl _, rfl, rfl, rfl⟩

theorem trans {s'' : Shard} (h : SameTable s s') (h' : SameTable s' s'') : SameTable s s'' where
  secs := h.secs.trans h'.secs
  pairMem := h'.pairMem.trans h.pairMem
  maxTry := h'.maxTry.trans h.maxTry
  appendBufs := h'.appendBufs.trans h.appendBufs

theorem memOk (h : SameTable s s') (hm : MemOk s) : MemOk s' := by
  intro i hi ht
  exact hm i ((h.secs.hasMem i).symm.trans hi) ((h.secs.missing i).mp ht)

theorem setCache {c : Cache} (h : Cache.SameSecs s.cache c) : SameTable s (s.setCache c) :=
  ⟨h, rfl, rfl, rfl⟩

theorem setFlash (s : Shard) (f : Flash) : SameTable s (s.setFlash f) :=
  ⟨Cache.SameSecs.refl _, rfl, rfl, rfl⟩

theorem setSec {i : ℕ} {x : Section} (ht : x.table = (s.sec i).table)
    (hm : x.tPpa = uintMax ↔ (s.sec i).tPpa = uintMax) (hh : x.hasMem = (s.sec i).hasMem) :
    SameTable s (s.setSec i x) :=
  setCache (Cache.SameSecs.setSec ht hm hh)

theorem addCached (s : Shard) (n : ℤ) : SameTable s (s.addCached n) :=
  setCache (Cache.SameSecs.of_eq rfl)

theorem consumeWriteCredit (s : Shard) (n : ℕ) : SameTable s (s.consumeWriteCredit n) :=
  ⟨Cache.SameSecs.refl _, rfl, rfl, rfl⟩

end SameTable

/-! ### Eviction -/

/-- The page of an eviction is a page. -/
def Filling.Ok (d : Device) (e : Filling) : Prop := e.gotPpa = true → e.ppa < d.geo.ttPgs

theorem sameTable_clearPage {ppa grain : ℕ} (h : s.clearPage d ppa grain = .ok s') :
    SameTable s s' := by
  simp only [clearPage, bind_eq_ok] at h
  obtain ⟨f, -, h⟩ := h
  cases h
  exact SameTable.setFlash s _

theorem evictPage_spec {e e' : Filling} (he : e.Ok d)
    (h : s.evictPage d e = .ok (e', s')) : SameTable s s' ∧ e'.ppa < d.geo.ttPgs := by
  unfold evictPage at h
  split at h
  · rename_i hgot
    cases h
    exact ⟨SameTable.refl s, he hgot⟩
  · simp only [bind_eq_ok] at h
    obtain ⟨⟨p, ppa, f⟩, h1, h⟩ := h
    cases h
    exact ⟨SameTable.setFlash s f, Flash.newPage_lt h1⟩

theorem sameTable_dropOnDisk {i gLen : ℕ} (h : s.dropOnDisk d i gLen = .ok s') :
    SameTable s s' := by
  unfold dropOnDisk at h
  dsimp only at h
  split at h
  · simp only [bind_eq_ok] at h
    obtain ⟨f, -, h⟩ := h
    cases h
    exact SameTable.setFlash s f
  · simp only [bind_eq_ok, ensure_eq_ok] at h
    obtain ⟨-, -, h⟩ := h
    cases h
    exact SameTable.refl s

theorem placeVictim_spec (hfit : d.PagesFit) {e e' : Filling} {i : ℕ} (he : e.ppa < d.geo.ttPgs)
    (hi : (s.sec i).tPpa ≠ uintMax) (h : s.placeVictim d e i = .ok (e', s')) :
    SameTable s s' ∧ e'.Ok d := by
  simp only [placeVictim, bind_eq_ok, ensure_eq_ok] at h
  obtain ⟨-, -, f, -, -, -, h⟩ := h
  cases h
  refine ⟨(SameTable.setFlash s f).trans (SameTable.setSec rfl ?_ rfl), fun _ => he⟩
  have hne : e.ppa ≠ uintMax := Nat.ne_of_lt (Nat.lt_of_lt_of_le he hfit)
  exact ⟨fun h => absurd h hne, fun h => absurd h hi⟩

theorem writeIfDirty_spec (hfit : d.PagesFit) {e e' : Filling} {i : ℕ} (he : e.Ok d)
    (hi : (s.sec i).tPpa ≠ uintMax) (h : s.writeIfDirty d e i = .ok (e', s')) :
    SameTable s s' ∧ e'.Ok d := by
  unfold writeIfDirty at h
  split at h
  · simp only [writeVictim, bind_eq_ok, ensure_eq_ok] at h
    obtain ⟨s1, h1, -, -, -, -, ⟨e2, s2⟩, h2, h⟩ := h
    have hs1 := sameTable_dropOnDisk h1
    obtain ⟨hs2, he2⟩ := evictPage_spec he h2
    have hi2 : (s2.sec i).tPpa ≠ uintMax := fun hc =>
      hi (((hs1.trans hs2).secs.missing i).mp hc)
    obtain ⟨hs3, he3⟩ := placeVictim_spec hfit he2 hi2 h
    exact ⟨(hs1.trans hs2).trans hs3, he3⟩
  · cases h
    exact ⟨SameTable.refl s, he⟩

theorem turnPage_spec {e e' : Filling} {i gLen : ℕ} (he : e.Ok d)
    (h : s.turnPage d e i gLen = .ok (e', s')) : SameTable s s' ∧ e'.Ok d := by
  unfold turnPage at h
  split at h
  · simp only [bind_eq_ok, ensure_eq_ok] at h
    obtain ⟨-, -, s1, h1, h⟩ := h
    cases h
    exact ⟨sameTable_clearPage h1, nofun⟩
  · cases h
    exact ⟨SameTable.refl s, he⟩

theorem sameTable_dropVictim (s : Shard) (i gLen : ℕ) : SameTable s (s.dropVictim i gLen) := by
  have h : SameTable s (s.setSec i
      { s.sec i with cached := false, state := .clean, outgoing := false }) :=
    SameTable.setSec rfl Iff.rfl rfl
  exact h.trans (SameTable.addCached _ _)

theorem evictRound_spec (hfit : d.PagesFit) (hm : MemOk s) {e e' : Filling} {i : ℕ}
    (he : e.Ok d) (h : s.evictRound d e i = .ok (e', s')) : SameTable s s' ∧ e'.Ok d := by
  simp only [evictRound, bind_eq_ok, ensure_eq_ok] at h
  obtain ⟨-, hmem, -, -, c, hc, -, -, ⟨e1, s1⟩, h1, ⟨e2, s2⟩, h2, h⟩ := h
  cases h
  have he0 : (if e.grain = d.gpp then { e with grain := 0, gotPpa := false } else e).Ok d := by
    split
    · exact nofun
    · exact he
  have hs0 := SameTable.setCache (Cache.sameSecs_lock hc)
  obtain ⟨hs1, he1⟩ := turnPage_spec he0 h1
  have hpop : SameTable s1 s1.popRing := SameTable.setCache (Cache.SameSecs.of_eq rfl)
  have hall := (hs0.trans hs1).trans hpop
  have hi : (s1.popRing.sec i).tPpa ≠ uintMax := fun hc => hm i hmem ((hall.secs.missing i).mp hc)
  obtain ⟨hs2, he2⟩ := writeIfDirty_spec hfit he1 hi h2
  exact ⟨(hall.trans hs2).trans (sameTable_dropVictim s2 i _), he2⟩

theorem evictLoop_spec (hfit : d.PagesFit) {fuel : ℕ} (hm : MemOk s) {e e' : Filling}
    (he : e.Ok d) (h : evictLoop d fuel e s = .ok (e', s')) : SameTable s s' ∧ e'.Ok d := by
  induction fuel generalizing s e with
  | zero => cases h
  | succ fuel ih =>
    unfold evictLoop at h
    split at h
    · cases h
      exact ⟨SameTable.refl _, he⟩
    split at h
    · cases h
    · simp only [bind_eq_ok] at h
      obtain ⟨⟨e1, s1⟩, h1, h⟩ := h
      obtain ⟨hs1, he1⟩ := evictRound_spec hfit hm he h1
      split at h
      · cases h
        exact ⟨hs1, he1⟩
      · obtain ⟨hs2, he2⟩ := ih (hs1.memOk hm) he1 h
        exact ⟨hs1.trans hs2, he2⟩

theorem sameTable_evictOne (hfit : d.PagesFit) (hm : MemOk s) {n : ℕ}
    (h : s.evictOne d = .ok (n, s')) : SameTable s s' := by
  simp only [evictOne, awaitVictims, bind_eq_ok, ensure_eq_ok] at h
  obtain ⟨s0, ⟨c, hc, -, -, h0⟩, ⟨e1, s1⟩, h1, s2, h2, h⟩ := h
  cases h0
  cases h
  have hs0 : SameTable s (s.setCache { c with haveVictims := 2 }) :=
    SameTable.setCache ((Cache.sameSecs_collectVictims hc).trans (Cache.SameSecs.of_eq rfl))
  obtain ⟨hs1, -⟩ := evictLoop_spec hfit (hs0.memOk hm) (fun hc => by cases hc) h1
  have hs2 : SameTable s1 s2 := by
    unfold closePage at h2
    split at h2
    · exact sameTable_clearPage h2
    · cases h2
      exact SameTable.refl s1
  exact ((hs0.trans hs1).trans hs2).trans (SameTable.setCache (Cache.SameSecs.of_eq rfl))

theorem sameTable_evictWhileFull (hfit : d.PagesFit) {fuel : ℕ} (hm : MemOk s) {n n' : ℕ}
    (h : evictWhileFull d fuel n s = .ok (n', s')) : SameTable s s' := by
  induction fuel generalizing s n with
  | zero => cases h
  | succ fuel ih =>
    unfold evictWhileFull at h
    split at h
    · simp only [bind_eq_ok] at h
      obtain ⟨⟨k, s1⟩, h1, h⟩ := h
      have hs1 := sameTable_evictOne hfit hm h1
      exact hs1.trans (ih (hs1.memOk hm) h)
    · cases h
      exact SameTable.refl _

theorem sameTable_makeRoom (hfit : d.PagesFit) (hm : MemOk s) {n : ℕ}
    (h : s.makeRoom d n = .ok s') : SameTable s s' := by
  simp only [makeRoom, bind_eq_ok] at h
  obtain ⟨⟨k, s1⟩, h1, u, -, h⟩ := h
  cases h
  have hs1 := sameTable_evictWhileFull hfit hm h1
  exact hs1.trans (SameTable.consumeWriteCredit s1 k)

/-! ### Loading -/

theorem sameTable_loadSection {i : ℕ} (h : s.loadSection d i false = .ok s') :
    SameTable s s' := by
  unfold loadSection at h
  split at h
  · cases h
    exact SameTable.refl s
  · simp only [getOne, getMappings, bind_eq_ok, ensure_eq_ok, Bool.false_eq_true, if_false] at h
    obtain ⟨s1, ⟨s2, ⟨-, -, p, -, h2⟩, h1⟩, -, -, h⟩ := h
    cases h2
    cases h1
    cases h
    have h1 : SameTable s (s.setSec i { s.sec i with cached := (s.sec i).hasMem }) :=
      SameTable.setSec rfl Iff.rfl rfl
    exact (h1.trans (SameTable.setCache (Cache.sameSecs_enqueue _ i))).trans
      (SameTable.addCached _ _)

end Shard

end Virtkv
