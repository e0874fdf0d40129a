import Virtkv.Command.Update

/-!
# What the parts of a command keep

Besides the hash table (`SameTable`, `Opens`, `Puts`) the commands rely on the sections: a
section that exists is in memory and on a page, and its lock is free unless the command
holds it. `Keeps` says that a part of a command leaves every lock as it found it and every
section on a page; the eviction, the loading and the opening of sections and the update of a
mapping all do, so that a command has `Ready` again at its end.
-/

namespace Virtkv

open Outcome OpenAddressing

/-! ### The cache -/

namespace Cache

variable {d : Device} {c c' : Cache} {i : ℕ}

/-- The locks are the same, and the sections are on the same pages. -/
structure SameHolds (c c' : Cache) : Prop where
  outgoing : ∀ i, (c'.secs i).outgoing = (c.secs i).outgoing
  tPpa : ∀ i, (c'.secs i).tPpa = (c.secs i).tPpa
  hasMem : ∀ i, (c'.secs i).hasMem = (c.secs i).hasMem

theorem SameHolds.refl (c : Cache) : SameHolds c c := ⟨fun _ => rfl, fun _ => rfl, fun _ => rfl⟩

theorem SameHolds.trans {c'' : Cache} (h : SameHolds c c') (h' : SameHolds c' c'') :
    SameHolds c c'' where
  outgoing i := (h'.outgoing i).trans (h.outgoing i)
  tPpa i := (h'.tPpa i).trans (h.tPpa i)
  hasMem i := (h'.hasMem i).trans (h.hasMem i)

theorem SameHolds.of_eq (h : c'.secs = c.secs) : SameHolds c c' := by
  constructor <;> intro i <;> rw [h]

theorem SameHolds.setSec {x : Section} (ho : x.outgoing = (c.secs i).outgoing)
    (hp : x.tPpa = (c.secs i).tPpa) (hm : x.hasMem = (c.secs i).hasMem) :
    SameHolds c (c.setSec i x) := by
  constructor <;> intro j <;> by_cases hj : j = i
  · simpa [hj] using ho
  · simp [hj]
  · simpa [hj] using hp
  · simp [hj]
  · simpa [hj] using hm
  · simp [hj]

/-- The collector locks a section that is free and releases it. -/
theorem sameHolds_takeVictim (h : c.takeVictim d i = .ok c') : SameHolds c c' := by
  simp only [takeVictim, lock, bind_eq_ok, ensure_eq_ok] at h
  obtain ⟨c1, ⟨-, -, -, hfree, h1⟩, -, -, h⟩ := h
  cases h1
  cases h
  constructor <;> intro j <;> by_cases hj : j = i
  · simp [unlock, markCandidate, pushRing, hj, hfree]
  · simp [unlock, markCandidate, pushRing, hj]
  · simp [unlock, markCandidate, pushRing, hj]
  · simp [unlock, markCandidate, pushRing, hj]
  · simp [unlock, markCandidate, pushRing, hj]
  · simp [unlock, markCandidate, pushRing, hj]

theorem sameHolds_collectLoop {is : List ℕ} (h : collectLoop d is c = .ok c') :
    SameHolds c c' := by
  induction is generalizing c with
  | nil =>
    cases h
    exact SameHolds.of_eq rfl
  | cons i is ih =>
    simp only [collectLoop, bind_eq_ok] at h
    obtain ⟨c1, h1, h⟩ := h
    split at h
    · cases h
      exact (sameHolds_takeVictim h1).trans (SameHolds.of_eq rfl)
    · exact (sameHolds_takeVictim h1).trans (ih h)

theorem sameHolds_collectVictims (h : c.collectVictims d = .ok c') : SameHolds c c' := by
  unfold collectVictims at h
  split at h
  · cases h
    exact SameHolds.refl c
  split at h
  · exact sameHolds_collectLoop h
  split at h
  · cases h
    exact SameHolds.of_eq rfl
  · exact (SameHolds.of_eq rfl :
      SameHolds c { c with candidates := 0, collecting := true }).trans (sameHolds_collectLoop h)

theorem sameHolds_enqueue (c : Cache) (i : ℕ) : SameHolds c (c.enqueue i) := by
  unfold enqueue
  split
  · exact SameHolds.refl c
  · exact SameHolds.of_eq rfl

end Cache

namespace Shard

variable {d : Device} {s s' : Shard} {i : ℕ}

theorem sec_setSec_of_ne (s : Shard) {i j : ℕ} (x : Section) (h : j ≠ i) :
    (s.setSec i x).sec j = s.sec j :=
  Function.update_of_ne h ..

theorem sec_dropVictim_self (s : Shard) (i gLen : ℕ) : (s.dropVictim i gLen).sec i =
    { s.sec i with cached := false, state := .clean, outgoing := false } :=
  Function.update_self ..

theorem sec_dropVictim_of_ne (s : Shard) {i j : ℕ} (gLen : ℕ) (h : j ≠ i) :
    (s.dropVictim i gLen).sec j = s.sec j :=
  Function.update_of_ne h ..

/-- A section with a page is in memory, and its page is one of the device. -/
def PagesOk (d : Device) (s : Shard) : Prop :=
  ∀ i, (s.sec i).tPpa ≠ uintMax → (s.sec i).hasMem = true ∧ (s.sec i).tPpa < d.geo.ttPgs

/-- Between the states every lock that was taken was released again, and sections only went
to pages of the device. -/
structure Keeps (d : Device) (s s' : Shard) : Prop where
  locks : ∀ i, (s'.sec i).outgoing = (s.sec i).outgoing
  pages : s.PagesOk d → s'.PagesOk d

namespace Keeps

theorem refl (s : Shard) : Keeps d s s := ⟨fun _ => rfl, id⟩

theorem trans {s'' : Shard} (h : Keeps d s s') (h' : Keeps d s' s'') : Keeps d s s'' :=
  ⟨fun i => (h'.locks i).trans (h.locks i), fun hp => h'.pages (h.pages hp)⟩

theorem of_sameHolds (h : Cache.SameHolds s.cache s'.cache) : Keeps d s s' where
  locks := h.outgoing
  pages hp i hi := by
    have ht : (s'.sec i).tPpa = (s.sec i).tPpa := h.tPpa i
    have hm : (s'.sec i).hasMem = (s.sec i).hasMem := h.hasMem i
    rw [ht] at hi ⊢
    rw [hm]
    exact hp i hi

theorem of_secs (h : s'.cache.secs = s.cache.secs) : Keeps d s s' :=
  of_sameHolds (.of_eq h)

theorem setCache {c : Cache} (h : Cache.SameHolds s.cache c) : Keeps d s (s.setCache c) :=
  of_sameHolds h

theorem addCached (s : Shard) (n : ℤ) : Keeps d s (s.addCached n) := of_secs rfl

theorem setPair (s : Shard) (lpa : ℕ) (mem : Option Bytes) : Keeps d s (s.setPair lpa mem) :=
  of_secs rfl

/-- A section goes to another page. -/
theorem setSec {x : Section} (ho : x.outgoing = (s.sec i).outgoing)
    (hx : s.PagesOk d → x.tPpa ≠ uintMax → x.hasMem = true ∧ x.tPpa < d.geo.ttPgs) :
    Keeps d s (s.setSec i x) where
  locks j := by
    by_cases hj : j = i
    · subst hj
      rw [sec_setSec_self]
      exact ho
    · rw [sec_setSec_of_ne s x hj]
  pages hp j hj := by
    by_cases hji : j = i
    · subst hji
      rw [sec_setSec_self] at hj ⊢
      exact hx hp hj
    · rw [sec_setSec_of_ne s x hji] at hj ⊢
      exact hp j hj

end Keeps

/-! ### Eviction -/

theorem keeps_clearPage {ppa grain : ℕ} (h : s.clearPage d ppa grain = .ok s') :
    Keeps d s s' := by
  simp only [clearPage, bind_eq_ok] at h
  obtain ⟨f, -, h⟩ := h
  cases h
  exact .of_secs rfl

theorem keeps_evictPage {e e' : Filling} (h : s.evictPage d e = .ok (e', s')) :
    Keeps d s s' := by
  unfold evictPage at h
  split at h
  · cases h
    exact .refl s
  · simp only [bind_eq_ok] at h
    obtain ⟨⟨p, ppa, f⟩, -, h⟩ := h
    cases h
    exact .of_secs rfl

theorem keeps_dropOnDisk {gLen : ℕ} (h : s.dropOnDisk d i gLen = .ok s') : Keeps d s s' := by
  unfold dropOnDisk at h
  dsimp only at h
  split at h
  · simp only [bind_eq_ok] at h
    obtain ⟨f, -, h⟩ := h
    cases h
    exact .of_secs rfl
  · simp only [bind_eq_ok] at h
    obtain ⟨-, -, h⟩ := h
    cases h
    exact .refl s

theorem keeps_placeVictim {e e' : Filling} (he : e.ppa < d.geo.ttPgs)
    (hi : (s.sec i).tPpa ≠ uintMax) (h : s.placeVictim d e i = .ok (e', s')) :
    Keeps d s s' := by
  simp only [placeVictim, bind_eq_ok] at h
  obtain ⟨-, -, f, -, -, -, h⟩ := h
  cases h
  have hf : Keeps d s (s.setFlash f) := .of_secs rfl
  exact hf.trans (.setSec rfl fun hp _ => ⟨(hp i hi).1, he⟩)

theorem keeps_writeIfDirty {e e' : Filling} (he : e.Ok d) (hi : (s.sec i).tPpa ≠ uintMax)
    (h : s.writeIfDirty d e i = .ok (e', s')) : Keeps d s s' := by
  unfold writeIfDirty at h
  split at h
  · simp only [writeVictim, bind_eq_ok] at h
    obtain ⟨s1, h1, -, -, -, -, ⟨e2, s2⟩, h2, h⟩ := h
    obtain ⟨hs2, he2⟩ := evictPage_spec he h2
    have hi2 : (s2.sec i).tPpa ≠ uintMax := fun hc =>
      hi ((((sameTable_dropOnDisk h1).trans hs2).secs.missing i).mp hc)
    exact ((keeps_dropOnDisk h1).trans (keeps_evictPage h2)).trans (keeps_placeVictim he2 hi2 h)
  · cases h
    exact .refl s

theorem keeps_turnPage {e e' : Filling} {gLen : ℕ} (h : s.turnPage d e i gLen = .ok (e', s')) :
    Keeps d s s' := by
  unfold turnPage at h
  split at h
  · simp only [bind_eq_ok] at h
    obtain ⟨-, -, s1, h1, h⟩ := h
    cases h
    exact keeps_clearPage h1
  · cases h
    exact .refl s

/-- A victim is locked, written and released. -/
theorem keeps_evictRound (hm : MemOk s) {e e' : Filling} (he : e.Ok d)
    (h : s.evictRound d e i = .ok (e', s')) : Keeps d s s' := by
  simp only [evictRound, Cache.lock, bind_eq_ok, ensure_eq_ok] at h
  obtain ⟨-, hmem, -, -, c, ⟨-, -, -, hfree, hc⟩, -, -, ⟨e1, s1⟩, h1, ⟨e2, s2⟩, h2, h⟩ := h
  cases hc
  cases h
  have he0 : (if e.grain = d.gpp then { e with grain := 0, gotPpa := false } else e).Ok d := by
    split
    · rintro ⟨⟩
    · exact he
  obtain ⟨hs1, he1⟩ := turnPage_spec he0 h1
  have hpop : Keeps d s1 s1.popRing := .of_secs rfl
  set s0 := s.setSec i { s.sec i with outgoing := true } with hs0
  change s0.turnPage d _ i _ = _ at h1
  have hi : (s1.popRing.sec i).tPpa ≠ uintMax := by
    intro hc
    have h0 : (s0.sec i).tPpa = uintMax := (hs1.secs.missing i).mp hc
    rw [hs0, sec_setSec_self] at h0
    exact hm i hmem h0
  have hmid := ((keeps_turnPage h1).trans hpop).trans (keeps_writeIfDirty he1 hi h2)
  have hp0 : s.PagesOk d → s0.PagesOk d := by
    intro hp j hj
    by_cases hji : j = i
    · subst hji
      rw [hs0, sec_setSec_self] at hj ⊢
      exact hp j hj
    · rw [hs0, sec_setSec_of_ne _ _ hji] at hj ⊢
      exact hp j hj
  refine ⟨fun j => ?_, fun hp j hj => ?_⟩
  · by_cases hji : j = i
    · subst hji
      rw [sec_dropVictim_self]
      exact hfree.symm
    · rw [sec_dropVictim_of_ne _ _ hji, hmid.locks j, hs0, sec_setSec_of_ne _ _ hji]
  · by_cases hji : j = i
    · subst hji
      rw [sec_dropVictim_self] at hj ⊢
      exact hmid.pages (hp0 hp) j hj
    · rw [sec_dropVictim_of_ne _ _ hji] at hj ⊢
      exact hmid.pages (hp0 hp) j hj

theorem keeps_evictLoop (hfit : d.PagesFit) {fuel : ℕ} (hm : MemOk s) {e e' : Filling}
    (he : e.Ok d) (h : evictLoop d fuel e s = .ok (e', s')) : Keeps d s s' := by
  induction fuel generalizing s e with
  | zero => cases h
  | succ fuel ih =>
    unfold evictLoop at h
    split at h
    · cases h
      exact .refl _
    split at h
    · cases h
    · simp only [bind_eq_ok] at h
      obtain ⟨⟨e1, s1⟩, h1, h⟩ := h
      obtain ⟨hs1, he1⟩ := evictRound_spec hfit hm he h1
      have hk := keeps_evictRound hm he h1
      split at h
      · cases h
        exact hk
      · exact hk.trans (ih (hs1.memOk hm) he1 h)

theorem keeps_evictOne (hfit : d.PagesFit) (hm : MemOk s) {n : ℕ}
    (h : s.evictOne d = .ok (n, s')) : Keeps d s s' := by
  simp only [evictOne, awaitVictims, bind_eq_ok] at h
  obtain ⟨s0, ⟨c, hc, -, -, h0⟩, ⟨e1, s1⟩, h1, s2, h2, h⟩ := h
  cases h0
  cases h
  have hs0 : SameTable s (s.setCache { c with haveVictims := 2 }) :=
    SameTable.setCache ((Cache.sameSecs_collectVictims hc).trans (Cache.SameSecs.of_eq rfl))
  have hk0 : Keeps d s (s.setCache { c with haveVictims := 2 }) :=
    .of_sameHolds ((Cache.sameHolds_collectVictims hc).trans (Cache.SameHolds.of_eq rfl))
  have hk1 := keeps_evictLoop hfit (hs0.memOk hm) (fun hc => by cases hc) h1
  have hk2 : Keeps d s1 s2 := by
    unfold closePage at h2
    split at h2
    · exact keeps_clearPage h2
    · cases h2
      exact .refl s1
  exact ((hk0.trans hk1).trans hk2).trans (.of_secs rfl)

theorem keeps_evictWhileFull (hfit : d.PagesFit) {fuel : ℕ} (hm : MemOk s) {n n' : ℕ}
    (h : evictWhileFull d fuel n s = .ok (n', s')) : Keeps d s s' := by
  induction fuel generalizing s n with
  | zero => cases h
  | succ fuel ih =>
    unfold evictWhileFull at h
    split at h
    · simp only [bind_eq_ok] at h
      obtain ⟨⟨k, s1⟩, h1, h⟩ := h
      have hs1 := sameTable_evictOne hfit hm h1
      exact (keeps_evictOne hfit hm h1).trans (ih (hs1.memOk hm) h)
    · cases h
      exact .refl _

theorem keeps_makeRoom (hfit : d.PagesFit) (hm : MemOk s) {n : ℕ}
    (h : s.makeRoom d n = .ok s') : Keeps d s s' := by
  simp only [makeRoom, bind_eq_ok] at h
  obtain ⟨⟨k, s1⟩, h1, u, -, h⟩ := h
  cases h
  exact (keeps_evictWhileFull hfit hm h1).trans (.of_secs rfl)

/-! ### Loading, opening and updating sections -/

theorem keeps_loadSection (h : s.loadSection d i false = .ok s') : Keeps d s s' := by
  unfold loadSection at h
  split at h
  · cases h
    exact .refl s
  · simp only [getOne, getMappings, bind_eq_ok, Bool.false_eq_true, if_false] at h
    obtain ⟨s1, ⟨s2, ⟨-, -, p, -, h2⟩, h1⟩, -, -, h⟩ := h
    cases h2
    cases h1
    cases h
    have h1 : Keeps d s (s.setSec i { s.sec i with cached := (s.sec i).hasMem }) :=
      .setSec rfl fun hp hi => hp i hi
    exact (h1.trans (.setCache (Cache.sameHolds_enqueue _ i))).trans (.addCached _ _)

theorem keeps_openSection (h : s.openSection d i = .ok s') : Keeps d s s' := by
  by_cases hi : (s.sec i).tPpa = uintMax
  · obtain ⟨ppa, hppa, hsecs, -⟩ := openSection_new hi h
    have hset : Keeps d s (s.setSec i (newSection d (s.sec i) ppa)) :=
      .setSec rfl fun _ _ => ⟨rfl, hppa⟩
    exact hset.trans (.of_secs hsecs)
  · rw [openSection, if_neg hi] at h
    exact keeps_loadSection h

theorem keeps_expandMapEntry (hi : (s.sec i).tPpa ≠ uintMax)
    (h : s.expandMapEntry d i = .ok s') : Keeps d s s' := by
  simp only [expandMapEntry, bind_eq_ok] at h
  obtain ⟨f1, -, -, -, ⟨ppa, f2⟩, hppa, f3, -, h⟩ := h
  cases h
  refine Keeps.trans (.of_secs ?_) (.setSec ?_ ?_)
  all_goals try rfl
  exact fun hp _ => ⟨(hp i hi).1, mapPageLoop_lt hppa⟩

theorem keeps_growTable {pos : ℕ} (hi : (s.sec i).tPpa ≠ uintMax)
    (h : s.growTable d i pos = .ok s') : Keeps d s s' := by
  unfold growTable at h
  dsimp only at h
  split at h
  · simp only [bind_eq_ok] at h
    obtain ⟨s1, h1, t1, -, h⟩ := h
    cases h
    exact (keeps_expandMapEntry hi h1).trans (.setSec rfl fun hp hi => hp i hi)
  · cases h
    exact .refl _

theorem keeps_recordOld {lpa pos n : ℕ} {record : Bool}
    (h : s.recordOld d i lpa pos record = .ok (n, s')) : Keeps d s s' := by
  unfold recordOld at h
  dsimp only at h
  split at h
  · simp only [bind_eq_ok] at h
    obtain ⟨⟨c, f, log⟩, -, h⟩ := h
    cases h
    exact .of_secs rfl
  · cases h
    exact .refl _

theorem keeps_markDirty (s : Shard) (i : ℕ) : Keeps d s (s.markDirty i) :=
  .setSec rfl fun hp hi => hp i hi

/-- `__update_map` moves at most the section of the index. -/
theorem keeps_updateMap {lpa ppa pos n : ℕ} {mem : Option Bytes} {record : Bool}
    (hi : (s.sec (d.idx lpa)).tPpa ≠ uintMax)
    (h : s.updateMap d lpa mem ppa pos record = .ok (n, s')) : Keeps d s s' := by
  simp only [updateMap, bind_eq_ok] at h
  obtain ⟨-, -, h⟩ := h
  refine (keeps_markDirty s (d.idx lpa)).trans ?_
  have hi' : ((s.markDirty (d.idx lpa)).sec (d.idx lpa)).tPpa ≠ uintMax := by
    rw [markDirty, sec_setSec_self]
    exact hi
  generalize s.markDirty (d.idx lpa) = s0 at h hi'
  split at h
  · cases h
    unfold updateFlat
    refine Keeps.trans ?_ (.setPair _ _ _)
    exact .setSec rfl fun hp hi => hp _ hi
  · simp only [updateTwolevel, bind_eq_ok] at h
    obtain ⟨s1, h1, ⟨c, s2⟩, h2, t, -, h⟩ := h
    cases h
    have hset : Keeps d s2 (s2.setSec (d.idx lpa) { s2.sec (d.idx lpa) with table := t }) :=
      .setSec rfl fun hp hi => hp _ hi
    exact (((keeps_growTable hi' h1).trans (keeps_recordOld h2)).trans hset).trans (.setPair _ _ _)

/-! ### Commands -/

variable {held : Option ℕ}

/-- The table and the places of the sections make a shard ready. -/
theorem Ready.of_keeps (hr : s.Ready d held) (h : SameTable s s') (hk : Keeps d s s') :
    s'.Ready d held where
  locks i := (hk.locks i).trans (hr.locks i)
  page := hk.pages hr.page
  grain lpa hm := by
    rw [h.hidxToGrain]
    exact hr.grain lpa ((h.mapped_iff lpa).mp hm)

theorem Ready.makeRoom (hfit : d.PagesFit) (hr : s.Ready d held) (hm : MemOk s) {n : ℕ}
    (h : s.makeRoom d n = .ok s') : s'.Ready d held :=
  hr.of_keeps (sameTable_makeRoom hfit hm h) (keeps_makeRoom hfit hm h)

theorem Ready.getHt (hr : s.Ready d none) {lpa : ℕ} (h : s.getHt d lpa = .ok s') :
    s'.Ready d (some (d.idx lpa)) := by
  have hlt : d.idx lpa < d.nrValidTpages := by
    simp only [Shard.getHt, Cache.getHt, Cache.lock, bind_eq_ok, ensure_eq_ok] at h
    obtain ⟨-, ⟨-, hlt, -⟩, -⟩ := h
    exact hlt
  have := getHt_yields hr hlt
  rw [h] at this
  exact this.2.2

/-- A section that is opened has no mapped slots of its own. -/
theorem mapped_openSection (hsec : d.SecFits i) (h : s.openSection d i = .ok s') {lpa : ℕ}
    (hm : s'.Mapped d lpa) :
    s.Mapped d lpa ∧ (s'.cache.hidxToGrain d lpa).1 = (s.cache.hidxToGrain d lpa).1 := by
  by_cases hi : (s.sec i).tPpa = uintMax
  · obtain ⟨ppa, -, hsecs, -⟩ := openSection_new hi h
    have hl : d.idx lpa ≠ i := by
      rintro rfl
      exact hm.2 (find_emptyPage (hsec.lt rfl) (by rw [hsecs, Function.update_self]; rfl))
    have hsec' : s'.cache.secs (d.idx lpa) = s.cache.secs (d.idx lpa) := by
      rw [hsecs, Function.update_of_ne hl]
    have hgrain : s'.cache.hidxToGrain d lpa = s.cache.hidxToGrain d lpa := by
      unfold Cache.hidxToGrain
      rw [hsec']
    refine ⟨⟨?_, ?_⟩, by rw [hgrain]⟩
    · have hpage := hm.1
      unfold sec at hpage
      rwa [hsec'] at hpage
    · rw [← hgrain]
      exact hm.2
  · rw [openSection, if_neg hi] at h
    have hs := sameTable_loadSection h
    exact ⟨(hs.mapped_iff lpa).mp hm, by rw [hs.hidxToGrain]⟩

theorem Ready.openSection (hr : s.Ready d held) (hsec : d.SecFits i)
    (h : s.openSection d i = .ok s') : s'.Ready d held where
  locks j := ((keeps_openSection h).locks j).trans (hr.locks j)
  page := (keeps_openSection h).pages hr.page
  grain lpa hm := by
    obtain ⟨hm', hgrain⟩ := mapped_openSection hsec h hm
    rw [hgrain]
    exact hr.grain lpa hm'

/-! ### Commands and the append buffers -/

theorem dropAppendBuf_eq {key : Bytes} (h : s.dropAppendBuf key = .ok s') :
    ∃ b, s' = { s with appendBufs := b } := by
  unfold dropAppendBuf at h
  split at h
  · simp only [bind_eq_ok] at h
    obtain ⟨l, -, h⟩ := h
    cases h
    exact ⟨_, rfl⟩
  · cases h
    exact ⟨_, rfl⟩

theorem touchBuf_eq {i : ℕ} (h : s.touchBuf i = .ok s') : ∃ b, s' = { s with appendBufs := b } := by
  simp only [touchBuf, bind_eq_ok] at h
  obtain ⟨l, -, h⟩ := h
  cases h
  exact ⟨_, rfl⟩

/-- A key in an append buffer does not touch the table. -/
theorem retrieveFromBuf_eq {i vlen rOffset : ℕ} {forDel : Bool} {r : Reply}
    (h : s.retrieveFromBuf i vlen rOffset forDel = .ok (r, s')) :
    ∃ b, s' = { s with appendBufs := b } := by
  unfold retrieveFromBuf at h
  dsimp only at h
  split at h
  · cases h
    exact ⟨_, rfl⟩
  split at h
  · simp only [bind_eq_ok] at h
    obtain ⟨b, -, h⟩ := h
    cases h
    exact ⟨_, rfl⟩
  split at h
  · simp only [bind_eq_ok] at h
    obtain ⟨b, -, h⟩ := h
    cases h
    exact ⟨_, rfl⟩
  · simp only [bind_eq_ok, ensure_eq_ok] at h
    obtain ⟨b, -, b', -, -, -, h⟩ := h
    cases h
    exact ⟨_, rfl⟩

theorem releaseMap_eq {lpa : ℕ} (h : s.releaseMap d lpa = .ok s') : s' = s.unlock d lpa := by
  simp only [releaseMap, Cache.release, bind_eq_ok, ensure_eq_ok] at h
  obtain ⟨c, ⟨-, -, hc⟩, h⟩ := h
  cases hc
  cases h
  rfl

end Shard

end Virtkv
