import Virtkv.Oob.Evict
import Virtkv.Run.Credit

/-!
# Opening sections and updating slots

A section that is used for the first time and a table that grows get a page, a record may
flush the buffer of its line to one; what they give up loses nothing but its valid mark.
-/

namespace Virtkv

open Outcome

namespace Shard

open Flash

variable {d : Device} {L L' L'' : Grains} {s s' s'' : Shard} {i lpa : ℕ}

/-! ### Loading and opening -/

/-- What loading a section leaves alone. -/
theorem loadSection_frame {first : Bool} (h : s.loadSection d i first = .ok s') :
    s'.flash = s.flash ∧ s'.user = s.user ∧ s'.log = s.log := by
  rw [loadSection] at h
  split at h
  · cases h
    exact ⟨rfl, rfl, rfl⟩
  simp only [getOne, bind_eq_ok] at h
  obtain ⟨s1, ⟨s2, h2, h1⟩, -, -, h⟩ := h
  cases h
  cases h1
  rw [getMappings] at h2
  split at h2
  · cases h2
    exact ⟨rfl, rfl, rfl⟩
  · simp only [bind_eq_ok] at h2
    obtain ⟨-, -, -, -, h2⟩ := h2
    cases h2
    exact ⟨rfl, rfl, rfl⟩

theorem samePlaces_loadSection (h : s.loadSection d i false = .ok s') :
    Cache.SamePlaces s.cache s'.cache := by
  rw [loadSection] at h
  split at h
  · cases h
    exact .refl _
  simp only [getOne, getMappings, bind_eq_ok, ensure_eq_ok, Bool.false_eq_true, if_false] at h
  obtain ⟨s1, ⟨s2, ⟨-, -, p, -, h2⟩, h1⟩, -, -, h⟩ := h
  cases h2
  cases h1
  cases h
  have hset : Cache.SamePlaces s.cache
      (s.setSec i { s.sec i with cached := (s.sec i).hasMem }).cache := .setSec rfl rfl rfl
  exact (hset.trans (Cache.samePlaces_enqueue _ i)).trans (.of_eq rfl)

theorem Settled.loadSection (hs : s.Settled d L) (h : s.loadSection d i false = .ok s') :
    s'.Settled d L := by
  obtain ⟨hf, hu, hl⟩ := loadSection_frame h
  exact hs.of_same (sameTable_loadSection h) (samePlaces_loadSection h) hf hu hl

theorem secs_enqueue (c : Cache) (i : ℕ) : (c.enqueue i).secs = c.secs := by
  rw [Cache.enqueue]
  split <;> rfl

/-- The place of a section that is loaded for the first time. -/
theorem loadSection_first (hc : (s.sec i).cached = false)
    (h : s.loadSection d i true = .ok s') :
    (s'.sec i).tPpa = (s.sec i).tPpa ∧ (s'.sec i).gOff = 0 ∧ (s'.sec i).lenOnDisk = firstLen d ∧
      ∀ j, j ≠ i → s'.sec j = s.sec j := by
  rw [loadSection, if_neg (by rw [hc]; exact Bool.false_ne_true)] at h
  simp only [getOne, getMappings, if_true, bind_eq_ok, ok_bind] at h
  obtain ⟨s1, h1, -, -, h⟩ := h
  cases h1
  cases h
  have hsec : ∀ (t : Shard) (n : ℤ) (j : ℕ),
      ((t.setCache (t.cache.enqueue i)).addCached n).sec j = t.sec j := fun t n j =>
    congrFun (secs_enqueue t.cache i) j
  have hself : ∀ x, ((s.setSec i x).clearPairs d i).sec i = x := sec_setSec_self s i
  rw [hsec, hself]
  refine ⟨rfl, rfl, rfl, fun j hj => ?_⟩
  rw [hsec]
  exact sec_setSec_of_ne s _ hj

theorem firstLen_pos (d : Device) : 0 < firstLen d := by
  rw [firstLen]
  split
  · exact d.build_gpp_pos
  · decide

theorem firstLen_le (d : Device) : firstLen d ≤ d.gpp := by
  rw [firstLen, Device.gpp]
  cases d.build <;> decide

/-- The sections and the log after the writers of mapping pages were at work. -/
structure Relocates (d : Device) (s s' : Shard) (L L' : Grains) : Prop where
  aside : CarriesAside d s.flash s'.flash L L'
  user : s'.user = s.user
  secs : s'.SecsAt d L'
  log : s'.LogsAt d L'

theorem Relocates.trans (h : Relocates d s s' L L') (h' : Relocates d s' s'' L' L'') :
    Relocates d s s'' L L'' where
  aside := h.aside.trans h'.aside
  user := h'.user.trans h.user
  secs := h'.secs
  log := h'.log

/-- Nothing was moved. -/
theorem Relocates.of_same (hs : s.SecsAt d L) (hl : s.LogsAt d L)
    (hp : Cache.SamePlaces s.cache s'.cache) (hf : s'.flash = s.flash) (hu : s'.user = s.user)
    (hlog : s'.log = s.log) : Relocates d s s' L L := by
  have h : CarriesAside d s.flash s'.flash L L := by
    rw [hf]
    exact .refl _ L
  exact ⟨h, hu, hs.carries h.carries hp, hl.carries h.carries hlog⟩

/-- One section got a page. -/
theorem Relocates.of_page {ppa len : ℕ} (hs : s.SecsAt d L) (hl : s.LogsAt d L)
    (h : CarriesAside d s.flash s'.flash L L') (hu : s'.user = s.user) (hlog : s'.log = s.log)
    (hat : s'.flash.SecAt d L' i ppa 0 len) (hppa : (s'.sec i).tPpa = ppa)
    (hoff : (s'.sec i).gOff = 0) (hlen : (s'.sec i).lenOnDisk = len)
    (hother : ∀ j, j ≠ i → s'.sec j = s.sec j) : Relocates d s s' L L' where
  aside := h
  user := hu
  secs j hj := by
    by_cases hji : j = i
    · rw [hji, hppa, hoff, hlen]
      exact hat
    · rw [hother j hji] at hj ⊢
      exact (hs j hj).carries h.carries
  log := hl.carries h.carries hlog

/-- A section that is opened gets a page if it has none. -/
theorem Settled.openSection (hfit : d.PagesFit) (hsec : d.SecFits i) (hs : s.Settled d L)
    (h : s.openSection d i = .ok s') : ∃ L', s'.Settled d L' := by
  have hmem := (memOk_openSection hfit hs.memOk h).1
  have hmapped : ∀ lpa, s'.Mapped d lpa →
      s.Mapped d lpa ∧ (s'.cache.hidxToGrain d lpa).1 = (s.cache.hidxToGrain d lpa).1 :=
    fun _ hm => mapped_openSection hsec h hm
  by_cases hi : (s.sec i).tPpa = uintMax
  swap
  · rw [Shard.openSection, if_neg hi] at h
    exact ⟨L, hs.loadSection h⟩
  obtain ⟨-, -, -, hpair, -⟩ := openSection_new hi h
  rw [Shard.openSection, if_pos hi] at h
  simp only [allocSection, bind_eq_ok] at h
  obtain ⟨s1, ⟨⟨ppa, f1⟩, hmap, f2, htag, h1⟩, h⟩ := h
  cases h1
  obtain ⟨hf, hu, hl⟩ := loadSection_frame h
  obtain ⟨hppa, hoff, hlen, hother⟩ := loadSection_first
    (congrArg Section.cached (sec_setSec_self (s.setFlash f2) i _)) h
  obtain ⟨haside, hat⟩ := mapPage_secAt (L := L) hs.named.placed (firstLen_pos d) (firstLen_le d)
    Nat.one_pos hmap htag
  have hflash : s'.flash = f2 := hf
  rw [← hflash] at haside hat
  have hmove : Relocates d s s' L _ := .of_page hs.named.secs hs.named.log haside hu hl hat
    (hppa.trans (congrArg Section.tPpa (sec_setSec_self (s.setFlash f2) i _))) hoff hlen
    fun j hj => (hother j hj).trans (sec_setSec_of_ne (s.setFlash f2) _ hj)
  refine ⟨_, hs.named.of_aside haside hu (fun lpa hm => ?_) hmove.secs hmove.log,
    haside.carries.taken _ hs.status, hmem⟩
  -- a mapped slot is in another section
  obtain ⟨hm', hgrain⟩ := hmapped lpa hm
  have hne : d.idx lpa ≠ i := fun hc => hm'.1 (by rw [hc]; exact hi)
  obtain ⟨l, x, n, mem, hg, hpairAt, hmem', hfor⟩ := hs.named.pairs lpa hm'
  refine ⟨l, x, n, mem, hgrain.trans hg, hpairAt.carries haside.carries, ?_, hfor⟩
  rw [hpair]
  exact (if_neg hne).trans hmem'

/-! ### Updating one slot -/

theorem relocates_expandMapEntry (hp : s.flash.Placed d L) (hs : s.SecsAt d L)
    (hl : s.LogsAt d L) (h : s.expandMapEntry d i = .ok s') : ∃ L', Relocates d s s' L L' := by
  simp only [expandMapEntry, bind_eq_ok, ensure_eq_ok] at h
  obtain ⟨f1, h1, -, hlen, ⟨ppa, f2⟩, hmap, f3, htag, h⟩ := h
  cases h
  have hmark : Uses .map s.flash f1 := uses_markGrainInvalid h1
  have haside1 := hmark.aside (d := d) user_ne_map L
  obtain ⟨haside2, hat⟩ := mapPage_secAt (L := L) (haside1.carries.placed hp) (Nat.succ_pos _)
    (Nat.succ_le_of_lt hlen) (Nat.succ_pos _) hmap htag
  refine ⟨_, .of_page (i := i) hs hl (haside1.trans haside2) rfl rfl hat ?_ ?_ ?_ fun j hj => ?_⟩
  · rw [sec_setSec_self]
  · rw [sec_setSec_self]
  · rw [sec_setSec_self]
  · rw [sec_setSec_of_ne _ _ hj]
    rfl

theorem relocates_growTable {pos : ℕ} (hp : s.flash.Placed d L) (hs : s.SecsAt d L)
    (hl : s.LogsAt d L) (h : s.growTable d i pos = .ok s') : ∃ L', Relocates d s s' L L' := by
  rw [growTable] at h
  split at h
  · simp only [bind_eq_ok] at h
    obtain ⟨s1, h1, t, -, h⟩ := h
    cases h
    obtain ⟨L', hexp⟩ := relocates_expandMapEntry hp hs hl h1
    exact ⟨L', hexp.trans (.of_same hexp.secs hexp.log (.setSec rfl rfl rfl) rfl rfl rfl)⟩
  · cases h
    exact ⟨L, .of_same hs hl (.refl _) rfl rfl rfl⟩

theorem relocates_recordInvMapping {ppa off len n : ℕ} {f : Flash} {log : InvLog}
    (hp : s.flash.Placed d L) (hs : s.SecsAt d L) (hl : s.LogsAt d L)
    (h : InvLog.recordInvMapping d s.flash s.log lpa ppa off len = .ok (n, f, log)) :
    ∃ L', Relocates d s ((s.setFlash f).setLog log) L L' := by
  obtain ⟨L', haside, hlists⟩ := InvLog.recordInvMapping_aside hp h
  refine ⟨L', haside, rfl, ?_, fun e he => ?_⟩
  · have hsecs : ((s.setFlash f).setLog log).SecsAt d L' := hs.carries haside.carries (.refl _)
    exact hsecs
  · rcases hlists e he with hnew | hold
    · exact hnew
    · obtain ⟨line, ppa, hidx, hat⟩ := hl e hold
      exact ⟨line, ppa, hidx, hat.carries haside.carries⟩

theorem relocates_recordOld {pos n : ℕ} {record : Bool} (hp : s.flash.Placed d L)
    (hs : s.SecsAt d L) (hl : s.LogsAt d L)
    (h : s.recordOld d i lpa pos record = .ok (n, s')) : ∃ L', Relocates d s s' L L' := by
  rw [recordOld] at h
  split at h
  · simp only [bind_eq_ok] at h
    obtain ⟨⟨c, f, log⟩, hrec, h⟩ := h
    cases h
    exact relocates_recordInvMapping hp hs hl hrec
  · cases h
    exact ⟨L, .of_same hs hl (.refl _) rfl rfl rfl⟩

theorem relocates_updateMap {ppa pos n : ℕ} {mem : Option (List UInt8)} {record : Bool}
    (hp : s.flash.Placed d L) (hs : s.SecsAt d L) (hl : s.LogsAt d L)
    (h : s.updateMap d lpa mem ppa pos record = .ok (n, s')) : ∃ L', Relocates d s s' L L' := by
  simp only [updateMap, bind_eq_ok] at h
  obtain ⟨-, -, h⟩ := h
  have hdirty : Relocates d s (s.markDirty (d.idx lpa)) L L :=
    .of_same hs hl (.setSec rfl rfl rfl) rfl rfl rfl
  split at h
  · cases h
    exact ⟨L, hdirty.trans (.of_same hdirty.secs hdirty.log (.setSec rfl rfl rfl) rfl rfl rfl)⟩
  · simp only [updateTwolevel, bind_eq_ok] at h
    obtain ⟨s1, h1, ⟨k, s2⟩, h2, t, -, h⟩ := h
    cases h
    obtain ⟨L1, hgrow⟩ := relocates_growTable (hdirty.aside.carries.placed hp) hdirty.secs
      hdirty.log h1
    have hall := hdirty.trans hgrow
    obtain ⟨L2, hold⟩ := relocates_recordOld (hall.aside.carries.placed hp) hall.secs hall.log h2
    exact ⟨L2, (hall.trans hold).trans (.of_same hold.secs hold.log (.setSec rfl rfl rfl) rfl rfl
      rfl)⟩

/-- One slot got a pair that is on flash, or none. -/
theorem PairsAt.puts {ppa : ℕ} {mem : Option (List UInt8)} (hp : s.PairsAt d L)
    (hput : Puts d s s' lpa mem ppa) (hc : Carries d s.flash s'.flash L L')
    (hnew : ppa ≠ uintMax → ∃ l x n m, ppa = d.grainAt l x ∧ s.flash.PairAt d L lpa l x n ∧
      mem = some m ∧ MemFor d n m) : s'.PairsAt d L' := by
  intro j hm
  by_cases hj : j = lpa
  · subst hj
    have hne : ppa ≠ uintMax := by
      rw [← hput.grain]
      exact hm.2
    obtain ⟨l, x, n, m, hg, hpair, hmem, hfor⟩ := hnew hne
    refine ⟨l, x, n, m, hput.grain.trans hg, hpair.carries hc, ?_, hfor⟩
    rw [hput.pairMem, Function.update_self, hmem]
  · obtain ⟨l, x, n, m, hg, hpair, hmem, hfor⟩ := hp j ((hput.mapped_iff hj).mp hm)
    refine ⟨l, x, n, m, (hput.others j hj).trans hg, hpair.carries hc, ?_, hfor⟩
    rw [hput.pairMem, Function.update_of_ne hj, hmem]

/-- `__update_map` of a slot. -/
theorem Settled.updateMap {ppa n : ℕ} {mem : Option (List UInt8)} {record : Bool}
    (hfit : d.PagesFit) (hsec : d.SecFits (d.idx lpa)) (hs : s.Settled d L) (hok : s.TableOk d)
    (hi : (s.sec (d.idx lpa)).tPpa ≠ uintMax)
    (hput : ppa = uintMax → (s.cache.hidxToGrain d lpa).1 ≠ uintMax)
    (hnew : ppa ≠ uintMax → ∃ l x n m, ppa = d.grainAt l x ∧ s.flash.PairAt d L lpa l x n ∧
      mem = some m ∧ MemFor d n m)
    (h : s.updateMap d lpa mem ppa (s.cache.hidxToGrain d lpa).2 record = .ok (n, s')) :
    ∃ L', s'.Settled d L' := by
  have hputs := puts_updateMap hfit hsec hok hi hput h
  obtain ⟨L', hmove⟩ := relocates_updateMap hs.named.placed hs.named.secs hs.named.log h
  refine ⟨L', hs.named.of_aside hmove.aside hmove.user
    (hs.named.pairs.puts hputs hmove.aside.carries hnew) hmove.secs hmove.log,
    hmove.aside.carries.taken _ hs.status, hputs.memOk hs.memOk⟩

end Shard

end Virtkv
