import Virtkv.Cache.Frame
import Virtkv.Command.Defs
import Virtkv.Flash.Taken

/-!
# Credits of the mapping cache

An eviction, the opening of a section and the update of a mapping take pages from free space,
and return credits for them. For each function of the cache this file says how many grains it
takes and how many write credits it spends; the page that an eviction is filling is paid for
when it is taken, grain by grain it is only then used.

The first page of a section and the page for a table that grows are not paid for.
-/

namespace Virtkv

open Outcome

namespace Shard

/-- `paid` write credits are spent and `n` grains are taken from free space. What the maps do
not own stays as it is. Write credits are a 32-bit number. -/
structure Spends (d : Device) (s s' : Shard) (paid n : ℕ) : Prop where
  writeCredits : (s'.writeCredits + paid) % 2 ^ 32 = s.writeCredits % 2 ^ 32
  flash : Flash.Draws d s.flash s'.flash n
  leftoverCredits : s'.leftoverCredits = s.leftoverCredits
  user : s'.user = s.user
  appendBufs : s'.appendBufs = s.appendBufs

variable {d : Device} {s s' s'' : Shard} {i paid paid' n n' : ℕ}

namespace Spends

theorem trans (h : Spends d s s' paid n) (h' : Spends d s' s'' paid' n') :
    Spends d s s'' (paid + paid') (n + n') where
  writeCredits := by
    have h1 := h.writeCredits
    have h2 := h'.writeCredits
    omega
  flash := h.flash.trans h'.flash
  leftoverCredits := h'.leftoverCredits.trans h.leftoverCredits
  user := h'.user.trans h.user
  appendBufs := h'.appendBufs.trans h.appendBufs

theorem refl (s : Shard) : Spends d s s 0 0 := ⟨rfl, .refl _, rfl, rfl, rfl⟩

theorem setFlash {f : Flash} (h : Flash.Draws d s.flash f n) : Spends d s (s.setFlash f) 0 n :=
  ⟨rfl, h, rfl, rfl, rfl⟩

theorem setCache (s : Shard) (c : Cache) : Spends d s (s.setCache c) 0 0 :=
  ⟨rfl, .refl _, rfl, rfl, rfl⟩

theorem setSec (s : Shard) (i : ℕ) (x : Section) : Spends d s (s.setSec i x) 0 0 := setCache s _

/-- Nothing is spent and taken behind `h`. -/
theorem then_none (h : Spends d s s' paid n) (h' : Spends d s' s'' 0 0) : Spends d s s'' paid n :=
  h.trans h'

theorem none_then (h : Spends d s s' 0 0) (h' : Spends d s' s'' paid n) :
    Spends d s s'' paid n := by
  have hall := h.trans h'
  rwa [Nat.zero_add, Nat.zero_add] at hall

theorem status (h : Spends d s s' paid n) (h0 : s.flash.status 0 ≠ .free) :
    s'.flash.status 0 ≠ .free := h.flash.status h0

end Spends

/-! ### Eviction -/

namespace Filling

/-- The grains of the page being filled that are paid for and not used yet. -/
def rest (d : Device) (e : Filling) : ℕ := if e.gotPpa then d.gpp - e.grain else 0

/-- The page being filled is used up to `grain`, by sections that are evicted. -/
structure Tidy (d : Device) (e : Filling) : Prop where
  le_evicted : e.grain ≤ e.evicted
  le_gpp : e.grain ≤ d.gpp
  got : e.gotPpa = true ↔ e.allClean = false
  start : e.gotPpa = false → e.grain = 0

end Filling

theorem spends_clearPage {ppa grain : ℕ} (h : s.clearPage d ppa grain = .ok s') :
    Spends d s s' 0 (d.gpp - grain) := by
  simp only [clearPage, bind_eq_ok] at h
  obtain ⟨f, hf, h⟩ := h
  cases h
  exact .setFlash ((Flash.draws_discardFrom hf).then_none (Flash.draws_fillOob ..))

theorem spends_dropOnDisk {gLen : ℕ} (h : s.dropOnDisk d i gLen = .ok s') :
    Spends d s s' 0 0 ∧ s'.cache = s.cache := by
  rw [dropOnDisk] at h
  split at h
  · simp only [bind_eq_ok] at h
    obtain ⟨f, hf, h⟩ := h
    cases h
    exact ⟨.setFlash (Flash.draws_markGrainInvalid hf), rfl⟩
  · simp only [bind_eq_ok] at h
    obtain ⟨-, -, h⟩ := h
    cases h
    exact ⟨.refl _, rfl⟩

/-- A page that is taken is paid for. -/
theorem spends_evictPage {e e' : Filling} (h0 : s.flash.status 0 ≠ .free)
    (hstart : e.gotPpa = false → e.grain = 0) (h : s.evictPage d e = .ok (e', s')) :
    Spends d s s' 0 0 ∧ s'.cache = s.cache ∧ e'.gotPpa = true ∧ e'.grain = e.grain ∧
      e'.evicted = e.evicted ∧ e'.credits + e.rest d = e.credits + e'.rest d := by
  rw [evictPage] at h
  split at h
  · rename_i hgot
    cases h
    exact ⟨.refl _, rfl, hgot, rfl, rfl, rfl⟩
  · rename_i hgot
    simp only [bind_eq_ok] at h
    obtain ⟨⟨p, ppa, f⟩, hf, h⟩ := h
    cases h
    have hzero := hstart (Bool.eq_false_of_not_eq_true hgot)
    refine ⟨.setFlash (Flash.draws_newPage h0 hf), rfl, rfl, rfl, rfl, ?_⟩
    simp only [Filling.rest, hgot, hzero, if_true, Nat.sub_zero]
    rfl

/-- A victim uses its grains of the page. -/
theorem spends_placeVictim {e e' : Filling} (hstart : d.build = .original → e.grain = 0)
    (h : s.placeVictim d e i = .ok (e', s')) :
    Spends d s s' 0 (s.cache.entriesToGrains d i) ∧
      e' = { e with grain := e.grain + s.cache.entriesToGrains d i, allClean := false } := by
  simp only [placeVictim, bind_eq_ok] at h
  obtain ⟨-, -, f, hf, -, -, h⟩ := h
  cases h
  have hset : Spends d s (s.setFlash f) 0 (s.cache.entriesToGrains d i) :=
    .setFlash ((Flash.draws_setOob s.flash e.ppa _ _).none_then (Flash.draws_markGrainValid hf))
  refine ⟨hset.then_none (.setSec _ i _), ?_⟩
  split
  · rename_i horig
    rw [hstart horig]
  · rfl

theorem entriesToGrains_congr {c c' : Cache} (h : c'.secs = c.secs) :
    c'.entriesToGrains d i = c.entriesToGrains d i := by
  rw [Cache.entriesToGrains, Cache.entriesToGrains, h]

/-- What a step of an eviction pays for it uses, or keeps on the page it is filling. -/
structure Evicts (d : Device) (s s' : Shard) (e e' : Filling) (n : ℕ) : Prop where
  spends : Spends d s s' 0 n
  credits : e'.credits + e.rest d = e.credits + n + e'.rest d
  evicted : e'.evicted = e.evicted

/-- A victim that does not fit gives up the rest of the page. -/
theorem turnPage_evicts {e e' : Filling} {gLen : ℕ} (ht : e.Tidy d)
    (h : s.turnPage d e i gLen = .ok (e', s')) :
    (∃ n, Evicts d s s' e e' n) ∧ s'.cache = s.cache ∧ e'.grain ≤ e.grain ∧
      (e'.gotPpa = false → e'.grain = 0) ∧
      ((s.sec i).state = .dCandidate → gLen ≤ d.gpp → e'.grain + gLen ≤ d.gpp) ∧
      ((s.sec i).state ≠ .dCandidate → e' = e) := by
  rw [turnPage] at h
  split at h
  · rename_i hturn
    simp only [bind_eq_ok, ensure_eq_ok] at h
    obtain ⟨-, hgot, s1, h1, h⟩ := h
    cases h
    -- the unused grains of the page were paid for and are taken now
    have hrest : e.rest d = d.gpp - e.grain := by rw [Filling.rest, if_pos hgot]
    refine ⟨⟨_, spends_clearPage h1, ?_, rfl⟩, ?_, Nat.zero_le _, fun _ => rfl, fun _ hle => ?_,
      fun hne => absurd hturn.1 hne⟩
    · rw [hrest]
      rfl
    · simp only [clearPage, bind_eq_ok] at h1
      obtain ⟨f, -, h1⟩ := h1
      cases h1
      rfl
    · rwa [Nat.zero_add]
  · rename_i hstay
    cases h
    refine ⟨⟨0, .refl _, rfl, rfl⟩, rfl, le_rfl, ht.start, fun hd _ => ?_, fun _ => rfl⟩
    exact Nat.le_of_not_lt fun hlt => hstay ⟨hd, hlt⟩

/-- A dirty victim is written behind the ones before it. -/
theorem writeVictim_evicts {e e' : Filling} (h0 : s.flash.status 0 ≠ .free)
    (hstart : e.gotPpa = false → e.grain = 0) (hle : e.grain + s.cache.entriesToGrains d i ≤ d.gpp)
    (h : s.writeVictim d e i = .ok (e', s')) :
    Evicts d s s' e e' (s.cache.entriesToGrains d i) ∧
      e'.grain = e.grain + s.cache.entriesToGrains d i ∧ e'.gotPpa = true ∧
      e'.allClean = false := by
  simp only [writeVictim, bind_eq_ok, ensure_eq_ok] at h
  obtain ⟨s1, h1, -, horig, -, -, ⟨e2, s2⟩, h2, h3⟩ := h
  obtain ⟨hdrop, hc1⟩ := spends_dropOnDisk h1
  obtain ⟨hpage, hc2, hgot, hgrain, hev, hcred⟩ := spends_evictPage (hdrop.status h0) hstart h2
  obtain ⟨hplace, rfl⟩ := spends_placeVictim (fun ho => hgrain.trans (hstart (horig ho))) h3
  rw [hc2, hc1] at hplace ⊢
  refine ⟨⟨(hdrop.then_none hpage).none_then hplace, ?_, hev⟩, by rw [hgrain], hgot, rfl⟩
  simp only [Filling.rest, hgot, if_true] at hcred ⊢
  omega

/-- One round of an eviction. -/
theorem evictRound_evicts {e e' : Filling} (h0 : s.flash.status 0 ≠ .free) (ht : e.Tidy d)
    (hev : e.evicted < d.gpp) (h : s.evictRound d e i = .ok (e', s')) :
    (∃ n, Spends d s s' 0 n ∧ e'.credits + e.rest d = e.credits + n + e'.rest d) ∧ e'.Tidy d := by
  have hnew : e.grain ≠ d.gpp := Nat.ne_of_lt (ht.le_evicted.trans_lt hev)
  simp only [evictRound, if_neg hnew, bind_eq_ok, ensure_eq_ok] at h
  obtain ⟨-, -, -, -, c, -, -, hlen, ⟨e1, s1⟩, h1, ⟨e2, s2⟩, h2, h⟩ := h
  cases h
  obtain ⟨⟨n, hturn⟩, hcache, hgrain, hstart, hfits, hkept⟩ := turnPage_evicts ht h1
  have hle := ht.le_evicted
  have hpop : Spends d s s1.popRing 0 n :=
    ((Spends.setCache (d := d) s c).none_then hturn.spends).then_none (.setCache s1 _)
  have hsecs : s1.popRing.cache.secs = (s.setCache c).cache.secs := by
    show s1.cache.secs = _
    rw [hcache]
  have hstate : s1.popRing.sec i = (s.setCache c).sec i := congrFun hsecs i
  have hcred := hturn.credits
  have hev1 := hturn.evicted
  rw [writeIfDirty, hstate] at h2
  split at h2
  · rename_i hd
    -- a dirty victim: the page has room for it now
    have hroom := hfits hd hlen
    rw [← entriesToGrains_congr hsecs] at hroom
    obtain ⟨hw, hgrain2, hgot2, hclean2⟩ := writeVictim_evicts (hpop.status h0) hstart hroom h2
    have hcred2 := hw.credits
    have hev2 := hw.evicted
    rw [entriesToGrains_congr hsecs] at hroom hgrain2 hcred2
    refine ⟨⟨_, hpop.trans (hw.spends.then_none (.setCache s2 _)), ?_⟩, ⟨?_, ?_, ?_, ?_⟩⟩
    · rw [entriesToGrains_congr hsecs]
      show e2.credits + e.rest d = _ + _ + e2.rest d
      omega
    · show e2.grain ≤ e2.evicted + _
      omega
    · exact hgrain2.trans_le hroom
    · exact ⟨fun _ => hclean2, fun _ => hgot2⟩
    · intro hgot
      exact absurd hgot2 (Bool.eq_false_iff.mp hgot)
  · rename_i hd
    cases h2
    obtain rfl := hkept hd
    refine ⟨⟨n, hpop.then_none (.setCache _ _), hcred⟩, ⟨?_, ht.le_gpp, ht.got, ht.start⟩⟩
    exact hle.trans (Nat.le_add_right ..)

/-- The rounds of an eviction that has not evicted a page yet. -/
theorem evictLoop_evicts {fuel : ℕ} {e e' : Filling} (h0 : s.flash.status 0 ≠ .free)
    (ht : e.Tidy d) (hev : e.evicted < d.gpp) (h : evictLoop d fuel e s = .ok (e', s')) :
    (∃ n, Spends d s s' 0 n ∧ e'.credits + e.rest d = e.credits + n + e'.rest d) ∧ e'.Tidy d := by
  induction fuel generalizing s e with
  | zero => cases h
  | succ fuel ih =>
    rw [evictLoop] at h
    split at h
    · cases h
      exact ⟨⟨0, .refl _, rfl⟩, ht⟩
    split at h
    · cases h
    · simp only [bind_eq_ok] at h
      obtain ⟨⟨e1, s1⟩, h1, h⟩ := h
      obtain ⟨⟨n, hround, hcred⟩, ht1⟩ := evictRound_evicts h0 ht hev h1
      split at h
      · cases h
        exact ⟨⟨n, hround, hcred⟩, ht1⟩
      · rename_i hmore
        obtain ⟨⟨m, hrest, hcred'⟩, ht2⟩ := ih (hround.status h0) ht1 (Nat.lt_of_not_le hmore) h
        exact ⟨⟨n + m, hround.trans hrest, by omega⟩, ht2⟩

/-- The grains that are left of the last page are given up. -/
theorem spends_closePage {e : Filling} (ht : e.Tidy d) (h : s.closePage d e = .ok s') :
    Spends d s s' 0 (e.rest d) := by
  rw [closePage] at h
  split at h
  · rename_i hopen
    rw [Filling.rest, if_pos (ht.got.mpr hopen.1)]
    exact spends_clearPage h
  · rename_i hclosed
    cases h
    have hrest : e.rest d = 0 := by
      rw [Filling.rest]
      split
      · rename_i hgot
        exact Nat.sub_eq_zero_of_le (Nat.le_of_not_lt fun hlt => hclosed ⟨ht.got.mp hgot, hlt⟩)
      · rfl
    rw [hrest]
    exact .refl _

/-- An eviction returns the credits for the grains it takes. -/
theorem spends_evictOne (h0 : s.flash.status 0 ≠ .free) (h : s.evictOne d = .ok (n, s')) :
    Spends d s s' 0 n := by
  simp only [evictOne, awaitVictims, bind_eq_ok] at h
  obtain ⟨s1, ⟨c, -, -, -, h1⟩, ⟨e2, s2⟩, h2, s3, h3, h⟩ := h
  cases h1
  cases h
  have hwait : Spends d s (s.setCache { c with haveVictims := 2 }) 0 0 := .setCache s _
  obtain ⟨⟨k, hloop, hcred⟩, ht⟩ := evictLoop_evicts (hwait.status h0)
    ⟨le_rfl, Nat.zero_le _, by decide, fun _ => rfl⟩ d.build_gpp_pos h2
  have hall := ((hwait.none_then hloop).trans (spends_closePage ht h3)).then_none (.setCache s3
    { s3.cache with haveVictims := 0 })
  have hcredits : e2.credits = k + e2.rest d := by simpa [Filling.rest] using hcred
  rw [hcredits]
  exact hall

theorem spends_evictWhileFull {fuel credits credits' : ℕ} (h0 : s.flash.status 0 ≠ .free)
    (h : evictWhileFull d fuel credits s = .ok (credits', s')) :
    ∃ k, credits' = credits + k ∧ Spends d s s' 0 k := by
  induction fuel generalizing s credits with
  | zero => cases h
  | succ fuel ih =>
    rw [evictWhileFull] at h
    split at h
    · simp only [bind_eq_ok] at h
      obtain ⟨⟨m, s1⟩, h1, h⟩ := h
      have hone := spends_evictOne h0 h1
      obtain ⟨k, hk, hrest⟩ := ih (hone.status h0) h
      exact ⟨m + k, by rw [hk, Nat.add_assoc], hone.trans hrest⟩
    · cases h
      exact ⟨0, rfl, .refl _⟩

theorem spends_consumeWriteCredit (s : Shard) (len : ℕ) :
    Spends d s (s.consumeWriteCredit len) len 0 := by
  refine ⟨?_, .refl _, rfl, rfl, rfl⟩
  rw [consumeWriteCredit, sub32]
  dsimp only
  split <;> omega

/-- The credits of a command are spent, and those for the pages that the evictions on the way
take. -/
theorem spends_makeRoom {credits : ℕ} (h0 : s.flash.status 0 ≠ .free)
    (h : s.makeRoom d credits = .ok s') : ∃ k, Spends d s s' (credits + k) k := by
  simp only [makeRoom, bind_eq_ok] at h
  obtain ⟨⟨c, s1⟩, h1, -, -, h⟩ := h
  cases h
  obtain ⟨k, rfl, hev⟩ := spends_evictWhileFull h0 h1
  have hall := hev.trans (spends_consumeWriteCredit s1 (credits + k))
  rw [Nat.zero_add, Nat.add_zero] at hall
  exact ⟨k, hall⟩

/-! ### Loading and updating -/

theorem spends_getHt {lpa : ℕ} (h : s.getHt d lpa = .ok s') : Spends d s s' 0 0 := by
  simp only [getHt, bind_eq_ok] at h
  obtain ⟨c, -, h⟩ := h
  cases h
  exact .setCache s c

theorem spends_unlock (s : Shard) (lpa : ℕ) : Spends d s (s.unlock d lpa) 0 0 := .setCache s _

theorem spends_loadSection {first : Bool} (h : s.loadSection d i first = .ok s') :
    Spends d s s' 0 0 := by
  rw [loadSection] at h
  split at h
  · cases h
    exact .refl s
  simp only [getOne, bind_eq_ok] at h
  obtain ⟨s1, ⟨s2, h2, h1⟩, -, -, h⟩ := h
  cases h
  cases h1
  have hget : Spends d s s2 0 0 := by
    rw [getMappings] at h2
    split at h2
    · cases h2
      exact ⟨rfl, .refl _, rfl, rfl, rfl⟩
    · simp only [bind_eq_ok] at h2
      obtain ⟨-, -, -, -, h2⟩ := h2
      cases h2
      exact .setSec s i _
  exact hget.then_none (.setCache s2 _)

/-- A page for one section: all its grains are taken. -/
theorem draws_mapPageLoop {fuel ppa : ℕ} {f f' : Flash} (h0 : f.status 0 ≠ .free)
    (h : mapPageLoop d fuel f = .ok (ppa, f')) : Flash.Draws d f f' d.gpp := by
  cases fuel with
  | zero => cases h
  | succ fuel =>
    simp only [mapPageLoop, bind_eq_ok] at h
    obtain ⟨⟨p, k, f1⟩, h1, f2, h2, h⟩ := h
    obtain ⟨htake, hne⟩ := Flash.draws_takePage h1
    rw [if_neg (hne h0)] at h
    cases h
    exact htake.none_then (Flash.draws_markGrainValid h2)

theorem draws_tagMapPage {f f' : Flash} {ppa len start : ℕ}
    (h : tagMapPage d f ppa i len start = .ok f') : Flash.Draws d f f' 0 := by
  have htag := (Flash.draws_setOob (d := d) f ppa 0 (len * 2 ^ 32 + i * d.epp)).trans
    (Flash.draws_fillOob _ ppa start uintMax)
  rw [tagMapPage] at h
  split at h
  · exact htag.trans (Flash.draws_markGrainInvalid h)
  · cases h
    exact htag

/-- The first page of a section is taken, and not paid for. -/
theorem spends_allocSection (h0 : s.flash.status 0 ≠ .free) (h : s.allocSection d i = .ok s') :
    Spends d s s' 0 d.gpp := by
  simp only [allocSection, bind_eq_ok] at h
  obtain ⟨⟨ppa, f⟩, hf, f1, h1, h⟩ := h
  cases h
  have hset : Spends d s (s.setFlash f1) 0 d.gpp :=
    .setFlash ((draws_mapPageLoop h0 hf).then_none (draws_tagMapPage h1))
  exact hset.then_none (.setSec _ i _)

/-- A section that is opened takes a page if it has none. -/
theorem spends_openSection (h0 : s.flash.status 0 ≠ .free) (h : s.openSection d i = .ok s') :
    Spends d s s' 0 (if (s.sec i).tPpa = uintMax then d.gpp else 0) := by
  rw [openSection] at h
  split at h
  · rename_i hnone
    simp only [bind_eq_ok] at h
    obtain ⟨s1, h1, h⟩ := h
    rw [if_pos hnone]
    exact (spends_allocSection h0 h1).then_none (spends_loadSection h)
  · rename_i hsome
    rw [if_neg hsome]
    exact spends_loadSection h

/-- The page of a table that grows is taken, and not paid for. -/
theorem spends_expandMapEntry (h0 : s.flash.status 0 ≠ .free) (h : s.expandMapEntry d i = .ok s') :
    Spends d s s' 0 d.gpp := by
  simp only [expandMapEntry, bind_eq_ok] at h
  obtain ⟨f, hf, -, -, ⟨ppa, f1⟩, h1, f2, h2, h⟩ := h
  cases h
  have hinv := Flash.draws_markGrainInvalid hf
  have hflash := (hinv.none_then (draws_mapPageLoop (hinv.status h0) h1)).then_none
    (draws_tagMapPage h2)
  exact (Spends.setFlash hflash).then_none ⟨rfl, .refl _, rfl, rfl, rfl⟩

/-- The table of a section has no room for an index that is not in it. -/
def Grows (d : Device) (s : Shard) (i pos : ℕ) : Prop :=
  d.build = .plus ∧ (s.sec i).table.cachedCnt = TwoLevel.cnt (s.sec i).table.mem * inLeaf ∧
    pos = uintMax

instance (d : Device) (s : Shard) (i pos : ℕ) : Decidable (Grows d s i pos) :=
  inferInstanceAs (Decidable (_ ∧ _ ∧ _))

theorem spends_growTable {pos : ℕ} (h0 : s.flash.status 0 ≠ .free) (hb : d.build = .plus)
    (h : s.growTable d i pos = .ok s') :
    Spends d s s' 0 (if Grows d s i pos then d.gpp else 0) := by
  rw [growTable] at h
  split at h
  · rename_i hfull
    simp only [bind_eq_ok] at h
    obtain ⟨s1, h1, t, -, h⟩ := h
    cases h
    rw [if_pos ⟨hb, hfull⟩]
    exact (spends_expandMapEntry h0 h1).then_none (.setSec s1 i _)
  · rename_i hroom
    cases h
    rw [if_neg fun hg => hroom hg.2]
    exact .refl s

/-- The credits for the record of a replaced grain are the grains it takes. -/
theorem spends_recordOld {lpa pos credits : ℕ} {record : Bool} (h0 : s.flash.status 0 ≠ .free)
    (h : s.recordOld d i lpa pos record = .ok (credits, s')) : Spends d s s' 0 credits := by
  rw [recordOld] at h
  split at h
  · simp only [bind_eq_ok] at h
    obtain ⟨⟨k, f, log⟩, hf, h⟩ := h
    cases h
    have hset := Spends.setFlash (Flash.draws_recordInvMapping h0 hf)
    exact hset.then_none ⟨rfl, .refl _, rfl, rfl, rfl⟩
  · cases h
    exact .refl s

/-- An update returns the credits for what it takes, but for the page of a table that grows. -/
theorem spends_updateMap {lpa ppa pos credits : ℕ} {mem : Option (List UInt8)} {record : Bool}
    (h0 : s.flash.status 0 ≠ .free)
    (h : s.updateMap d lpa mem ppa pos record = .ok (credits, s')) :
    Spends d s s' 0 (credits + if Grows d s (d.idx lpa) pos then d.gpp else 0) := by
  simp only [updateMap, bind_eq_ok] at h
  obtain ⟨-, -, h⟩ := h
  have hdirty : Spends d s (s.markDirty (d.idx lpa)) 0 0 := .setSec s _ _
  split at h
  · rename_i hb
    cases h
    rw [if_neg fun hg => by rw [hg.1] at hb; cases hb]
    exact ⟨rfl, .refl _, rfl, rfl, rfl⟩
  · rename_i hb
    simp only [updateTwolevel, bind_eq_ok] at h
    obtain ⟨s1, h1, ⟨k, s2⟩, h2, t, -, h⟩ := h
    cases h
    have hgrow := spends_growTable (hdirty.status h0) hb h1
    have hsame : Grows d (s.markDirty (d.idx lpa)) (d.idx lpa) pos ↔ Grows d s (d.idx lpa) pos := by
      rw [Grows, Grows, markDirty, sec, setSec, setCache, Cache.setSec]
      dsimp only
      rw [Function.update_self]
    simp only [hsame] at hgrow
    have hold := spends_recordOld (hgrow.status (hdirty.status h0)) h2
    have hall := (hdirty.none_then hgrow).trans hold
    rw [Nat.add_comm _ k, Nat.add_zero] at hall
    exact hall.then_none ⟨rfl, .refl _, rfl, rfl, rfl⟩

end Shard

end Virtkv
