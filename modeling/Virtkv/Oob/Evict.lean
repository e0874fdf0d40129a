import Virtkv.Oob.Place
import Virtkv.Cache.Spend

/-!
# Evictions move sections with their words

Every page an eviction writes to was free when it began, so it touches nothing that had a
holder then. On the page it is filling, the grains behind the sections written so far have
no holder yet.
-/

namespace Virtkv

open Outcome

namespace Shard

open Flash

variable {d : Device} {L₀ L : Grains} {s₀ s s' : Shard} {e e' : Filling} {i : ℕ}

/-- An eviction that began with `s₀` and `L₀`. -/
structure Evicting (d : Device) (s₀ : Shard) (L₀ : Grains) (s : Shard) (e : Filling)
    (L : Grains) : Prop where
  aside : CarriesAside d s₀.flash s.flash L₀ L
  placed : s.flash.Placed d L
  page : e.gotPpa = true → e.ppa < d.geo.ttPgs ∧ s₀.flash.status e.ppa = .free ∧
    s.flash.status e.ppa ≠ .free
  vacant : e.gotPpa = true → ∀ j, e.grain ≤ j → j < d.gpp →
    L.owner (d.ppaToPga e.ppa j) = none
  secs : s.SecsAt d L
  log : s.log = s₀.log

/-- What the eviction does to the cache without moving a section. -/
theorem Evicting.of_flash_eq (h : Evicting d s₀ L₀ s e L) (hf : s'.flash = s.flash)
    (hp : Cache.SamePlaces s.cache s'.cache) (hl : s'.log = s.log) : Evicting d s₀ L₀ s' e L where
  aside := by
    rw [hf]
    exact h.aside
  placed := by
    rw [hf]
    exact h.placed
  page := by
    rw [hf]
    exact h.page
  vacant := h.vacant
  secs := by
    have hc : Carries d s.flash s'.flash L L := by
      rw [hf]
      exact .refl _ L
    exact h.secs.carries hc hp
  log := hl.trans h.log

/-- What the eviction does to flash without a new holder. -/
theorem Evicting.setFlash {f : Flash} (h : Evicting d s₀ L₀ s e L)
    (hc : CarriesAside d s.flash f L L) : Evicting d s₀ L₀ (s.setFlash f) e L where
  aside := h.aside.trans hc
  placed := hc.carries.placed h.placed
  page hg := by
    obtain ⟨hlt, hfree, htaken⟩ := h.page hg
    exact ⟨hlt, hfree, hc.carries.taken _ htaken⟩
  vacant := h.vacant
  secs := by
    have hkeep : Carries d s.flash (s.setFlash f).flash L L := hc.carries
    exact h.secs.carries hkeep (.refl _)
  log := h.log

/-- The page being filled is given up. -/
theorem Evicting.noPage (h : Evicting d s₀ L₀ s e L) {e' : Filling} (hg : e'.gotPpa = false) :
    Evicting d s₀ L₀ s e' L where
  aside := h.aside
  placed := h.placed
  page hc := by
    rw [hg] at hc
    cases hc
  vacant hc := by
    rw [hg] at hc
    cases hc
  secs := h.secs
  log := h.log

theorem Evicting.clearPage (h : Evicting d s₀ L₀ s e L) (hgot : e.gotPpa = true)
    (hrun : s.clearPage d e.ppa e.grain = .ok s') : Evicting d s₀ L₀ s' e L := by
  simp only [Shard.clearPage, bind_eq_ok] at hrun
  obtain ⟨f, hf, hrun⟩ := hrun
  cases hrun
  have hdis : Uses .map s.flash f := uses_discardFrom hf
  have hfill : Carries d f (f.fillOob d e.ppa e.grain uintMax) L L :=
    carries_fillOob (h.vacant hgot)
  exact h.setFlash ⟨(hdis.carries L).trans hfill, fun _ hg => absurd rfl hg,
    hdis.wp .user user_ne_map⟩

theorem Evicting.dropOnDisk {gLen : ℕ} (h : Evicting d s₀ L₀ s e L)
    (hrun : s.dropOnDisk d i gLen = .ok s') : Evicting d s₀ L₀ s' e L := by
  rw [Shard.dropOnDisk] at hrun
  split at hrun
  · simp only [bind_eq_ok] at hrun
    obtain ⟨f, hf, hrun⟩ := hrun
    cases hrun
    have hu : Uses .map s.flash f := uses_markGrainInvalid hf
    exact h.setFlash (hu.aside user_ne_map L)
  · simp only [bind_eq_ok] at hrun
    obtain ⟨-, -, hrun⟩ := hrun
    cases hrun
    exact h

theorem Evicting.evictPage (h : Evicting d s₀ L₀ s e L)
    (hrun : s.evictPage d e = .ok (e', s')) :
    Evicting d s₀ L₀ s' e' L ∧ e'.gotPpa = true := by
  rw [Shard.evictPage] at hrun
  split at hrun
  · rename_i hgot
    cases hrun
    exact ⟨h, hgot⟩
  · simp only [bind_eq_ok] at hrun
    obtain ⟨⟨p, ppa, f⟩, hf, hrun⟩ := hrun
    cases hrun
    obtain ⟨-, hhands⟩ := hands_newPage hf
    have hnext := h.setFlash (hhands.uses.aside user_ne_map L)
    refine ⟨⟨hnext.aside, hnext.placed, fun _ => ⟨hhands.lt, ?_, hhands.taken⟩,
      fun _ j _ hj => hhands.vacant h.placed hj, hnext.secs, hnext.log⟩, rfl⟩
    exact h.aside.carries.was_free hhands.was_free

theorem entriesToGrains_pos (d : Device) (c : Cache) (i : ℕ) : 0 < c.entriesToGrains d i := by
  rw [Cache.entriesToGrains]
  split
  · exact d.build_gpp_pos
  · exact Nat.add_pos_left (by decide) _

/-- In ORIGINAL a victim has a page for its own, so both builds write behind what the page
holds. -/
theorem placeVictim_eq_ok (hstart : d.build = .original → e.grain = 0)
    (hrun : s.placeVictim d e i = .ok (e', s')) :
    ∃ f, (s.flash.setOob d e.ppa e.grain
        (s.cache.entriesToGrains d i * 2 ^ 32 + i * d.epp)).markGrainValid d
        (d.ppaToPga e.ppa e.grain) (s.cache.entriesToGrains d i) = .ok f ∧
      e' = { e with grain := e.grain + s.cache.entriesToGrains d i, allClean := false } ∧
      s' = (s.setFlash f).setSec i { s.sec i with
        tPpa := e.ppa, gOff := e.grain, lenOnDisk := s.cache.entriesToGrains d i
        written := (s.sec i).table.mem } := by
  cases hb : d.build with
  | original =>
    simp only [placeVictim, hb, bind_eq_ok] at hrun
    obtain ⟨-, -, f, hf, -, -, hrun⟩ := hrun
    cases hrun
    rw [hstart hb]
    exact ⟨f, hf, rfl, rfl⟩
  | plus =>
    simp only [placeVictim, hb, bind_eq_ok] at hrun
    obtain ⟨-, -, f, hf, -, -, hrun⟩ := hrun
    cases hrun
    exact ⟨f, hf, rfl, rfl⟩

/-- A victim gets the grains behind those before it on the page. -/
theorem Evicting.placeVictim (h : Evicting d s₀ L₀ s e L) (hgot : e.gotPpa = true)
    (hstart : d.build = .original → e.grain = 0)
    (hle : e.grain + s.cache.entriesToGrains d i ≤ d.gpp)
    (hrun : s.placeVictim d e i = .ok (e', s')) : ∃ L', Evicting d s₀ L₀ s' e' L' := by
  have hpos := entriesToGrains_pos d s.cache i
  obtain ⟨f, hf, rfl, rfl⟩ := placeVictim_eq_ok hstart hrun
  set n := s.cache.entriesToGrains d i with hn
  obtain ⟨hlt, hfree, htaken⟩ := h.page hgot
  have hnone : ∀ g ∈ Device.span (d.ppaToPga e.ppa e.grain) n, L.owner g = none := by
    intro g hg
    obtain ⟨j, hj, hjlt, rfl⟩ := exists_of_mem_span hg
    exact h.vacant hgot j hj (by omega)
  have hu : Uses .map (s.flash.setOob d e.ppa e.grain (n * 2 ^ 32 + i * d.epp)) f :=
    uses_markGrainValid hf
  have hset : Carries d s.flash f L L :=
    (carries_setOob (h.vacant hgot e.grain le_rfl (by omega))).trans (hu.carries L)
  -- the old grains of the section keep their holder; nothing points to them any more
  set L' := L.add (Device.span (d.ppaToPga e.ppa e.grain) n) (.sec i) with hL'
  have howner : ∀ g, L.owner g ≠ none → L'.owner g = L.owner g := by
    intro g hg
    rw [hL', Ledger.owner_add, if_neg (fun hc => hg (hnone g hc))]
  have hplaced : f.Placed d L' := by
    refine h.placed.add hset.taken (fun g hg => ?_) _
    obtain ⟨j, -, hj, rfl⟩ := exists_of_mem_span hg
    rw [Device.gIdx_ppaToPga (by omega)]
    exact hset.taken _ htaken
  have hcarries : Carries d s.flash f L L' := ⟨hset.taken, hset.word, howner, fun _ => hplaced⟩
  refine ⟨L', ⟨h.aside.carries.trans hcarries, fun g hg => ?_, ?_⟩, hplaced,
    fun _ => ⟨hlt, hfree, hset.taken _ htaken⟩, fun _ j hj hjlt => ?_, fun k hk => ?_, h.log⟩
  · by_cases hR : g ∈ Device.span (d.ppaToPga e.ppa e.grain) n
    · obtain ⟨j, -, hj, rfl⟩ := exists_of_mem_span hR
      rw [Device.gIdx_ppaToPga (by omega)]
      exact hfree
    · rw [hL', Ledger.owner_add, if_neg hR] at hg
      exact h.aside.fresh g hg
  · exact (hu.wp .user user_ne_map).trans h.aside.wp
  · have hR : d.ppaToPga e.ppa j ∉ Device.span (d.ppaToPga e.ppa e.grain) n := by
      dsimp only at hj
      rw [Device.mem_span, Device.ppaToPga, Device.ppaToPga]
      omega
    rw [hL', Ledger.owner_add, if_neg hR]
    exact h.vacant hgot j (by dsimp only at hj; omega) hjlt
  · by_cases hki : k = i
    · rw [hki, sec_setSec_self]
      refine ⟨hlt, hpos, hle, fun g hg => ?_, ?_⟩
      · rw [hL', Ledger.owner_add, if_pos hg]
      · show f.oob _ = _
        rw [hu.oob]
        exact Function.update_self ..
    · rw [sec_setSec_of_ne _ _ hki] at hk ⊢
      exact (h.secs k hk).carries hcarries

/-- A dirty victim moves to the page being filled. -/
theorem Evicting.writeVictim (h : Evicting d s₀ L₀ s e L)
    (hstart : e.gotPpa = false → e.grain = 0) (h0 : s.flash.status 0 ≠ .free)
    (hle : e.grain + s.cache.entriesToGrains d i ≤ d.gpp)
    (hrun : s.writeVictim d e i = .ok (e', s')) : ∃ L', Evicting d s₀ L₀ s' e' L' := by
  simp only [Shard.writeVictim, bind_eq_ok, ensure_eq_ok] at hrun
  obtain ⟨s1, h1, -, horig, -, -, ⟨e2, s2⟩, h2, h3⟩ := hrun
  obtain ⟨hdrop, hc1⟩ := spends_dropOnDisk h1
  obtain ⟨-, hc2, -, hgrain, -⟩ := spends_evictPage (hdrop.status h0) hstart h2
  obtain ⟨hev, hgot⟩ := (h.dropOnDisk h1).evictPage h2
  refine hev.placeVictim hgot (fun ho => hgrain.trans (hstart (horig ho))) ?_ h3
  rw [hgrain, hc2, hc1]
  exact hle

/-- One round of an eviction. -/
theorem Evicting.evictRound (h : Evicting d s₀ L₀ s e L) (h0 : s.flash.status 0 ≠ .free)
    (ht : e.Tidy d) (hev : e.evicted < d.gpp) (hrun : s.evictRound d e i = .ok (e', s')) :
    ∃ L', Evicting d s₀ L₀ s' e' L' := by
  have hnew : e.grain ≠ d.gpp := Nat.ne_of_lt (ht.le_evicted.trans_lt hev)
  simp only [Shard.evictRound, if_neg hnew, bind_eq_ok, ensure_eq_ok] at hrun
  obtain ⟨-, -, -, -, c, hc, -, hlen, ⟨e1, s1⟩, h1, ⟨e2, s2⟩, h2, hrun⟩ := hrun
  cases hrun
  obtain ⟨⟨n, hturn⟩, hcache, -, hstart, hfits, -⟩ := turnPage_evicts ht h1
  have hlock : Evicting d s₀ L₀ (s.setCache c) e L :=
    h.of_flash_eq rfl (Cache.samePlaces_lock hc) rfl
  -- the page is closed if the victim does not fit behind what is on it
  have h1' : Evicting d s₀ L₀ s1 e1 L := by
    rw [turnPage] at h1
    split at h1
    · simp only [bind_eq_ok, ensure_eq_ok] at h1
      obtain ⟨-, hgot, s3, h3, h1⟩ := h1
      cases h1
      exact (hlock.clearPage hgot h3).noPage rfl
    · cases h1
      exact hlock
  have hpop : Evicting d s₀ L₀ s1.popRing e1 L := h1'.of_flash_eq rfl (.of_eq rfl) rfl
  have hsecs : s1.popRing.cache.secs = (s.setCache c).cache.secs := by
    show s1.cache.secs = _
    rw [hcache]
  have hstate : s1.popRing.sec i = (s.setCache c).sec i := congrFun hsecs i
  -- only a dirty victim is written
  obtain ⟨L', h2'⟩ : ∃ L', Evicting d s₀ L₀ s2 e2 L' := by
    rw [writeIfDirty, hstate] at h2
    split at h2
    · rename_i hd
      have hroom := hfits hd hlen
      rw [← entriesToGrains_congr hsecs] at hroom
      exact hpop.writeVictim hstart (hturn.spends.status h0) hroom h2
    · cases h2
      exact ⟨L, hpop⟩
  have hplaces : Cache.SamePlaces s2.cache
      (s2.dropVictim i ((s.setCache c).cache.entriesToGrains d i)).cache :=
    (Cache.SamePlaces.setSec (i := i) (x := { s2.sec i with
      cached := false, state := .clean, outgoing := false }) rfl rfl rfl).trans (.of_eq rfl)
  have hdrop : Evicting d s₀ L₀
      (s2.dropVictim i ((s.setCache c).cache.entriesToGrains d i)) e2 L' :=
    h2'.of_flash_eq rfl hplaces rfl
  exact ⟨L', hdrop.aside, hdrop.placed, hdrop.page, hdrop.vacant, hdrop.secs, hdrop.log⟩

theorem Evicting.evictLoop {fuel : ℕ} (h : Evicting d s₀ L₀ s e L)
    (h0 : s.flash.status 0 ≠ .free) (ht : e.Tidy d) (hev : e.evicted < d.gpp)
    (hrun : Shard.evictLoop d fuel e s = .ok (e', s')) :
    ∃ L', Evicting d s₀ L₀ s' e' L' := by
  induction fuel generalizing s e L with
  | zero => cases hrun
  | succ fuel ih =>
    rw [Shard.evictLoop] at hrun
    split at hrun
    · cases hrun
      exact ⟨L, h⟩
    split at hrun
    · cases hrun
    · simp only [bind_eq_ok] at hrun
      obtain ⟨⟨e1, s1⟩, h1, hrun⟩ := hrun
      obtain ⟨⟨n, hround, -⟩, ht1⟩ := evictRound_evicts h0 ht hev h1
      obtain ⟨L1, hnext⟩ := h.evictRound h0 ht hev h1
      split at hrun
      · cases hrun
        exact ⟨L1, hnext⟩
      · rename_i hmore
        exact ih hnext (hround.status h0) ht1 (Nat.lt_of_not_le hmore) hrun

theorem Evicting.closePage (h : Evicting d s₀ L₀ s e L) (ht : e.Tidy d)
    (hrun : s.closePage d e = .ok s') : Evicting d s₀ L₀ s' e L := by
  rw [Shard.closePage] at hrun
  split at hrun
  · rename_i hopen
    exact h.clearPage (ht.got.mpr hopen.1) hrun
  · cases hrun
    exact h

/-! ### Whole evictions -/

/-- What every command keeps: page 0 was given up, and sections in memory have pages. -/
structure Settled (d : Device) (s : Shard) (L : Grains) : Prop where
  named : s.Named d L
  status : s.flash.status 0 ≠ .free
  memOk : s.MemOk

theorem Settled.of_same (hs : s.Settled d L) (ht : SameTable s s')
    (hp : Cache.SamePlaces s.cache s'.cache) (hf : s'.flash = s.flash) (hu : s'.user = s.user)
    (hl : s'.log = s.log) : s'.Settled d L where
  named := hs.named.of_same ht hp hf hu hl
  status := by
    rw [hf]
    exact hs.status
  memOk := ht.memOk hs.memOk

theorem Settled.evictOne (hfit : d.PagesFit) {n : ℕ} (hs : s.Settled d L)
    (h : s.evictOne d = .ok (n, s')) : ∃ L', s'.Settled d L' := by
  have hsame := sameTable_evictOne hfit hs.memOk h
  have hspends := spends_evictOne hs.status h
  simp only [Shard.evictOne, awaitVictims, bind_eq_ok] at h
  obtain ⟨s1, ⟨c, hc, -, -, h1⟩, ⟨e2, s2⟩, h2, s3, h3, h⟩ := h
  cases h1
  cases h
  have hplaces : Cache.SamePlaces s.cache { c with haveVictims := 2 } :=
    (Cache.samePlaces_collectVictims hc).trans (.of_eq rfl)
  have hstart : Evicting d s L (s.setCache { c with haveVictims := 2 })
      { ppa := uintMax, grain := 0, gotPpa := false, allClean := true, evicted := 0
        credits := 0 } L := by
    refine ⟨.refl _ L, hs.named.placed, fun hc => ?_, fun hc => ?_, ?_, rfl⟩
    · cases hc
    · cases hc
    · have hkeep : Carries d s.flash (s.setCache { c with haveVictims := 2 }).flash L L :=
        .refl _ L
      exact hs.named.secs.carries hkeep hplaces
  have htidy : Filling.Tidy d { ppa := uintMax, grain := 0, gotPpa := false, allClean := true
                                evicted := 0, credits := 0 } :=
    ⟨le_rfl, Nat.zero_le _, by decide, fun _ => rfl⟩
  obtain ⟨L', hloop⟩ := hstart.evictLoop hs.status htidy d.build_gpp_pos h2
  obtain ⟨-, ht⟩ := evictLoop_evicts (s := s.setCache { c with haveVictims := 2 }) hs.status htidy
    d.build_gpp_pos h2
  have hend := hloop.closePage ht h3
  have hlast : Evicting d s L (s3.setCache { s3.cache with haveVictims := 0 }) e2 L' :=
    hend.of_flash_eq rfl (.of_eq rfl) rfl
  refine ⟨L', hs.named.aside hlast.aside hsame hspends.user hlast.secs ?_,
    hlast.aside.carries.taken _ hs.status, hsame.memOk hs.memOk⟩
  exact hs.named.log.carries hlast.aside.carries hlast.log

theorem Settled.evictWhileFull (hfit : d.PagesFit) {fuel n n' : ℕ} (hs : s.Settled d L)
    (h : Shard.evictWhileFull d fuel n s = .ok (n', s')) : ∃ L', s'.Settled d L' := by
  induction fuel generalizing s n L with
  | zero => cases h
  | succ fuel ih =>
    rw [Shard.evictWhileFull] at h
    split at h
    · simp only [bind_eq_ok] at h
      obtain ⟨⟨k, s1⟩, h1, h⟩ := h
      obtain ⟨L1, hs1⟩ := hs.evictOne hfit h1
      exact ih hs1 h
    · cases h
      exact ⟨L, hs⟩

theorem Settled.makeRoom (hfit : d.PagesFit) {n : ℕ} (hs : s.Settled d L)
    (h : s.makeRoom d n = .ok s') : ∃ L', s'.Settled d L' := by
  simp only [Shard.makeRoom, bind_eq_ok] at h
  obtain ⟨⟨k, s1⟩, h1, -, -, h⟩ := h
  cases h
  obtain ⟨L', hs1⟩ := hs.evictWhileFull hfit h1
  exact ⟨L', hs1.of_same (.consumeWriteCredit s1 k) (.refl _) rfl rfl rfl⟩

end Shard

end Virtkv
