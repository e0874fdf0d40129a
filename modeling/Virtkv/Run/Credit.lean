import Virtkv.Cache.Spend
import Virtkv.Command.Insert
import Virtkv.Command.Keep
import Virtkv.Run.Clean

/-!
# Write credits

A command collects credits for the grains it takes from free space. Some are subtracted from
the write credits at once, the others wait in `leftover_credits` for the next command. The
books balance when both together are the grains taken.

A store breaks the balance in three ways: the first page of a section and the page of a table
that grows are not paid for, and the rest of a stripe that is given up is added to the
left-over credits twice. All other steps balance.

## Main results

- `placeAt_books` — what a store takes, and what it adds to the left-over credits
- `balanced_of_runs` — runs of deletes, reads and steady stores balance
-/

namespace Virtkv

open Outcome

namespace TwoLevel

theorem pos_findInLeaf {m : PageWords} {i h n j : ℕ} (hne : (findInLeaf m i h n j).1 ≠ uintMax) :
    (findInLeaf m i h n j).2.getD uintMax ≠ uintMax := by
  induction n generalizing j with
  | zero => exact absurd rfl hne
  | succ n ih =>
    rw [findInLeaf] at hne ⊢
    split at hne
    · rename_i hj
      rw [if_pos hj, Option.getD_some, slotPos, uintMax]
      omega
    · rename_i hj
      rw [if_neg hj]
      split at hne
      · exact absurd rfl hne
      · rename_i hu
        rw [if_neg hu]
        exact ih hne

/-- An index that is mapped has a position. -/
theorem pos_twolevelFind {m : PageWords} {h : ℕ} (hne : (twolevelFind m h).1 ≠ uintMax) :
    (twolevelFind m h).2.getD uintMax ≠ uintMax := by
  rw [twolevelFind] at hne ⊢
  split at hne
  · exact absurd rfl hne
  · rename_i hi
    rw [if_neg hi]
    exact pos_findInLeaf hne

end TwoLevel

namespace Shard

variable {d : Device} {s s' t : Shard} {key : List UInt8} {lpa c total : ℕ}

/-! ### The balance -/

/-- Between the states the write credits, a 32-bit number, went down by as much as was taken
from free space and is not among the left-over credits. -/
def Balanced (d : Device) (s t : Shard) : Prop :=
  ∃ paid, (t.writeCredits + paid) % 2 ^ 32 = s.writeCredits % 2 ^ 32 ∧
    paid + t.leftoverCredits + s.flash.taken d = s.leftoverCredits + t.flash.taken d

theorem Balanced.refl (d : Device) (s : Shard) : Balanced d s s := ⟨0, rfl, by rw [Nat.zero_add]⟩

theorem Balanced.trans (h : Balanced d s s') (h' : Balanced d s' t) : Balanced d s t := by
  obtain ⟨paid, hp, htaken⟩ := h
  obtain ⟨paid', hp', htaken'⟩ := h'
  exact ⟨paid + paid', by omega, by omega⟩

/-! ### Stores that balance -/

/-- A slot with a pair that has another key. -/
def HoldsOther (d : Device) (s : Shard) (key : List UInt8) (total lpa : ℕ) : Prop :=
  (s.cache.hidxToGrain d lpa).1 ≠ uintMax ∧ ∃ mem, s.pairMem lpa = some mem ∧
    Compare.retrieveAndCompare d (s.cache.hidxToGrain d lpa).1 mem key total 0 false = .ok false

/-- The indices that a store of a pair of `total` bytes looks at, and their counts. -/
inductive Probes (d : Device) (s : Shard) (key : List UInt8) (total : ℕ) : ℕ → ℕ → Prop where
  | first {lpa c : ℕ} : d.getHashIdx (d.hash32 key) 0 = .ok (lpa, c) → Probes d s key total lpa c
  | next {lpa c lpa' c' : ℕ} : Probes d s key total lpa c → HoldsOther d s key total lpa →
    d.getHashIdx (d.hash32 key) (c + 1) = .ok (lpa', c') → Probes d s key total lpa' c'

/-- A store that finds all it needs: the sections it looks at have pages, the table has room for
the index if it is new, and the stripe has room for the pair. -/
structure Steady (d : Device) (s : Shard) (key : List UInt8) (total : ℕ) : Prop where
  page : ∀ lpa c, Probes d s key total lpa c → (s.sec (d.idx lpa)).tPpa ≠ uintMax
  room : ∀ lpa c, Probes d s key total lpa c → (s.cache.hidxToGrain d lpa).1 = uintMax →
    ¬Grows d s (d.idx lpa) (s.cache.hidxToGrain d lpa).2
  fits : Flash.enoughSpaceInLine d s.user.curPage (d.gOffset (s.user.offset / d.gu))
    (d.grainsOf total) = .ok true

/-- A mapped index has a position, so that its table does not grow. -/
theorem not_grows_of_mapped (h : (s.cache.hidxToGrain d lpa).1 ≠ uintMax) :
    ¬Grows d s (d.idx lpa) (s.cache.hidxToGrain d lpa).2 := by
  rintro ⟨hb, -, hpos⟩
  simp only [Cache.hidxToGrain, hb] at h hpos
  exact TwoLevel.pos_twolevelFind h hpos

theorem SameTable.grows_iff (h : SameTable s s') (i pos : ℕ) :
    Grows d s' i pos ↔ Grows d s i pos := by
  have htable : (s'.sec i).table = (s.sec i).table := h.secs.table i
  rw [Grows, Grows, htable]

/-- A store that meets its key at once, and has room for the new pair, is steady. -/
theorem steady_of_first {lpa₀ c₀ : ℕ} {mem : List UInt8}
    (hidx : d.getHashIdx (d.hash32 key) 0 = .ok (lpa₀, c₀))
    (hpage : (s.sec (d.idx lpa₀)).tPpa ≠ uintMax)
    (hgrain : (s.cache.hidxToGrain d lpa₀).1 ≠ uintMax) (hmem : s.pairMem lpa₀ = some mem)
    (hkey : Compare.retrieveAndCompare d (s.cache.hidxToGrain d lpa₀).1 mem key total 0 false =
      .ok true)
    (hfits : Flash.enoughSpaceInLine d s.user.curPage (d.gOffset (s.user.offset / d.gu))
      (d.grainsOf total) = .ok true) : Steady d s key total := by
  have honly : ∀ lpa c, Probes d s key total lpa c → lpa = lpa₀ := by
    intro lpa c hp
    induction hp with
    | first h =>
      rw [hidx] at h
      cases h
      rfl
    | next _ hother _ ih =>
      -- the first slot has the key, so there is no second one
      obtain ⟨-, mem', hmem', hno⟩ := hother
      rw [ih, hmem] at hmem'
      cases hmem'
      rw [ih, hkey] at hno
      cases hno
  refine ⟨fun lpa c hp => ?_, fun lpa c hp hnone => ?_, hfits⟩
  · rw [honly lpa c hp]
    exact hpage
  · rw [honly lpa c hp] at hnone
    exact absurd hnone hgrain

/-! ### The probe loop -/

theorem foundAt_eq_ok {grain : ℕ} {fault : Fault} {x : Found}
    (h : s.foundAt lpa grain fault = .ok x) : s.pairMem lpa = some x.mem ∧ x.grain = grain := by
  rw [foundAt] at h
  split at h
  · cases h
  · rename_i mem hmem
    cases h
    exact ⟨hmem, rfl⟩

/-- A steady store pays for the evictions on its way, and ends at a slot of a table that does
not grow. -/
theorem Steady.storeLoop {s₀ : Shard} (hfit : d.PagesFit) (hst : Steady d s₀ key total)
    {fuel cnt credits : ℕ} {sl : Slot} (h0 : s.flash.status 0 ≠ .free) (hm : s.MemOk)
    (hsame : SameTable s₀ s)
    (hprobe : ∀ lpa c, d.getHashIdx (d.hash32 key) cnt = .ok (lpa, c) → Probes d s₀ key total lpa c)
    (h : Shard.storeLoop d key total fuel cnt credits s = .ok (sl, s')) :
    (∃ k, Spends d s s' (credits + k) k) ∧ SameTable s₀ s' ∧ s'.MemOk ∧
      (s'.sec (d.idx sl.lpa)).tPpa ≠ uintMax ∧ ¬Grows d s' (d.idx sl.lpa) sl.pos := by
  induction fuel generalizing s cnt credits with
  | zero => cases h
  | succ fuel ih =>
    simp only [Shard.storeLoop, bind_eq_ok] at h
    obtain ⟨⟨lpa, c⟩, hidx, s1, h1, s2, h2, s3, h3, h⟩ := h
    have hp := hprobe lpa c hidx
    obtain ⟨k, hroom⟩ := spends_makeRoom h0 h1
    have hget := hroom.then_none (spends_getHt h2)
    have hsame2 := (hsame.trans (sameTable_makeRoom hfit hm h1)).trans (sameTable_getHt h2)
    have hm2 := (sameTable_getHt h2).memOk ((sameTable_makeRoom hfit hm h1).memOk hm)
    have hpage : (s2.sec (d.idx lpa)).tPpa ≠ uintMax :=
      fun hc => hst.page lpa c hp ((hsame2.secs.missing _).mp hc)
    rw [openSection, if_neg hpage] at h3
    have hload := sameTable_loadSection h3
    have hopen := hget.then_none (spends_loadSection h3)
    have hsame3 := hsame2.trans hload
    have hm3 := hload.memOk hm2
    have hpage3 : (s3.sec (d.idx lpa)).tPpa ≠ uintMax :=
      fun hc => hpage ((hload.secs.missing _).mp hc)
    have hidx3 := hsame3.hidxToGrain (d := d) lpa
    split at h
    · rename_i hgrain
      cases h
      refine ⟨⟨k, hopen⟩, hsame3, hm3, hpage3, ?_⟩
      rw [hidx3] at hgrain ⊢
      exact fun hg => hst.room lpa c hp hgrain ((hsame3.grows_iff _ _).mp hg)
    · rename_i hgrain
      simp only [bind_eq_ok] at h
      obtain ⟨x, hx, r, hr, h⟩ := h
      obtain ⟨hmem, hxg⟩ := foundAt_eq_ok hx
      simp only [matching, bind_eq_ok] at hr
      obtain ⟨eq, heq, hr⟩ := hr
      cases eq with
      | true =>
        cases hr
        cases h
        exact ⟨⟨k, hopen⟩, hsame3, hm3, hpage3, not_grows_of_mapped hgrain⟩
      | false =>
        cases hr
        -- the slot has another key: the loop goes on, with nothing left to pay
        have hother : HoldsOther d s₀ key total lpa := by
          rw [hxg, hidx3] at heq
          rw [hidx3] at hgrain
          rw [hsame3.pairMem] at hmem
          exact ⟨hgrain, x.mem, hmem, heq⟩
        have hunlock := hopen.then_none (spends_unlock s3 lpa)
        have hsame4 := sameTable_unlock (d := d) s3 lpa
        obtain ⟨⟨k', hrest⟩, hend⟩ := ih (hunlock.status h0)
          (hsame4.memOk hm3) (hsame3.trans hsame4)
          (fun lpa' c' hnext => .next hp hother hnext) h
        have hall := hunlock.trans hrest
        rw [Nat.zero_add, Nat.add_assoc] at hall
        exact ⟨⟨k + k', hall⟩, hend⟩

/-! ### Regular states -/

/-- What every command keeps: page 0 is not free, pairs start at grains, and sections in memory
have pages. -/
structure Regular (d : Device) (s : Shard) : Prop where
  status : s.flash.status 0 ≠ .free
  aligned : d.gu ∣ s.user.offset
  memOk : s.MemOk

theorem Regular.of_spends {paid n : ℕ} (hs : s.Regular d) (h : Spends d s s' paid n)
    (hm : s'.MemOk) : s'.Regular d :=
  ⟨h.status hs.status, by rw [h.user]; exact hs.aligned, hm⟩

theorem memOk_openSection (hfit : d.PagesFit) {i : ℕ} (hm : s.MemOk)
    (h : s.openSection d i = .ok s') : s'.MemOk ∧ (s'.sec i).tPpa ≠ uintMax := by
  by_cases hi : (s.sec i).tPpa = uintMax
  · obtain ⟨ppa, hppa, hsecs, -⟩ := openSection_new hi h
    have hself : (s'.sec i).tPpa ≠ uintMax := by
      rw [sec, hsecs, Function.update_self]
      exact Nat.ne_of_lt (Nat.lt_of_lt_of_le hppa hfit)
    refine ⟨fun j hj => ?_, hself⟩
    by_cases hji : j = i
    · rw [hji]
      exact hself
    · rw [sec, hsecs, Function.update_of_ne hji] at hj ⊢
      exact hm j hj
  · rw [openSection, if_neg hi] at h
    have hsame := sameTable_loadSection h
    exact ⟨hsame.memOk hm, fun hc => hi ((hsame.secs.missing _).mp hc)⟩

theorem memOk_updateMap (hfit : d.PagesFit) {ppa pos n : ℕ} {mem : Option (List UInt8)}
    {record : Bool} (hm : s.MemOk) (hi : (s.sec (d.idx lpa)).tPpa ≠ uintMax)
    (h : s.updateMap d lpa mem ppa pos record = .ok (n, s')) : s'.MemOk := by
  simp only [updateMap, bind_eq_ok] at h
  obtain ⟨-, -, h⟩ := h
  have hdirty := onlySec_markDirty s (d.idx lpa)
  split at h
  · cases h
    have hflat : OnlySec (s.markDirty (d.idx lpa)) ((s.markDirty (d.idx lpa)).setSec (d.idx lpa)
        { (s.markDirty (d.idx lpa)).sec (d.idx lpa) with
          table := { ((s.markDirty (d.idx lpa)).sec (d.idx lpa)).table with
            mem := Function.update ((s.markDirty (d.idx lpa)).sec (d.idx lpa)).table.mem
              (d.secOffset lpa) ppa } }) (d.idx lpa) := OnlySec.setSec rfl Iff.rfl
    exact (hdirty.trans hflat).memOk hm
  · obtain ⟨s1, ho, rfl, -⟩ := updateTwolevel_spec hfit (fun hc => hi (hdirty.missing.mp hc)) h
    exact (hdirty.trans ho).memOk hm

/-! ### Placing the pair -/

theorem spends_dropOld {old : Option Found} (h : s.dropOld d old = .ok s') :
    Spends d s s' 0 0 := by
  cases old with
  | none =>
    cases h
    exact .refl s
  | some x =>
    simp only [dropOld, bind_eq_ok] at h
    obtain ⟨f, hf, h⟩ := h
    cases h
    exact .setFlash (Flash.draws_markGrainInvalid hf)

/-- What a store takes for its pair, and what it adds to the left-over credits: the credits for
the stripe twice. -/
theorem placeAt_books {mem : List UInt8} {sl : Slot} {n : ℕ} (hs : s.Regular d)
    (h : s.placeAt d total mem sl = .ok (n, s')) :
    ∃ stripe more,
      (Flash.enoughSpaceInLine d s.user.curPage (d.gOffset (s.user.offset / d.gu))
        (d.grainsOf total) = .ok true → stripe = 0) ∧
      s'.writeCredits % 2 ^ 32 = s.writeCredits % 2 ^ 32 ∧
      s'.leftoverCredits = s.leftoverCredits + stripe + (stripe + more) ∧
      s'.flash.taken d = s.flash.taken d + (stripe + d.grainsOf total) +
        (more + if Grows d s (d.idx sl.lpa) sl.pos then d.gpp else 0) ∧
      s'.flash.status 0 ≠ .free ∧ d.gu ∣ s'.user.offset := by
  simp only [placeAt, bind_eq_ok] at h
  obtain ⟨s1, h1, ⟨grain, stripe, user, f⟩, hplace, ⟨more, s2⟩, hmap, h⟩ := h
  cases h
  have hdrop := spends_dropOld h1
  have hsame := sameTable_dropOld h1
  have hs1 := hs.of_spends hdrop (hsame.memOk hs.memOk)
  obtain ⟨hpair, haligned⟩ := Flash.placePair_spec hs1.status hs1.aligned hplace
  have hmap' := spends_updateMap (hpair.status hs1.status) hmap
  have hgrows : Grows d { s1 with
      flash := f, user := user, maxTry := max s1.maxTry sl.cnt
      leftoverCredits := s1.leftoverCredits + stripe } (d.idx sl.lpa) sl.pos ↔
      Grows d s (d.idx sl.lpa) sl.pos := hsame.grows_iff _ _
  simp only [hgrows] at hmap'
  refine ⟨stripe, more, fun hfits => ?_, ?_, ?_, ?_, hmap'.status (hpair.status hs1.status), ?_⟩
  · rw [← hdrop.user] at hfits
    exact Flash.placePair_of_fits hfits hplace
  · exact hmap'.writeCredits.trans hdrop.writeCredits
  -- the credits for the stripe are still in `credits` when it is added again
  · have hleft : s2.leftoverCredits = s1.leftoverCredits + stripe := hmap'.leftoverCredits
    show s2.leftoverCredits + stripe + more = _
    rw [hleft, hdrop.leftoverCredits, Nat.add_assoc]
  · have htaken : s2.flash.taken d = f.taken d + _ := hmap'.flash.taken
    show s2.flash.taken d = _
    rw [htaken, hpair.taken, hdrop.flash.taken]
    rfl
  · have huser : s2.user = user := hmap'.user
    show d.gu ∣ s2.user.offset
    rwa [huser]

/-- The probe loop of a store keeps a state regular, and ends at a section with a page. -/
theorem Regular.storeLoop (hfit : d.PagesFit) {fuel cnt credits : ℕ} {sl : Slot}
    (hs : s.Regular d) (h : Shard.storeLoop d key total fuel cnt credits s = .ok (sl, s')) :
    s'.Regular d ∧ (s'.sec (d.idx sl.lpa)).tPpa ≠ uintMax := by
  induction fuel generalizing s cnt credits with
  | zero => cases h
  | succ fuel ih =>
    simp only [Shard.storeLoop, bind_eq_ok] at h
    obtain ⟨⟨lpa, c⟩, -, s1, h1, s2, h2, s3, h3, h⟩ := h
    obtain ⟨k, hroom⟩ := spends_makeRoom hs.status h1
    have hs1 := hs.of_spends hroom ((sameTable_makeRoom hfit hs.memOk h1).memOk hs.memOk)
    have hs2 := hs1.of_spends (spends_getHt h2) ((sameTable_getHt h2).memOk hs1.memOk)
    obtain ⟨hm3, hpage⟩ := memOk_openSection hfit hs2.memOk h3
    have hs3 := hs2.of_spends (spends_openSection hs2.status h3) hm3
    split at h
    · cases h
      exact ⟨hs3, hpage⟩
    · simp only [bind_eq_ok] at h
      obtain ⟨x, -, r, -, h⟩ := h
      cases r with
      | some y =>
        cases h
        exact ⟨hs3, hpage⟩
      | none =>
        have hunlock := sameTable_unlock (d := d) s3 lpa
        exact ih (hs3.of_spends (spends_unlock s3 lpa) (hunlock.memOk hm3)) h

theorem memOk_placeAt (hfit : d.PagesFit) {mem : List UInt8} {sl : Slot} {n : ℕ} (hm : s.MemOk)
    (hpage : (s.sec (d.idx sl.lpa)).tPpa ≠ uintMax) (h : s.placeAt d total mem sl = .ok (n, s')) :
    s'.MemOk := by
  simp only [placeAt, bind_eq_ok] at h
  obtain ⟨s1, h1, ⟨grain, stripe, user, f⟩, -, ⟨more, s2⟩, hmap, h⟩ := h
  cases h
  have hsame := sameTable_dropOld h1
  have hm2 : s2.MemOk := by
    refine memOk_updateMap hfit ?_ ?_ hmap
    · exact hsame.memOk hm
    · exact fun hc => hpage ((hsame.secs.missing _).mp hc)
  exact hm2

/-! ### Commands -/

/-- Credits and append buffers do not matter to what a store finds. -/
theorem Steady.of_eq (h : Steady d s key total) (hc : s'.cache = s.cache)
    (hp : s'.pairMem = s.pairMem) (hu : s'.user = s.user) : Steady d s' key total := by
  have hprobes : ∀ lpa c, Probes d s' key total lpa c → Probes d s key total lpa c := by
    intro lpa c hprobe
    induction hprobe with
    | first hidx => exact .first hidx
    | next _ hother hidx ih =>
      rw [HoldsOther, hc, hp] at hother
      exact .next ih hother hidx
  refine ⟨fun lpa c hprobe => ?_, fun lpa c hprobe hgrain => ?_, hu ▸ h.fits⟩
  · rw [sec, hc]
    exact h.page lpa c (hprobes lpa c hprobe)
  · rw [hc] at hgrain ⊢
    rw [Grows, sec, hc]
    exact h.room lpa c (hprobes lpa c hprobe) hgrain

theorem storeMapping_balanced (hfit : d.PagesFit) {vlen : ℕ} {junk : ℕ → UInt8} (hs : s.Regular d)
    (h : s.storeMapping d key vlen junk = .ok (lpa, s')) :
    s'.Regular d ∧ (Steady d s key (PairMem.metaSz key.length + vlen) → Balanced d s s') := by
  simp only [storeMapping, bind_eq_ok] at h
  obtain ⟨s1, h1, -, -, ⟨sl, s2⟩, hloop, s3, h3, h⟩ := h
  cases h
  obtain ⟨b, rfl⟩ := dropAppendBuf_eq h1
  simp only [storeAt, bind_eq_ok] at h3
  obtain ⟨mem, -, ⟨n, s4⟩, hplace, h3⟩ := h3
  cases h3
  have hs1 : Regular d { s with appendBufs := b, leftoverCredits := 0 } :=
    ⟨hs.status, hs.aligned, hs.memOk⟩
  obtain ⟨hs2, hpage⟩ := hs1.storeLoop hfit hloop
  obtain ⟨stripe, more, hstripe, hwc, hleft, htaken, hstatus, haligned⟩ := placeAt_books hs2 hplace
  refine ⟨⟨hstatus, haligned, memOk_placeAt hfit hs2.memOk hpage hplace⟩, fun hst => ?_⟩
  have hst1 : Steady d { s with appendBufs := b, leftoverCredits := 0 } key
      (PairMem.metaSz key.length + vlen) := hst.of_eq rfl rfl rfl
  obtain ⟨⟨k, hpaid⟩, -, -, -, hgrows⟩ := hst1.storeLoop hfit hs1.status hs1.memOk (.refl _)
    (fun lpa c hidx => .first hidx) hloop
  -- a steady store gives up no stripe
  have hzero : stripe = 0 := by
    refine hstripe ?_
    rw [hpaid.user]
    exact hst.fits
  have hwc2 := hpaid.writeCredits
  have htaken2 : s2.flash.taken d = s.flash.taken d + k := hpaid.flash.taken
  have hleft2 : s2.leftoverCredits = 0 := hpaid.leftoverCredits
  rw [if_neg hgrows, hzero] at htaken
  rw [hzero] at hleft
  refine ⟨d.grainsOf (PairMem.metaSz key.length + vlen) + s.leftoverCredits + k, ?_, ?_⟩
  · show (s4.writeCredits + _) % 2 ^ 32 = s.writeCredits % 2 ^ 32
    rw [← hwc2, Nat.add_mod, hwc, ← Nat.add_mod]
  · show _ + s4.leftoverCredits + _ = _ + s4.flash.taken d
    omega

/-- What is behind the mapping of a store spends and takes nothing. -/
theorem store_balanced (hfit : d.PagesFit) {value : List UInt8} {junk : ℕ → UInt8}
    (hs : s.Regular d) (h : s.store d key value junk = .ok s') :
    s'.Regular d ∧
      (Steady d s key (PairMem.metaSz key.length + value.length) → Balanced d s s') := by
  simp only [store, bind_eq_ok] at h
  obtain ⟨⟨lpa, s1⟩, h1, s2, h2, h3⟩ := h
  obtain ⟨hs1, hbal⟩ := storeMapping_balanced hfit hs h1
  rw [copyValue] at h2
  split at h2
  · cases h2
  simp only [bind_eq_ok] at h2
  obtain ⟨mem, -, h2⟩ := h2
  cases h2
  rw [releaseMap_eq h3]
  have hm : ((s1.setPair lpa (some mem)).unlock d lpa).MemOk :=
    (sameTable_unlock (s1.setPair lpa (some mem)) lpa).memOk hs1.memOk
  exact ⟨⟨hs1.status, hs1.aligned, hm⟩, hbal⟩

/-- Reads and deletes look for the key, and neither spend nor take anything on the way. -/
theorem retrieveLoop_spends {vlen rOffset : ℕ} {forDel : Bool} {fuel cnt : ℕ} {hit : Hit}
    (h : retrieveLoop d key vlen rOffset forDel fuel cnt s = .ok (hit, s')) :
    Spends d s s' 0 0 ∧ SameTable s s' ∧ ∀ lpa pos x, hit = .slot lpa pos x →
      (s'.sec (d.idx lpa)).tPpa ≠ uintMax ∧ ¬Grows d s' (d.idx lpa) pos := by
  induction fuel generalizing s cnt with
  | zero => cases h
  | succ fuel ih =>
    simp only [retrieveLoop, bind_eq_ok] at h
    obtain ⟨⟨lpa, c⟩, -, s1, h1, h⟩ := h
    have hget := spends_getHt h1
    have hsame1 := sameTable_getHt h1
    split at h
    · cases h
      exact ⟨hget, hsame1, fun _ _ _ hc => by cases hc⟩
    split at h
    · -- a section without a page holds no pair, and the probe goes on
      obtain ⟨hrest, hsame, hend⟩ := ih h
      have hunlock := sameTable_unlock (d := d) s1 lpa
      exact ⟨(hget.then_none (spends_unlock s1 lpa)).trans hrest,
        (hsame1.trans hunlock).trans hsame, hend⟩
    rename_i hpage
    simp only [bind_eq_ok] at h
    obtain ⟨s2, h2, h⟩ := h
    have hload := hget.then_none (spends_loadSection h2)
    have hsame2 := hsame1.trans (sameTable_loadSection h2)
    have hunlock := sameTable_unlock (d := d) s2 lpa
    split at h
    · cases h
      exact ⟨hload.then_none (spends_unlock s2 lpa), hsame2.trans hunlock,
        fun _ _ _ hc => by cases hc⟩
    rename_i hgrain
    simp only [bind_eq_ok] at h
    obtain ⟨r, -, h⟩ := h
    cases r with
    | none =>
      obtain ⟨hrest, hsame, hend⟩ := ih h
      exact ⟨(hload.then_none (spends_unlock s2 lpa)).trans hrest,
        (hsame2.trans hunlock).trans hsame, hend⟩
    | some x =>
      cases h
      refine ⟨hload, hsame2, fun lpa' pos x' hc => ?_⟩
      cases hc
      exact ⟨fun hc => hpage (((sameTable_loadSection h2).secs.missing _).mp hc),
        not_grows_of_mapped hgrain⟩

/-- A full delete takes the grains of the page the log may be flushed to. -/
theorem deletePair_spends (hfit : d.PagesFit) {pos n : ℕ} {x : Found} (hs : s.Regular d)
    (hpage : (s.sec (d.idx lpa)).tPpa ≠ uintMax) (hgrows : ¬Grows d s (d.idx lpa) pos)
    (h : s.deletePair d lpa pos x = .ok (n, s')) : Spends d s s' 0 n ∧ s'.MemOk := by
  simp only [deletePair, bind_eq_ok] at h
  obtain ⟨f, hf, h⟩ := h
  have hmark : Spends d s (s.setFlash f) 0 0 := .setFlash (Flash.draws_markGrainInvalid hf)
  have hmap := spends_updateMap (hmark.status hs.status) h
  have hsame := SameTable.setFlash s f
  rw [if_neg fun hg => hgrows ((hsame.grows_iff _ _).mp hg)] at hmap
  exact ⟨hmark.none_then hmap, memOk_updateMap hfit (hsame.memOk hs.memOk) hpage h⟩

/-- The delete of a part of a pair takes the grains of the page the log may be flushed to. -/
theorem deletePart_spends {off vlen n : ℕ} {x : Found} (hs : s.Regular d)
    (h : s.deletePart d lpa off vlen x = .ok (n, s')) : Spends d s s' 0 n ∧ s'.MemOk := by
  simp only [deletePart, bind_eq_ok] at h
  obtain ⟨p, -, g, -, f, hf, h⟩ := h
  have hdraws := Flash.draws_markGrainInvalid hf
  have hmark : Spends d s (s.setFlash f) 0 0 := .setFlash hdraws
  split at h
  · cases h
    exact ⟨hmark, (SameTable.setFlash s f).memOk hs.memOk⟩
  · simp only [bind_eq_ok] at h
    obtain ⟨⟨credits, f', log⟩, hrec, h⟩ := h
    cases h
    have hrecord := Flash.draws_recordInvMapping (hmark.status hs.status) hrec
    have hset : Spends d (s.setFlash f) (((s.setFlash f).setFlash f').setLog log) 0 credits :=
      ⟨rfl, hrecord, rfl, rfl, rfl⟩
    have hsame : SameTable s ((s.setFlash f').setLog log) := ⟨Cache.SameSecs.refl _, rfl, rfl, rfl⟩
    exact ⟨hmark.none_then hset, hsame.memOk hs.memOk⟩

/-- A delete takes the grains of the page the log may be flushed to, and its credits are the
left-over ones. -/
theorem deleteAt_spends (hfit : d.PagesFit) {pos vlen rOffset n : ℕ} {x : Found}
    (hs : s.Regular d) (hpage : (s.sec (d.idx lpa)).tPpa ≠ uintMax)
    (hgrows : ¬Grows d s (d.idx lpa) pos)
    (h : s.deleteAt d lpa pos vlen rOffset x = .ok (n, s')) : Spends d s s' 0 n ∧ s'.MemOk := by
  simp only [deleteAt, bind_eq_ok] at h
  obtain ⟨klen, -, h⟩ := h
  split at h
  · exact deletePair_spends hfit hs hpage hgrows h
  · exact deletePart_spends hs h

/-- The left-over credits are spent, with those for the evictions; what else is taken is left
over. -/
theorem Balanced.of_spends {k n : ℕ}
    (h : Spends d { s with leftoverCredits := 0 } s' (s.leftoverCredits + k) (k + n))
    (hw : t.writeCredits = s'.writeCredits) (hf : t.flash = s'.flash) (hl : t.leftoverCredits = n) :
    Balanced d s t := by
  have htaken : s'.flash.taken d = s.flash.taken d + (k + n) := h.flash.taken
  refine ⟨s.leftoverCredits + k, hw ▸ h.writeCredits, ?_⟩
  rw [hf, hl, htaken]
  omega

/-- A read or a delete in the table. -/
theorem retrieveFromTable_balanced (hfit : d.PagesFit) {vlen rOffset : ℕ} {forDel : Bool}
    {r : Reply} (hs : s.Regular d)
    (h : s.retrieveFromTable d key vlen rOffset forDel = .ok (r, s')) :
    s'.Regular d ∧ Balanced d s s' := by
  simp only [retrieveFromTable, beginRetrieve, bind_eq_ok] at h
  obtain ⟨s1, h1, ⟨hit, s2⟩, h2, h⟩ := h
  have hs0 : Regular d { s with leftoverCredits := 0 } := ⟨hs.status, hs.aligned, hs.memOk⟩
  have hsame1 := sameTable_makeRoom hfit hs0.memOk h1
  obtain ⟨k, hroom⟩ := spends_makeRoom hs0.status h1
  obtain ⟨hloop, hsame2, hend⟩ := retrieveLoop_spends h2
  have hall := hroom.then_none hloop
  have hs2 := hs0.of_spends hall ((hsame1.trans hsame2).memOk hs.memOk)
  -- the head of the command spent what was left over
  have hleft : s2.leftoverCredits = 0 := hall.leftoverCredits
  have hunlock : ∀ (u : Shard) (lpa : ℕ), u.Regular d → (u.unlock d lpa).Regular d := by
    intro u lpa hu
    exact hu.of_spends (spends_unlock u lpa) ((sameTable_unlock u lpa).memOk hu.memOk)
  cases hit with
  | miss held =>
    cases held with
    | none =>
      cases h
      exact ⟨hs2, .of_spends (n := 0) hall rfl rfl hleft⟩
    | some lpa =>
      simp only [bind_eq_ok] at h
      obtain ⟨s3, h3, h⟩ := h
      cases h
      rw [releaseMap_eq h3]
      exact ⟨hunlock _ _ hs2, .of_spends (n := 0) hall rfl rfl hleft⟩
  | slot lpa pos x =>
    obtain ⟨hpage, hgrows⟩ := hend lpa pos x rfl
    cases forDel with
    | true =>
      simp only [if_true, bind_eq_ok] at h
      obtain ⟨⟨n, s3⟩, h3, s4, h4, h⟩ := h
      cases h
      rw [releaseMap_eq h4]
      obtain ⟨hpair, hm⟩ := deleteAt_spends hfit hs2 hpage hgrows h3
      have hs3 : Regular d { s3 with leftoverCredits := s3.leftoverCredits + n } :=
        ⟨hpair.status hs2.status, (hs2.of_spends hpair hm).aligned, hm⟩
      refine ⟨hunlock _ _ hs3, .of_spends (hall.trans hpair) rfl rfl ?_⟩
      show s3.leftoverCredits + n = n
      rw [hpair.leftoverCredits, hleft, Nat.zero_add]
    | false =>
      simp only [Bool.false_eq_true, if_false, bind_eq_ok] at h
      obtain ⟨r', -, s3, h3, h⟩ := h
      cases h
      rw [releaseMap_eq h3]
      exact ⟨hunlock _ _ hs2, .of_spends (n := 0) hall rfl rfl hleft⟩

theorem retrieve_balanced (hfit : d.PagesFit) {vlen rOffset : ℕ} {forDel : Bool}
    {r : Reply} (hs : s.Regular d)
    (h : s.retrieve d key vlen rOffset forDel = .ok (r, s')) : s'.Regular d ∧ Balanced d s s' := by
  simp only [retrieve, bind_eq_ok] at h
  obtain ⟨-, -, -, -, h⟩ := h
  split at h
  · simp only [bind_eq_ok] at h
    obtain ⟨s1, h1, h⟩ := h
    obtain ⟨b, rfl⟩ := touchBuf_eq h1
    obtain ⟨b', rfl⟩ := retrieveFromBuf_eq h
    exact ⟨⟨hs.status, hs.aligned, hs.memOk⟩, ⟨0, rfl, by rw [Nat.zero_add]⟩⟩
  · exact retrieveFromTable_balanced hfit hs h

theorem regular_init (h : Shard.init d = .ok s) : s.Regular d := by
  simp only [Shard.init, bind_eq_ok] at h
  obtain ⟨f, hf, h⟩ := h
  cases h
  refine ⟨?_, ⟨0, rfl⟩, fun i hi => by cases hi⟩
  simp only [Flash.init, bind_eq_ok, ensure_eq_ok] at hf
  obtain ⟨f1, -, f2, -, f3, -, f4, -, ⟨p, pgidx, f5⟩, h5, -, hzero, h6⟩ := hf
  refine (Flash.draws_discardFrom h6).status ?_
  -- the first page that is handed out is page 0
  simp only [Flash.takePage, Flash.markPageValid, bind_eq_ok, ensure_eq_ok] at h5
  obtain ⟨k, hk, g, -, g', ⟨k', hk', -, -, hg⟩, h5⟩ := h5
  cases h5
  cases hg
  rw [hk] at hk'
  cases hk'
  change pgidx = 0 at hzero
  show (Function.update g.status pgidx _) 0 ≠ _
  rw [hzero, Function.update_self]
  decide

end Shard

/-- A command of the host that does not append. -/
def Op.Command : Op → Prop
  | .store _ _ _ => True
  | .retrieve _ _ _ => True
  | .delete _ _ _ => True
  | .append _ _ _ => False
  | .evict => False
  | .gc => False

/-- A store is steady. -/
def Op.Steady (d : Device) (s : Shard) : Op → Prop
  | .store key value _ => Shard.Steady d s key (PairMem.metaSz key.length + value.length)
  | _ => True

theorem Shard.Regular.run {d : Device} {s s' : Shard} {op : Op} (hfit : d.PagesFit)
    (hs : s.Regular d) (hop : op.Command) (h : op.run d s = .ok s') :
    s'.Regular d ∧ (op.Steady d s → Shard.Balanced d s s') := by
  cases op with
  | store key value junk => exact Shard.store_balanced hfit hs h
  | retrieve key vlen rOffset =>
    simp only [Op.run, bind_eq_ok] at h
    obtain ⟨⟨r, s1⟩, h1, h⟩ := h
    cases h
    obtain ⟨hreg, hbal⟩ := Shard.retrieve_balanced hfit hs h1
    exact ⟨hreg, fun _ => hbal⟩
  | delete key vlen rOffset =>
    simp only [Op.run, bind_eq_ok] at h
    obtain ⟨⟨r, s1⟩, h1, h⟩ := h
    cases h
    obtain ⟨hreg, hbal⟩ := Shard.retrieve_balanced hfit hs h1
    exact ⟨hreg, fun _ => hbal⟩
  | append key data junk => cases hop
  | evict => cases hop
  | gc => cases hop

/-- Write credits balance: from any state that stores, reads and deletes lead to, in every run of
reads, deletes and steady stores. -/
theorem balanced_of_runs (d : Device) (hfit : d.PagesFit) (s₀ s t : Shard)
    (hinit : Shard.init d = .ok s₀) (hs : Runs d (fun _ op => op.Command) s₀ s)
    (ht : Runs d (fun u op => op.Command ∧ op.Steady d u) s t) : Shard.Balanced d s t := by
  have hreg : s.Regular d := hs.invariant (Shard.regular_init hinit)
    fun u v op hu hop hrun => (hu.run hfit hop hrun).1
  have hall : t.Regular d ∧ Shard.Balanced d s t := by
    refine ht.invariant (P := fun v => v.Regular d ∧ Shard.Balanced d s v) ⟨hreg, .refl d s⟩
      fun u v op hu hop hrun => ?_
    obtain ⟨hv, hbal⟩ := hu.1.run hfit hop.1 hrun
    exact ⟨hv, hu.2.trans (hbal hop.2)⟩
  exact hall.2

/-- A fresh stripe with a pair of the first key in its section. -/
def twoStores : List Op := [.store [1] [5] fun _ => 0, .store [2] [6] fun _ => 0]

theorem pagesFit_smallDevice : smallDevice.PagesFit := by
  rw [Device.PagesFit]
  decide

/-- The section of the first key has a page, its slot has its pair, and there is room for another
pair. -/
def readyToOverwrite (s : Shard) : Bool :=
  match s.pairMem 1102, s.store smallDevice [1] [7] fun _ => 0 with
  | some mem, .ok _ => decide
    ((s.sec (smallDevice.idx 1102)).tPpa ≠ uintMax ∧
      (s.cache.hidxToGrain smallDevice 1102).1 ≠ uintMax ∧
      Compare.retrieveAndCompare smallDevice (s.cache.hidxToGrain smallDevice 1102).1 mem [1]
        (PairMem.metaSz 1 + 1) 0 false = .ok true ∧
      Flash.enoughSpaceInLine smallDevice s.user.curPage
        (smallDevice.gOffset (s.user.offset / smallDevice.gu))
        (smallDevice.grainsOf (PairMem.metaSz 1 + 1)) = .ok true)
  | _, _ => false

/-- The pair of the first key is overwritten, with room for the new one. -/
theorem balanced_of_runs_overwrite :
    ∃ s₀ s t, Shard.init smallDevice = .ok s₀ ∧ runOps smallDevice twoStores s₀ = .ok s ∧
      (s.store smallDevice [1] [7] fun _ => 0) = .ok t ∧ Shard.Balanced smallDevice s t := by
  obtain ⟨s₀, s, hs, hrun, hp⟩ := exists_of_endsWith smallDevice twoStores readyToOverwrite
    (by decide +kernel)
  have hruns : Runs smallDevice (fun _ op => op.Command) s₀ s := by
    refine Runs.start.runOps (fun op hop _ => ?_) hrun
    simp only [twoStores, List.mem_cons, List.not_mem_nil, or_false] at hop
    rcases hop with rfl | rfl <;> trivial
  rw [readyToOverwrite] at hp
  split at hp
  · rename_i mem t hmem hstore
    obtain ⟨hpage, hgrain, hkey, hfits⟩ := of_decide_eq_true hp
    have hidx : smallDevice.getHashIdx (smallDevice.hash32 [1]) 0 = .ok (1102, 0) := by decide
    have hsteady : Op.Steady smallDevice s (.store [1] [7] fun _ => 0) :=
      Shard.steady_of_first hidx hpage hgrain hmem hkey hfits
    have hstep : Op.run smallDevice s (.store [1] [7] fun _ => 0) = .ok t := hstore
    have hok : (Op.store [1] [7] fun _ => 0).Command ∧
        Op.Steady smallDevice s (.store [1] [7] fun _ => 0) := ⟨trivial, hsteady⟩
    exact ⟨s₀, s, t, hs, hrun, hstore, balanced_of_runs smallDevice pagesFit_smallDevice s₀ s t hs
      hruns (Runs.start.step hok hstep)⟩
  · cases hp

/-- The first store takes the first page of a section, and does not pay for it. -/
theorem not_balanced_firstStore :
    ¬∀ (d : Device), d.PagesFit → ∀ s₀ t : Shard, Shard.init d = .ok s₀ →
      Runs d (fun _ op => op.Command) s₀ t → Shard.Balanced d s₀ t := by
  intro hall
  obtain ⟨s₀, t, hs, hrun, hp⟩ := exists_of_endsWith smallDevice [.store [1] [5] fun _ => 0]
    (fun u => decide (u.writeCredits = 31 ∧ u.leftoverCredits = 0 ∧ u.flash.taken smallDevice = 17))
    (by decide +kernel)
  obtain ⟨hwc, hleft, htaken⟩ := of_decide_eq_true hp
  have hinit : s₀.writeCredits = 32 ∧ s₀.leftoverCredits = 0 ∧ s₀.flash.taken smallDevice = 8 := by
    obtain ⟨s₁, s₂, hs₁, hs₂, hp'⟩ := exists_of_endsWith smallDevice []
      (fun u => decide
        (u.writeCredits = 32 ∧ u.leftoverCredits = 0 ∧ u.flash.taken smallDevice = 8))
      (by decide +kernel)
    rw [hs] at hs₁
    cases hs₁
    cases hs₂
    exact of_decide_eq_true hp'
  have hruns : Runs smallDevice (fun _ op => op.Command) s₀ t := by
    refine Runs.start.runOps (fun op hop _ => ?_) hrun
    rw [List.mem_singleton] at hop
    rw [hop]
    trivial
  obtain ⟨paid, hpaid, hbooks⟩ := hall smallDevice pagesFit_smallDevice s₀ t hs hruns
  obtain ⟨hwc₀, hleft₀, htaken₀⟩ := hinit
  omega

end Virtkv
