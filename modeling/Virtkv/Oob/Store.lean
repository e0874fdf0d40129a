import Virtkv.Append.Invariant
import Virtkv.Oob.Update
import Virtkv.Run.KeyValue

/-!
# Commands keep the words

A store puts its pair where nothing has a holder and then points its slot there, with
memory that is long enough for the grains. A delete and a read write no word of a pair.
-/

namespace Virtkv

open Outcome OpenAddressing

/-! ### Memory for a pair -/

theorem Device.le_grainsOf_mul (d : Device) (bytes : ℕ) : bytes ≤ d.grainsOf bytes * d.gu := by
  have hpos := d.gu_pos
  have hmod := Nat.mod_lt (bytes + d.gu - 1) hpos
  have hdiv := Nat.div_add_mod (bytes + d.gu - 1) d.gu
  rw [Nat.mul_comm] at hdiv
  unfold grainsOf
  omega

namespace Shard

open Flash

variable {d : Device} {L L' : Grains} {s s' : Shard} {key : Bytes} {lpa : ℕ}

/-- The memory of a pair is long enough for the grains of this pair, and no other. -/
theorem MemFor.grains {n : ℕ} {p : Pair} (h : MemFor d n (PairMem.bytes key p))
    (hk : key.length ≤ maxKlen) (hv : p.value.length < 2 ^ 32) :
    n = d.grainsOf (PairMem.metaSz key.length + p.value.length) ∧
      n * d.gu ≤ (PairMem.bytes key p).length := by
  obtain ⟨key', p', heq, hk', hv', hn, hle⟩ := h
  have hparse := congrArg PairMem.parse heq
  rw [PairMem.parse_bytes hk hv, PairMem.parse_bytes hk' hv'] at hparse
  cases hparse
  exact ⟨hn, hle⟩

/-- A header with enough memory behind it is a pair. -/
theorem memFor_header {vlen : ℕ} {tail : Bytes} (hk : key.length ≤ maxKlen) (hv : vlen < 2 ^ 32)
    (hlen : d.grainsOf (PairMem.metaSz key.length + vlen) * d.gu ≤
      (PairMem.header key vlen ++ tail).length) :
    ∃ p, PairMem.header key vlen ++ tail = PairMem.bytes key p ∧ p.value.length = vlen ∧
      MemFor d (d.grainsOf (PairMem.metaSz key.length + vlen))
        (PairMem.header key vlen ++ tail) := by
  have hle := hlen
  rw [List.length_append, PairMem.length_header] at hle
  have hroom := (d.le_grainsOf_mul (PairMem.metaSz key.length + vlen)).trans hle
  have htake : (tail.take vlen).length = vlen := by
    rw [List.length_take]
    omega
  have heq : PairMem.header key vlen ++ tail =
      PairMem.bytes key { value := tail.take vlen, rest := tail.drop vlen } := by
    rw [PairMem.bytes, htake, List.take_append_drop]
  exact ⟨_, heq, htake, key, _, heq, hk, by rw [htake]; exact hv, by rw [htake], hlen⟩

/-- The memory of a store. -/
theorem pairMemory_memFor {vlen : ℕ} {junk : ℕ → UInt8} {old : Option Found} {mem : Bytes}
    (hk : key.length ≤ maxKlen) (hv : vlen < 2 ^ 32)
    (hold : ∀ x, old = some x → (∃ p, x.mem = PairMem.bytes key p) ∧
      x.glen * d.gu ≤ x.mem.length)
    (h : pairMemory d key vlen (d.grainsOf (PairMem.metaSz key.length + vlen)) junk old = .ok mem) :
    ∃ p, mem = PairMem.bytes key p ∧ p.value.length = vlen ∧
      MemFor d (d.grainsOf (PairMem.metaSz key.length + vlen)) mem := by
  set n := d.grainsOf (PairMem.metaSz key.length + vlen) with hn
  have hlen : n * d.gu ≤ mem.length := by
    cases old with
    | none =>
      rw [pairMemory] at h
      rw [PairMem.length_write h, freshBytes, List.length_map, List.length_range]
    | some x =>
      obtain ⟨-, hx⟩ := hold x rfl
      rw [pairMemory] at h
      split at h
      · rename_i heq
        rw [PairMem.length_write h, ← heq]
        exact hx
      split at h
      · rename_i hlt
        simp only [bind_eq_ok] at h
        obtain ⟨mem1, h1, h2⟩ := h
        rw [PairMem.length_write h2, PairMem.length_write h1]
        exact (Nat.mul_le_mul_right _ hlt.le).trans hx
      · rw [PairMem.length_write h, List.length_replicate]
  obtain ⟨tail, rfl⟩ : ∃ tail, mem = PairMem.header key vlen ++ tail := by
    cases old with
    | none => exact ⟨_, pairMemory_none h⟩
    | some x =>
      obtain ⟨⟨p, hp⟩, -⟩ := hold x rfl
      exact ⟨_, pairMemory_some hp h⟩
  exact memFor_header hk hv hlen

/-! ### The probe loops -/

theorem Settled.getHt (hs : s.Settled d L) (h : s.getHt d lpa = .ok s') : s'.Settled d L := by
  have hsame := sameTable_getHt h
  simp only [Shard.getHt, Cache.getHt, bind_eq_ok] at h
  obtain ⟨c, hc, h⟩ := h
  cases h
  exact hs.of_same hsame (Cache.samePlaces_lock hc) rfl rfl rfl

theorem Settled.unlock (hs : s.Settled d L) (lpa : ℕ) : (s.unlock d lpa).Settled d L :=
  hs.of_same (sameTable_unlock s lpa) (Cache.samePlaces_unlock _ _) rfl rfl rfl

theorem Settled.setLeftover (hs : s.Settled d L) (n : ℕ) :
    Settled d { s with leftoverCredits := n } L :=
  hs.of_same ⟨Cache.SameSecs.refl _, rfl, rfl, rfl⟩ (.refl _) rfl rfl rfl

theorem Settled.storeLoop (hfit : d.Fits) {total fuel cnt credits : ℕ} {sl : Slot}
    (hs : s.Settled d L) (h : Shard.storeLoop d key total fuel cnt credits s = .ok (sl, s')) :
    ∃ L', s'.Settled d L' := by
  induction fuel generalizing s cnt credits L with
  | zero => cases h
  | succ fuel ih =>
    simp only [Shard.storeLoop, bind_eq_ok] at h
    obtain ⟨⟨lpa, c⟩, hidx, s1, h1, s2, h2, s3, h3, h⟩ := h
    obtain ⟨L1, hs1⟩ := hs.makeRoom hfit.pagesFit h1
    have hsec : d.SecFits (d.idx lpa) := by
      rw [(Device.getHashIdx_eq_ok hidx).slot]
      exact hfit.secFits _ _
    obtain ⟨L3, hs3⟩ := (hs1.getHt h2).openSection hfit.pagesFit hsec h3
    split at h
    · cases h
      exact ⟨L3, hs3⟩
    · simp only [bind_eq_ok] at h
      obtain ⟨x, -, r, -, h⟩ := h
      cases r with
      | some y =>
        cases h
        exact ⟨L3, hs3⟩
      | none => exact ih (hs3.unlock lpa) h

/-- The probe loop of `__retrieve` moves nothing. -/
theorem Settled.retrieveLoop {vlen rOffset fuel cnt : ℕ} {forDel : Bool} {hit : Hit}
    (hs : s.Settled d L)
    (h : Shard.retrieveLoop d key vlen rOffset forDel fuel cnt s = .ok (hit, s')) :
    s'.Settled d L := by
  induction fuel generalizing s cnt with
  | zero => cases h
  | succ fuel ih =>
    simp only [Shard.retrieveLoop, bind_eq_ok] at h
    obtain ⟨⟨lpa, c⟩, -, s1, h1, h⟩ := h
    have hs1 := hs.getHt h1
    split at h
    · cases h
      exact hs1
    split at h
    · exact ih (hs1.unlock lpa) h
    · simp only [bind_eq_ok] at h
      obtain ⟨s2, h2, h⟩ := h
      have hs2 := hs1.loadSection h2
      split at h
      · cases h
        exact hs2.unlock lpa
      · simp only [bind_eq_ok] at h
        obtain ⟨r, -, h⟩ := h
        cases r with
        | none => exact ih (hs2.unlock lpa) h
        | some x =>
          cases h
          exact hs2

/-! ### Placing the pair -/

theorem dropOld_frame {old : Option Found} (h : s.dropOld d old = .ok s') :
    Uses .map s.flash s'.flash ∧ s'.cache = s.cache ∧ s'.user = s.user ∧ s'.log = s.log := by
  cases old with
  | none =>
    cases h
    exact ⟨.refl _ _, rfl, rfl, rfl⟩
  | some x =>
    simp only [dropOld, bind_eq_ok] at h
    obtain ⟨f, hf, h⟩ := h
    cases h
    exact ⟨uses_markGrainInvalid hf, rfl, rfl, rfl⟩

/-- Valid marks do not matter to the words. -/
theorem Settled.of_uses (hs : s.Settled d L) (hu : Uses .map s.flash s'.flash)
    (hsame : SameTable s s') (hc : s'.cache = s.cache) (huser : s'.user = s.user)
    (hlog : s'.log = s.log) : s'.Settled d L := by
  have haside := hu.aside (d := d) user_ne_map L
  refine ⟨hs.named.aside haside hsame huser (hs.named.secs.carries haside.carries ?_)
    (hs.named.log.carries haside.carries hlog), hu.taken _ hs.status, hsame.memOk hs.memOk⟩
  rw [hc]
  exact .refl _

/-- A pair goes to flash. No slot points to it yet. -/
theorem Settled.placePair (hg : d.geo.Wide) {total grain stripe m c : ℕ} {user : UserPos}
    {f : Flash} (hs : s.Settled d L) (hpos : 0 < total) (hle : total ≤ 63 * pageSize)
    (h : s.flash.placePair d s.user lpa total = .ok (grain, stripe, user, f)) :
    ∃ L' l x, grain = d.grainAt l x ∧ f.PairAt d L' lpa l x (d.grainsOf total) ∧
      Settled d { s with flash := f, user := user, maxTry := m, leftoverCredits := c } L' := by
  obtain ⟨l, r, off, hat⟩ := hs.named.writer
  obtain ⟨l', x, hgrain, hput⟩ := placePair_places hg hat hs.named.placed hs.named.user hpos hle h
  set t : Shard := { s with flash := f, user := user, maxTry := m, leftoverCredits := c } with ht
  have hcarry : Carries d s.flash t.flash L _ := hput.carries
  -- the tables do not depend on `max_try`
  have hsame : SameTable s { t with maxTry := s.maxTry } := ⟨Cache.SameSecs.refl _, rfl, rfl, rfl⟩
  have hpairs : PairsAt d { t with maxTry := s.maxTry } _ := hs.named.pairs.carries hcarry hsame
  exact ⟨_, l', x, hgrain, hput.pair,
    ⟨⟨hput.placed, hput.writer, hput.opened, hpairs, hs.named.secs.carries hcarry (.refl _),
      hs.named.log.carries hcarry rfl⟩, hcarry.taken _ hs.status, hs.memOk⟩⟩

/-- The pair of a store goes to flash and into its slot. -/
theorem Settled.placeAt (hg : d.geo.Wide) (hfit : d.Fits) {mem : Bytes} {total n : ℕ} {sl : Slot}
    (hs : s.Settled d L) (hok : s.TableOk d) (hsl : SlotSpec d s key sl) (hpos : 0 < total)
    (hle : total ≤ 63 * pageSize) (hmem : MemFor d (d.grainsOf total) mem)
    (h : s.placeAt d total mem sl = .ok (n, s')) :
    (∃ L', s'.Settled d L') ∧ s'.pairMem sl.lpa = some mem := by
  simp only [Shard.placeAt, bind_eq_ok] at h
  obtain ⟨s1, h1, ⟨grain, stripe, user, f⟩, hplace, ⟨more, s2⟩, hmap, h⟩ := h
  cases h
  have hsame1 := sameTable_dropOld h1
  obtain ⟨hu, hc1, huser1, hlog1⟩ := dropOld_frame h1
  have hs1 := hs.of_uses hu hsame1 hc1 huser1 hlog1
  set t : Shard := { s1 with
    flash := f, user := user, maxTry := max s1.maxTry sl.cnt
    leftoverCredits := s1.leftoverCredits + stripe } with ht
  obtain ⟨L1, l, x, hgrain, hpair, hst⟩ : ∃ L1 l x, grain = d.grainAt l x ∧
      f.PairAt d L1 sl.lpa l x (d.grainsOf total) ∧ t.Settled d L1 :=
    hs1.placePair hg hpos hle hplace
  have hsame : SameTable s1 { t with maxTry := s1.maxTry } := ⟨Cache.SameSecs.refl _, rfl, rfl, rfl⟩
  have hokt : t.TableOk d := by
    have hok' := (hsame1.trans hsame).tableOk hok
    exact ⟨hok'.memOk, hok'.pair, hok'.refines⟩
  have hidx : t.cache.hidxToGrain d sl.lpa = s.cache.hidxToGrain d sl.lpa := by
    show s1.cache.hidxToGrain d sl.lpa = _
    rw [hc1]
  have hpage : (t.sec (d.idx sl.lpa)).tPpa ≠ uintMax := by
    show (s1.cache.secs _).tPpa ≠ _
    rw [hc1]
    exact hsl.page
  have hsec : d.SecFits (d.idx sl.lpa) := by
    rw [hsl.slot]
    exact hfit.secFits _ _
  have hne : grain ≠ uintMax := Nat.ne_of_lt (Device.Fits.grain_lt hfit (placePair_gIdx_lt hplace))
  rw [hsl.pos, ← hidx] at hmap
  obtain ⟨L', hend⟩ := hst.updateMap hfit.pagesFit hsec hokt hpage (fun hc => absurd hc hne)
    (fun _ => ⟨l, x, _, mem, hgrain, hpair, rfl, hmem⟩) hmap
  have hputs := puts_updateMap hfit.pagesFit hsec hokt hpage (fun hc => absurd hc hne) hmap
  refine ⟨⟨L', hend.of_same ⟨Cache.SameSecs.refl _, rfl, rfl, rfl⟩ (.refl _) rfl rfl rfl⟩, ?_⟩
  show s2.pairMem sl.lpa = some mem
  rw [hputs.pairMem, Function.update_self]

/-- The pair a store overwrites, with the memory it has. -/
theorem Settled.old_memory (hfit : d.Fits) (hs : s.Settled d L) (hok : s.TableOk d) {sl : Slot}
    (hsl : SlotSpec d s key sl) (x : Found) (hx : sl.old = some x) :
    (∃ p, x.mem = PairMem.bytes key p) ∧ x.glen * d.gu ≤ x.mem.length := by
  rcases hsl.old with ⟨hnone, -⟩ | ⟨p, hcell, hsome⟩
  · rw [hnone] at hx
    cases hx
  rw [hsome] at hx
  cases hx
  obtain ⟨hm, hmem, -⟩ := hok.mapped_of_full hcell
  -- the memory is as long as the word on flash says
  obtain ⟨l, y, n, mem, hgrain, hpair, hmem', key', p', -, -, -, -, hle⟩ := hs.named.pairs _ hm
  rw [hmem] at hmem'
  cases hmem'
  have hsec : d.SecFits (d.idx sl.lpa) := by
    rw [hsl.slot]
    exact hfit.secFits _ _
  have hlt : sl.lpa < uintMax := hsec.lt rfl
  have hglen : (s.foundPair d sl.lpa key p).glen = n := by
    show s.flash.oob _ / 2 ^ 32 = n
    have hmax : uintMax = 2 ^ 32 - 1 := rfl
    rw [hgrain, hpair.head]
    omega
  refine ⟨⟨p, rfl⟩, ?_⟩
  rw [hglen]
  exact hle

theorem Settled.storeMapping (hg : d.geo.Wide) (hfit : d.Fits) {vlen : ℕ} {junk : ℕ → UInt8}
    (hs : s.Settled d L) (hok : s.TableOk d)
    (hle : PairMem.metaSz key.length + vlen ≤ 63 * pageSize)
    (h : s.storeMapping d key vlen junk = .ok (lpa, s')) :
    (∃ L', s'.Settled d L') ∧ key.length ≤ maxKlen ∧
      ∃ p, s'.pairMem lpa = some (PairMem.bytes key p) ∧ p.value.length = vlen := by
  simp only [Shard.storeMapping, storeAt, bind_eq_ok, ensure_eq_ok] at h
  obtain ⟨sb, hdrop, -, hk, ⟨sl, s0⟩, hloop, s2, ⟨mem, hmem, ⟨credits, s3⟩, hat, h2⟩, h⟩ := h
  cases h2
  cases h
  obtain ⟨b, rfl⟩ := dropAppendBuf_eq hdrop
  have hpage : pageSize = 4096 := rfl
  have hstart : Settled d { s with appendBufs := b, leftoverCredits := 0 } L :=
    ⟨⟨hs.named.placed, hs.named.writer, hs.named.user, hs.named.pairs, hs.named.secs,
      hs.named.log⟩, hs.status, hs.memOk⟩
  have hokb : TableOk d { s with appendBufs := b, leftoverCredits := 0 } :=
    ⟨hok.memOk, hok.pair, hok.refines⟩
  obtain ⟨L0, hs0⟩ := hstart.storeLoop hfit hloop
  obtain ⟨hopens, hsl⟩ := storeLoop_spec hfit hokb (fun i hi => absurd hi (Nat.not_lt_zero i)) hloop
  have hok0 := hopens.tableOk hokb
  obtain ⟨p, rfl, hp, hfor⟩ := pairMemory_memFor hk (by omega) (hs0.old_memory hfit hok0 hsl) hmem
  have hpos : 0 < PairMem.metaSz key.length + vlen := by
    rw [PairMem.metaSz, klenMarkerSz]
    omega
  obtain ⟨hend, hmem'⟩ := hs0.placeAt hg hfit hok0 hsl hpos hle hfor hat
  exact ⟨hend, hk, p, hmem', hp⟩

/-- The copy of the value does not change the length of the memory. -/
theorem Settled.copyValue {value : Bytes} {p : Pair} (hs : s.Settled d L)
    (hk : key.length ≤ maxKlen) (hv : value.length < 2 ^ 32)
    (hmem : s.pairMem lpa = some (PairMem.bytes key p)) (hp : p.value.length = value.length)
    (h : s.copyValue lpa key value = .ok s') : s'.Settled d L := by
  simp only [Shard.copyValue, hmem, bind_eq_ok] at h
  obtain ⟨mem', hw, h⟩ := h
  cases h
  have hmem' : mem' = PairMem.bytes key { value := value, rest := p.rest } := by
    rw [PairMem.bytes, ← PairMem.length_header key p.value.length] at hw
    rw [PairMem.write_append hp hw, PairMem.bytes, hp]
  have hlen := PairMem.length_write hw
  refine ⟨⟨hs.named.placed, hs.named.writer, hs.named.user, fun j hm => ?_, hs.named.secs,
    hs.named.log⟩, hs.status, hs.memOk⟩
  obtain ⟨l, x, n, mem, hgrain, hpair, hmemj, hfor⟩ := hs.named.pairs j hm
  by_cases hj : j = lpa
  · subst hj
    rw [hmem] at hmemj
    cases hmemj
    obtain ⟨hn, hle⟩ := hfor.grains hk (by rw [hp]; exact hv)
    refine ⟨l, x, n, mem', hgrain, hpair, Function.update_self .., key, _, hmem', hk, hv, ?_, ?_⟩
    · rw [hn, hp]
    · rw [hlen]
      exact hle
  · exact ⟨l, x, n, mem, hgrain, hpair, (Function.update_of_ne hj _ _).trans hmemj, hfor⟩

theorem Settled.store (hg : d.geo.Wide) (hfit : d.Fits) {value : Bytes} {junk : ℕ → UInt8}
    (hs : s.Settled d L) (hok : s.TableOk d)
    (hle : PairMem.metaSz key.length + value.length ≤ 63 * pageSize)
    (h : s.store d key value junk = .ok s') : ∃ L', s'.Settled d L' := by
  simp only [Shard.store, bind_eq_ok] at h
  obtain ⟨⟨lpa, s1⟩, hmap, s2, hcopy, h⟩ := h
  obtain rfl := releaseMap_eq h
  obtain ⟨⟨L', hs1⟩, hk, p, hmem, hp⟩ := hs.storeMapping hg hfit hok hle hmap
  have hpage : pageSize = 4096 := rfl
  exact ⟨L', (hs1.copyValue hk (by omega) hmem hp hcopy).unlock lpa⟩

/-! ### Reads and deletes -/

theorem Settled.beginRetrieve (hfit : d.PagesFit) (hs : s.Settled d L)
    (h : s.beginRetrieve d = .ok s') : ∃ L', s'.Settled d L' := by
  rw [Shard.beginRetrieve] at h
  exact (hs.setLeftover 0).makeRoom hfit h

theorem Settled.read (hfit : d.PagesFit) {vlen rOffset : ℕ} {r : Reply} (hs : s.Settled d L)
    (h : s.retrieveFromTable d key vlen rOffset false = .ok (r, s')) : ∃ L', s'.Settled d L' := by
  simp only [retrieveFromTable, bind_eq_ok] at h
  obtain ⟨s1, h1, ⟨hit, s2⟩, h2, h⟩ := h
  obtain ⟨L1, hs1⟩ := hs.beginRetrieve hfit h1
  have hs2 := hs1.retrieveLoop h2
  cases hit with
  | miss held =>
    cases held with
    | none =>
      cases h
      exact ⟨L1, hs2⟩
    | some lpa =>
      simp only [bind_eq_ok] at h
      obtain ⟨s3, h3, h⟩ := h
      cases h
      obtain rfl := releaseMap_eq h3
      exact ⟨L1, hs2.unlock lpa⟩
  | slot lpa pos x =>
    simp only [Bool.false_eq_true, if_false, bind_eq_ok] at h
    obtain ⟨y, -, s3, h3, h⟩ := h
    cases h
    obtain rfl := releaseMap_eq h3
    exact ⟨L1, hs2.unlock lpa⟩

/-- The delete of a whole pair. -/
theorem Settled.deletePair (hfit : d.Fits) {pos n : ℕ} {x : Found} {p : Pair} (hs : s.Settled d L)
    (hok : s.TableOk d) (hsec : d.SecFits (d.idx lpa)) (hcell : s.cell d lpa = .full key p)
    (hpos : pos = (s.cache.hidxToGrain d lpa).2)
    (h : s.deletePair d lpa pos x = .ok (n, s')) : ∃ L', s'.Settled d L' := by
  simp only [Shard.deletePair, bind_eq_ok] at h
  obtain ⟨f, hf, hmap⟩ := h
  have hset : SameTable s (s.setFlash f) := SameTable.setFlash s f
  have hok1 := hset.tableOk hok
  have hu : Uses .map s.flash f := uses_markGrainInvalid hf
  have hs1 : (s.setFlash f).Settled d L := hs.of_uses hu hset rfl rfl rfl
  rw [← hset.cell_eq] at hcell
  obtain ⟨hmapped, -⟩ := hok1.mapped_of_full hcell
  rw [hpos, ← hset.hidxToGrain] at hmap
  exact hs1.updateMap hfit.pagesFit hsec hok1 hmapped.1 (fun _ => hmapped.2)
    (fun hc => absurd rfl hc) hmap

/-- The delete of a part of a pair. -/
theorem Settled.deletePart {off vlen n : ℕ} {x : Found} (hs : s.Settled d L)
    (h : s.deletePart d lpa off vlen x = .ok (n, s')) : ∃ L', s'.Settled d L' := by
  simp only [Shard.deletePart, bind_eq_ok] at h
  obtain ⟨p, -, g, -, f, hf, h⟩ := h
  have hu : Uses .map s.flash f := uses_markGrainInvalid hf
  have hs1 : (s.setFlash f).Settled d L := hs.of_uses hu (SameTable.setFlash s f) rfl rfl rfl
  split at h
  · cases h
    exact ⟨L, hs1⟩
  · simp only [bind_eq_ok] at h
    obtain ⟨⟨credits, f', log⟩, hrec, h⟩ := h
    cases h
    obtain ⟨L', hmove⟩ := relocates_recordInvMapping hs1.named.placed hs1.named.secs
      hs1.named.log hrec
    have hsame : SameTable (s.setFlash f) (((s.setFlash f).setFlash f').setLog log) :=
      ⟨Cache.SameSecs.refl _, rfl, rfl, rfl⟩
    exact ⟨L', hs1.named.aside hmove.aside hsame hmove.user hmove.secs hmove.log,
      hmove.aside.carries.taken _ hs1.status, hsame.memOk hs1.memOk⟩

theorem Settled.delete (hfit : d.Fits) (hidx : d.Indexed) {vlen rOffset : ℕ} {r : Reply}
    (hs : s.Settled d L) (hsane : s.Sane d)
    (h : s.retrieveFromTable d key vlen rOffset true = .ok (r, s')) :
    ∃ L', s'.Settled d L' := by
  simp only [retrieveFromTable, bind_eq_ok] at h
  obtain ⟨s1, h1, ⟨hit, s2⟩, h2, h⟩ := h
  obtain ⟨L1, hs1⟩ := hs.beginRetrieve hfit.pagesFit h1
  obtain ⟨hsame1, hk1⟩ := sameTable_beginRetrieve hfit.pagesFit hsane h1
  have hy := (hsane.of_keeps hsame1 hk1).lookup_yields hfit hidx key vlen rOffset true
  rw [h2] at hy
  obtain ⟨hsame2, -, hspec⟩ := hy
  have hs2 := hs1.retrieveLoop h2
  cases hit with
  | miss held =>
    cases held with
    | none =>
      cases h
      exact ⟨L1, hs2⟩
    | some lpa =>
      simp only [bind_eq_ok] at h
      obtain ⟨s3, h3, h⟩ := h
      cases h
      obtain rfl := releaseMap_eq h3
      exact ⟨L1, hs2.unlock lpa⟩
  | slot lpa pos x =>
    obtain ⟨c, p, hfound, hlpa, hpos, -, -⟩ := hspec
    simp only [if_true, deleteAt, bind_eq_ok] at h
    obtain ⟨⟨credits, s4⟩, ⟨klen, -, hdel⟩, s6, hrel, h⟩ := h
    cases h
    obtain ⟨L', hs4⟩ : ∃ L', s4.Settled d L' := by
      split at hdel
      · have hsame := hsame1.trans hsame2
        have hcell : s2.cell d lpa = .full key p := by
          rw [hsame2.cell_eq, hlpa]
          exact hfound.cell
        have hsec : d.SecFits (d.idx lpa) := by
          rw [hlpa]
          exact hfit.secFits _ _
        exact hs2.deletePair hfit (hsame.tableOk hsane.tableOk) hsec hcell
          (by rw [hpos, hsame2.hidxToGrain]) hdel
      · exact hs2.deletePart hdel
    obtain rfl := releaseMap_eq hrel
    exact ⟨L', (hs4.setLeftover (s4.leftoverCredits + credits)).unlock lpa⟩

end Shard

end Virtkv
