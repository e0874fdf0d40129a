import Virtkv.Command.Keep

/-!
# Storing a pair

A store that returns inserts its pair into the open-addressed table: at the key's own
slot if the probe loop meets it, else at the first slot that is free.
-/

namespace Virtkv

open Outcome OpenAddressing

/-! ### Writing pair memory -/

namespace PairMem

theorem write_eq_ok {mem mem' src : Bytes} {off : ℕ} (h : write mem off src = .ok mem') :
    off + src.length ≤ mem.length ∧
      mem' = mem.take off ++ (src ++ mem.drop (off + src.length)) := by
  simp only [write, bind_eq_ok, ensure_eq_ok] at h
  obtain ⟨-, hle, h⟩ := h
  cases h
  exact ⟨hle, List.append_assoc _ _ _⟩

/-- A write behind `pre` replaces as many bytes as it has. -/
theorem write_append {pre old src post mem' : Bytes} (hlen : old.length = src.length)
    (h : write (pre ++ (old ++ post)) pre.length src = .ok mem') :
    mem' = pre ++ (src ++ post) := by
  rw [(write_eq_ok h).2, List.take_left, ← hlen, ← List.drop_drop, List.drop_left, List.drop_left]

theorem write_zero {mem mem' src : Bytes} (h : write mem 0 src = .ok mem') :
    mem' = src ++ mem.drop src.length := by
  rw [(write_eq_ok h).2, List.take_zero, List.nil_append, Nat.zero_add]

theorem header_eq (k : Bytes) (vlen : ℕ) :
    header k vlen = UInt8.ofNat k.length :: k ++ le32 vlen := by
  simp [header]

/-- The bytes that lie behind the header before the value is copied. -/
def tailOf (d : Device) (klen glen : ℕ) (junk : ℕ → UInt8) : Option (Shard.Found × Pair) → Bytes
  | some (x, p) =>
    if x.glen = glen then p.value ++ p.rest
    else if glen < x.glen then
      (List.replicate (x.glen * d.gu) 0 ++ x.mem.drop (x.glen * d.gu)).drop (metaSz klen)
    else (List.replicate (glen * d.gu) 0).drop (metaSz klen)
  | none => (freshBytes junk (glen * d.gu)).drop (metaSz klen)

end PairMem

namespace Shard

variable {d : Device} {s s' : Shard}

/-- The memory of a store starts with its header. -/
theorem pairMemory_none {key mem : Bytes} {vlen glen : ℕ} {junk : ℕ → UInt8}
    (h : pairMemory d key vlen glen junk none = .ok mem) :
    mem = PairMem.header key vlen ++ PairMem.tailOf d key.length glen junk none := by
  rw [PairMem.write_zero h, PairMem.length_header]
  rfl

theorem pairMemory_some {key mem : Bytes} {vlen glen : ℕ} {junk : ℕ → UInt8} {x : Found}
    {p : Pair} (hx : x.mem = PairMem.bytes key p)
    (h : pairMemory d key vlen glen junk (some x) = .ok mem) :
    mem = PairMem.header key vlen ++ PairMem.tailOf d key.length glen junk (some (x, p)) := by
  unfold pairMemory at h
  unfold PairMem.tailOf
  dsimp only at h ⊢
  split at h
  · rename_i heq
    rw [if_pos heq]
    rw [hx, PairMem.bytes, PairMem.header_eq, List.append_assoc] at h
    have hlen : klenMarkerSz + key.length = (UInt8.ofNat key.length :: key).length := by
      rw [List.length_cons, klenMarkerSz, Nat.add_comm]
    rw [hlen] at h
    rw [PairMem.write_append (PairMem.length_le32 _) h, PairMem.header_eq, List.append_assoc]
  · rename_i hne
    rw [if_neg hne]
    split at h
    · rename_i hlt
      simp only [bind_eq_ok] at h
      obtain ⟨mem1, h1, h2⟩ := h
      have hz := PairMem.write_zero h1
      rw [List.length_replicate] at hz
      rw [if_pos hlt, PairMem.write_zero h2, PairMem.length_header, hz]
    · rename_i hge
      rw [if_neg hge, PairMem.write_zero h, PairMem.length_header]

/-! ### The probe loop of `__store` -/

theorem matching_eq_ok {x : Found} {k key : Bytes} {p : Pair} {readLen readOffset : ℕ}
    {forDel : Bool} {r : Option Found} (hk : k.length ≤ maxKlen) (hx : x.mem = PairMem.bytes k p)
    (h : matching d x key readLen readOffset forDel = .ok r) :
    r = if k = key then some x else none := by
  simp only [matching, Compare.retrieveAndCompare, hx, Compare.keyMatches_bytes hk, bind_eq_ok,
    ok_bind] at h
  obtain ⟨eq, ⟨q, -, heq⟩, h⟩ := h
  cases h
  by_cases hkk : k = key
  · simp only [hkk, decide_true, not_true_eq_false, if_false] at heq
    split at heq
    · cases heq
      simp [hkk]
    · simp only [bind_eq_ok] at heq
      obtain ⟨-, -, heq⟩ := heq
      cases heq
      simp [hkk]
  · simp only [hkk, decide_false, Bool.false_eq_true, not_false_eq_true, if_true] at heq
    cases heq
    simp [hkk]

theorem sameTable_getHt {lpa : ℕ} (h : s.getHt d lpa = .ok s') : SameTable s s' := by
  simp only [getHt, Cache.getHt, bind_eq_ok] at h
  obtain ⟨c, hc, h⟩ := h
  cases h
  exact SameTable.setCache (Cache.sameSecs_lock hc)

/-- The slot the probe loop of a store ends at. -/
structure SlotSpec (d : Device) (s : Shard) (key : Bytes) (sl : Slot) : Prop where
  usable : d.scheme.usable key sl.cnt
  slot : sl.lpa = d.scheme.slot key sl.cnt
  page : (s.sec (d.idx sl.lpa)).tPpa ≠ uintMax
  pos : sl.pos = (s.cache.hidxToGrain d sl.lpa).2
  before : Before d.scheme (Cell.Other key) (s.tab d) key sl.cnt
  old : (sl.old = none ∧ s.cell d sl.lpa = .empty) ∨
    ∃ p, s.cell d sl.lpa = .full key p ∧ sl.old = some (s.foundPair d sl.lpa key p)

/-- The probe loop of `__store` opens sections on its way and ends at the first slot that
is free or holds the key. -/
theorem storeLoop_spec (hfit : d.Fits) {key : Bytes} {total fuel cnt credits : ℕ} {sl : Slot}
    (hok : s.TableOk d) (hb : Before d.scheme (Cell.Other key) (s.tab d) key cnt)
    (h : storeLoop d key total fuel cnt credits s = .ok (sl, s')) :
    Opens d s s' ∧ SlotSpec d s' key sl := by
  induction fuel generalizing s cnt credits with
  | zero => cases h
  | succ fuel ih =>
    simp only [storeLoop, bind_eq_ok] at h
    obtain ⟨⟨lpa, c⟩, hidx, s1, h1, s2, h2, s3, h3, h⟩ := h
    have hnext := Device.getHashIdx_eq_ok hidx
    have hs2 := (sameTable_makeRoom hfit.pagesFit hok.memOk h1).trans (sameTable_getHt h2)
    have hsec : d.SecFits (d.idx lpa) := by
      rw [hnext.slot]
      exact hfit.secFits _ _
    obtain ⟨ho3, hpage⟩ := opens_openSection hfit.pagesFit hsec h3
    have ho := (Opens.of_sameTable (d := d) hs2).trans ho3
    have hok3 := ho.tableOk hok
    have hb3 : Before d.scheme (Cell.Other key) (s3.tab d) key c :=
      fun i hi hu => ho.other_iff.mpr (hnext.before hb i hi hu)
    split at h
    · rename_i hgrain
      cases h
      exact ⟨ho, ⟨hnext.usable, hnext.slot, hpage, rfl, hb3, .inl ⟨rfl, cell_empty hpage hgrain⟩⟩⟩
    · rename_i hgrain
      obtain ⟨k, p, hcell, hmem, hk, -⟩ := hok3.cell_full ⟨hpage, hgrain⟩
      simp only [foundAt, hmem, bind_eq_ok] at h
      obtain ⟨x, hx, r, hr, h⟩ := h
      cases hx
      have hr' := matching_eq_ok hk rfl hr
      by_cases hkk : k = key
      · subst hkk
        rw [if_pos rfl] at hr'
        subst hr'
        cases h
        exact ⟨ho, ⟨hnext.usable, hnext.slot, hpage, rfl, hb3, .inr ⟨p, hcell, rfl⟩⟩⟩
      · rw [if_neg hkk] at hr'
        subst hr'
        have hs4 : Opens d s3 (s3.unlock d lpa) := .of_sameTable (sameTable_unlock s3 lpa)
        have hother : (s3.cell d lpa).Other key := by
          rw [hcell]
          exact hkk
        have hb4 : Before d.scheme (Cell.Other key) ((s3.unlock d lpa).tab d) key (c + 1) :=
          fun i hi hu => by
            refine hs4.other_iff.mpr ?_
            rcases Nat.lt_succ_iff_lt_or_eq.mp hi with hlt | rfl
            · exact hb3 i hlt hu
            · rw [← hnext.slot]
              exact hother
        obtain ⟨ho5, hsl⟩ := ih (hs4.tableOk hok3) hb4 h
        exact ⟨(ho.trans hs4).trans ho5, hsl⟩

/-! ### Placing and mapping the pair -/

/-- A placed pair starts on a page. -/
theorem placePair_gIdx_lt {f f' : Flash} {u u' : UserPos} {lpa bytes grain credits : ℕ}
    (h : f.placePair d u lpa bytes = .ok (grain, credits, u', f')) :
    d.gIdx grain < d.geo.ttPgs := by
  simp only [Flash.placePair, bind_eq_ok] at h
  obtain ⟨⟨n, u1, f1⟩, -, ⟨u2, f2⟩, -, ⟨u3, f3⟩, hw, f4, -, h⟩ := h
  cases h
  simp only [Flash.writeLoop, Flash.markGrainValid, Geometry.ppaToStruct, bind_eq_ok,
    ensure_eq_ok] at hw
  obtain ⟨-, ⟨-, ⟨-, hlt, -⟩, -⟩, -⟩ := hw
  exact hlt

theorem Device.Fits.grain_lt (hfit : d.Fits) {grain : ℕ} (h : d.gIdx grain < d.geo.ttPgs) :
    grain < uintMax := by
  have hmul := hfit.ttPgs_mul
  have hmax : uintMax = 2 ^ 32 - 1 := rfl
  have hlt : grain < d.geo.ttPgs * d.gpp := Nat.lt_mul_of_div_lt h d.gpp_pos
  omega

theorem sameTable_dropOld {old : Option Found} (h : s.dropOld d old = .ok s') :
    SameTable s s' := by
  unfold dropOld at h
  split at h
  · cases h
    exact SameTable.refl _
  · simp only [bind_eq_ok] at h
    obtain ⟨f, -, h⟩ := h
    cases h
    exact SameTable.setFlash s f

theorem secs_dropOld {old : Option Found} (h : s.dropOld d old = .ok s') :
    s'.cache.secs = s.cache.secs := by
  unfold dropOld at h
  split at h
  · cases h
    rfl
  · simp only [bind_eq_ok] at h
    obtain ⟨f, -, h⟩ := h
    cases h
    rfl

namespace Puts

variable {lpa ppa : ℕ} {mem : Option Bytes}

theorem mapped_iff (h : Puts d s s' lpa mem ppa) {j : ℕ} (hj : j ≠ lpa) :
    s'.Mapped d j ↔ s.Mapped d j := by
  unfold Mapped
  rw [h.others j hj]
  exact and_congr_left' (not_congr (h.missing _))

theorem cell_of_ne (h : Puts d s s' lpa mem ppa) {j : ℕ} (hj : j ≠ lpa) :
    s'.cell d j = s.cell d j := by
  unfold cell
  rw [h.others j hj, h.pairMem, Function.update_of_ne hj]
  exact if_congr (h.missing _) rfl rfl

/-- A slot with a grain shows the pair in its memory. -/
theorem cell_self {k : Bytes} {p : Pair} (h : Puts d s s' lpa (some (PairMem.bytes k p)) ppa)
    (hpage : (s.sec (d.idx lpa)).tPpa ≠ uintMax) (hp : ppa ≠ uintMax)
    (hk : k.length ≤ maxKlen) (hv : p.value.length < 2 ^ 32) : s'.cell d lpa = .full k p := by
  unfold cell
  rw [if_neg (fun hc => hpage ((h.missing _).mp hc)), if_neg (by rwa [h.grain]), h.pairMem,
    Function.update_self]
  simp only [PairMem.parse_bytes hk hv]

theorem tableOk (h : Puts d s s' lpa mem ppa) (hok : s.TableOk d)
    (hmem : ppa ≠ uintMax → ∃ k p, mem = some (PairMem.bytes k p) ∧ k.length ≤ maxKlen ∧
      p.value.length < 2 ^ 32) : s'.TableOk d where
  memOk := h.memOk hok.memOk
  pair j hm := by
    rw [h.pairMem]
    by_cases hj : j = lpa
    · subst hj
      rw [Function.update_self]
      have hp := hm.2
      rw [h.grain] at hp
      exact hmem hp
    · rw [Function.update_of_ne hj]
      exact hok.pair j ((h.mapped_iff hj).mp hm)
  refines := h.refines

end Puts

/-- The state before the mapping of a store is updated shows the same table, with a higher
probe limit. -/
structure Raises (d : Device) (s s' : Shard) (c : ℕ) : Prop where
  cell : ∀ lpa, s'.cell d lpa = s.cell d lpa
  maxTry : s'.maxTry = max s.maxTry c
  tableOk : s.TableOk d → s'.TableOk d
  secs : s'.cache.secs = s.cache.secs
  appendBufs : s'.appendBufs = s.appendBufs

/-- The slot is mapped to the pair that is placed. -/
theorem placeAt_spec (hfit : d.Fits) {key mem : Bytes} {total credits' : ℕ} {sl : Slot}
    (hok : s.TableOk d) (hsl : SlotSpec d s key sl)
    (h : s.placeAt d total mem sl = .ok (credits', s')) :
    ∃ s1 grain, Raises d s s1 sl.cnt ∧ (s1.sec (d.idx sl.lpa)).tPpa ≠ uintMax ∧
      d.gIdx grain < d.geo.ttPgs ∧ Puts d s1 s' sl.lpa (some mem) grain ∧ Keeps d s1 s' := by
  simp only [placeAt, bind_eq_ok] at h
  obtain ⟨s1, h1, ⟨grain, credits, user, f⟩, hplace, ⟨more, s2⟩, hmap, h⟩ := h
  cases h
  have hs1 := sameTable_dropOld h1
  have hg := placePair_gIdx_lt hplace
  set s1' : Shard := { s1 with
    flash := f, user := user, maxTry := max s1.maxTry sl.cnt
    leftoverCredits := s1.leftoverCredits + credits } with hs1'
  have hsame : SameTable s1 { s1' with maxTry := s1.maxTry } :=
    ⟨Cache.SameSecs.refl _, rfl, rfl, rfl⟩
  have hraise : Raises d s s1' sl.cnt := by
    have hsecs : s1.cache.secs = s.cache.secs := secs_dropOld h1
    refine ⟨fun lpa => (hs1.trans hsame).cell_eq lpa, ?_, fun hok => ?_, hsecs, hs1.appendBufs⟩
    · rw [← hs1.maxTry]
    · have hok' := (hs1.trans hsame).tableOk hok
      exact ⟨hok'.memOk, hok'.pair, hok'.refines⟩
  have hgrain : s1'.cache.hidxToGrain d sl.lpa = s.cache.hidxToGrain d sl.lpa :=
    (hs1.trans hsame).hidxToGrain sl.lpa
  have hpage : (s1'.sec (d.idx sl.lpa)).tPpa ≠ uintMax :=
    fun hc => hsl.page (((hs1.trans hsame).secs.missing _).mp hc)
  have hsec : d.SecFits (d.idx sl.lpa) := by
    rw [hsl.slot]
    exact hfit.secFits _ _
  rw [hsl.pos, ← hgrain] at hmap
  have hput := puts_updateMap hfit.pagesFit hsec (hraise.tableOk hok) hpage
    (fun hp => absurd hp (Nat.ne_of_lt (Device.Fits.grain_lt hfit hg))) hmap
  exact ⟨s1', grain, hraise, hpage, hg,
    ⟨hput.grain, hput.others, hput.missing, hput.pairMem, hput.maxTry, hput.appendBufs, hput.memOk,
      hput.refines⟩, (keeps_updateMap hpage hmap).trans (.of_secs rfl)⟩

/-! ### The whole store -/

/-- The table does not depend on the append buffers. -/
theorem TableOk.withBufs (hok : s.TableOk d) (b : AppendBufs) :
    TableOk d { s with appendBufs := b } := ⟨hok.memOk, hok.pair, hok.refines⟩

/-- How a store gets to its slot and maps it to memory `mem`. -/
structure StoreSteps (d : Device) (s s' : Shard) (key : Bytes) (sl : Slot) (mem : Bytes)
    (grain : ℕ) (s0 s1 : Shard) : Prop where
  opens : Opens d s s0
  slot : SlotSpec d s0 key sl
  raises : Raises d s0 s1 sl.cnt
  page : (s1.sec (d.idx sl.lpa)).tPpa ≠ uintMax
  onPage : d.gIdx grain < d.geo.ttPgs
  puts : Puts d s1 s' sl.lpa (some mem) grain
  keeps : Keeps d s1 s'

/-- From the probe loop to the slot. -/
theorem steps_of_placeAt (hfit : d.Fits) {key mem : Bytes} {readLen credits total credits' : ℕ}
    {sl : Slot} {s0 : Shard} (hok : s.TableOk d)
    (hloop : storeLoop d key readLen (2 ^ 32) 0 credits { s with leftoverCredits := 0 } =
      .ok (sl, s0)) (h : s0.placeAt d total mem sl = .ok (credits', s')) :
    ∃ grain s1, StoreSteps d s s' key sl mem grain s0 s1 := by
  have hsame : SameTable s { s with leftoverCredits := 0 } :=
    ⟨Cache.SameSecs.refl _, rfl, rfl, rfl⟩
  obtain ⟨ho, hsl⟩ := storeLoop_spec hfit (hsame.tableOk hok)
    (fun i hi => absurd hi (Nat.not_lt_zero i)) hloop
  have ho' := (Opens.of_sameTable (d := d) hsame).trans ho
  obtain ⟨s1, grain, hraise, hpage, hg, hput, hkeep⟩ := placeAt_spec hfit (ho'.tableOk hok) hsl h
  exact ⟨grain, s1, ho', hsl, hraise, hpage, hg, hput, hkeep⟩

theorem storeMapping_spec (hfit : d.Fits) {key : Bytes} {vlen lpa : ℕ} {junk : ℕ → UInt8}
    (hok : s.TableOk d) (h : s.storeMapping d key vlen junk = .ok (lpa, s')) :
    key.length ≤ maxKlen ∧ ∃ b, s.dropAppendBuf key = .ok { s with appendBufs := b } ∧
      ∃ sl mem grain s0 s1, lpa = sl.lpa ∧
        (∃ credits, storeLoop d key (PairMem.metaSz key.length + vlen) (2 ^ 32) 0 credits
          { s with appendBufs := b, leftoverCredits := 0 } = .ok (sl, s0)) ∧
        StoreSteps d { s with appendBufs := b } s' key sl mem grain s0 s1 ∧
        pairMemory d key vlen (d.grainsOf (PairMem.metaSz key.length + vlen)) junk sl.old =
          .ok mem := by
  simp only [storeMapping, storeAt, bind_eq_ok, ensure_eq_ok] at h
  obtain ⟨sb, hdrop, -, hlen, ⟨sl, s0⟩, hloop, s2, ⟨mem, hmem, ⟨credits, s3⟩, hat, h2⟩, h⟩ := h
  cases h2
  cases h
  obtain ⟨b, rfl⟩ := dropAppendBuf_eq hdrop
  obtain ⟨grain, s1, hsteps⟩ := steps_of_placeAt hfit (hok.withBufs b) hloop hat
  exact ⟨hlen, b, hdrop, sl, mem, grain, s0, s1, rfl, ⟨_, hloop⟩, hsteps, hmem⟩

/-- A store whose memory is that of a pair inserts the pair. -/
theorem StoreSteps.inserts (hfit : d.Fits) {key : Bytes} {sl : Slot} {grain : ℕ} {p : Pair}
    {s0 s1 : Shard} (h : StoreSteps d s s' key sl (PairMem.bytes key p) grain s0 s1)
    (hok : s.TableOk d) (hk : key.length ≤ maxKlen) (hv : p.value.length < 2 ^ 32) :
    Inserts d.scheme (s.tab d) (s'.tab d) key sl.cnt p ∧ s'.TableOk d := by
  have hne : grain ≠ uintMax := Nat.ne_of_lt (Device.Fits.grain_lt hfit h.onPage)
  refine ⟨⟨h.slot.usable, h.opens.before_other h.slot.before, fun k' v' hc => ?_, ?_,
    fun j hj => ?_, ?_⟩, h.puts.tableOk (h.raises.tableOk (h.opens.tableOk hok))
      fun _ => ⟨key, p, rfl, hk, hv⟩⟩
  · -- the slot was free or the key's own
    have hc' : s0.cell d sl.lpa = .full k' v' := by
      rw [h.slot.slot]
      exact h.opens.full_iff.mpr hc
    rcases h.slot.old with ⟨-, he⟩ | ⟨p', hp', -⟩
    · rw [he] at hc'
      cases hc'
    · rw [hp'] at hc'
      cases hc'
      rfl
  · rw [← h.slot.slot]
    exact h.puts.cell_self h.page hne hk hv
  · rw [← h.slot.slot] at hj
    have hcell : s'.cell d j = s0.cell d j := (h.puts.cell_of_ne hj).trans (h.raises.cell j)
    rcases h.opens.cell j with heq | ⟨hm, he⟩
    · exact .inl (hcell.trans heq)
    · exact .inr ⟨hm, hcell.trans he⟩
  · show s'.maxTry = max s.maxTry sl.cnt
    rw [h.puts.maxTry, h.raises.maxTry, h.opens.maxTry]

/-- The copy of the IO worker completes the memory of the slot. -/
theorem copyValue_spec {key value mem : Bytes} {sl : Slot} {grain : ℕ} {s0 s1 s2 : Shard}
    (h : StoreSteps d s s' key sl mem grain s0 s1) {tail : Bytes}
    (hmem : mem = PairMem.header key value.length ++ tail)
    (hcopy : s'.copyValue sl.lpa key value = .ok s2) :
    StoreSteps d s s2 key sl (PairMem.bytes key { value := value, rest := tail.drop value.length })
      grain s0 s1 := by
  have hpm : s'.pairMem sl.lpa = some mem := by
    rw [h.puts.pairMem, Function.update_self]
  simp only [copyValue, hpm, bind_eq_ok] at hcopy
  obtain ⟨mem2, hw, hcopy⟩ := hcopy
  cases hcopy
  have hmem2 : mem2 = PairMem.bytes key { value := value, rest := tail.drop value.length } := by
    obtain ⟨-, heq⟩ := PairMem.write_eq_ok hw
    rw [heq, hmem, ← PairMem.length_header key value.length, List.take_left, ← List.drop_drop,
      List.drop_left]
    rfl
  subst hmem2
  refine ⟨h.opens, h.slot, h.raises, h.page, h.onPage, ⟨h.puts.grain, h.puts.others,
    h.puts.missing, ?_, h.puts.maxTry, h.puts.appendBufs, h.puts.memOk, h.puts.refines⟩,
    h.keeps.trans (.setPair _ _ _)⟩
  show Function.update s'.pairMem sl.lpa _ = _
  rw [h.puts.pairMem, Function.update_idem]

/-- A store that returns inserts its value: the steps to its slot, before the lock is
released. -/
theorem store_steps (hfit : d.Fits) {key value : Bytes} {junk : ℕ → UInt8} (hok : s.TableOk d)
    (h : s.store d key value junk = .ok s') :
    key.length ≤ maxKlen ∧ ∃ b, s.dropAppendBuf key = .ok { s with appendBufs := b } ∧
      ∃ sl rest grain credits s0 s1 s2,
        storeLoop d key (PairMem.metaSz key.length + value.length) (2 ^ 32) 0 credits
          { s with appendBufs := b, leftoverCredits := 0 } = .ok (sl, s0) ∧
        StoreSteps d { s with appendBufs := b } s2 key sl
          (PairMem.bytes key { value := value, rest := rest }) grain s0 s1 ∧
        s' = s2.unlock d sl.lpa := by
  simp only [store, bind_eq_ok] at h
  obtain ⟨⟨lpa, s2⟩, hmap, s3, hcopy, h⟩ := h
  have h := releaseMap_eq h
  obtain ⟨hk, b, hdrop, sl, mem, grain, s0, s1, rfl, ⟨credits, hloop⟩, hsteps, hmem⟩ :=
    storeMapping_spec hfit hok hmap
  obtain ⟨tail, htail⟩ : ∃ tail, mem = PairMem.header key value.length ++ tail := by
    rcases hsteps.slot.old with ⟨hnone, -⟩ | ⟨p, -, hsome⟩
    · rw [hnone] at hmem
      exact ⟨_, pairMemory_none hmem⟩
    · rw [hsome] at hmem
      exact ⟨_, pairMemory_some rfl hmem⟩
  exact ⟨hk, b, hdrop, sl, _, grain, credits, s0, s1, s3, hloop,
    copyValue_spec hsteps htail hcopy, h⟩

/-- The buffers after the steps. -/
theorem StoreSteps.appendBufs {key mem : Bytes} {sl : Slot} {grain : ℕ} {s0 s1 : Shard}
    (h : StoreSteps d s s' key sl mem grain s0 s1) : s'.appendBufs = s.appendBufs := by
  rw [h.puts.appendBufs, h.raises.appendBufs, h.opens.appendBufs]

end Shard

end Virtkv
