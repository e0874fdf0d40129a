import Virtkv.Fill.Defs
import Virtkv.Command.Probe

/-!
# What fast fill leaves

The stores of a fast fill put every key on the first index in its probe sequence that is not
taken, and change no section. The loading loop then builds the table of each section from the
indices stored in it. It reads the entry array within its bounds if and only if there is an
entry, and it adds to a count that nobody has set.

## Main results

- `FastShard.fillPairs_spec` — the indices with a pair are the slots of the keys
- `FastShard.fastFillT_correct_iff` — when the device is correct after a fast fill
-/

namespace Virtkv

open Outcome

namespace FastShard

variable {d : Device}

/-! ### Storing the pairs -/

/-- Without a section in the FIFO there is nothing to evict. -/
theorem makeRoom_idle {s s' : Shard} {credits : ℕ} (hfifo : s.cache.fifo = [])
    (hring : s.cache.ring = []) (hvict : s.cache.haveVictims = 0)
    (h : s.makeRoom d credits = .ok s') : s' = s.consumeWriteCredit credits := by
  have hnone : ∀ x, s.evictOne d ≠ .ok x := by
    intro x hx
    simp only [Shard.evictOne, bind_eq_ok] at hx
    obtain ⟨s1, hs1, -⟩ := hx
    simp only [Shard.awaitVictims, bind_eq_ok, ensure_eq_ok] at hs1
    obtain ⟨c, hc, -, hone, -⟩ := hs1
    -- the collector finds nothing in an empty FIFO, and the dispatcher would wait for it
    have hzero : c.haveVictims = 0 := by
      rw [Cache.collectVictims, if_neg (by rw [hvict]; decide), hfifo, hring] at hc
      split at hc
      · cases hc
        exact hvict
      · rw [List.length_nil, if_neg (Nat.not_lt_zero _)] at hc
        cases hc
        exact hvict
    omega
  simp only [Shard.makeRoom, bind_eq_ok] at h
  obtain ⟨⟨n, s1⟩, hloop, _, _, h⟩ := h
  rw [Shard.evictWhileFull] at hloop
  split at hloop
  · rw [bind_eq_ok] at hloop
    obtain ⟨x, hx, -⟩ := hloop
    exact absurd hx (hnone x)
  · cases hloop
    cases h
    rfl

/-- An index that is not taken. -/
theorem freeIdx_spec {hash fuel cnt lpa c : ℕ} {taken : ℕ → Bool}
    (h : d.freeIdx hash taken fuel cnt = .ok (lpa, c)) :
    taken lpa = false ∧ d.epp < lpa ∧ ∃ c, lpa = d.probe hash c := by
  induction fuel generalizing cnt with
  | zero => cases h
  | succ fuel ih =>
    simp only [Device.freeIdx, bind_eq_ok] at h
    obtain ⟨⟨lpa', c'⟩, hidx, h⟩ := h
    split at h
    · exact ih h
    · rename_i htaken
      cases h
      obtain ⟨rfl, hgt, -⟩ := Device.getHashIdxLoop_eq_ok hidx
      exact ⟨Bool.eq_false_iff.mpr htaken, hgt, _, rfl⟩

/-- Taking a lock and giving it back. -/
theorem unlock_lock {c c' : Cache} {i : ℕ} (hfree : (c.secs i).outgoing = false)
    (h : c.lock d i = .ok c') : i < d.nrValidTpages ∧ c'.release i = .ok c := by
  simp only [Cache.lock, bind_eq_ok, ensure_eq_ok] at h
  obtain ⟨_, hi, _, _, h⟩ := h
  cases h
  refine ⟨hi, ?_⟩
  have hheld : ((c.setSec i { c.secs i with outgoing := true }).secs i).outgoing = true := by
    rw [Cache.setSec_secs, Function.update_self]
  rw [Cache.release, ensure_of hheld, ok_bind]
  have hsec : { c.secs i with outgoing := false } = c.secs i := by
    rw [← hfree]
  simp only [Cache.unlock, Cache.setSec, Function.update_self, Function.update_idem, hsec,
    Function.update_eq_self]
  rfl

variable {old : ℕ → Section}

/-- The probe loop of a fast store ends at the index that `freeIdx` finds, with its section
locked. -/
theorem fastLoop_spec {key : List UInt8} {fuel cnt credits lpa c : ℕ} {s t : Shard}
    (hs : s.cache = Cache.initOver old)
    (h : fastLoop d key fuel cnt credits s = .ok (lpa, c, t)) :
    d.freeIdx (d.hash32 key) (fun x => (s.pairMem x).isSome) fuel cnt = .ok (lpa, c) ∧
      t.pairMem = s.pairMem ∧ (Cache.initOver old).lock d (d.idx lpa) = .ok t.cache := by
  induction fuel generalizing cnt credits s with
  | zero => cases h
  | succ fuel ih =>
    simp only [fastLoop, bind_eq_ok] at h
    obtain ⟨⟨lpa', c'⟩, hidx, s1, hroom, s2, hlock, h⟩ := h
    have h1 := makeRoom_idle (by rw [hs]; rfl) (by rw [hs]; rfl) (by rw [hs]; rfl) hroom
    subst h1
    simp only [Shard.getHt, bind_eq_ok, Cache.getHt] at hlock
    obtain ⟨c2, hc2, hlock⟩ := hlock
    cases hlock
    -- the section table is as `init` left it: only locks are taken and released
    replace hc2 : (Cache.initOver old).lock d (d.idx lpa') = .ok c2 := by
      rw [← hs]
      exact hc2
    rw [Device.freeIdx, hidx, ok_bind]
    dsimp only at h ⊢
    cases hmem : s.pairMem lpa' with
    | none =>
      rw [show ((s.consumeWriteCredit credits).setCache c2).pairMem lpa' = none from hmem] at h
      cases h
      rw [if_neg (by simp)]
      exact ⟨rfl, rfl, hc2⟩
    | some m =>
      rw [show ((s.consumeWriteCredit credits).setCache c2).pairMem lpa' = some m from hmem] at h
      simp only [Shard.releaseMap, bind_eq_ok] at h
      obtain ⟨s3, ⟨c3, hc3, hs3⟩, h⟩ := h
      obtain ⟨-, hrel⟩ := unlock_lock rfl hc2
      rw [show c3 = Cache.initOver old from Except.ok.inj (hc3.symm.trans hrel)] at hs3
      cases hs3
      rw [if_pos (show (some m).isSome = true from rfl)]
      obtain ⟨hfree, hpairs, hlock⟩ := ih rfl h
      exact ⟨hfree, hpairs, hlock⟩

/-- A fast store puts its pair at a free index. -/
theorem fastStore_spec {key value : List UInt8} {s t : FastShard}
    (hs : s.shard.cache = Cache.initOver old) (h : s.fastStore d key value = .ok t) :
    t.shard.cache = Cache.initOver old ∧ ∃ lpa c m,
      d.freeIdx (d.hash32 key) (fun x => (s.shard.pairMem x).isSome) (2 ^ 32) 0 = .ok (lpa, c) ∧
      d.idx lpa < d.nrValidTpages ∧
      t.shard.pairMem = Function.update s.shard.pairMem lpa (some m) := by
  simp only [fastStore, bind_eq_ok] at h
  obtain ⟨s1, hdrop, _, -, ⟨lpa, c, s2⟩, hloop, h⟩ := h
  have hs1 : s1.cache = s.shard.cache ∧ s1.pairMem = s.shard.pairMem := by
    rw [Shard.dropAppendBuf] at hdrop
    split at hdrop
    · rw [bind_eq_ok] at hdrop
      obtain ⟨l, -, hdrop⟩ := hdrop
      cases hdrop
      exact ⟨rfl, rfl⟩
    · cases hdrop
      exact ⟨rfl, rfl⟩
  have hcache : ({ s1 with leftoverCredits := 0 } : Shard).cache = Cache.initOver old :=
    hs1.1.trans hs
  obtain ⟨hfree, hmem, hlock⟩ := fastLoop_spec hcache hloop
  obtain ⟨hidx, hrel⟩ := unlock_lock rfl hlock
  simp only [fastPlace, bind_eq_ok, Shard.releaseMap] at h
  obtain ⟨⟨grain, credits, user, f⟩, -, mem, -, mem', -, s3, ⟨c3, hc3, hs3⟩, h⟩ := h
  rw [show c3 = Cache.initOver old from Except.ok.inj (hc3.symm.trans hrel)] at hs3
  cases hs3
  cases h
  refine ⟨rfl, lpa, c, mem', ?_, hidx, ?_⟩
  · rw [← hs1.2]
    exact hfree
  · rw [← hs1.2, ← hmem]
    rfl

/-- The shard after fast stores: the slots have pairs, and no section was changed. -/
structure Stored (d : Device) (old : ℕ → Section) (slots : List ℕ) (s : FastShard) : Prop where
  cache : s.shard.cache = Cache.initOver old
  pairs : ∀ lpa, (s.shard.pairMem lpa).isSome = decide (lpa ∈ slots)
  usable : ∀ lpa ∈ slots, d.epp < lpa ∧ d.idx lpa < d.nrValidTpages ∧ ∃ h c, lpa = d.probe h c

/-- The pairs are stored at the slots of their keys. -/
theorem fillPairs_spec {vlen n : ℕ} {s t : FastShard} (hs : Stored d old [] s)
    (h : s.fillPairs d vlen n = .ok t) :
    ∃ slots, d.fillSlots n = .ok slots ∧ Stored d old slots t := by
  induction n generalizing t with
  | zero =>
    cases h
    exact ⟨[], rfl, hs⟩
  | succ n ih =>
    simp only [fillPairs, bind_eq_ok] at h
    obtain ⟨s1, hprefix, hstore⟩ := h
    obtain ⟨slots, hslots, h1⟩ := ih hprefix
    obtain ⟨hcache, lpa, c, m, hfree, hidx, hmem⟩ := fastStore_spec h1.cache hstore
    rw [show (fun x => (s1.shard.pairMem x).isSome) = fun x => decide (x ∈ slots) from
      funext h1.pairs] at hfree
    refine ⟨lpa :: slots, ?_, hcache, fun x => ?_, fun x hx => ?_⟩
    · rw [Device.fillSlots, hslots, ok_bind, hfree, ok_bind]
      rfl
    · rw [hmem]
      by_cases hx : x = lpa
      · subst hx
        rw [Function.update_self]
        simp
      · rw [Function.update_of_ne hx, h1.pairs]
        simp [hx]
    · rcases List.mem_cons.mp hx with rfl | hx
      · obtain ⟨-, hgt, hprobe⟩ := freeIdx_spec hfree
        exact ⟨hgt, hidx, _, hprobe⟩
      · exact h1.usable x hx

/-! ### Loading a section -/

theorem mem_occupied {s : FastShard} {i lpa : ℕ} (hepp : 0 < d.epp) :
    lpa ∈ s.occupied d i ↔ d.idx lpa = i ∧ (s.shard.pairMem lpa).isSome := by
  rw [occupied, List.mem_filter, List.mem_range'_1]
  apply and_congr_left'
  rw [Device.idx, Nat.div_eq_iff hepp]
  omega

theorem nodup_occupied (d : Device) (s : FastShard) (i : ℕ) : (s.occupied d i).Nodup :=
  (List.nodup_range' 1 Nat.one_pos).filter _

theorem length_occupied_le (d : Device) (s : FastShard) (i : ℕ) :
    (s.occupied d i).length ≤ d.epp := by
  have hle := List.length_filter_le (fun lpa => (s.shard.pairMem lpa).isSome)
    (List.range' (i * d.epp) d.epp)
  rwa [List.length_range'] at hle

theorem entries_keys (d : Device) (s : FastShard) (i : ℕ) :
    (s.entries d i).map Prod.fst = s.occupied d i := by
  rw [entries, List.map_map]
  exact List.map_id _

theorem length_entries (d : Device) (s : FastShard) (i : ℕ) :
    (s.entries d i).length = (s.occupied d i).length := by
  rw [entries, List.length_map]

/-- An index is in the entry array with its grain if it has a pair. -/
theorem find_entries (d : Device) (s : FastShard) (i x : ℕ) :
    (((s.entries d i).find? fun e => e.1 = x).map Prod.snd).getD uintMax =
      if x ∈ s.occupied d i then s.fmGrains x else uintMax := by
  rw [entries, List.find?_map]
  split
  · rename_i hx
    cases hfind : (s.occupied d i).find? ((fun e : LeafE => decide (e.1 = x)) ∘
        fun lpa => (lpa, s.fmGrains lpa)) with
    | none =>
      rw [List.find?_eq_none] at hfind
      exact absurd (decide_eq_true rfl) (hfind x hx)
    | some y =>
      have hy : y = x := by simpa using List.find?_some hfind
      rw [hy]
      rfl
  · rename_i hx
    rw [List.find?_eq_none.mpr]
    · rfl
    · intro y hy heq
      exact hx (of_decide_eq_true heq ▸ hy)

/-- The page of a section has leaves for its entries. -/
theorem mapGlen_fits (hb : d.build = .plus) {cnt : ℕ} (hcnt : cnt ≤ d.epp) :
    2 ≤ mapGlen d cnt - rootG ∧ mapGlen d cnt - rootG ≤ inRoot ∧
      cnt ≤ (mapGlen d cnt - rootG) * inLeaf ∧ rootG ≤ mapGlen d cnt := by
  have hgu : d.gu = 64 := by rw [Device.gu, hb]; rfl
  have hentry : d.build.entrySize = 8 := by rw [hb]; rfl
  have hepp : d.epp = 480 := by rw [Device.epp, hb]; rfl
  have hroot : inRoot = 60 := rfl
  have hleaf : inLeaf = 8 := rfl
  have hrootG : rootG = 4 := rfl
  have horig : origGlen = 6 := rfl
  rw [mapGlen, Device.grainsOf, hgu, hentry, hroot, hleaf, horig, hrootG]
  split <;> omega

/-- Without an entry `__new_roots` reads in front of the entry array. -/
theorem twolevelBulkInsert_nil {n : ℕ} (hn : 2 ≤ n) (m : PageWords) :
    TwoLevel.twolevelBulkInsert (TwoLevel.prepared n m) [] = .error .badAccess := by
  obtain ⟨k, rfl⟩ := Nat.exists_eq_add_of_le' hn
  have hroots : TwoLevel.newRoots [] (k + 2) = .error .badAccess := by
    rw [TwoLevel.newRoots, List.length_nil, Nat.zero_div, Nat.zero_mod, TwoLevel.newRootsLoop]
    rfl
  rw [TwoLevel.twolevelBulkInsert, TwoLevel.cnt_prepared hn, TwoLevel.sortLeaves,
    List.insertionSort_nil]
  dsimp only
  rw [hroots]
  rfl

/-- A section that was loaded from the arrays of `s` on top of a count. -/
structure Loads (d : Device) (s : FastShard) (i base : ℕ) (x : Section) : Prop where
  hasMem : x.hasMem = true
  find : ∀ h ≤ uintMax, (TwoLevel.twolevelFind x.table.mem h).1 =
    if h ∈ s.occupied d i then s.fmGrains h else uintMax
  cachedCnt : x.table.cachedCnt = (base + (s.occupied d i).length) % 2 ^ 32
  lenOnDisk : x.lenOnDisk = rootG + TwoLevel.cnt x.table.mem

/-- A mapping page for a section with `cnt` entries. -/
def takeMapPage (d : Device) (f : Flash) (i cnt : ℕ) : Except Fault Flash := do
  let (ppa, f) ← Shard.mapPageLoop d (d.geo.ttPgs + 1) f
  Shard.tagMapPage d f ppa i (mapGlen d cnt) 1

theorem mapSection_eq {s : FastShard} {f : Flash} {i cnt : ℕ}
    (hnew : (s.shard.sec i).tPpa = uintMax) (hf : takeMapPage d s.shard.flash i cnt = .ok f) :
    ∃ ppa, s.mapSection d i cnt =
      .ok ((s.setFlash f).setSec i (mapped (s.shard.sec i) ppa (mapGlen d cnt))) := by
  rw [takeMapPage, bind_eq_ok] at hf
  obtain ⟨⟨ppa, f1⟩, hloop, htag⟩ := hf
  refine ⟨ppa, ?_⟩
  rw [mapSection, if_pos hnew, hloop, ok_bind]
  dsimp only at htag ⊢
  rw [htag]
  rfl

theorem sec_setSec (s : FastShard) (i : ℕ) (x : Section) (j : ℕ) :
    (s.setSec i x).shard.sec j = if j = i then x else s.shard.sec j :=
  Function.update_apply _ _ _ _

theorem setSec_setSec (s : FastShard) (i : ℕ) (x y : Section) :
    (s.setSec i x).setSec i y = s.setSec i y := by
  simp only [setSec, Shard.setSec, Shard.setCache, Cache.setSec, Function.update_idem]

/-- Loading a section writes its table over the fresh one. -/
theorem fillSection_eq {s : FastShard} {f : Flash} {i : ℕ} (hnew : (s.shard.sec i).tPpa = uintMax)
    (hf : takeMapPage d s.shard.flash i (s.entries d i).length = .ok f) :
    ∃ ppa, s.fillSection d i =
      (TwoLevel.twolevelBulkInsert
        (TwoLevel.prepared (mapGlen d (s.entries d i).length - rootG) fun _ => 0)
        (s.entries d i)) >>= fun r => .ok ((s.setFlash f).setSec i
          (loaded (mapped (s.shard.sec i) ppa (mapGlen d (s.entries d i).length)) r.1
            (s.entries d i).length)) := by
  obtain ⟨ppa, hmap⟩ := mapSection_eq hnew hf
  refine ⟨ppa, ?_⟩
  have hcached : (mapped (s.shard.sec i) ppa (mapGlen d (s.entries d i).length)).cached = true :=
    rfl
  rw [fillSection, hmap, ok_bind, sec_setSec, if_pos rfl, ensure_of hcached, ok_bind]
  simp only [setSec_setSec]
  rfl

/-- A section with entries is loaded. -/
theorem fillSection_loads (hb : d.build = .plus) {s : FastShard} {f : Flash} {i : ℕ}
    (hnew : (s.shard.sec i).tPpa = uintMax)
    (hf : takeMapPage d s.shard.flash i (s.entries d i).length = .ok f)
    (hkeys : ∀ lpa ∈ s.occupied d i, 0 < lpa ∧ lpa < uintMax) (hne : s.occupied d i ≠ []) :
    ∃ x, s.fillSection d i = .ok ((s.setFlash f).setSec i x) ∧
      Loads d s i (s.shard.sec i).table.cachedCnt x := by
  obtain ⟨ppa, heq⟩ := fillSection_eq hnew hf
  have hlen := length_entries d s i
  obtain ⟨htwo, hroot, hfit, hglen⟩ := mapGlen_fits hb (length_occupied_le d s i)
  rw [← hlen] at htwo hroot hfit hglen
  have hpos : 0 < (s.entries d i).length := by
    rw [hlen]
    exact List.length_pos_iff.mpr hne
  have hnd : ((s.entries d i).map Prod.fst).Nodup := by
    rw [entries_keys]
    exact nodup_occupied d s i
  have hkey : ∀ e ∈ s.entries d i, 0 < e.1 ∧ e.1 < uintMax := by
    intro e he
    apply hkeys
    rw [← entries_keys]
    exact List.mem_map_of_mem he
  obtain ⟨mem, ws, hbulk, hloaded, -⟩ :=
    TwoLevel.twolevelBulkInsert_loads htwo hroot (fun _ => 0) hpos hfit hnd hkey
  rw [hbulk, ok_bind] at heq
  refine ⟨_, heq, rfl, fun h hh => ?_, ?_, ?_⟩
  · rw [← find_entries]
    exact hloaded.find_eq hnd hh
  · rw [← hlen]
    rfl
  · have hcnt := hloaded.cnt_eq
    simp only [loaded, mapped] at hcnt ⊢
    omega

/-- Loading a section without entries reads in front of the entry array. -/
theorem fillSection_nil (hb : d.build = .plus) {s : FastShard} {f : Flash} {i : ℕ}
    (hnew : (s.shard.sec i).tPpa = uintMax)
    (hf : takeMapPage d s.shard.flash i (s.entries d i).length = .ok f)
    (hnil : s.occupied d i = []) : s.fillSection d i = .error .badAccess := by
  obtain ⟨ppa, heq⟩ := fillSection_eq hnew hf
  have hes : s.entries d i = [] := by rw [entries, hnil, List.map_nil]
  obtain ⟨htwo, -⟩ := mapGlen_fits hb (show (s.entries d i).length ≤ d.epp by simp [hes])
  rw [heq, hes] at *
  rw [twolevelBulkInsert_nil htwo]
  rfl

/-! ### Loading all sections -/

/-- Mapping pages for `n` sections from `i` on, with `cnts` entries each. -/
def takeMapPages (d : Device) (cnts : ℕ → ℕ) : ℕ → ℕ → Flash → Except Fault Flash
  | 0, _, f => .ok f
  | n + 1, i, f => do
    let f ← takeMapPage d f i (cnts i)
    takeMapPages d cnts n (i + 1) f

/-- With mapping pages for all of them, the loop loads sections that have entries, and stops
at a section that has none. -/
theorem fillMaps_spec (hb : d.build = .plus) {n i : ℕ} {s : FastShard} {f : Flash}
    (hnew : ∀ j, i ≤ j → (s.shard.sec j).tPpa = uintMax)
    (hf : takeMapPages d (fun j => (s.occupied d j).length) n i s.shard.flash = .ok f)
    (hkeys : ∀ j, i ≤ j → ∀ lpa ∈ s.occupied d j, 0 < lpa ∧ lpa < uintMax) :
    ((∀ j, i ≤ j → j < i + n → s.occupied d j ≠ []) →
      ∃ t, fillMaps d n i s = .ok t ∧ t.shard.pairMem = s.shard.pairMem ∧
        t.fmGrains = s.fmGrains ∧ (∀ j < i, t.shard.sec j = s.shard.sec j) ∧
        ∀ j, i ≤ j → j < i + n → Loads d s j (s.shard.sec j).table.cachedCnt (t.shard.sec j)) ∧
    ((∃ j, i ≤ j ∧ j < i + n ∧ s.occupied d j = []) → fillMaps d n i s = .error .badAccess) := by
  induction n generalizing i s with
  | zero =>
    refine ⟨fun _ => ⟨s, rfl, rfl, rfl, fun _ _ => rfl, fun j hj hlt => by omega⟩, ?_⟩
    rintro ⟨j, hj, hlt, -⟩
    omega
  | succ n ih =>
    rw [takeMapPages, bind_eq_ok] at hf
    obtain ⟨f1, hf1, hf⟩ := hf
    rw [← length_entries] at hf1
    by_cases hnil : s.occupied d i = []
    · refine ⟨fun hall => absurd hnil (hall i le_rfl (by omega)), fun _ => ?_⟩
      rw [fillMaps, fillSection_nil hb (hnew i le_rfl) hf1 hnil]
      rfl
    obtain ⟨x, hfill, hx⟩ := fillSection_loads hb (hnew i le_rfl) hf1 (hkeys i le_rfl) hnil
    rw [fillMaps, hfill, ok_bind]
    have hsec : ∀ j, i + 1 ≤ j → ((s.setFlash f1).setSec i x).shard.sec j = s.shard.sec j := by
      intro j hj
      rw [sec_setSec, if_neg (by omega)]
      rfl
    have hrest := ih (i := i + 1) (s := (s.setFlash f1).setSec i x)
      (fun j hj => by rw [hsec j hj]; exact hnew j (by omega)) hf
      (fun j hj => hkeys j (by omega))
    constructor
    · intro hall
      obtain ⟨t, hrun, hpairs, hgrains, hbelow, hloads⟩ :=
        hrest.1 fun j hj hlt => hall j (by omega) (by omega)
      refine ⟨t, hrun, hpairs, hgrains, fun j hj => ?_, fun j hj hlt => ?_⟩
      · rw [hbelow j (by omega), sec_setSec, if_neg (by omega)]
        rfl
      · rcases Nat.eq_or_lt_of_le hj with rfl | hgt
        · rw [hbelow i (by omega), sec_setSec, if_pos rfl]
          exact hx
        · have hl := hloads j hgt (by omega)
          rw [hsec j hgt] at hl
          exact ⟨hl.hasMem, hl.find, hl.cachedCnt, hl.lenOnDisk⟩
    · rintro ⟨j, hj, hlt, hempty⟩
      apply hrest.2
      refine ⟨j, ?_, by omega, hempty⟩
      by_contra hle
      rw [show j = i by omega] at hempty
      exact hnil hempty

/-! ### The device after a fast fill -/

/-- A value length that `fast_fill_t` does not refuse. -/
def Accepted (d : Device) (vlen : ℕ) : Prop :=
  d.grainsOf vlen ≠ 0 ∧ d.gpp % d.grainsOf vlen = 0

instance (d : Device) (vlen : ℕ) : Decidable (Accepted d vlen) :=
  inferInstanceAs (Decidable (_ ∧ _))

/-- The flash has room for the pairs and for the mapping pages. -/
def Fits (d : Device) (s : FastShard) (vlen pairs : ℕ) : Prop :=
  ∃ t f, { s with fastmode := true }.fillPairs d vlen (pairs - 1) = .ok t ∧
    takeMapPages d (fun j => (t.occupied d j).length) (d.nrValidTpages - 1) 1 t.shard.flash = .ok f

/-- Every section but the first has a table, with the grains of its occupied indices and no
other, and counts its entries. The first section has neither a table nor an index. -/
structure Correct (d : Device) (s : FastShard) : Prop where
  homed : ∀ h, (s.shard.pairMem h).isSome → 0 < d.idx h ∧ d.idx h < d.nrValidTpages
  hasMem : ∀ i, 0 < i → i < d.nrValidTpages → (s.shard.sec i).hasMem = true
  find : ∀ i, 0 < i → i < d.nrValidTpages → ∀ h ≤ uintMax,
    (TwoLevel.twolevelFind (s.shard.sec i).table.mem h).1 =
      if d.idx h = i ∧ (s.shard.pairMem h).isSome then s.fmGrains h else uintMax
  cachedCnt : ∀ i < d.nrValidTpages, (s.shard.sec i).table.cachedCnt = (s.occupied d i).length
  lenOnDisk : ∀ i, 0 < i → i < d.nrValidTpages →
    (s.shard.sec i).lenOnDisk = rootG + TwoLevel.cnt (s.shard.sec i).table.mem

namespace Stored

variable {slots : List ℕ} {s : FastShard}

theorem mem_occupied (h : Stored d old slots s) (hepp : 0 < d.epp) {i lpa : ℕ} :
    lpa ∈ s.occupied d i ↔ d.idx lpa = i ∧ lpa ∈ slots := by
  rw [FastShard.mem_occupied hepp, h.pairs, decide_eq_true_iff]

theorem occupied_ne_nil_iff (h : Stored d old slots s) (hepp : 0 < d.epp) (i : ℕ) :
    s.occupied d i ≠ [] ↔ ∃ lpa ∈ slots, d.idx lpa = i := by
  constructor
  · intro hne
    obtain ⟨lpa, hlpa⟩ := List.exists_mem_of_ne_nil _ hne
    obtain ⟨hidx, hmem⟩ := (h.mem_occupied hepp).mp hlpa
    exact ⟨lpa, hmem, hidx⟩
  · rintro ⟨lpa, hmem, hidx⟩
    exact List.ne_nil_of_mem ((h.mem_occupied hepp).mpr ⟨hidx, hmem⟩)

/-- No index of the first section is used. -/
theorem idx_pos (h : Stored d old slots s) (hepp : 0 < d.epp) {lpa : ℕ} (hlpa : lpa ∈ slots) :
    0 < d.idx lpa :=
  Nat.div_pos (h.usable lpa hlpa).1.le hepp

theorem lt_uintMax (h : Stored d old slots s) (htwo : 1 < d.nrValidTentries)
    (hent : d.nrValidTentries < 2 ^ 32) {lpa : ℕ} (hlpa : lpa ∈ slots) : lpa < uintMax := by
  obtain ⟨-, -, hash, c, rfl⟩ := h.usable lpa hlpa
  have hle := Device.probe_le htwo hash c
  rw [uintMax]
  omega

/-- A count that wraps around nowhere below `d.epp`. -/
theorem wrap_eq_iff {base n : ℕ} (hbase : base < 2 ^ 32) (hn : n ≤ 480) :
    (base + n) % 2 ^ 32 = n ↔ base = 0 := by
  omega

/-- The second loop of a fast fill ends if every section but the first has a pair, and then
the counts decide. -/
theorem fillMaps_correct (h : Stored d old slots s) (hb : d.build = .plus)
    (hent : d.nrValidTentries < 2 ^ 32) (hold : ∀ i, (old i).table.cachedCnt < 2 ^ 32) {f : Flash}
    (hf : takeMapPages d (fun j => (s.occupied d j).length) (d.nrValidTpages - 1) 1
      s.shard.flash = .ok f) :
    (∃ t, fillMaps d (d.nrValidTpages - 1) 1 s = .ok t ∧ Correct d t) ↔
      (∀ i, 0 < i → i < d.nrValidTpages → ∃ lpa ∈ slots, d.idx lpa = i) ∧
      ∀ i < d.nrValidTpages, (old i).table.cachedCnt = 0 := by
  have hepp : d.epp = 480 := by rw [Device.epp, hb]; rfl
  have hpos : 0 < d.epp := by omega
  have htwo : 1 < d.nrValidTentries := by
    have hgpp : d.gpp = 64 := by rw [Device.gpp, hb]; rfl
    rw [Device.nrValidTentries, hb]
    dsimp only
    omega
  have hsec : ∀ j, s.shard.sec j = (Cache.initOver old).secs j := by
    intro j
    rw [Shard.sec, h.cache]
  have hcount : ∀ j, (s.shard.sec j).table.cachedCnt = (old j).table.cachedCnt := by
    intro j
    rw [hsec]
    rfl
  obtain ⟨hload, hstop⟩ := fillMaps_spec hb (n := d.nrValidTpages - 1) (i := 1) (s := s)
    (fun j _ => by rw [hsec]; rfl) hf (fun j hj lpa hlpa => by
      obtain ⟨-, hmem⟩ := (h.mem_occupied hpos).mp hlpa
      exact ⟨by have := (h.usable lpa hmem).1; omega, h.lt_uintMax htwo hent hmem⟩)
  by_cases hall : ∀ i, 0 < i → i < d.nrValidTpages → ∃ lpa ∈ slots, d.idx lpa = i
  · obtain ⟨t, hrun, hpairs, hgrains, hbelow, hloads⟩ := hload fun j hj hlt =>
      (h.occupied_ne_nil_iff hpos j).mpr (hall j hj (by omega))
    have hocc : ∀ j, t.occupied d j = s.occupied d j := by
      intro j
      rw [occupied, occupied, hpairs]
    have hzero : s.occupied d 0 = [] := by
      by_contra hne
      obtain ⟨lpa, hmem, hidx⟩ := (h.occupied_ne_nil_iff hpos 0).mp hne
      have := h.idx_pos hpos hmem
      omega
    rw [and_iff_right hall]
    constructor
    · rintro ⟨t', hrun', hcorrect⟩ i hi
      cases hrun.symm.trans hrun'
      have hcc := hcorrect.cachedCnt i hi
      have hle := length_occupied_le d s i
      rw [hocc] at hcc
      rcases Nat.eq_zero_or_pos i with rfl | hipos
      · rw [hbelow 0 Nat.one_pos, hcount] at hcc
        rw [hcc, hzero, List.length_nil]
      · rw [(hloads i hipos (by omega)).cachedCnt, hcount] at hcc
        exact (wrap_eq_iff (hold i) (by omega)).mp hcc
    · intro hcounts
      refine ⟨t, hrun, ⟨fun x hx => ?_, fun i hi hlt => ?_, fun i hi hlt x hx => ?_,
        fun i hlt => ?_, fun i hi hlt => ?_⟩⟩
      · rw [hpairs, h.pairs, decide_eq_true_iff] at hx
        exact ⟨h.idx_pos hpos hx, (h.usable x hx).2.1⟩
      · exact (hloads i hi (by omega)).hasMem
      · rw [(hloads i hi (by omega)).find x hx, hgrains, hpairs]
        simp only [FastShard.mem_occupied hpos]
      · rw [hocc]
        rcases Nat.eq_zero_or_pos i with rfl | hipos
        · rw [hbelow 0 Nat.one_pos, hcount, hcounts 0 hlt, hzero, List.length_nil]
        · have hle := length_occupied_le d s i
          rw [(hloads i hipos (by omega)).cachedCnt, hcount]
          exact (wrap_eq_iff (hold i) (by omega)).mpr (hcounts i hlt)
      · exact (hloads i hi (by omega)).lenOnDisk
  · constructor
    · -- a section without pairs: the bulk insert reads behind the empty array
      rintro ⟨t, hrun, -⟩
      push Not at hall
      obtain ⟨i, hi, hlt, hnone⟩ := hall
      have hnil : s.occupied d i = [] := by
        by_contra hne
        obtain ⟨lpa, hmem, hidx⟩ := (h.occupied_ne_nil_iff hpos i).mp hne
        exact hnone lpa hmem hidx
      rw [hstop ⟨i, hi, by omega, hnil⟩] at hrun
      cases hrun
    · rintro ⟨hsome, -⟩
      exact absurd hsome hall

end Stored

/-- After a fast fill that fits, the device is correct if and only if the pairs reach every
section but the first, and the counts that nobody set are zero. -/
theorem fastFillT_correct_iff (d : Device) (hb : d.build = .plus)
    (hent : d.nrValidTentries < 2 ^ 32) (old : ℕ → Section) (grains : ℕ → ℕ)
    (hold : ∀ i, (old i).table.cachedCnt < 2 ^ 32) (vlen pairs : ℕ) (hacc : Accepted d vlen)
    (s : FastShard) (hs : FastShard.init d old grains = .ok s) (hfits : Fits d s vlen pairs) :
    (∃ t, s.fastFillT d vlen pairs = .ok t ∧ Correct d t) ↔
      (∃ slots, d.fillSlots (pairs - 1) = .ok slots ∧
        ∀ i, 0 < i → i < d.nrValidTpages → ∃ lpa ∈ slots, d.idx lpa = i) ∧
      ∀ i < d.nrValidTpages, (old i).table.cachedCnt = 0 := by
  obtain ⟨t, f, hpairs, hmaps⟩ := hfits
  have hstart : Stored d old [] { s with fastmode := true } := by
    simp only [FastShard.init, bind_eq_ok] at hs
    obtain ⟨s0, hs0, hs⟩ := hs
    cases hs
    simp only [Shard.init, bind_eq_ok] at hs0
    obtain ⟨f0, -, hs0⟩ := hs0
    cases hs0
    exact ⟨rfl, fun _ => rfl, fun _ h => absurd h List.not_mem_nil⟩
  obtain ⟨slots, hslots, hstored⟩ := fillPairs_spec hstart hpairs
  have hrun : s.fastFillT d vlen pairs =
      fillMaps d (d.nrValidTpages - 1) 1 t >>= fun u => .ok { u with fastmode := false } := by
    simp only [fastFillT, ensure_of hacc.1, ok_bind, hacc.2, ne_eq, not_true, if_false, hpairs]
    rfl
  have hmode : (∃ u, s.fastFillT d vlen pairs = .ok u ∧ Correct d u) ↔
      ∃ u, fillMaps d (d.nrValidTpages - 1) 1 t = .ok u ∧ Correct d u := by
    rw [hrun]
    constructor
    · rintro ⟨u, hu, hc⟩
      rw [bind_eq_ok] at hu
      obtain ⟨v, hv, hu⟩ := hu
      cases hu
      exact ⟨v, hv, ⟨hc.homed, hc.hasMem, hc.find, hc.cachedCnt, hc.lenOnDisk⟩⟩
    · rintro ⟨u, hu, hc⟩
      rw [hu]
      exact ⟨_, rfl, ⟨hc.homed, hc.hasMem, hc.find, hc.cachedCnt, hc.lenOnDisk⟩⟩
  rw [hmode, hstored.fillMaps_correct hb hent hold hmaps]
  apply and_congr_left'
  constructor
  · intro hall
    exact ⟨slots, hslots, hall⟩
  · rintro ⟨slots', hslots', hall⟩
    cases hslots.symm.trans hslots'
    exact hall

/-- Whether the pairs and the mapping pages fit on a fresh device. -/
def fitsFresh (d : Device) (old : ℕ → Section) (grains : ℕ → ℕ) (vlen pairs : ℕ) : Bool :=
  (do
    let s ← FastShard.init d old grains
    let t ← { s with fastmode := true }.fillPairs d vlen (pairs - 1)
    takeMapPages d (fun j => (t.occupied d j).length) (d.nrValidTpages - 1) 1
      t.shard.flash).isOk

theorem fits_of_fitsFresh {d : Device} {old : ℕ → Section} {grains : ℕ → ℕ} {vlen pairs : ℕ}
    (h : fitsFresh d old grains vlen pairs = true) :
    ∃ s, FastShard.init d old grains = .ok s ∧ Fits d s vlen pairs := by
  rw [fitsFresh] at h
  cases hrun : (do
    let s ← FastShard.init d old grains
    let t ← { s with fastmode := true }.fillPairs d vlen (pairs - 1)
    takeMapPages d (fun j => (t.occupied d j).length) (d.nrValidTpages - 1) 1
      t.shard.flash) with
  | error e =>
    rw [hrun] at h
    cases h
  | ok f =>
    simp only [bind_eq_ok] at hrun
    obtain ⟨s, hs, t, ht, hf⟩ := hrun
    exact ⟨s, hs, t, f, ht, hf⟩

/-- Eight lines of four pages; key `i` starts in section `i`. -/
def fiveSections : Device where
  build := .plus
  geo :=
    { nchs := 1, lunsPerCh := 2, blksPerPl := 8, oneshotpgsPerBlk := 1, pgsPerOneshotpg := 2 }
  maxCached := 64
  hash := fun k => 480 * (k.getD 0 0).toNat + 100

/-- Memory that happens to be zero. -/
def zeroed : ℕ → Section := Cache.init.secs

theorem zeroed_cachedCnt (i : ℕ) : (zeroed i).table.cachedCnt = 0 := rfl

/-- Four pairs, one for each section. -/
theorem fastFillT_correct_fourPairs :
    ∃ s t, FastShard.init fiveSections zeroed (fun _ => 0) = .ok s ∧
      s.fastFillT fiveSections 64 5 = .ok t ∧ Correct fiveSections t := by
  have hfresh : fitsFresh fiveSections zeroed (fun _ => 0) 64 5 = true := by decide +kernel
  obtain ⟨s, hs, hfits⟩ := fits_of_fitsFresh hfresh
  have hiff := fastFillT_correct_iff fiveSections rfl (by decide) zeroed (fun _ => 0)
    (fun i => by rw [zeroed_cachedCnt]; decide) 64 5 (by decide) s hs hfits
  have hreached : ∀ i < fiveSections.nrValidTpages, 0 < i →
      ∃ lpa ∈ [2021, 1541, 1061, 581], fiveSections.idx lpa = i := by decide
  obtain ⟨t, ht, hc⟩ := hiff.mpr ⟨⟨[2021, 1541, 1061, 581], by decide +kernel,
    fun i hi hlt => hreached i hlt hi⟩, fun i _ => zeroed_cachedCnt i⟩
  exact ⟨s, t, hs, ht, hc⟩

/-- With one pair three sections stay empty, and the fill reads in front of the entry array. -/
theorem fastFillT_not_correct :
    ¬ ∀ (d : Device), d.build = .plus → d.nrValidTentries < 2 ^ 32 →
      ∀ (old : ℕ → Section) (grains : ℕ → ℕ), (∀ i, (old i).table.cachedCnt < 2 ^ 32) →
      ∀ vlen pairs, Accepted d vlen → ∀ s, FastShard.init d old grains = .ok s →
      Fits d s vlen pairs → ∃ t, s.fastFillT d vlen pairs = .ok t ∧ Correct d t := by
  intro hall
  have hfresh : fitsFresh fiveSections zeroed (fun _ => 0) 64 2 = true := by decide +kernel
  obtain ⟨s, hs, hfits⟩ := fits_of_fitsFresh hfresh
  obtain ⟨t, ht, -⟩ := hall fiveSections rfl (by decide) zeroed (fun _ => 0)
    (fun i => by rw [zeroed_cachedCnt]; decide) 64 2 (by decide) s hs hfits
  have hstop : (do
      let s ← FastShard.init fiveSections zeroed fun _ => 0
      s.fastFillT fiveSections 64 2).isOk = false := by decide +kernel
  rw [hs, ok_bind, ht] at hstop
  cases hstop

end FastShard

end Virtkv
