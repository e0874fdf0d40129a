import Virtkv.Command.Insert

/-!
# Commands on a hash table

Between commands a shard is `Sane`: its hash table can be read off, all section locks are
free and every section and pair is on a page. A command that returns leaves a sane shard. A
store inserts, a full delete empties the slot of its key, a read changes nothing and answers
from the table; reads stop only in the eviction at their head, in the page walk, at an empty
value or in the copy of the pair.
-/

namespace Virtkv

open Outcome OpenAddressing

namespace Shard

variable {d : Device} {s s' : Shard} {held : Option ℕ}

/-- One slot got another grain, on a page or none. -/
theorem Ready.puts (hr : s.Ready d held) {lpa ppa : ℕ} {mem : Option Bytes}
    (hk : Keeps d s s') (h : Puts d s s' lpa mem ppa)
    (hgrain : ppa ≠ uintMax → d.gIdx ppa < d.geo.ttPgs) : s'.Ready d held where
  locks i := (hk.locks i).trans (hr.locks i)
  page := hk.pages hr.page
  grain j hm := by
    by_cases hj : j = lpa
    · subst hj
      have hne := hm.2
      rw [h.grain] at hne ⊢
      exact hgrain hne
    · rw [h.others j hj]
      exact hr.grain j ((h.mapped_iff hj).mp hm)

theorem Ready.storeLoop (hfit : d.Fits) {key : Bytes} {total fuel cnt credits : ℕ} {sl : Slot}
    (hr : s.Ready d none) (hok : s.TableOk d)
    (h : storeLoop d key total fuel cnt credits s = .ok (sl, s')) :
    s'.Ready d (some (d.idx sl.lpa)) := by
  induction fuel generalizing s cnt credits with
  | zero => cases h
  | succ fuel ih =>
    simp only [Shard.storeLoop, bind_eq_ok] at h
    obtain ⟨⟨lpa, c⟩, hidx, s1, h1, s2, h2, s3, h3, h⟩ := h
    have hnext := Device.getHashIdx_eq_ok hidx
    have hs2 := (sameTable_makeRoom hfit.pagesFit hok.memOk h1).trans (sameTable_getHt h2)
    have hsec : d.SecFits (d.idx lpa) := by
      rw [hnext.slot]
      exact hfit.secFits _ _
    have hr3 := ((hr.makeRoom hfit.pagesFit hok.memOk h1).getHt h2).openSection hsec h3
    have hok3 := (opens_openSection hfit.pagesFit hsec h3).1.tableOk (hs2.tableOk hok)
    split at h
    · cases h
      exact hr3
    · simp only [bind_eq_ok] at h
      obtain ⟨x, -, r, -, h⟩ := h
      split at h
      · exact ih hr3.unlock ((sameTable_unlock s3 lpa).tableOk hok3) h
      · cases h
        exact hr3

/-- The state before the mapping of a store is updated. -/
theorem Ready.raises (hr : s.Ready d held) {c : ℕ} (h : Raises d s s' c) : s'.Ready d held where
  locks i := by
    unfold sec
    rw [h.secs]
    exact hr.locks i
  page i hi := by
    unfold sec at hi ⊢
    rw [h.secs] at hi ⊢
    exact hr.page i hi
  grain lpa hm := by
    have hgrain : s'.cache.hidxToGrain d lpa = s.cache.hidxToGrain d lpa := by
      unfold Cache.hidxToGrain
      rw [h.secs]
    unfold Mapped sec at hm
    rw [hgrain, h.secs] at hm
    rw [hgrain]
    exact hr.grain lpa hm

/-- Between commands: the table is a hash table, no lock is held, and the probe limit is in
the first half of the counts. -/
structure Sane (d : Device) (s : Shard) : Prop where
  tableOk : s.TableOk d
  ready : s.Ready d none
  maxTry : s.maxTry < 2 ^ 31

/-- A store stops in the first half of the counts, where the second half repeats. -/
theorem inserts_cnt_lt {t t' : Tab Bytes Pair} {k : Bytes} {c : ℕ} {p : Pair}
    (h : Inserts d.scheme t t' k c p) : c < 2 ^ 31 := by
  by_contra hge
  have hlt : c < 2 ^ 32 := h.usable.1
  have hsym : d.probe (d.hash32 k) (2 ^ 32 - 1 - c) = d.probe (d.hash32 k) c :=
    d.probe_symm _ (by omega)
  have hu : d.scheme.usable k (2 ^ 32 - 1 - c) := by
    refine ⟨by omega, ?_⟩
    rw [hsym]
    exact h.usable.2
  have hother := h.before (2 ^ 32 - 1 - c) (by omega) hu
  have hslot : d.scheme.slot k (2 ^ 32 - 1 - c) = d.scheme.slot k c := hsym
  rw [hslot] at hother
  cases hcell : t.cell (d.scheme.slot k c) with
  | missing => rw [hcell] at hother; exact hother
  | empty => rw [hcell] at hother; exact hother
  | full k' p' =>
    rw [hcell] at hother
    exact hother (h.free k' p' hcell)

/-- The append buffers play no part between commands. -/
theorem Sane.withBufs (hs : s.Sane d) (b : AppendBufs) : Sane d { s with appendBufs := b } where
  tableOk := hs.tableOk.withBufs b
  ready := ⟨hs.ready.locks, hs.ready.page, hs.ready.grain⟩
  maxTry := hs.maxTry

/-- The steps to a slot that gets a pair, and the release of its lock, insert the pair and
leave a sane shard. -/
theorem Sane.place (hfit : d.Fits) (hs : s.Sane d) {key : Bytes} {p : Pair} {sl : Slot}
    {readLen credits grain : ℕ} {s0 s1 : Shard}
    (hloop : Shard.storeLoop d key readLen (2 ^ 32) 0 credits { s with leftoverCredits := 0 } =
      .ok (sl, s0))
    (hsteps : StoreSteps d s s' key sl (PairMem.bytes key p) grain s0 s1)
    (hk : key.length ≤ maxKlen) (hv : p.value.length < 2 ^ 32) :
    (s'.unlock d sl.lpa).Sane d ∧
      Inserts d.scheme (s.tab d) ((s'.unlock d sl.lpa).tab d) key sl.cnt p := by
  obtain ⟨hins, hok2⟩ := hsteps.inserts hfit hs.tableOk hk hv
  have hsame : SameTable s { s with leftoverCredits := 0 } :=
    ⟨Cache.SameSecs.refl _, rfl, rfl, rfl⟩
  have hr0 : Ready d none { s with leftoverCredits := 0 } :=
    hs.ready.of_keeps hsame (.of_secs rfl)
  have hr1 := (hr0.storeLoop hfit (hsame.tableOk hs.tableOk) hloop).raises hsteps.raises
  have hr2 : s'.Ready d (some (d.idx sl.lpa)) :=
    hr1.puts hsteps.keeps hsteps.puts fun _ => hsteps.onPage
  have hu := sameTable_unlock (d := d) s' sl.lpa
  have hins' : Inserts d.scheme (s.tab d) ((s'.unlock d sl.lpa).tab d) key sl.cnt p := by
    rw [hu.tab_eq]
    exact hins
  refine ⟨⟨hu.tableOk hok2, hr2.unlock, ?_⟩, hins'⟩
  have hmax : (s'.unlock d sl.lpa).maxTry = max s.maxTry sl.cnt := hins'.maxTry
  have := inserts_cnt_lt hins
  have := hs.maxTry
  rw [hmax]
  omega

/-- A store that returns drops the append buffer of its key, inserts its value and leaves a
sane shard. -/
theorem Sane.store (hfit : d.Fits) {key value : Bytes} {junk : ℕ → UInt8} (hs : s.Sane d)
    (hv : value.length < 2 ^ 32) (h : s.store d key value junk = .ok s') :
    s'.Sane d ∧ s.dropAppendBuf key = .ok { s with appendBufs := s'.appendBufs } ∧ ∃ c rest,
      Inserts d.scheme (s.tab d) (s'.tab d) key c { value := value, rest := rest } := by
  obtain ⟨hk, b, hdrop, sl, rest, grain, credits, s0, s1, s2, hloop, hsteps, rfl⟩ :=
    store_steps hfit hs.tableOk h
  obtain ⟨hsane, hins⟩ := (hs.withBufs b).place hfit hloop hsteps hk hv
  have hbufs : (s2.unlock d sl.lpa).appendBufs = b := hsteps.appendBufs
  exact ⟨hsane, by rw [hbufs]; exact hdrop, sl.cnt, rest, hins⟩

theorem Sane.of_keeps (hs : s.Sane d) (h : SameTable s s') (hk : Keeps d s s') : s'.Sane d :=
  ⟨h.tableOk hs.tableOk, hs.ready.of_keeps h hk, by rw [h.maxTry]; exact hs.maxTry⟩

/-- An eviction moves mapping pages only. -/
theorem Sane.evictOne (hfit : d.PagesFit) (hs : s.Sane d) {n : ℕ}
    (h : s.evictOne d = .ok (n, s')) : s'.Sane d ∧ s'.tab d = s.tab d :=
  ⟨hs.of_keeps (sameTable_evictOne hfit hs.tableOk.memOk h)
    (keeps_evictOne hfit hs.tableOk.memOk h),
    (sameTable_evictOne hfit hs.tableOk.memOk h).tab_eq⟩

/-! ### Reads -/

theorem sameTable_beginRetrieve (hfit : d.PagesFit) (hs : s.Sane d)
    (h : s.beginRetrieve d = .ok s') : SameTable s s' ∧ Keeps d s s' := by
  have hsame : SameTable s { s with leftoverCredits := 0 } :=
    ⟨Cache.SameSecs.refl _, rfl, rfl, rfl⟩
  have hm := hsame.memOk hs.tableOk.memOk
  have hk : Keeps d s { s with leftoverCredits := 0 } := .of_secs rfl
  exact ⟨hsame.trans (sameTable_makeRoom hfit hm h), hk.trans (keeps_makeRoom hfit hm h)⟩

/-- What a read of a key answers. -/
def Answers (d : Device) (t : Tab Bytes Pair) (key : Bytes) (vlen rOffset : ℕ)
    (r : Except Fault Reply) : Prop :=
  (Absent d.scheme t key ∧ r = .ok Reply.notExist) ∨
    ∃ c p, FoundAt d.scheme t key c p ∧ r = readPair (PairMem.bytes key p) vlen rOffset

/-- The lookup gives one answer. -/
theorem Answers.unique {t : Tab Bytes Pair} {key : Bytes} {vlen rOffset : ℕ}
    {r r' : Except Fault Reply} (h : Answers d t key vlen rOffset r)
    (h' : Answers d t key vlen rOffset r') : r = r' := by
  rcases h with ⟨ha, rfl⟩ | ⟨c, p, hf, rfl⟩
  · rcases h' with ⟨-, rfl⟩ | ⟨c, p, hf, -⟩
    · rfl
    · exact absurd ha hf.not_absent
  · rcases h' with ⟨ha, -⟩ | ⟨c', p', hf', rfl⟩
    · exact absurd ha hf.not_absent
    · rw [(hf.unique hf').2]

/-- The ways a read does not return: in the eviction at its head, in the page walk, at an empty
value, or in the copy of the pair. -/
def ReadStops (d : Device) (s : Shard) (key : Bytes) (vlen rOffset : ℕ) (e : Fault) : Prop :=
  s.beginRetrieve d = .error e ∨ LoopStops d s e ∨ Answers d (s.tab d) key vlen rOffset (.error e)

/-- A lock that is held is released. -/
theorem Ready.releaseMap {lpa : ℕ} (hr : s.Ready d (some (d.idx lpa))) :
    s.releaseMap d lpa = .ok (s.unlock d lpa) := by
  have hheld : (s.cache.secs (d.idx lpa)).outgoing = true := by
    have := hr.locks (d.idx lpa)
    rwa [decide_eq_true rfl] at this
  rw [Shard.releaseMap, Cache.release, ensure_of hheld]
  rfl

/-- The probe loop from its first count on. -/
theorem Sane.lookup_yields (hfit : d.Fits) (hidx : d.Indexed) (hs : s.Sane d) (key : Bytes)
    (vlen rOffset : ℕ) (forDel : Bool) :
    Yields (retrieveLoop d key vlen rOffset forDel (2 ^ 32) 0 s) (LoopStops d s)
      (fun r => SameTable s r.2 ∧ r.2.flash = s.flash ∧ LookupSpec d s r.2 key r.1) :=
  retrieveLoop_yields hfit hidx vlen rOffset forDel hs.tableOk hs.ready hs.maxTry (by omega)
    (by omega) (fun i hi => absurd hi (Nat.not_lt_zero i))

theorem Sane.read_yields (hfit : d.Fits) (hidx : d.Indexed) (hs : s.Sane d) {key : Bytes}
    (hbuf : s.getAppendBuf key = none) (hlen : key.length ≤ maxKlen) (vlen : ℕ) {rOffset : ℕ}
    (hoff : rOffset % 4 = 0) :
    Yields (s.retrieve d key vlen rOffset false) (ReadStops d s key vlen rOffset)
      (fun x => Answers d (s.tab d) key vlen rOffset (.ok x.1) ∧ SameTable s x.2 ∧
        x.2.Sane d) := by
  rw [retrieve, ensure_of hoff, ok_bind, ensure_of hlen, ok_bind, hbuf]
  dsimp only
  unfold retrieveFromTable
  cases hbegin : s.beginRetrieve d with
  | error e => exact .inl hbegin
  | ok s1 =>
    rw [ok_bind]
    obtain ⟨hs1, hk1⟩ := sameTable_beginRetrieve hfit.pagesFit hs hbegin
    have hsane1 := hs.of_keeps hs1 hk1
    refine ((hsane1.lookup_yields hfit hidx key vlen rOffset false).mono
      (fun e he => .inr (.inl (he.of_sameTable hs1))) fun _ h => h).bind ?_
    rintro ⟨hit, s2⟩ ⟨hs2, -, hspec⟩
    have hs2' := hs1.trans hs2
    have hmax2 : s2.maxTry < 2 ^ 31 := by rw [hs2'.maxTry]; exact hs.maxTry
    have hok2 := hs2'.tableOk hs.tableOk
    -- a lock that is still held is released
    have hrelease : ∀ lpa, s2.Ready d (some (d.idx lpa)) →
        SameTable s (s2.unlock d lpa) ∧ (s2.unlock d lpa).Sane d := by
      intro lpa hr
      have hu := sameTable_unlock (d := d) s2 lpa
      exact ⟨hs2'.trans hu, hu.tableOk hok2, hr.unlock, by rw [hu.maxTry]; exact hmax2⟩
    cases hit with
    | miss held =>
      obtain ⟨habs, hr⟩ := hspec
      rw [hs1.tab_eq] at habs
      cases held with
      | none => exact ⟨.inl ⟨habs, rfl⟩, hs2', hok2, hr, hmax2⟩
      | some lpa =>
        dsimp only
        rw [hr.releaseMap]
        exact ⟨.inl ⟨habs, rfl⟩, hrelease lpa hr⟩
    | slot lpa pos x =>
      obtain ⟨c, p, hfound, -, -, hx, hr⟩ := hspec
      rw [hs1.tab_eq] at hfound
      have hmem : x.mem = PairMem.bytes key p := by rw [hx]; rfl
      dsimp only
      rw [if_neg Bool.false_ne_true, hmem]
      cases hread : readPair (PairMem.bytes key p) vlen rOffset with
      | error e => exact .inr (.inr (.inr ⟨c, p, hfound, hread.symm⟩))
      | ok r =>
        rw [ok_bind, hr.releaseMap]
        exact ⟨.inr ⟨c, p, hfound, hread.symm⟩, hrelease lpa hr⟩

theorem readSource_zero {klen : ℕ} (hk : klen ≤ maxKlen) (realVlen vlen : ℕ) :
    readSource realVlen klen vlen 0 =
      if vlen < realVlen then { status := .bufferSmall, valueLen := realVlen, rsvd := none }
      else { status := .success, valueLen := realVlen, rsvd := some (PairMem.metaSz klen) } := by
  have h16 : maxKlen = 16 := rfl
  have hmeta : PairMem.metaSz klen < 2 ^ 32 := by
    simp only [PairMem.metaSz, klenMarkerSz, vlenMarkerSz]
    omega
  unfold readSource
  generalize PairMem.metaSz klen = m at hmeta ⊢
  have hstart : (0 + m) % 2 ^ 32 = m := by rw [Nat.zero_add, Nat.mod_eq_of_lt hmeta]
  have hzero : (m + 2 ^ 32 - m) % 2 ^ 32 = 0 := by rw [Nat.add_sub_cancel_left, Nat.mod_self]
  dsimp only
  rw [hstart, hzero, if_neg (not_not.mpr rfl)]

/-- A read from the start: the whole value, or the buffer is too small. -/
theorem readPair_zero {k : Bytes} {p : Pair} (hk : k.length ≤ maxKlen) (hne : p.value ≠ [])
    (hv : p.value.length < 2 ^ 32) (vlen : ℕ) :
    readPair (PairMem.bytes k p) vlen 0 =
      .ok (if vlen < p.value.length then
          { status := .bufferSmall, valueLen := p.value.length, bytes := [] }
        else { status := .success, valueLen := p.value.length, bytes := p.value }) := by
  have hpos : 0 < p.value.length := List.length_pos_iff.mpr hne
  have hread := PairMem.read_value_bytes k p
  have hvlen : PairMem.vlenFromValue (PairMem.bytes k p) = .ok p.value.length := by
    rw [PairMem.vlenFromValue_bytes hk hv, ensure_of hpos, ok_bind]
    rfl
  rw [readPair, hvlen, ok_bind, PairMem.klenFromValue_bytes hk, ok_bind, readSource_zero hk]
  by_cases hlt : vlen < p.value.length
  · rw [if_pos hlt, if_pos hlt]
    rfl
  · rw [if_neg hlt, if_neg hlt]
    simp only [performRead, hread, ok_bind]
    rfl

/-! ### Deletes -/

/-- The delete of a whole pair empties its slot. -/
theorem Ready.deletePair (hfit : d.Fits) {lpa pos n : ℕ} {x : Found} {key : Bytes} {p : Pair}
    (hr : s.Ready d (some (d.idx lpa))) (hok : s.TableOk d) (hsec : d.SecFits (d.idx lpa))
    (hcell : s.cell d lpa = .full key p) (hpos : pos = (s.cache.hidxToGrain d lpa).2)
    (h : s.deletePair d lpa pos x = .ok (n, s')) :
    (s'.TableOk d ∧ s'.Ready d (some (d.idx lpa)) ∧ s'.appendBufs = s.appendBufs) ∧
      Deletes (s.tab d) (s'.tab d) lpa := by
  simp only [Shard.deletePair, bind_eq_ok] at h
  obtain ⟨f, -, hmap⟩ := h
  have hset := SameTable.setFlash s f
  have hok1 := hset.tableOk hok
  have hr1 : (s.setFlash f).Ready d (some (d.idx lpa)) := hr.of_keeps hset (.of_secs rfl)
  have hcell1 : (s.setFlash f).cell d lpa = .full key p := by
    rw [hset.cell_eq]
    exact hcell
  -- the slot is mapped, so its mapping is removed
  obtain ⟨hmapped, -⟩ := hok1.mapped_of_full hcell1
  rw [hpos, ← hset.hidxToGrain] at hmap
  have hput := puts_updateMap hfit.pagesFit hsec hok1 hmapped.1 (fun _ => hmapped.2) hmap
  have hkeep := keeps_updateMap hmapped.1 hmap
  have hempty : s'.cell d lpa = .empty :=
    cell_empty (fun hc => hmapped.1 ((hput.missing _).mp hc)) hput.grain
  exact ⟨⟨hput.tableOk hok1 fun hne => absurd rfl hne,
    hr1.puts hkeep hput fun hne => absurd rfl hne, hput.appendBufs⟩, hempty,
    fun j hj => hput.cell_of_ne hj, hput.maxTry⟩

/-- The delete of a part of a pair marks grains and keeps every slot. -/
theorem sameTable_deletePart {lpa off vlen n : ℕ} {x : Found}
    (h : s.deletePart d lpa off vlen x = .ok (n, s')) : SameTable s s' ∧ Keeps d s s' := by
  simp only [deletePart, bind_eq_ok] at h
  obtain ⟨p, -, g, -, f, -, h⟩ := h
  split at h
  · cases h
    exact ⟨.setFlash s f, .of_secs rfl⟩
  · simp only [bind_eq_ok] at h
    obtain ⟨⟨credits, f', log⟩, -, h⟩ := h
    cases h
    exact ⟨⟨Cache.SameSecs.refl _, rfl, rfl, rfl⟩, .of_secs rfl⟩

/-- What a delete does to the table when it finds its key in a slot. -/
def DeletesAt (vlen rOffset : ℕ) (t t' : Tab Bytes Pair) (j : ℕ) : Prop :=
  if rOffset = 0 ∧ vlen = 0 then Deletes t t' j else t' = t

/-- A delete that returns empties the slot in which its key was found, if it is a full one, and
changes no slot otherwise. -/
theorem Sane.delete (hfit : d.Fits) (hidx : d.Indexed) (hs : s.Sane d) {key : Bytes}
    (hbuf : s.getAppendBuf key = none) {vlen rOffset : ℕ} {r : Reply}
    (h : s.retrieve d key vlen rOffset true = .ok (r, s')) :
    s'.Sane d ∧ s'.appendBufs = s.appendBufs ∧
      ((Absent d.scheme (s.tab d) key ∧ r = Reply.notExist ∧ s'.tab d = s.tab d) ∨
        ∃ c p, FoundAt d.scheme (s.tab d) key c p ∧ r.status = .success ∧
          DeletesAt vlen rOffset (s.tab d) (s'.tab d) (d.scheme.slot key c)) := by
  simp only [retrieve, bind_eq_ok, ensure_eq_ok] at h
  obtain ⟨-, -, -, hlen, h⟩ := h
  rw [hbuf] at h
  simp only [retrieveFromTable, bind_eq_ok] at h
  obtain ⟨s1, hbegin, ⟨hit, s2⟩, hloop, h⟩ := h
  obtain ⟨hs1, hk1⟩ := sameTable_beginRetrieve hfit.pagesFit hs hbegin
  have hsane1 := hs.of_keeps hs1 hk1
  have hy := hsane1.lookup_yields hfit hidx key vlen rOffset true
  rw [hloop] at hy
  obtain ⟨hs2, -, hspec⟩ := hy
  have hs2' := hs1.trans hs2
  have hmax2 : s2.maxTry < 2 ^ 31 := by rw [hs2'.maxTry]; exact hs.maxTry
  have hok2 := hs2'.tableOk hs.tableOk
  cases hit with
  | miss held =>
    obtain ⟨habs, hr⟩ := hspec
    rw [hs1.tab_eq] at habs
    cases held with
    | none =>
      cases h
      exact ⟨⟨hok2, hr, hmax2⟩, hs2'.appendBufs, .inl ⟨habs, rfl, hs2'.tab_eq⟩⟩
    | some lpa =>
      dsimp only at h
      rw [hr.releaseMap] at h
      cases h
      have hu := sameTable_unlock (d := d) s2 lpa
      exact ⟨⟨hu.tableOk hok2, hr.unlock, by rw [hu.maxTry]; exact hmax2⟩,
        (hs2'.trans hu).appendBufs, .inl ⟨habs, rfl, (hs2'.trans hu).tab_eq⟩⟩
  | slot lpa pos x =>
    obtain ⟨c, p, hfound, hlpa, hpos, hx, hr⟩ := hspec
    rw [hs1.tab_eq] at hfound
    simp only [if_true, deleteAt, bind_eq_ok] at h
    obtain ⟨⟨credits, s3⟩, ⟨klen, -, hdel⟩, s5, hrel, h⟩ := h
    cases h
    have hcell : s2.cell d lpa = .full key p := by
      rw [hs2'.cell_eq, hlpa]
      exact hfound.cell
    have hsec : d.SecFits (d.idx lpa) := by
      rw [hlpa]
      exact hfit.secFits _ _
    have hpos2 : pos = (s2.cache.hidxToGrain d lpa).2 := by rw [hpos, hs2.hidxToGrain]
    -- the slot is emptied, or every slot is kept
    obtain ⟨hok3, hr3, hbufs3, hdel3, hmax3⟩ : s3.TableOk d ∧ s3.Ready d (some (d.idx lpa)) ∧
        s3.appendBufs = s2.appendBufs ∧
        DeletesAt vlen rOffset (s2.tab d) (s3.tab d) lpa ∧ s3.maxTry = s2.maxTry := by
      unfold DeletesAt
      split at hdel
      · rename_i hfull
        rw [if_pos hfull]
        obtain ⟨⟨hok3, hr3, hbufs⟩, hd⟩ := hr.deletePair hfit hok2 hsec hcell hpos2 hdel
        exact ⟨hok3, hr3, hbufs, hd, hd.maxTry⟩
      · rename_i hpart
        rw [if_neg hpart]
        obtain ⟨hsame, hkeep⟩ := sameTable_deletePart hdel
        exact ⟨hsame.tableOk hok2, hr.of_keeps hsame hkeep, hsame.appendBufs, hsame.tab_eq,
          hsame.maxTry⟩
    set s4 : Shard := { s3 with leftoverCredits := s3.leftoverCredits + credits } with hs4
    have hs34 : SameTable s3 s4 := ⟨Cache.SameSecs.refl _, rfl, rfl, rfl⟩
    have hr4 : s4.Ready d (some (d.idx lpa)) := hr3.of_keeps hs34 (.of_secs rfl)
    rw [hr4.releaseMap] at hrel
    cases hrel
    have hu := hs34.trans (sameTable_unlock (d := d) s4 lpa)
    refine ⟨⟨hu.tableOk hok3, hr4.unlock, by rw [hu.maxTry, hmax3]; exact hmax2⟩,
      hu.appendBufs.trans (hbufs3.trans hs2'.appendBufs), .inr ⟨c, p, hfound, rfl, ?_⟩⟩
    rw [← hs2'.tab_eq, hu.tab_eq, ← hlpa]
    exact hdel3

end Shard

end Virtkv
