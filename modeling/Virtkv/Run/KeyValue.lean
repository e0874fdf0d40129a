import Virtkv.Command.Sane
import Virtkv.Run.Defs

/-!
# A shard as a key-value store

Runs of stores, reads and deletes, with evictions in between. Every command acts on
the hash table of the shard as `Op.Acts` says. Without deletes the shard is a map from keys
to their last values. A full delete hides the keys that were put behind its slot, and a store
that meets such a gap makes a second copy of its key.

## Main results

- `retrieve_lastStore` — without deletes, reads return the last stored value
- `delete_keeps_reply_iff` — when a delete keeps the replies of another key
- `Runs.unique_of_noGap` — stores without a gap keep every key in one slot
-/

namespace Virtkv

open Outcome OpenAddressing

/-! ### What commands do to the table -/

/-- A command on a key of 1 to 16 bytes that does not append, or an eviction. -/
def Op.Fair : Op → Prop
  | .store key value _ => key ≠ [] ∧ key.length ≤ maxKlen ∧ value.length < 2 ^ 32
  | .append _ _ _ => False
  | .retrieve key _ _ => key ≠ [] ∧ key.length ≤ maxKlen
  | .delete key _ _ => key ≠ [] ∧ key.length ≤ maxKlen
  | .evict => True
  | .gc => False

/-- The value of a store is not empty, and its pair takes at most 63 pages. -/
def Op.Sized : Op → Prop
  | .store key value _ => value ≠ [] ∧
      PairMem.metaSz key.length + value.length ≤ 63 * pageSize
  | _ => True

/-- What a command does to the hash table. -/
def Op.Acts (d : Device) (t t' : Tab Bytes Pair) : Op → Prop
  | .store key value _ => ∃ c rest, Inserts d.scheme t t' key c { value := value, rest := rest }
  | .delete key vlen rOffset => (Absent d.scheme t key ∧ t' = t) ∨
      ∃ c p, FoundAt d.scheme t key c p ∧
        Shard.DeletesAt vlen rOffset t t' (d.scheme.slot key c)
  | _ => t' = t

/-- Between commands, with no append buffer in use. -/
structure Shard.Bare (d : Device) (s : Shard) : Prop where
  sane : s.Sane d
  bufs : ∀ i, (s.buf i).klen = 0

namespace Shard

variable {d : Device} {s s' : Shard} {op : Op}

theorem Bare.getAppendBuf_eq_none (hs : s.Bare d) {key : Bytes} (hkey : key ≠ []) :
    s.getAppendBuf key = none := by
  unfold getAppendBuf
  rw [List.find?_eq_none]
  intro i _ hi
  simp only [decide_eq_true_eq] at hi
  rw [hs.bufs i] at hi
  exact hkey (List.length_eq_zero_iff.mp hi.1.symm)

theorem Bare.of_appendBufs_eq (hs : s.Bare d) (h : s'.Sane d) (hb : s'.appendBufs = s.appendBufs) :
    s'.Bare d := by
  refine ⟨h, fun i => ?_⟩
  rw [buf, hb]
  exact hs.bufs i

theorem Bare.store (hfit : d.Fits) (hs : s.Bare d) {key value : Bytes} {junk : ℕ → UInt8}
    (hkey : key ≠ []) (hv : value.length < 2 ^ 32) (h : s.store d key value junk = .ok s') :
    s'.Bare d ∧ ∃ c rest,
      Inserts d.scheme (s.tab d) (s'.tab d) key c { value := value, rest := rest } := by
  obtain ⟨hsane, hdrop, hins⟩ := hs.sane.store hfit hv h
  rw [dropAppendBuf, hs.getAppendBuf_eq_none hkey] at hdrop
  exact ⟨hs.of_appendBufs_eq hsane (congrArg Shard.appendBufs (Except.ok.inj hdrop)).symm, hins⟩

theorem Bare.read_yields (hfit : d.Fits) (hidx : d.Indexed) (hs : s.Bare d) {key : Bytes}
    (hkey : key ≠ []) (hlen : key.length ≤ maxKlen) (vlen : ℕ) {rOffset : ℕ}
    (hoff : rOffset % 4 = 0) :
    Yields (s.retrieve d key vlen rOffset false) (ReadStops d s key vlen rOffset)
      (fun x => Answers d (s.tab d) key vlen rOffset (.ok x.1) ∧ x.2.tab d = s.tab d ∧
        x.2.Bare d) := by
  refine (hs.sane.read_yields hfit hidx (hs.getAppendBuf_eq_none hkey) hlen vlen hoff).post ?_
  rintro ⟨r, u⟩ ⟨hans, hsame, hsane⟩
  exact ⟨hans, hsame.tab_eq, hs.of_appendBufs_eq hsane hsame.appendBufs⟩

theorem Bare.read (hfit : d.Fits) (hidx : d.Indexed) (hs : s.Bare d) {key : Bytes}
    (hkey : key ≠ []) {vlen rOffset : ℕ} {r : Reply}
    (h : s.retrieve d key vlen rOffset false = .ok (r, s')) :
    s'.Bare d ∧ s'.tab d = s.tab d := by
  have hargs := h
  simp only [retrieve, bind_eq_ok, ensure_eq_ok] at hargs
  obtain ⟨-, hoff, -, hlen, -⟩ := hargs
  have hy := hs.read_yields hfit hidx hkey hlen vlen hoff
  rw [h] at hy
  obtain ⟨-, htab, hbare⟩ := hy
  exact ⟨hbare, htab⟩

/-- A delete that returns acts on the slot in which its key was found, if it was. -/
theorem Bare.delete (hfit : d.Fits) (hidx : d.Indexed) (hs : s.Bare d) {key : Bytes}
    (hkey : key ≠ []) {vlen rOffset : ℕ} {r : Reply}
    (h : s.retrieve d key vlen rOffset true = .ok (r, s')) :
    s'.Bare d ∧
      ((Absent d.scheme (s.tab d) key ∧ r = Reply.notExist ∧ s'.tab d = s.tab d) ∨
        ∃ c p, FoundAt d.scheme (s.tab d) key c p ∧ r.status = .success ∧
          DeletesAt vlen rOffset (s.tab d) (s'.tab d) (d.scheme.slot key c)) := by
  obtain ⟨hsane, hbufs, hdel⟩ := hs.sane.delete hfit hidx (hs.getAppendBuf_eq_none hkey) h
  exact ⟨hs.of_appendBufs_eq hsane hbufs, hdel⟩

/-- Every command leaves a bare shard. -/
theorem Bare.run (hfit : d.Fits) (hidx : d.Indexed) (hs : s.Bare d) (hop : op.Fair)
    (h : op.run d s = .ok s') : s'.Bare d ∧ op.Acts d (s.tab d) (s'.tab d) := by
  cases op with
  | store key value junk =>
    obtain ⟨hkey, -, hv⟩ := hop
    exact hs.store hfit hkey hv h
  | retrieve key vlen rOffset =>
    simp only [Op.run, bind_eq_ok] at h
    obtain ⟨⟨r, s1⟩, h1, h⟩ := h
    cases h
    exact hs.read hfit hidx hop.1 h1
  | delete key vlen rOffset =>
    simp only [Op.run, bind_eq_ok] at h
    obtain ⟨⟨r, s1⟩, h1, h⟩ := h
    cases h
    obtain ⟨hbare, hdel⟩ := hs.delete hfit hidx hop.1 h1
    refine ⟨hbare, ?_⟩
    rcases hdel with ⟨habs, -, htab⟩ | ⟨c, p, hf, -, hd⟩
    · exact .inl ⟨habs, htab⟩
    · exact .inr ⟨c, p, hf, hd⟩
  | evict =>
    simp only [Op.run, bind_eq_ok] at h
    obtain ⟨⟨n, s1⟩, h1, h⟩ := h
    cases h
    have hsame := sameTable_evictOne hfit.pagesFit hs.sane.tableOk.memOk h1
    have hsane := (hs.sane.evictOne hfit.pagesFit h1).1
    exact ⟨hs.of_appendBufs_eq hsane hsame.appendBufs, hsame.tab_eq⟩
  | append key data junk => exact hop.elim
  | gc => exact hop.elim

/-- A fresh shard has no section. -/
theorem missing_init (h : Shard.init d = .ok s) (lpa : ℕ) : s.cell d lpa = .missing := by
  simp only [Shard.init, bind_eq_ok] at h
  obtain ⟨f, -, h⟩ := h
  cases h
  rfl

theorem sane_init (h : Shard.init d = .ok s) : s.Sane d := by
  simp only [Shard.init, bind_eq_ok] at h
  obtain ⟨f, -, h⟩ := h
  cases h
  exact
    { tableOk :=
        { memOk := nofun
          pair := fun lpa hm => absurd rfl hm.1
          refines := fun _ i hi => absurd rfl hi }
      ready :=
        { locks := fun _ => rfl
          page := fun _ hi => absurd rfl hi
          grain := fun lpa hm => absurd rfl hm.1 }
      maxTry := Nat.two_pow_pos 31 }

theorem bare_init (h : Shard.init d = .ok s) : s.Bare d := by
  refine ⟨sane_init h, ?_⟩
  simp only [Shard.init, bind_eq_ok] at h
  obtain ⟨f, -, h⟩ := h
  cases h
  exact fun _ => rfl

end Shard

/-! ### Runs without deletes -/

/-- The value of the last store of a key. -/
def lastStore (key : Bytes) (ops : List Op) : Option Bytes :=
  ops.reverse.findSome? fun
    | .store k v _ => if k = key then some v else none
    | _ => none

/-- The table after a run without deletes: the map from keys to values that it holds. -/
structure ShowsMap (d : Device) (m : Bytes → Option Bytes) (s : Shard) : Prop where
  bare : s.Bare d
  chained : Chained d.scheme (s.tab d)
  holds : ∃ pairs, Holds (s.tab d) pairs ∧ ∀ k, (pairs k).map Pair.value = m k
  values : ∀ k v, m k = some v → v ≠ []

section

variable {d : Device} {s s' : Shard} {m : Bytes → Option Bytes}

theorem chained_init (h : Shard.init d = .ok s) : Chained d.scheme (s.tab d) := by
  intro j k v hj
  rw [show (s.tab d).cell j = .missing from Shard.missing_init h j] at hj
  cases hj

theorem showsMap_init (h : Shard.init d = .ok s) : ShowsMap d (fun _ => none) s where
  bare := Shard.bare_init h
  chained := chained_init h
  holds := by
    refine ⟨fun _ => none, fun k v => ⟨nofun, ?_⟩, fun _ => rfl⟩
    rintro ⟨j, hj⟩
    rw [show (s.tab d).cell j = .missing from Shard.missing_init h j] at hj
    cases hj
  values := nofun

theorem ShowsMap.of_tab_eq (hm : ShowsMap d m s) (hs : s'.Bare d) (h : s'.tab d = s.tab d) :
    ShowsMap d m s' := by
  refine ⟨hs, ?_, ?_, hm.values⟩
  · rw [h]
    exact hm.chained
  · rw [h]
    exact hm.holds

theorem lastStore_cons (key : Bytes) (op : Op) (ops : List Op) :
    lastStore key (op :: ops) = (lastStore key ops).or (lastStore key [op]) := by
  simp only [lastStore, List.reverse_cons, List.findSome?_append, List.reverse_nil, List.nil_append]

theorem lastStore_store (k key value : Bytes) (junk : ℕ → UInt8) :
    lastStore k [.store key value junk] = if key = k then some value else none := by
  unfold lastStore
  simp only [List.reverse_cons, List.reverse_nil, List.nil_append, List.findSome?_cons,
    List.findSome?_nil]
  split <;> simp_all

/-- A command that is not a delete updates the map at the key it stores. -/
theorem ShowsMap.run (hfit : d.Fits) (hidx : d.Indexed) (hm : ShowsMap d m s) {op : Op}
    (hop : op.Fair) (hsize : op.Sized) (hdel : ∀ key vlen rOffset, op ≠ .delete key vlen rOffset)
    (h : op.run d s = .ok s') :
    ShowsMap d (fun k => (lastStore k [op]).or (m k)) s' := by
  obtain ⟨hs', hacts⟩ := hm.bare.run hfit hidx hop h
  cases op with
  | store key value junk =>
    obtain ⟨c, rest, hins⟩ := hacts
    obtain ⟨pairs, hpairs, hval⟩ := hm.holds
    refine ⟨hs', hm.chained.insert hins, ⟨_, hpairs.insert hm.chained hins, fun k => ?_⟩,
      fun k v hv => ?_⟩
    · rw [lastStore_store]
      by_cases hk : k = key
      · subst hk
        rw [Function.update_self, if_pos rfl]
        rfl
      · rw [Function.update_of_ne hk, hval, if_neg (Ne.symm hk)]
        rfl
    · rw [lastStore_store] at hv
      by_cases hk : key = k
      · rw [if_pos hk] at hv
        cases hv
        exact hsize.1
      · rw [if_neg hk] at hv
        exact hm.values k v hv
  | retrieve key vlen rOffset => exact hm.of_tab_eq hs' hacts
  | delete key vlen rOffset => exact absurd rfl (hdel key vlen rOffset)
  | evict => exact hm.of_tab_eq hs' hacts
  | append key data junk => exact hop.elim
  | gc => exact hop.elim

theorem ShowsMap.runOps (hfit : d.Fits) (hidx : d.Indexed) {ops : List Op}
    (hm : ShowsMap d m s)
    (hops : ∀ op ∈ ops, (op.Fair ∧ op.Sized) ∧ ∀ key vlen rOffset, op ≠ .delete key vlen rOffset)
    (h : runOps d ops s = .ok s') : ShowsMap d (fun k => (lastStore k ops).or (m k)) s' := by
  induction ops generalizing s m with
  | nil =>
    cases h
    exact hm
  | cons op ops ih =>
    simp only [Virtkv.runOps, bind_eq_ok] at h
    obtain ⟨s1, h1, h⟩ := h
    obtain ⟨⟨hop, hsize⟩, hdel⟩ := hops op (List.mem_cons_self ..)
    have hrest := ih (hm.run hfit hidx hop hsize hdel h1)
      (fun o ho => hops o (List.mem_cons_of_mem _ ho)) h
    have heq : (fun k => (lastStore k (op :: ops)).or (m k)) =
        fun k => (lastStore k ops).or ((lastStore k [op]).or (m k)) := by
      funext k
      rw [lastStore_cons, Option.or_assoc]
    rw [heq]
    exact hrest

/-- The map of a slot. -/
theorem ShowsMap.of_full (hm : ShowsMap d m s) {lpa : ℕ} {key : Bytes} {p : Pair}
    (h : s.cell d lpa = .full key p) : m key = some p.value := by
  obtain ⟨pairs, hpairs, hval⟩ := hm.holds
  rw [← hval, (hpairs key p).mpr ⟨lpa, h⟩]
  rfl

/-- A mapped slot is on the probe sequence of a key, not behind the highest count in use. -/
theorem ShowsMap.exists_slot (hm : ShowsMap d m s) {lpa : ℕ} (hmap : s.Mapped d lpa) :
    ∃ k c, k.length ≤ maxKlen ∧ c ≤ s.maxTry ∧ d.scheme.slot k c = lpa := by
  obtain ⟨k, p, hcell, -, hk, -⟩ := hm.bare.sane.tableOk.cell_full hmap
  obtain ⟨c, -, hle, hslot, -⟩ := hm.chained lpa k p hcell
  exact ⟨k, c, hk, hle, hslot⟩

theorem ShowsMap.not_holdsEmpty (hm : ShowsMap d m s) : ¬s.HoldsEmpty d := by
  rintro ⟨lpa, key, p, hcell, hempty⟩
  exact hm.values key _ (hm.of_full hcell) hempty

/-- A read from the start answers from the map. -/
theorem ShowsMap.answers (hm : ShowsMap d m s) {key : Bytes} {vlen : ℕ}
    {r : Except Fault Reply} (h : Shard.Answers d (s.tab d) key vlen 0 r) :
    r = .ok (match m key with
      | none => Reply.notExist
      | some v => if vlen < v.length then { status := .bufferSmall, valueLen := v.length, bytes := [] }
        else { status := .success, valueLen := v.length, bytes := v }) := by
  rcases h with ⟨habs, rfl⟩ | ⟨c, p, hf, rfl⟩
  · obtain ⟨pairs, hpairs, hval⟩ := hm.holds
    have hnone : m key = none := by
      rw [← hval, Option.map_eq_none_iff, Option.eq_none_iff_forall_ne_some]
      intro p hp
      obtain ⟨j, hj⟩ := (hpairs key p).mp hp
      obtain ⟨c, -, hf⟩ := hm.chained.found hj
      exact hf.not_absent habs
    rw [hnone]
  · have hsome : m key = some p.value := hm.of_full hf.cell
    obtain ⟨-, -, hk, hv⟩ := hm.bare.sane.tableOk.mapped_of_full hf.cell
    rw [hsome, Shard.readPair_zero hk (hm.values key _ hsome) hv]

end

/-- After every run of stores and reads from a fresh device, a read from the start returns
the last stored value if it fits, and only a key that was never stored does not exist. The
read stops only in the eviction at its head or in the page walk. -/
theorem retrieve_lastStore (d : Device) (hfit : d.Fits) (hidx : d.Indexed) (s t : Shard)
    (ops : List Op) (hinit : Shard.init d = .ok s)
    (hops : ∀ op ∈ ops, (op.Fair ∧ op.Sized) ∧ ∀ key vlen rOffset, op ≠ .delete key vlen rOffset)
    (hrun : runOps d ops s = .ok t)
    (key : Bytes) (hkey : key ≠ []) (hlen : key.length ≤ maxKlen) (vlen : ℕ) :
    Yields (t.retrieve d key vlen 0 false)
      (fun e => t.beginRetrieve d = .error e ∨ e = .pageWalk)
      (fun x => (x.1.status = .keyNotExist ↔ lastStore key ops = none) ∧
        ∀ v, lastStore key ops = some v → v.length ≤ vlen →
          x.1 = { status := .success, valueLen := v.length, bytes := v }) := by
  have hm := (showsMap_init hinit).runOps hfit hidx hops hrun
  have heq : (fun k => (lastStore k ops).or none) = fun k => lastStore k ops := by
    funext k
    rw [Option.or_none]
  rw [heq] at hm
  refine (hm.bare.read_yields hfit hidx hkey hlen vlen rfl).mono ?_ ?_
  · rintro e (he | (he | ⟨-, he⟩) | he)
    · exact .inl he
    · exact .inr he
    · exact absurd he hm.not_holdsEmpty
    · cases hm.answers he
  · rintro ⟨r, u⟩ ⟨hans, -, -⟩
    have hr := hm.answers hans
    cases hlast : lastStore key ops with
    | none =>
      rw [hlast] at hr
      cases hr
      exact ⟨⟨fun _ => rfl, fun _ => rfl⟩, nofun⟩
    | some v =>
      rw [hlast] at hr
      dsimp only at hr
      refine ⟨⟨fun hst => ?_, nofun⟩, fun w hw hle => ?_⟩
      · split at hr <;> cases hr <;> cases hst
      · cases hw
        rw [if_neg (Nat.not_lt.mpr hle)] at hr
        cases hr
        rfl

/-- 128 lines of four pages, with four sections. Keys of one length have one hash. -/
def tableDevice : Device where
  build := .original
  geo :=
    { nchs := 1, lunsPerCh := 2, blksPerPl := 128, oneshotpgsPerBlk := 1, pgsPerOneshotpg := 2 }
  maxCached := 12
  hash := fun k => 1100 + k.length

theorem fits_tableDevice : tableDevice.Fits := ⟨by decide, by decide⟩

theorem indexed_tableDevice : tableDevice.Indexed := by
  intro hash c _
  have hlt := Nat.mod_lt ((hash + c + c * c) % 2 ^ 32) (show 0 < 4095 by decide)
  have hprobe : tableDevice.probe hash c = (hash + c + c * c) % 2 ^ 32 % 4095 + 1 := rfl
  have hidx : tableDevice.idx (tableDevice.probe hash c) = tableDevice.probe hash c / 1024 := rfl
  have hpages : tableDevice.nrValidTpages = 4 := rfl
  rw [hidx, hpages, hprobe]
  omega

/-- Two keys with one hash; the first is stored again. -/
def sharingOps : List Op :=
  [.store [1] [7] fun _ => 0, .store [2] [9] fun _ => 0, .evict, .store [1] [8] fun _ => 0,
    .retrieve [2] 8 0]

theorem retrieve_lastStore_sharing :
    ∃ s t x, Shard.init tableDevice = .ok s ∧ runOps tableDevice sharingOps s = .ok t ∧
      t.retrieve tableDevice [1] 8 0 false = .ok x ∧
      x.1 = { status := .success, valueLen := 1, bytes := [8] } := by
  obtain ⟨s, t, hs, ht, hp⟩ := exists_of_endsWith tableDevice sharingOps
    (fun t => (t.retrieve tableDevice [1] 8 0 false).isOk) (by decide +kernel)
  have hops : ∀ op ∈ sharingOps,
      (op.Fair ∧ op.Sized) ∧ ∀ key vlen rOffset, op ≠ .delete key vlen rOffset := by
    simp only [sharingOps, List.mem_cons, List.not_mem_nil, or_false]
    rintro op (rfl | rfl | rfl | rfl | rfl) <;>
      exact ⟨by simp [Op.Fair, Op.Sized, maxKlen, PairMem.metaSz, klenMarkerSz, vlenMarkerSz, pageSize],
        fun key vlen rOffset h => by cases h⟩
  have hread := retrieve_lastStore tableDevice fits_tableDevice indexed_tableDevice s t sharingOps
    hs hops ht [1] (by decide) (by decide) 8
  cases hx : t.retrieve tableDevice [1] 8 0 false with
  | error e =>
    rw [hx] at hp
    cases hp
  | ok x =>
    rw [hx] at hread
    exact ⟨s, t, x, hs, ht, hx, hread.2 [8] rfl (by decide)⟩

/-! ### A delete and the other keys -/

/-- The slot in which `j` is found comes before the one in which `k` is found, on the probe
sequence of `k`. -/
def Hides (S : Scheme Bytes) (t : Tab Bytes Pair) (j k : Bytes) : Prop :=
  ∃ c p c' q i, FoundAt S t k c p ∧ FoundAt S t j c' q ∧ i < c ∧ S.usable k i ∧
    S.slot k i = S.slot j c'

section

variable {d : Device} {s s' : Shard}

theorem Runs.bare {t : Shard} (hfit : d.Fits) (hidx : d.Indexed) {ok : Shard → Op → Prop}
    (hok : ∀ u op, ok u op → op.Fair) (hinit : Shard.init d = .ok s) (hr : Runs d ok s t) :
    t.Bare d :=
  hr.invariant (Shard.bare_init hinit) fun _ _ _ hs ho h => (hs.run hfit hidx (hok _ _ ho) h).1

theorem status_readSource (realVlen klen vlen rOffset : ℕ) :
    (Shard.readSource realVlen klen vlen rOffset).status ≠ .keyNotExist := by
  unfold Shard.readSource
  extract_lets start offset
  clear_value start offset
  split_ifs <;> exact nofun

theorem status_performRead {mem : Bytes} {x : Shard.Source} {r : Reply}
    (h : (do
      let bytes ← Shard.performRead mem x
      return ({ status := x.status, valueLen := x.valueLen, bytes := bytes } : Reply)) = .ok r) :
    r.status = x.status := by
  obtain ⟨b, -, h⟩ := bind_eq_ok.mp h
  cases h
  rfl

theorem status_readPair {mem : Bytes} {vlen rOffset : ℕ} {r : Reply}
    (h : Shard.readPair mem vlen rOffset = .ok r) : r.status ≠ .keyNotExist := by
  unfold Shard.readPair at h
  obtain ⟨n, -, h⟩ := bind_eq_ok.mp h
  obtain ⟨k, -, h⟩ := bind_eq_ok.mp h
  rw [status_performRead h]
  exact status_readSource n k vlen rOffset

/-- A delete changes the answers of the keys it hides, and of no other key. -/
theorem answers_delete_iff {t t' : Tab Bytes Pair} {j k : Bytes} (hjk : j ≠ k)
    (hacts : (Op.delete j 0 0).Acts d t t') {vlen rOffset : ℕ} {r r' : Reply}
    (h : Shard.Answers d t k vlen rOffset (.ok r))
    (h' : Shard.Answers d t' k vlen rOffset (.ok r')) : r = r' ↔ ¬Hides d.scheme t j k := by
  rcases hacts with ⟨habs, rfl⟩ | ⟨c', q, hj, hd : Deletes t t' (d.scheme.slot j c')⟩
  · refine iff_of_true (Except.ok.inj (h.unique h')) ?_
    rintro ⟨c, p, c', q, i, -, hj, -⟩
    exact hj.not_absent habs
  rcases h with ⟨habs, hr⟩ | ⟨c, p, hf, hr⟩
  · -- the key is missing before and after
    refine iff_of_true ?_ ?_
    · have hans : Shard.Answers d t' k vlen rOffset (.ok Reply.notExist) :=
        .inl ⟨habs.delete hd, rfl⟩
      cases hr
      exact Except.ok.inj (hans.unique h')
    · rintro ⟨c, p, c', q, i, hf, -⟩
      exact hf.not_absent habs
  have hne : d.scheme.slot j c' ≠ d.scheme.slot k c := by
    intro heq
    have hcell := hj.cell
    rw [heq, hf.cell] at hcell
    cases hcell
    exact hjk rfl
  by_cases hhid : Hides d.scheme t j k
  · refine iff_of_false ?_ (not_not.mpr hhid)
    obtain ⟨c₁, p₁, c₂, q₂, i, hf₁, hj₁, hlt, hu, hslot⟩ := hhid
    rw [← (hf.unique hf₁).1] at hlt
    rw [← (hj.unique hj₁).1] at hslot
    have hans : Shard.Answers d t' k vlen rOffset (.ok Reply.notExist) :=
      .inl ⟨hf.absent_of_delete hd hlt hu hslot, rfl⟩
    have hr' : r' = Reply.notExist := Except.ok.inj (h'.unique hans)
    rintro rfl
    exact status_readPair hr.symm (by rw [hr']; rfl)
  · refine iff_of_true ?_ hhid
    have hf' := (hf.delete_iff hd hne).mpr fun i hlt hu hslot =>
      hhid ⟨c, p, c', q, i, hf, hj, hlt, hu, hslot⟩
    have hans : Shard.Answers d t' k vlen rOffset (.ok r) := .inr ⟨c, p, hf', hr⟩
    exact Except.ok.inj (hans.unique h')

end

/-- In every state a run of stores, reads and deletes can reach, a full delete of a key
keeps the reply of a read of another key if and only if the slot it empties is not passed
on the way to that key. The reads stop only in the eviction at their head, in the page walk,
at an empty value or in the copy of the pair. -/
theorem delete_keeps_reply_iff (d : Device) (hfit : d.Fits) (hidx : d.Indexed) (s₀ s s' : Shard)
    (hinit : Shard.init d = .ok s₀) (hr : Runs d (fun _ op => op.Fair) s₀ s) (j k : Bytes)
    (hj : j ≠ []) (hk : k ≠ []) (hlen : k.length ≤ maxKlen) (hjk : j ≠ k) (r : Reply)
    (hdel : s.retrieve d j 0 0 true = .ok (r, s')) (vlen rOffset : ℕ) (hoff : rOffset % 4 = 0) :
    Yields (s.retrieve d k vlen rOffset false) (Shard.ReadStops d s k vlen rOffset) fun x =>
      Yields (s'.retrieve d k vlen rOffset false) (Shard.ReadStops d s' k vlen rOffset) fun y =>
        x.1 = y.1 ↔ ¬Hides d.scheme (s.tab d) j k := by
  have hs := hr.bare hfit hidx (fun _ _ h => h) hinit
  have hfair : (Op.delete j 0 0).Fair := by
    simp only [Shard.retrieve, bind_eq_ok, ensure_eq_ok] at hdel
    obtain ⟨-, -, -, hlenj, -⟩ := hdel
    exact ⟨hj, hlenj⟩
  have hrun : (Op.delete j 0 0).run d s = .ok s' := by
    rw [Op.run, hdel]
    rfl
  obtain ⟨hs', hacts⟩ := hs.run hfit hidx hfair hrun
  refine (hs.read_yields hfit hidx hk hlen vlen hoff).post fun x hx => ?_
  refine (hs'.read_yields hfit hidx hk hlen vlen hoff).post fun y hy => ?_
  exact answers_delete_iff hjk hacts hx.1 hy.1

/-- Two keys with one hash; the second is put behind the first. -/
def collidingOps : List Op := [.store [1] [7] fun _ => 0, .store [2] [9] fun _ => 0]

theorem fair_collidingOps (op : Op) (hop : op ∈ collidingOps) : op.Fair := by
  simp only [collidingOps, List.mem_cons, List.not_mem_nil, or_false] at hop
  rcases hop with rfl | rfl <;> simp [Op.Fair, maxKlen]

theorem delete_keeps_reply_iff_second :
    ∃ s₀ s s' r, Shard.init tableDevice = .ok s₀ ∧
      Runs tableDevice (fun _ op => op.Fair) s₀ s ∧
      s.retrieve tableDevice [2] 0 0 true = .ok (r, s') ∧
      Yields (s.retrieve tableDevice [1] 8 0 false) (Shard.ReadStops tableDevice s [1] 8 0) fun x =>
        Yields (s'.retrieve tableDevice [1] 8 0 false) (Shard.ReadStops tableDevice s' [1] 8 0)
          fun y => x.1 = y.1 ↔ ¬Hides tableDevice.scheme (s.tab tableDevice) [2] [1] := by
  obtain ⟨s₀, s, hs, ht, hp⟩ := exists_of_endsWith tableDevice collidingOps
    (fun t => (t.retrieve tableDevice [2] 0 0 true).isOk) (by decide +kernel)
  have hr : Runs tableDevice (fun _ op => op.Fair) s₀ s :=
    Runs.start.runOps (fun op hop _ => fair_collidingOps op hop) ht
  cases hx : s.retrieve tableDevice [2] 0 0 true with
  | error e =>
    rw [hx] at hp
    cases hp
  | ok x =>
    exact ⟨s₀, s, x.2, x.1, hs, hr, hx, delete_keeps_reply_iff tableDevice fits_tableDevice
      indexed_tableDevice s₀ s x.2 hs hr [2] [1] (by decide) (by decide) (by decide) (by decide)
      x.1 hx 8 0 rfl⟩

/-- The full delete of a key, and the reads of another key before and after it. -/
def readsAround (d : Device) (s : Shard) (j k : Bytes) (vlen : ℕ) :
    Except Fault (Shard × Reply × Reply) := do
  let (x, _) ← s.retrieve d k vlen 0 false
  let (_, s') ← s.retrieve d j 0 0 true
  let (y, _) ← s'.retrieve d k vlen 0 false
  return (s', x, y)

/-- The delete of the first key hides the second. -/
theorem delete_hides_second :
    ¬∀ d : Device, d.Fits → d.Indexed → ∀ s₀ s, Shard.init d = .ok s₀ →
      Runs d (fun _ op => op.Fair) s₀ s → ∀ j k : Bytes, j ≠ [] → k ≠ [] → k.length ≤ maxKlen →
      j ≠ k → ∀ r s', s.retrieve d j 0 0 true = .ok (r, s') → ∀ vlen x u y u',
      s.retrieve d k vlen 0 false = .ok (x, u) → s'.retrieve d k vlen 0 false = .ok (y, u') →
      x = y := by
  intro hall
  obtain ⟨s₀, s, hs, ht, hp⟩ := exists_of_endsWith tableDevice collidingOps
    (fun t => match readsAround tableDevice t [1] [2] 8 with
      | .ok z => decide (z.2.1 ≠ z.2.2)
      | .error _ => false) (by decide +kernel)
  have hr : Runs tableDevice (fun _ op => op.Fair) s₀ s :=
    Runs.start.runOps (fun op hop _ => fair_collidingOps op hop) ht
  split at hp
  · rename_i z hz
    simp only [readsAround, bind_eq_ok] at hz
    obtain ⟨⟨x, u⟩, hx, ⟨r, s'⟩, hdel, ⟨y, u'⟩, hy, hz⟩ := hz
    cases hz
    exact of_decide_eq_true hp (hall tableDevice fits_tableDevice indexed_tableDevice s₀ s hs hr
      [1] [2] (by decide) (by decide) (by decide) (by decide) r s' hdel 8 x u y u' hx hy)
  · cases hp

/-! ### Keys in one slot -/

/-- A store meets no free slot on its way to the one that holds its key. -/
def StoresInPlace (d : Device) (s : Shard) : Op → Prop
  | .store key _ _ => NoGap d.scheme (s.tab d) key
  | _ => True

/-- The table after a run in which stores meet no gap. -/
structure OneSlot (d : Device) (s : Shard) : Prop where
  bare : s.Bare d
  unique : Unique (s.tab d)

/-- The key is in no slot. -/
def Gone (d : Device) (key : Bytes) (s : Shard) : Prop := ∀ j p, s.cell d j ≠ .full key p

section

variable {d : Device} {s s' : Shard} {op : Op}

theorem oneSlot_init (h : Shard.init d = .ok s) : OneSlot d s where
  bare := Shard.bare_init h
  unique i j k v w hi _ := by
    rw [show (s.tab d).cell i = .missing from Shard.missing_init h i] at hi
    cases hi

theorem OneSlot.run (hfit : d.Fits) (hidx : d.Indexed) (hs : OneSlot d s) (hop : op.Fair)
    (hplace : StoresInPlace d s op) (h : op.run d s = .ok s') : OneSlot d s' := by
  obtain ⟨hsane, hacts⟩ := hs.bare.run hfit hidx hop h
  have hsame : s'.tab d = s.tab d → OneSlot d s' := by
    intro htab
    refine ⟨hsane, ?_⟩
    rw [htab]
    exact hs.unique
  cases op with
  | store key value junk =>
    obtain ⟨c, rest, hins⟩ := hacts
    exact ⟨hsane, hs.unique.insert hplace hins⟩
  | retrieve key vlen rOffset => exact hsame hacts
  | delete key vlen rOffset =>
    rcases hacts with ⟨-, htab⟩ | ⟨c, p, -, hd⟩
    · exact hsame htab
    · unfold Shard.DeletesAt at hd
      split at hd
      · exact ⟨hsane, hs.unique.delete hd⟩
      · exact hsame hd
  | evict => exact hsame hacts
  | append key data junk => exact hop.elim
  | gc => exact hop.elim

/-- A key comes back only by a store of it. -/
theorem Gone.run (hfit : d.Fits) (hidx : d.Indexed) {key : Bytes} (hs : s.Bare d)
    (hg : Gone d key s) (hop : op.Fair) (hno : ∀ value junk, op ≠ .store key value junk)
    (h : op.run d s = .ok s') : Gone d key s' := by
  obtain ⟨-, hacts⟩ := hs.run hfit hidx hop h
  have hsame : s'.tab d = s.tab d → Gone d key s' := by
    intro htab j p
    rw [show s'.cell d j = s.cell d j from congrArg (fun t => t.cell j) htab]
    exact hg j p
  cases op with
  | store k value junk =>
    obtain ⟨c, rest, hins⟩ := hacts
    have hk : k ≠ key := by
      rintro rfl
      exact hno value junk rfl
    intro j p hj
    by_cases hslot : j = d.scheme.slot k c
    · have hhere := hins.here
      rw [← hslot] at hhere
      cases hhere.symm.trans hj
      exact hk rfl
    · exact hg j p ((hins.full_iff hslot).mp hj)
  | retrieve k vlen rOffset => exact hsame hacts
  | delete k vlen rOffset =>
    rcases hacts with ⟨-, htab⟩ | ⟨c, p, -, hd⟩
    · exact hsame htab
    · unfold Shard.DeletesAt at hd
      split at hd
      · intro j q hj
        by_cases hslot : j = d.scheme.slot k c
        · have hhere := hd.here
          rw [← hslot] at hhere
          cases hhere.symm.trans hj
        · exact hg j q ((hd.others j hslot).symm.trans hj)
      · exact hsame hd
  | evict => exact hsame hacts
  | append key data junk => exact hop.elim
  | gc => exact hop.elim

/-- A delete that succeeds removes the only copy of its key. -/
theorem OneSlot.gone_of_delete (hfit : d.Fits) (hidx : d.Indexed) (hs : OneSlot d s)
    {key : Bytes} (hkey : key ≠ []) {r : Reply} (hst : r.status = .success)
    (h : s.retrieve d key 0 0 true = .ok (r, s')) : Gone d key s' := by
  obtain ⟨-, hdel⟩ := hs.bare.delete hfit hidx hkey h
  rcases hdel with ⟨-, rfl, -⟩ | ⟨c, p, hf, -, hd : Deletes _ _ _⟩
  · cases hst
  · intro j q hj
    by_cases hslot : j = d.scheme.slot key c
    · have hhere := hd.here
      rw [← hslot] at hhere
      cases hhere.symm.trans hj
    · have hold : (s.tab d).cell j = .full key q := (hd.others j hslot).symm.trans hj
      exact hslot (hs.unique j _ key q p hold hf.cell)

theorem Gone.read (hfit : d.Fits) (hidx : d.Indexed) (hs : s.Bare d) {key : Bytes}
    (hg : Gone d key s) (hkey : key ≠ []) (hlen : key.length ≤ maxKlen) (vlen : ℕ) {rOffset : ℕ}
    (hoff : rOffset % 4 = 0) :
    Yields (s.retrieve d key vlen rOffset false)
      (fun e => s.beginRetrieve d = .error e ∨ Shard.LoopStops d s e)
      (fun x => x.1 = Reply.notExist) := by
  have hans : ∀ r, Shard.Answers d (s.tab d) key vlen rOffset r → r = .ok Reply.notExist := by
    rintro r (⟨-, rfl⟩ | ⟨c, p, hf, -⟩)
    · rfl
    · exact absurd hf.cell (hg _ p)
  refine (hs.read_yields hfit hidx hkey hlen vlen hoff).mono ?_ fun x hx => ?_
  · rintro e (he | he | he)
    · exact .inl he
    · exact .inr he
    · cases hans _ he
  · exact Except.ok.inj (hans _ hx.1)

end

/-- Without deletes no store meets a gap. -/
theorem Runs.storesInPlace {d : Device} {s₀ s : Shard} (hfit : d.Fits) (hidx : d.Indexed)
    (hinit : Shard.init d = .ok s₀)
    (hr : Runs d (fun _ op => op.Fair ∧ ∀ key vlen rOffset, op ≠ .delete key vlen rOffset) s₀ s) :
    Runs d (fun u op => op.Fair ∧ StoresInPlace d u op) s₀ s := by
  suffices hall : Runs d (fun u op => op.Fair ∧ StoresInPlace d u op) s₀ s ∧
      s.Bare d ∧ Chained d.scheme (s.tab d) from hall.1
  induction hr with
  | start => exact ⟨.start, Shard.bare_init hinit, chained_init hinit⟩
  | @step u v op _ hok hrun ih =>
    obtain ⟨hpath, hb, hch⟩ := ih
    obtain ⟨hb', hacts⟩ := hb.run hfit hidx hok.1 hrun
    have hplace : StoresInPlace d u op := by
      cases op with
      | store key value junk => exact hch.noGap
      | _ => trivial
    refine ⟨hpath.step ⟨hok.1, hplace⟩ hrun, hb', ?_⟩
    have hsame : v.tab d = u.tab d → Chained d.scheme (v.tab d) := by
      intro htab
      rw [htab]
      exact hch
    cases op with
    | store key value junk =>
      obtain ⟨c, rest, hins⟩ := hacts
      exact hch.insert hins
    | delete key vlen rOffset => exact absurd rfl (hok.2 key vlen rOffset)
    | append key data junk => exact hok.1.elim
    | retrieve key vlen rOffset => exact hsame hacts
    | evict => exact hsame hacts
    | gc => exact hok.1.elim

/-- In every run of stores, reads and deletes in which no store meets a free slot on its way to
the one that holds its key, every key is in at most one mapped slot; and after a successful full
delete reads of the key find nothing until it is stored again. The reads stop only in the
eviction at their head, in the page walk or at an empty value. -/
theorem Runs.unique_of_noGap (d : Device) (hfit : d.Fits) (hidx : d.Indexed) (s₀ s : Shard)
    (hinit : Shard.init d = .ok s₀)
    (hr : Runs d (fun u op => op.Fair ∧ StoresInPlace d u op) s₀ s) :
    Unique (s.tab d) ∧ ∀ key : Bytes, key ≠ [] → key.length ≤ maxKlen → ∀ r s',
      s.retrieve d key 0 0 true = .ok (r, s') → r.status = .success →
      ∀ t, Runs d (fun u op => (op.Fair ∧ StoresInPlace d u op) ∧
          ∀ value junk, op ≠ .store key value junk) s' t →
        ∀ vlen rOffset, rOffset % 4 = 0 →
          Yields (t.retrieve d key vlen rOffset false)
            (fun e => t.beginRetrieve d = .error e ∨ Shard.LoopStops d t e)
            (fun x => x.1 = Reply.notExist) := by
  have hs : OneSlot d s := hr.invariant (oneSlot_init hinit)
    fun _ _ _ hu hok h => hu.run hfit hidx hok.1 hok.2 h
  refine ⟨hs.unique, fun key hkey hlen r s' hdel hst t ht vlen rOffset hoff => ?_⟩
  have hgone := hs.gone_of_delete hfit hidx hkey hst hdel
  have hsane := (hs.bare.delete hfit hidx hkey hdel).1
  obtain ⟨hsane', hgone'⟩ := ht.invariant (P := fun u => u.Bare d ∧ Gone d key u)
    ⟨hsane, hgone⟩ fun u v op hu hok h =>
      ⟨(hu.1.run hfit hidx hok.1.1 h).1, hu.2.run hfit hidx hu.1 hok.1.1 hok.2 h⟩
  exact hgone'.read hfit hidx hsane' hkey hlen vlen hoff

/-- A full delete of the first key, and an eviction. -/
def deleteAndEvict (d : Device) (s : Shard) : Except Fault ((Reply × Shard) × Shard) := do
  let x ← s.retrieve d [1] 0 0 true
  let t ← Op.evict.run d x.2
  return (x, t)

/-- Two keys with one hash; the first is stored again. -/
def overwritingOps : List Op := collidingOps ++ [.store [1] [8] fun _ => 0]

theorem unique_of_noGap_overwritten :
    ∃ s₀ s s' t r, Shard.init tableDevice = .ok s₀ ∧ runOps tableDevice overwritingOps s₀ = .ok s ∧
      s.retrieve tableDevice [1] 0 0 true = .ok (r, s') ∧ r.status = .success ∧
      Op.evict.run tableDevice s' = .ok t ∧ Unique (s.tab tableDevice) ∧
      Yields (t.retrieve tableDevice [1] 8 0 false)
        (fun e => t.beginRetrieve tableDevice = .error e ∨ Shard.LoopStops tableDevice t e)
        (fun x => x.1 = Reply.notExist) := by
  obtain ⟨s₀, s, hs, ht, hp⟩ := exists_of_endsWith tableDevice overwritingOps
    (fun t => match deleteAndEvict tableDevice t with
      | .ok z => decide (z.1.1.status = .success)
      | .error _ => false) (by decide +kernel)
  have hops : ∀ op ∈ overwritingOps, ∀ _ : Shard,
      op.Fair ∧ ∀ key vlen rOffset, op ≠ .delete key vlen rOffset := by
    simp only [overwritingOps, collidingOps, List.cons_append, List.nil_append, List.mem_cons,
      List.not_mem_nil, or_false]
    rintro op (rfl | rfl | rfl) _ <;>
      exact ⟨by simp [Op.Fair, maxKlen], fun key vlen rOffset h => by cases h⟩
  have hr := Runs.storesInPlace fits_tableDevice indexed_tableDevice hs (Runs.start.runOps hops ht)
  obtain ⟨huniq, hgone⟩ := Runs.unique_of_noGap tableDevice fits_tableDevice indexed_tableDevice
    s₀ s hs hr
  split at hp
  · rename_i z hz
    simp only [deleteAndEvict, bind_eq_ok] at hz
    obtain ⟨⟨r, s'⟩, hdel, t, hevict, hz⟩ := hz
    cases hz
    have hst := of_decide_eq_true hp
    have hok : (Op.evict.Fair ∧ StoresInPlace tableDevice s' .evict) ∧
        ∀ value junk, Op.evict ≠ .store [1] value junk :=
      ⟨⟨trivial, trivial⟩, fun value junk h => by cases h⟩
    exact ⟨s₀, s, s', t, r, hs, ht, hdel, hst, hevict, huniq,
      hgone [1] (by decide) (by decide) r s' hdel hst t (Runs.start.step hok hevict) 8 0 rfl⟩
  · cases hp

/-- The first key is deleted, and the second, which is behind it, is stored again. -/
def duplicatingOps : List Op := collidingOps ++ [.delete [1] 0 0, .store [2] [5] fun _ => 0]

/-- A delete of the second key and a store of the first, and then a read of the second. -/
def readAfterDelete (d : Device) (s : Shard) : Except Fault ((Reply × Shard) × Shard × Reply) := do
  let x ← s.retrieve d [2] 0 0 true
  let t ← (Op.store [1] [7] fun _ => 0).run d x.2
  let (y, _) ← t.retrieve d [2] 8 0 false
  return (x, t, y)

/-- The second key is back after its delete. -/
theorem deleted_key_returns :
    ¬∀ d : Device, d.Fits → d.Indexed → ∀ s₀ s, Shard.init d = .ok s₀ →
      Runs d (fun _ op => op.Fair) s₀ s →
      Unique (s.tab d) ∧ ∀ key : Bytes, key ≠ [] → key.length ≤ maxKlen → ∀ r s',
        s.retrieve d key 0 0 true = .ok (r, s') → r.status = .success →
        ∀ t, Runs d (fun _ op => op.Fair ∧ ∀ value junk, op ≠ .store key value junk) s' t →
          ∀ vlen x u, t.retrieve d key vlen 0 false = .ok (x, u) → x = Reply.notExist := by
  intro hall
  obtain ⟨s₀, s, hs, ht, hp⟩ := exists_of_endsWith tableDevice duplicatingOps
    (fun t => match readAfterDelete tableDevice t with
      | .ok z => decide (z.1.1.status = .success ∧ z.2.2 ≠ Reply.notExist)
      | .error _ => false) (by decide +kernel)
  have hfair : ∀ op ∈ duplicatingOps, op.Fair := by
    intro op hop
    rcases List.mem_append.mp hop with hop | hop
    · exact fair_collidingOps op hop
    · simp only [List.mem_cons, List.not_mem_nil, or_false] at hop
      rcases hop with rfl | rfl <;> simp [Op.Fair, maxKlen]
  have hr : Runs tableDevice (fun _ op => op.Fair) s₀ s :=
    Runs.start.runOps (fun op hop _ => hfair op hop) ht
  split at hp
  · rename_i z hz
    simp only [readAfterDelete, bind_eq_ok] at hz
    obtain ⟨⟨r, s'⟩, hdel, t, hstore, ⟨y, u⟩, hy, hz⟩ := hz
    cases hz
    obtain ⟨hst, hne⟩ := of_decide_eq_true hp
    refine hne ((hall tableDevice fits_tableDevice indexed_tableDevice s₀ s hs hr).2 [2] (by decide)
      (by decide) r s' hdel hst t (Runs.start.step ⟨?_, ?_⟩ hstore) 8 y u hy)
    · exact fair_collidingOps _ (List.mem_cons_self ..)
    · intro value junk heq
      cases heq
  · cases hp

end Virtkv
