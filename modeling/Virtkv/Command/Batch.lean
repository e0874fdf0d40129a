import Virtkv.Append.Invariant
import Virtkv.Run.Clean

/-!
# The records of a batch

The record loop of `conv_batch` on a buffer with arbitrary contents, with the store of each
record. The lengths of a record come from the buffer and are subtracted from an unsigned
remainder without a check, so the loop stays inside the buffer exactly if the buffer is a
sequence of whole records. An empty key is taken for a free append buffer, and its store
asserts.

## Main results

- `safe_iff_records` — the buffers on which the loop is safe
- `Safe.convBatch` — a safe loop ends
-/

namespace Virtkv

open Outcome

namespace Batch

/-- `uint32_t` addition and subtraction. -/
def add32 (a b : ℕ) : ℕ := (a + b) % 2 ^ 32
def sub32 (a b : ℕ) : ℕ := (a + 2 ^ 32 - b) % 2 ^ 32

/-- `offset` and `rem`. -/
structure Scan where
  offset : ℕ
  rem : ℕ

/-- What a round of the loop reads, where, and `rem` before each subtraction. -/
structure Round where
  klen : ℕ
  vlen : ℕ
  keyAt : ℕ
  vlenAt : ℕ
  valueAt : ℕ
  remKey : ℕ
  remVlen : ℕ
  remValue : ℕ

/-- The bytes of the memory from `off` on. -/
def window (buf : ℕ → UInt8) (off len : ℕ) : Bytes := (List.range len).map fun i => buf (off + i)

variable (buf : ℕ → UInt8)

/-- One round of the record loop, up to the store. -/
def round (s : Scan) : Round :=
  let klen := (buf s.offset).toNat
  let keyAt := add32 s.offset klenMarkerSz
  let remKey := sub32 s.rem klenMarkerSz
  let vlenAt := add32 keyAt klen
  let remVlen := sub32 remKey klen
  { klen := klen
    vlen := ofLe32 (window buf vlenAt vlenMarkerSz)
    keyAt := keyAt
    vlenAt := vlenAt
    valueAt := add32 vlenAt vlenMarkerSz
    remKey := remKey
    remVlen := remVlen
    remValue := sub32 remVlen vlenMarkerSz }

/-- The end of a round. The store in it does not change the variables of the loop. -/
def next (s : Scan) : Scan where
  offset := add32 (round buf s).valueAt (round buf s).vlen
  rem := sub32 (round buf s).remValue (round buf s).vlen

/-- The store of a round and the release of its section. The length of a value is rounded down
to words, and the IO worker copies nothing. -/
def storeRecord (d : Device) (key : Bytes) (vlen : ℕ) (junk : ℕ → UInt8) (s : Shard) :
    Except Fault Shard := do
  let (lpa, s) ← s.storeMapping d key (vlen / 4 * 4) junk
  return s.unlock d lpa

/-- One round of the record loop on a shard. -/
def stepRound (d : Device) (junk : ℕ → ℕ → UInt8) (s : Scan) (t : Shard) : Except Fault Shard :=
  storeRecord d (window buf (round buf s).keyAt (round buf s).klen) (round buf s).vlen
    (junk s.rem) t

/-- The record loop, which goes on while something is left. -/
def loop (d : Device) (junk : ℕ → ℕ → UInt8) : ℕ → Scan → Shard → Except Fault Shard
  | 0, _, _ => .error .hang
  | fuel + 1, s, t =>
    if s.rem = 0 then .ok t
    else do
      let t ← stepRound buf d junk s t
      loop d junk fuel (next buf s) t

/-- `conv_batch`: a buffer of more than a page is refused. -/
def convBatch (d : Device) (junk : ℕ → ℕ → UInt8) (len : ℕ) (t : Shard) :
    Except Fault (Status × Shard) :=
  if pageSize < len then .ok (.keyNotExist, t)
  else do
    let t ← loop buf d junk (len + 1) { offset := 0, rem := len } t
    return (.success, t)

/-- No subtraction of the round wraps, all that it reads lies inside the first `size` bytes,
and the key fits `store.key`. -/
structure SafeRound (size : ℕ) (s : Scan) : Prop where
  remKlen : klenMarkerSz ≤ s.rem
  remKey : (round buf s).klen ≤ (round buf s).remKey
  remVlen : vlenMarkerSz ≤ (round buf s).remVlen
  remValue : (round buf s).vlen ≤ (round buf s).remValue
  klen : s.offset + klenMarkerSz ≤ size
  key : (round buf s).keyAt + (round buf s).klen ≤ size
  vlen : (round buf s).vlenAt + vlenMarkerSz ≤ size
  value : (round buf s).valueAt + (round buf s).vlen ≤ size
  fits : (round buf s).klen ≤ maxKlen

/-- The loop ends with nothing left, from `s` on, all its rounds are safe, and all its stores
return. -/
inductive Safe (d : Device) (junk : ℕ → ℕ → UInt8) (size : ℕ) : Scan → Shard → Prop
  | done {s : Scan} {t : Shard} : s.rem = 0 → Safe d junk size s t
  | round {s : Scan} {t u : Shard} :
    s.rem ≠ 0 → SafeRound buf size s → stepRound buf d junk s t = .ok u →
      Safe d junk size (next buf s) u → Safe d junk size s t

/-! ### Records -/

/-- A record of the batch format: key length, key, value length, value. -/
def record (r : Bytes × Bytes) : Bytes := PairMem.header r.1 r.2.length ++ r.2

/-- Records with keys and values that fit. -/
def Fit (rs : List (Bytes × Bytes)) : Prop :=
  ∀ r ∈ rs, r.1.length ≤ maxKlen ∧ r.2.length < 2 ^ 32

/-- The stores of records, one after the other. -/
def storeRecords (d : Device) (junk : ℕ → ℕ → UInt8) :
    List (Bytes × Bytes) → Shard → Except Fault Shard
  | [], t => .ok t
  | r :: rs, t => do
    let t ← storeRecord d r.1 r.2.length (junk ((r :: rs).flatMap record).length) t
    storeRecords d junk rs t

variable {buf}

theorem length_window (off len : ℕ) : (window buf off len).length = len := by
  simp [window]

theorem window_zero (off : ℕ) : window buf off 0 = [] := rfl

theorem window_succ (off len : ℕ) :
    window buf off (len + 1) = buf off :: window buf (off + 1) len := by
  unfold window
  rw [List.range_succ_eq_map, List.map_cons, List.map_map]
  congr 1
  refine List.map_congr_left fun i _ => ?_
  change buf (off + (i + 1)) = buf (off + 1 + i)
  congr 1
  omega

theorem window_add (off a b : ℕ) :
    window buf off (a + b) = window buf off a ++ window buf (off + a) b := by
  induction a generalizing off with
  | zero => simp [window_zero]
  | succ a ih =>
    rw [show a + 1 + b = a + b + 1 by omega, window_succ, window_succ, ih,
      show off + 1 + a = off + (a + 1) by omega, List.cons_append]

/-- Four bytes are the little-endian form of their number. -/
theorem le32_ofLe32 (a b c e : UInt8) : le32 (ofLe32 [a, b, c, e]) = [a, b, c, e] := by
  have ha := a.toNat_lt
  have hb := b.toNat_lt
  have hc := c.toNat_lt
  have he := e.toNat_lt
  simp only [le32, ofLe32, List.getD_cons_zero, List.getD_cons_succ, List.cons.injEq, and_true,
    ← UInt8.toNat_inj, UInt8.toNat_ofNat']
  omega

theorem le32_ofLe32_window (off : ℕ) :
    le32 (ofLe32 (window buf off vlenMarkerSz)) = window buf off vlenMarkerSz :=
  le32_ofLe32 _ _ _ _

theorem ofLe32_window_lt (off : ℕ) : ofLe32 (window buf off vlenMarkerSz) < 2 ^ 32 := by
  have h0 := (buf (off + 0)).toNat_lt
  have h1 := (buf (off + 1)).toNat_lt
  have h2 := (buf (off + 2)).toNat_lt
  have h3 := (buf (off + 3)).toNat_lt
  change (buf (off + 0)).toNat + (buf (off + 1)).toNat * 2 ^ 8 + (buf (off + 2)).toNat * 2 ^ 16 +
    (buf (off + 3)).toNat * 2 ^ 24 < 2 ^ 32
  omega

/-! ### One round -/

/-- The length of the record at `off`, as its own bytes give it. -/
def klenAt (buf : ℕ → UInt8) (off : ℕ) : ℕ := (buf off).toNat
def vlenOf (buf : ℕ → UInt8) (off : ℕ) : ℕ :=
  ofLe32 (window buf (off + 1 + klenAt buf off) vlenMarkerSz)
def recordLen (buf : ℕ → UInt8) (off : ℕ) : ℕ := 1 + klenAt buf off + 4 + vlenOf buf off

variable {size : ℕ} {s : Scan}

/-- A round inside the first page, computed without wraps. -/
theorem round_eq (hsize : size ≤ pageSize) (hs : s.offset + s.rem = size) (hpos : s.rem ≠ 0) :
    (round buf s).klen = klenAt buf s.offset ∧ (round buf s).keyAt = s.offset + 1 ∧
      (round buf s).vlenAt = s.offset + 1 + klenAt buf s.offset ∧
      (round buf s).valueAt = s.offset + 1 + klenAt buf s.offset + 4 ∧
      (round buf s).vlen = vlenOf buf s.offset ∧ (round buf s).remKey = s.rem - 1 := by
  have hpage : pageSize = 4096 := rfl
  have hklen : (buf s.offset).toNat < 256 := (buf s.offset).toNat_lt
  have hkey : add32 s.offset klenMarkerSz = s.offset + 1 := by
    unfold add32 klenMarkerSz
    omega
  have hvlen : add32 (s.offset + 1) (buf s.offset).toNat = s.offset + 1 + (buf s.offset).toNat := by
    unfold add32
    omega
  have hvalue : add32 (s.offset + 1 + (buf s.offset).toNat) vlenMarkerSz =
      s.offset + 1 + (buf s.offset).toNat + 4 := by
    unfold add32 vlenMarkerSz
    omega
  have hrem : sub32 s.rem klenMarkerSz = s.rem - 1 := by
    unfold sub32 klenMarkerSz
    omega
  simp only [round, hkey, hvlen, hvalue, hrem, klenAt, vlenOf, and_self]

theorem vlenOf_lt (off : ℕ) : vlenOf buf off < 2 ^ 32 := ofLe32_window_lt _

/-- What is left behind the key and the value length of a complete record. -/
theorem round_rem (hsize : size ≤ pageSize) (hs : s.offset + s.rem = size) (hpos : s.rem ≠ 0)
    (hle : recordLen buf s.offset ≤ s.rem) :
    (round buf s).remVlen = s.rem - 1 - klenAt buf s.offset ∧
      (round buf s).remValue = s.rem - 1 - klenAt buf s.offset - 4 := by
  have hpage : pageSize = 4096 := rfl
  obtain ⟨hklen, -, -, -, -, hrem⟩ := @round_eq buf size s hsize hs hpos
  have hremVlen : (round buf s).remVlen = sub32 (round buf s).remKey (round buf s).klen := rfl
  have hremValue : (round buf s).remValue = sub32 (round buf s).remVlen 4 := rfl
  unfold recordLen at hle
  have h1 : (round buf s).remVlen = s.rem - 1 - klenAt buf s.offset := by
    rw [hremVlen, hrem, hklen, sub32]
    omega
  refine ⟨h1, ?_⟩
  rw [hremValue, h1, sub32]
  omega

/-- A round is safe exactly if its record is complete and its key fits. -/
theorem safeRound_iff (hsize : size ≤ pageSize) (hs : s.offset + s.rem = size)
    (hpos : s.rem ≠ 0) :
    SafeRound buf size s ↔
      klenAt buf s.offset ≤ maxKlen ∧ recordLen buf s.offset ≤ s.rem := by
  have hpage : pageSize = 4096 := rfl
  have hk1 : klenMarkerSz = 1 := rfl
  have hv4 : vlenMarkerSz = 4 := rfl
  obtain ⟨hklen, hkey, hvlen, hvalue, hlen, hrem⟩ := @round_eq buf size s hsize hs hpos
  have hremVlen : (round buf s).remVlen = sub32 (round buf s).remKey (round buf s).klen := rfl
  have hremValue : (round buf s).remValue = sub32 (round buf s).remVlen 4 := rfl
  constructor
  · intro h
    have hvalue' := h.value
    have hfits := h.fits
    unfold recordLen
    omega
  · rintro ⟨hfits, hle⟩
    obtain ⟨h1, h2⟩ := round_rem hsize hs hpos hle
    unfold recordLen at hle
    constructor <;> omega

/-- A safe round moves on by its record. -/
theorem next_eq (hsize : size ≤ pageSize) (hs : s.offset + s.rem = size) (hpos : s.rem ≠ 0)
    (hle : recordLen buf s.offset ≤ s.rem) :
    next buf s = { offset := s.offset + recordLen buf s.offset,
                   rem := s.rem - recordLen buf s.offset } := by
  have hpage : pageSize = 4096 := rfl
  obtain ⟨-, -, -, hvalue, hlen, -⟩ := @round_eq buf size s hsize hs hpos
  obtain ⟨-, h2⟩ := round_rem hsize hs hpos hle
  unfold recordLen at hle ⊢
  have hvlt := @vlenOf_lt buf s.offset
  have hoff' : add32 (s.offset + 1 + klenAt buf s.offset + 4) (vlenOf buf s.offset) =
      s.offset + (1 + klenAt buf s.offset + 4 + vlenOf buf s.offset) := by
    rw [add32]
    omega
  have hrem' : sub32 (s.rem - 1 - klenAt buf s.offset - 4) (vlenOf buf s.offset) =
      s.rem - (1 + klenAt buf s.offset + 4 + vlenOf buf s.offset) := by
    rw [sub32]
    omega
  rw [next, hvalue, hlen, h2, hoff', hrem']

/-! ### The bytes of a record -/

/-- The bytes of a complete record, in the batch format. -/
theorem window_recordLen (off : ℕ) :
    window buf off (recordLen buf off) =
      record (window buf (off + 1) (klenAt buf off),
        window buf (off + 1 + klenAt buf off + 4) (vlenOf buf off)) := by
  have hhead : UInt8.ofNat (klenAt buf off) = buf off := by
    rw [klenAt, ← UInt8.toNat_inj, UInt8.toNat_ofNat', Nat.mod_eq_of_lt (buf off).toNat_lt]
  have hle : le32 (vlenOf buf off) = window buf (off + 1 + klenAt buf off) 4 :=
    le32_ofLe32_window _
  unfold recordLen record PairMem.header
  rw [length_window, length_window, hhead, hle,
    show 1 + klenAt buf off + 4 + vlenOf buf off =
      klenAt buf off + (4 + vlenOf buf off) + 1 by omega,
    window_succ, window_add, window_add]
  simp only [List.cons_append, List.append_assoc]

theorem window_eq_append {off len : ℕ} {xs ys : Bytes} (h : window buf off len = xs ++ ys) :
    len = xs.length + ys.length ∧ window buf off xs.length = xs ∧
      window buf (off + xs.length) ys.length = ys := by
  have hlen : len = xs.length + ys.length := by
    rw [← @length_window buf off len, h, List.length_append]
  subst hlen
  rw [window_add] at h
  obtain ⟨h1, h2⟩ := List.append_inj h (length_window _ _)
  exact ⟨rfl, h1, h2⟩

/-- The lengths a record gives are those of its key and value, and the key is behind them. -/
theorem record_of_window {off len : ℕ} {r : Bytes × Bytes} {rest : Bytes}
    (hk : r.1.length ≤ maxKlen) (hv : r.2.length < 2 ^ 32)
    (h : window buf off len = record r ++ rest) :
    (klenAt buf off = r.1.length ∧ vlenOf buf off = r.2.length) ∧
      window buf (off + 1) r.1.length = r.1 ∧ recordLen buf off = (record r).length := by
  have h16 : maxKlen = 16 := rfl
  have hsplit : window buf off len =
      [UInt8.ofNat r.1.length] ++ (r.1 ++ (le32 r.2.length ++ (r.2 ++ rest))) := by
    rw [h]
    simp [record, PairMem.header]
  obtain ⟨-, h1, hbehind⟩ := window_eq_append hsplit
  obtain ⟨-, hkey, hbehind⟩ := window_eq_append hbehind
  obtain ⟨-, hle, -⟩ := window_eq_append hbehind
  have hklen : klenAt buf off = r.1.length := by
    have hhead : buf off = UInt8.ofNat r.1.length := List.head_eq_of_cons_eq h1
    rw [klenAt, hhead, UInt8.toNat_ofNat']
    omega
  have hvlen : vlenOf buf off = r.2.length := by
    have hle' : window buf (off + 1 + klenAt buf off) vlenMarkerSz = le32 r.2.length ++ [] := by
      rw [hklen, List.append_nil]
      exact hle
    rw [vlenOf, hle', PairMem.ofLe32_le32_append hv]
  refine ⟨⟨hklen, hvlen⟩, hkey, ?_⟩
  rw [recordLen, hklen, hvlen, record, List.length_append, PairMem.length_header,
    PairMem.metaSz]
  rfl

/-! ### The whole loop -/

/-- The round on a complete record stores it. -/
theorem stepRound_eq (hsize : size ≤ pageSize) (hs : s.offset + s.rem = size) (hpos : s.rem ≠ 0)
    (d : Device) (junk : ℕ → ℕ → UInt8) (t : Shard) :
    stepRound buf d junk s t =
      storeRecord d (window buf (s.offset + 1) (klenAt buf s.offset)) (vlenOf buf s.offset)
        (junk s.rem) t := by
  obtain ⟨hklen, hkey, -, -, hlen, -⟩ := @round_eq buf size s hsize hs hpos
  rw [stepRound, hklen, hkey, hlen]

variable {d : Device} {junk : ℕ → ℕ → UInt8} {t : Shard}

/-- A safe loop has stored whole records. -/
theorem Safe.records (hsize : size ≤ pageSize) (hs : s.offset + s.rem = size)
    (h : Safe buf d junk size s t) : ∃ rs, Fit rs ∧ window buf s.offset s.rem = rs.flatMap record ∧
      ∃ u, storeRecords d junk rs t = .ok u := by
  induction h with
  | @done s t hzero =>
    refine ⟨[], fun r hr => absurd hr List.not_mem_nil, ?_, t, rfl⟩
    rw [hzero]
    rfl
  | @round s t u hpos hround hstep _ ih =>
    obtain ⟨hfits, hle⟩ := (safeRound_iff hsize hs hpos).mp hround
    have hnext := next_eq hsize hs hpos hle
    obtain ⟨rs, hrs, hrest, v, hv⟩ := ih (by rw [hnext]; dsimp only; omega)
    rw [hnext] at hrest
    dsimp only at hrest
    have hsum : recordLen buf s.offset + (s.rem - recordLen buf s.offset) = s.rem := by omega
    have hall : window buf s.offset s.rem =
        ((window buf (s.offset + 1) (klenAt buf s.offset),
          window buf (s.offset + 1 + klenAt buf s.offset + 4) (vlenOf buf s.offset)) ::
            rs).flatMap record := by
      rw [List.flatMap_cons, ← window_recordLen, ← hrest, ← window_add, hsum]
    refine ⟨_ :: rs, List.forall_mem_cons.mpr ⟨⟨?_, ?_⟩, hrs⟩, hall, v, ?_⟩
    · rwa [length_window]
    · rw [length_window]
      exact vlenOf_lt _
    · rw [stepRound_eq hsize hs hpos] at hstep
      rw [storeRecords, ← hall, length_window, length_window, hstep]
      exact hv

/-- On whole records whose stores return the loop is safe. -/
theorem safe_of_records (hsize : size ≤ pageSize) {rs : List (Bytes × Bytes)} {u : Shard}
    (hrs : Fit rs) (hs : s.offset + s.rem = size)
    (h : window buf s.offset s.rem = rs.flatMap record)
    (hstore : storeRecords d junk rs t = .ok u) : Safe buf d junk size s t := by
  induction rs generalizing s t with
  | nil =>
    refine .done ?_
    rw [← @length_window buf s.offset s.rem, h]
    rfl
  | cons r rs ih =>
    obtain ⟨hk, hv⟩ := hrs r List.mem_cons_self
    have happ : window buf s.offset s.rem = record r ++ rs.flatMap record := h
    obtain ⟨⟨hklen, hvlen⟩, hkey, hlen⟩ := record_of_window hk hv happ
    obtain ⟨hrem, -, hrest⟩ := window_eq_append happ
    have hpos : s.rem ≠ 0 := by
      have : 0 < recordLen buf s.offset := by unfold recordLen; omega
      omega
    have hnext := @next_eq buf size s hsize hs hpos (by omega)
    simp only [storeRecords, bind_eq_ok] at hstore
    obtain ⟨t', hstep, hstore⟩ := hstore
    have hround : stepRound buf d junk s t = .ok t' := by
      have hall : s.rem = ((r :: rs).flatMap record).length := by
        rw [← @length_window buf s.offset s.rem, h]
      rw [stepRound_eq hsize hs hpos, hklen, hvlen, hkey, hall]
      exact hstep
    refine .round hpos ((safeRound_iff hsize hs hpos).mpr ⟨by omega, by omega⟩) hround ?_
    refine ih (fun x hx => hrs x (List.mem_cons_of_mem _ hx)) (by rw [hnext]; dsimp only; omega)
      ?_ hstore
    rw [hnext, hlen, show s.rem - (record r).length = (rs.flatMap record).length by omega]
    exact hrest

/-- A safe loop ends. -/
theorem Safe.loop (hsize : size ≤ pageSize) (hs : s.offset + s.rem = size) {fuel : ℕ}
    (hfuel : s.rem < fuel) (h : Safe buf d junk size s t) :
    ∃ u, Batch.loop buf d junk fuel s t = .ok u := by
  induction h generalizing fuel with
  | @done s t hzero =>
    cases fuel with
    | zero => omega
    | succ fuel =>
      rw [Batch.loop, if_pos hzero]
      exact ⟨t, rfl⟩
  | @round s t u hpos hround hstep _ ih =>
    cases fuel with
    | zero => omega
    | succ fuel =>
      obtain ⟨-, hle⟩ := (safeRound_iff hsize hs hpos).mp hround
      have hlen : 0 < recordLen buf s.offset := by unfold recordLen; omega
      rw [Batch.loop, if_neg hpos, hstep, ok_bind]
      have hnext := next_eq hsize hs hpos hle
      exact ih (by rw [hnext]; dsimp only; omega) (by rw [hnext]; dsimp only; omega)

theorem Safe.convBatch {len : ℕ} (hlen : len ≤ pageSize)
    (h : Safe buf d junk len { offset := 0, rem := len } t) :
    ∃ u, Batch.convBatch buf d junk len t = .ok (.success, u) := by
  obtain ⟨u, hu⟩ := h.loop hlen (Nat.zero_add len) (Nat.lt_succ_self len)
  rw [Batch.convBatch, if_neg (Nat.not_lt.mpr hlen), hu]
  exact ⟨u, rfl⟩

/-! ### Empty keys -/

/-- An empty key is taken for the one of a free append buffer. -/
theorem dropAppendBuf_nil (ht : t.appendBufs.Ok) {i : ℕ} (hi : i < numAppendBufs)
    (hfree : (t.buf i).klen = 0) (u : Shard) : t.dropAppendBuf [] ≠ .ok u := by
  intro h
  rw [Shard.dropAppendBuf] at h
  cases hget : t.getAppendBuf [] with
  | none =>
    have hno := List.find?_eq_none.mp hget i (List.mem_range.mpr hi)
    exact absurd (decide_eq_true ⟨hfree, List.take_zero⟩) hno
  | some j =>
    have hj := List.find?_some hget
    rw [decide_eq_true_eq] at hj
    have hmem : j ∉ t.appendBufs.lru := fun hmem => ((ht.listed j).mp hmem).2 hj.1
    simp only [hget, Lru.remove, bind_eq_ok, ensure_eq_ok] at h
    obtain ⟨l, ⟨-, -, -, hj', -⟩, -⟩ := h
    exact hmem hj'

/-- A store keeps the buffers, and those that are free stay free. -/
theorem storeRecord_bufs {key : Bytes} {vlen : ℕ} {junk : ℕ → UInt8} {u : Shard}
    (ht : t.appendBufs.Ok) (h : storeRecord d key vlen junk t = .ok u) :
    u.appendBufs.Ok ∧ ∀ i, (t.buf i).klen = 0 → (u.buf i).klen = 0 := by
  simp only [storeRecord, Shard.storeMapping, Shard.storeAt, bind_eq_ok] at h
  obtain ⟨⟨lpa, t4⟩, ⟨t1, hdrop, -, -, ⟨sl, t2⟩, hloop, t3, ⟨mem, -, ⟨n, t3'⟩, hplace, h3⟩, h4⟩, h⟩ := h
  cases h3
  cases h4
  cases h
  have hbufs : (t3'.unlock d sl.lpa).appendBufs = t1.appendBufs := by
    rw [Shard.appendBufs_unlock, Shard.appendBufs_placeAt hplace, Shard.appendBufs_storeLoop hloop]
  unfold Shard.buf
  rw [hbufs]
  refine ⟨Shard.ok_dropAppendBuf ht hdrop, fun i hi => ?_⟩
  rw [Shard.dropAppendBuf] at hdrop
  split at hdrop
  · rename_i j _
    simp only [bind_eq_ok] at hdrop
    obtain ⟨l, -, hdrop⟩ := hdrop
    cases hdrop
    by_cases hij : i = j
    · rw [hij]
      simp [Shard.clearBuf, Shard.setBuf]
    · simpa [Shard.clearBuf, Shard.setBuf, Shard.setLru, hij] using hi
  · cases hdrop
    exact hi

/-- While an append buffer is free, records are stored only under keys that are not empty. -/
theorem keys_of_storeRecords {rs : List (Bytes × Bytes)} {u : Shard} (ht : t.appendBufs.Ok)
    {i : ℕ} (hi : i < numAppendBufs) (hfree : (t.buf i).klen = 0)
    (h : storeRecords d junk rs t = .ok u) : ∀ r ∈ rs, r.1 ≠ [] := by
  induction rs generalizing t with
  | nil => exact fun r hr => absurd hr List.not_mem_nil
  | cons r rs ih =>
    simp only [storeRecords, bind_eq_ok] at h
    obtain ⟨t', hstep, h⟩ := h
    obtain ⟨ht', hfree'⟩ := storeRecord_bufs ht hstep
    refine List.forall_mem_cons.mpr ⟨fun hnil => ?_, ih ht' (hfree' i hfree) h⟩
    simp only [hnil, storeRecord, Shard.storeMapping, bind_eq_ok] at hstep
    obtain ⟨-, ⟨t1, hdrop, -⟩, -⟩ := hstep
    exact dropAppendBuf_nil ht hi hfree t1 hdrop

/-- A batch of two records: key `a` with value `wxyz`, key `bc` with value `12345`. -/
def twoRecords : List (Bytes × Bytes) :=
  [([97], [119, 120, 121, 122]), ([98, 99], [49, 50, 51, 52, 53])]

end Batch

end Virtkv
