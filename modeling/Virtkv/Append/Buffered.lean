import Virtkv.Append.Invariant
import Virtkv.Run.Clean

/-!
# Deletes of buffered data

`__retrieve` finds a key in its append buffer before it looks at the table, and a delete edits
the buffer: it moves bytes over the deleted range and counts them in `inv_cnts`, which only a
flush takes off the length. What is in the buffer for the host, for the next append and for a
flush is compared here with the bytes the host has appended and not deleted.

A delete of a range of one byte or more leaves the length that retrieves and appends go by, and
a delete of the whole key with offset and length 0 is a delete of no bytes.

## Main results

- `Holds.retrieveFromBuf_read` — a read of a buffered key returns a part of the data
- `sees_of_bufRuns` — runs whose deletes have nothing to delete, and the deletes that may follow
-/

namespace Virtkv

open Outcome

namespace PairMem

variable {mem mem' src : List UInt8} {off : ℕ}

theorem write_nil (h : off ≤ mem.length) : write mem off [] = .ok mem := by
  rw [write, List.length_nil, Nat.add_zero, ensure_of h, List.append_nil, List.take_append_drop]
  rfl

/-- The bytes up to the end of a write. -/
theorem take_write (h : write mem off src = .ok mem') :
    mem'.take (off + src.length) = mem.take off ++ src := by
  obtain ⟨hle, rfl⟩ := write_eq_ok h
  rw [← List.append_assoc, List.take_left']
  rw [List.length_append, List.length_take]
  omega

end PairMem

namespace Buffered

/-- The data of a buffer: the bytes behind the header. -/
def data (b : AppendBuf) : List UInt8 := (b.bytes.take b.wbIdx).drop (PairMem.metaSz b.klen)

/-- A key has buffer `i`. -/
structure Holds (s : Shard) (key : List UInt8) (i : ℕ) : Prop where
  found : s.getAppendBuf key = some i
  listed : i ∈ s.appendBufs.lru
  key_len : (s.buf i).key.length = maxKlen
  bytes_len : (s.buf i).bytes.length = bufAlloc
  started : (s.buf i).wbIdx = 0 ∨ PairMem.metaSz key.length ≤ (s.buf i).wbIdx
  wbIdx_le : (s.buf i).wbIdx ≤ bufAlloc

/-- The reply to a read of the data `w`. -/
def readReply (w : List UInt8) (off vlen : ℕ) : Reply :=
  if w.length ≤ off then Reply.notExist
  else
    { status := .success, valueLen := min vlen (w.length - off), bytes := (w.drop off).take vlen }

/-- What a delete of the bytes from `off` to `off + n` leaves of `w`. A delete with offset and
length 0 is one of the whole key. -/
def deleted (w : List UInt8) (off n : ℕ) : List UInt8 :=
  if off = 0 ∧ n = 0 then []
  else if off + n ≤ w.length then w.take off ++ w.drop (off + n)
  else w

/-- A delete that has nothing to delete. -/
def Harmless (w : List UInt8) (off n : ℕ) : Prop :=
  off + n ≤ w.length → n = 0 ∧ (off ≠ 0 ∨ w = [])

instance (w : List UInt8) (off n : ℕ) : Decidable (Harmless w off n) :=
  inferInstanceAs (Decidable (_ → _))

variable {d : Device} {s t u : Shard} {key w : List UInt8} {i : ℕ}

/-! ### The buffer of a key -/

theorem getAppendBuf_setBuf (s : Shard) (key : List UInt8) (i : ℕ) {b : AppendBuf}
    (hklen : b.klen = (s.buf i).klen) (hkey : b.key = (s.buf i).key) :
    (s.setBuf i b).getAppendBuf key = s.getAppendBuf key := by
  have hsame : ∀ j, ((s.setBuf i b).buf j).klen = (s.buf j).klen ∧
      ((s.setBuf i b).buf j).key = (s.buf j).key := by
    intro j
    rw [Shard.buf, Shard.setBuf]
    dsimp only
    rw [Function.update_apply]
    split
    · rename_i hj
      rw [hj]
      exact ⟨hklen, hkey⟩
    · exact ⟨rfl, rfl⟩
  rw [Shard.getAppendBuf, Shard.getAppendBuf]
  congr 1
  funext j
  rw [(hsame j).1, (hsame j).2]

theorem buf_setBuf (s : Shard) (i : ℕ) (b : AppendBuf) : (s.setBuf i b).buf i = b := by
  rw [Shard.buf, Shard.setBuf]
  exact Function.update_self ..

theorem setBuf_self (s : Shard) (i : ℕ) : s.setBuf i (s.buf i) = s := by
  rw [Shard.setBuf, Shard.buf, Function.update_eq_self]

namespace Holds

theorem klen (h : Holds s key i) : (s.buf i).klen = key.length := by
  have hfound := List.find?_some h.found
  rw [decide_eq_true_iff] at hfound
  exact hfound.1

theorem key_eq (h : Holds s key i) : (s.buf i).key.take key.length = key := by
  have hfound := List.find?_some h.found
  rw [decide_eq_true_iff] at hfound
  exact hfound.2

theorem key_le (h : Holds s key i) : key.length ≤ maxKlen := by
  rw [← h.key_len]
  have hlen := congrArg List.length h.key_eq
  rw [List.length_take] at hlen
  omega

theorem metaSz_le (h : Holds s key i) : wbSize + PairMem.metaSz key.length ≤ bufAlloc := by
  have hkey := h.key_le
  rw [PairMem.metaSz, bufAlloc]
  omega

/-- The offsets in a buffer are far from the end of the 32-bit numbers. -/
theorem alloc_lt (h : Holds s key i) : bufAlloc + PairMem.metaSz key.length < 2 ^ 31 := by
  have hkey := h.key_le
  rw [PairMem.metaSz, bufAlloc, wbSize, klenMarkerSz, vlenMarkerSz]
  rw [maxKlen] at hkey ⊢
  omega

theorem lt (h : Holds s key i) : i < numAppendBufs :=
  List.mem_range.mp (List.mem_of_find?_eq_some h.found)

/-- The buffer becomes the most recently used one. -/
theorem touchBuf (h : Holds s key i) :
    s.touchBuf i = .ok (s.setLru (i :: s.appendBufs.lru.erase i)) := by
  have hne : ¬(s.appendBufs.lru = [] ∨ Lru.maxCapacity ≤ i) := by
    have hlt := h.lt
    rintro (hnil | hle)
    · exact absurd (hnil ▸ h.listed) List.not_mem_nil
    · rw [Lru.maxCapacity] at hle
      rw [numAppendBufs] at hlt
      omega
  rw [Shard.touchBuf, Lru.get, if_neg hne, ensure_of h.listed]
  rfl

theorem touched (h : Holds s key i) : Holds (s.setLru (i :: s.appendBufs.lru.erase i)) key i where
  found := h.found
  listed := List.mem_cons_self
  key_len := h.key_len
  bytes_len := h.bytes_len
  started := h.started
  wbIdx_le := h.wbIdx_le

theorem length_data (h : Holds s key i) :
    (data (s.buf i)).length = (s.buf i).wbIdx - PairMem.metaSz key.length := by
  have hlen := h.bytes_len
  have hle := h.wbIdx_le
  rw [data, List.length_drop, List.length_take, h.klen]
  omega

/-- The bytes of the data from `off` on, seen from the start of the buffer. -/
theorem drop_data (h : Holds s key i) (off vlen : ℕ)
    (hle : off + PairMem.metaSz key.length + vlen ≤ (s.buf i).wbIdx) :
    ((s.buf i).bytes.drop (off + PairMem.metaSz key.length)).take vlen =
      ((data (s.buf i)).drop off).take vlen := by
  rw [data, h.klen, List.drop_drop, List.drop_take, List.take_take, Nat.add_comm off]
  congr 1
  omega

/-- A read of a buffered key returns a part of the data. It stops only where the end of the
range is not a 32-bit number. -/
theorem retrieveFromBuf_read (h : Holds s key i) {off vlen : ℕ} (hoff : off < 2 ^ 32)
    (hvlen : vlen < 2 ^ 32) :
    Yields (s.retrieveFromBuf i vlen off false)
      (fun _ => 2 ^ 32 ≤ off + PairMem.metaSz key.length + vlen)
      (· = (readReply (data (s.buf i)) off vlen, s)) := by
  have hmeta := h.metaSz_le
  have hbytes := h.bytes_len
  have hwb := h.wbIdx_le
  have hdata := h.length_data
  have hdrop := h.drop_data
  have halloc := h.alloc_lt
  rw [Shard.retrieveFromBuf, h.klen]
  split
  · rename_i hout
    have hle : (data (s.buf i)).length ≤ off := by
      rcases h.started with hst | hst <;> omega
    rw [yields_pure, readReply, if_pos hle]
  rename_i hin
  -- the offset is not so large that the sum wraps
  have hstart : (off + PairMem.metaSz key.length) % 2 ^ 32 = off + PairMem.metaSz key.length := by
    omega
  rw [hstart] at hin ⊢
  have hlt : ¬(data (s.buf i)).length ≤ off := by omega
  rw [readReply, if_neg hlt]
  split
  · rename_i hpast
    have hmin : min vlen ((data (s.buf i)).length - off) =
        (s.buf i).wbIdx - (off + PairMem.metaSz key.length) := by omega
    rw [PairMem.read, ensure_of (by omega), ok_bind, pure_bind, yields_pure, hmin,
      hdrop off _ (by omega)]
    have hlen : ((data (s.buf i)).drop off).length ≤
        (s.buf i).wbIdx - (off + PairMem.metaSz key.length) := by
      rw [List.length_drop]
      omega
    rw [List.take_of_length_le hlen, List.take_of_length_le (by omega)]
  · rename_i hfit
    rw [if_pos (by decide)]
    by_cases hwrap : 2 ^ 32 ≤ off + PairMem.metaSz key.length + vlen
    · -- a range that ends past the address space does not end in the buffer
      rw [PairMem.read, ensure, if_neg (by omega)]
      exact hwrap
    · have hend : off + PairMem.metaSz key.length + vlen ≤ (s.buf i).wbIdx := by
        rwa [Nat.mod_eq_of_lt (by omega), not_lt] at hfit
      rw [PairMem.read, ensure_of (by omega), ok_bind, pure_bind, yields_pure, hdrop off _ hend,
        Nat.min_eq_left (by omega)]

/-- A delete that has nothing to delete leaves the buffer alone. -/
theorem retrieveFromBuf_harmless (h : Holds s key i) (hinv : (s.buf i).invCnt = 0) {off n : ℕ}
    (hoff : off < 2 ^ 32) (hn : n < 2 ^ 32)
    (hharm : Harmless (data (s.buf i)) off n) :
    Yields (s.retrieveFromBuf i n off true)
      (fun _ => 2 ^ 32 ≤ off + PairMem.metaSz key.length + n) (·.2 = s) := by
  have hmeta := h.metaSz_le
  have hbytes := h.bytes_len
  have hwb := h.wbIdx_le
  have hdata := h.length_data
  have halloc := h.alloc_lt
  rw [Shard.retrieveFromBuf, h.klen]
  split
  · rfl
  rename_i hin
  have hstart : (off + PairMem.metaSz key.length) % 2 ^ 32 = off + PairMem.metaSz key.length := by
    omega
  rw [hstart] at hin ⊢
  split
  · rw [PairMem.read, ensure_of (by omega)]
    rfl
  · rename_i hfit
    rw [if_neg (by decide)]
    by_cases hwrap : 2 ^ 32 ≤ off + PairMem.metaSz key.length + n
    · rw [PairMem.read, ensure, if_neg (by omega)]
      exact hwrap
    · rw [Nat.mod_eq_of_lt (by omega), not_lt] at hfit
      -- inside the data, so the range is empty: `memmove` of no bytes
      obtain ⟨rfl, -⟩ := hharm (by omega)
      rw [Nat.add_zero] at hfit ⊢
      rw [PairMem.read, ensure_of (by omega), ok_bind, pure_bind, List.take_zero,
        PairMem.write_nil (by omega), ok_bind, Nat.add_zero, hinv, ensure_of (Nat.zero_le _),
        ok_bind, yields_pure, ← h.klen, ← hinv]
      exact setBuf_self s i

/-- A buffer with the same key and as many bytes. -/
theorem setBuf (h : Holds s key i) {b : AppendBuf} (hklen : b.klen = (s.buf i).klen)
    (hkey : b.key = (s.buf i).key) (hbytes : b.bytes.length = (s.buf i).bytes.length)
    (hstart : b.wbIdx = 0 ∨ PairMem.metaSz key.length ≤ b.wbIdx) (hwb : b.wbIdx ≤ bufAlloc) :
    Holds (s.setBuf i b) key i where
  found := (getAppendBuf_setBuf s key i hklen hkey).trans h.found
  listed := h.listed
  key_len := by rw [buf_setBuf, hkey, h.key_len]
  bytes_len := by rw [buf_setBuf, hbytes, h.bytes_len]
  started := by rwa [buf_setBuf]
  wbIdx_le := by rwa [buf_setBuf]

/-- No delete changes the length that reads and appends go by. -/
theorem retrieveFromBuf_delete (h : Holds s key i) {off n : ℕ} {r : Reply}
    (hok : s.retrieveFromBuf i n off true = .ok (r, u)) :
    Holds u key i ∧ (data (u.buf i)).length = (data (s.buf i)).length := by
  rw [Shard.retrieveFromBuf] at hok
  split at hok
  · cases hok
    exact ⟨h, rfl⟩
  split at hok
  · simp only [bind_eq_ok] at hok
    obtain ⟨bytes, -, hok⟩ := hok
    cases hok
    exact ⟨h, rfl⟩
  rw [if_neg (by decide)] at hok
  simp only [bind_eq_ok] at hok
  obtain ⟨moved, -, bytes, hbytes, -, -, hok⟩ := hok
  cases hok
  have hlen := PairMem.length_write hbytes
  have hu := h.setBuf (b := { s.buf i with bytes := bytes, invCnt := (s.buf i).invCnt + n }) rfl rfl
    hlen h.started h.wbIdx_le
  refine ⟨hu, ?_⟩
  rw [hu.length_data, h.length_data, buf_setBuf]

/-- The first append writes a header, behind which there is no data yet. -/
theorem startBuf (h : Holds s key i) :
    Yields (Shard.startBuf (s.buf i)) (fun _ => False) fun b =>
      b.klen = key.length ∧ b.key = (s.buf i).key ∧ b.bytes.length = bufAlloc ∧
      b.invCnt = (s.buf i).invCnt ∧ PairMem.metaSz key.length ≤ b.wbIdx ∧
      b.wbIdx ≤ (s.buf i).wbIdx + PairMem.metaSz key.length ∧ b.wbIdx ≤ bufAlloc ∧
      data b = data (s.buf i) := by
  have hmeta := h.metaSz_le
  rw [Shard.startBuf]
  split
  · rename_i hzero
    have hlen : (PairMem.header (Shard.bufKey (s.buf i)) 0).length = PairMem.metaSz key.length := by
      rw [PairMem.length_header, Shard.bufKey, h.klen, h.key_eq]
    refine Yields.bind (P := fun bytes => bytes.length = bufAlloc) ?_ fun bytes hbytes => ?_
    · rw [PairMem.write, ensure_of (by rw [hlen, h.bytes_len]; omega), ok_bind, yields_pure]
      simp only [List.length_append, List.length_take, List.length_drop, hlen, h.bytes_len]
      omega
    · rw [yields_pure, h.klen]
      refine ⟨rfl, rfl, hbytes, rfl, le_rfl, Nat.le_add_left .., ?_, ?_⟩
      · exact (Nat.le_add_left ..).trans hmeta
      rw [data, data, hzero, List.take_zero, List.drop_nil, List.drop_eq_nil_iff, List.length_take]
      exact Nat.min_le_left ..
  · rename_i hne
    have hst := h.started.resolve_left hne
    exact ⟨h.klen, rfl, h.bytes_len, rfl, hst, by omega, h.wbIdx_le, rfl⟩

/-- An append that returns success puts its bytes behind the data, and reports their place;
another one changes nothing. -/
theorem appendTo (h : Holds s key i) (bs : List UInt8) :
    Yields (s.appendTo i bs) (fun _ => 2 ^ 32 ≤ bufAlloc + bs.length) fun x =>
      Holds x.2 key i ∧ (x.2.buf i).invCnt = (s.buf i).invCnt ∧
      ((x.1 = Shard.AppendReply.small ∧ data (x.2.buf i) = data (s.buf i)) ∨
        (x.1 = ⟨.success, (data (s.buf i)).length⟩ ∧ data (x.2.buf i) = data (s.buf i) ++ bs)) := by
  have hmeta := h.metaSz_le
  rw [Shard.appendTo]
  split
  · exact ⟨h, rfl, .inl ⟨rfl, rfl⟩⟩
  rename_i hroom
  refine Yields.bind (h.startBuf.mono (fun _ hf => hf.elim) fun _ hb => hb) fun b hb => ?_
  obtain ⟨hklen, hkey, hbytes, hinv, hst, hstart, hwb, hdata⟩ := hb
  by_cases hfit : b.wbIdx + bs.length ≤ b.bytes.length
  · obtain ⟨bytes, hw⟩ : ∃ bytes, PairMem.write b.bytes b.wbIdx bs = .ok bytes := by
      rw [PairMem.write, ensure_of hfit]
      exact ⟨_, rfl⟩
    have halloc := h.alloc_lt
    rw [hw, ok_bind, yields_pure, Nat.mod_eq_of_lt (by omega)]
    have hu := h.setBuf (b := { b with bytes := bytes, wbIdx := b.wbIdx + bs.length })
      (hklen.trans h.klen.symm) hkey
      ((PairMem.length_write hw).trans (hbytes.trans h.bytes_len.symm))
      (.inr (hst.trans (Nat.le_add_right ..))) (hfit.trans hbytes.le)
    refine ⟨hu, ?_, .inr ⟨?_, ?_⟩⟩
    · rw [buf_setBuf, hinv]
    · have hlen := congrArg List.length hdata
      rw [data, List.length_drop, List.length_take, hklen] at hlen
      rw [hklen, ← hlen, Nat.min_eq_left (by omega)]
    · rw [buf_setBuf, data, PairMem.take_write hw, hklen, List.drop_append_of_le_length, ← hklen,
        ← hdata, data]
      rw [List.length_take]
      omega
  · rw [PairMem.write, ensure, if_neg hfit]
    show 2 ^ 32 ≤ bufAlloc + bs.length
    have hle := h.wbIdx_le
    -- otherwise the sum that is compared with the size of the buffers has not wrapped
    by_contra hsmall
    rw [Nat.mod_eq_of_lt (by omega)] at hroom
    omega

/-- A read or delete of a buffered key works on its buffer. -/
theorem retrieve_eq (h : Holds s key i) (vlen off : ℕ) (forDel : Bool) :
    s.retrieve d key vlen off forDel = (do
      ensure (off % 4 = 0) .bug
      (s.setLru (i :: s.appendBufs.lru.erase i)).retrieveFromBuf i vlen off forDel) := by
  rw [Shard.retrieve, h.found]
  dsimp only
  rw [ensure_of h.key_le, h.touchBuf]
  rfl

/-- An append to a buffered key works on its buffer. -/
theorem append_eq (h : Holds s key i) (bs : List UInt8) (junk : ℕ → UInt8) :
    s.append d key bs junk = (s.setLru (i :: s.appendBufs.lru.erase i)).appendTo i bs := by
  rw [Shard.append, h.found]
  dsimp only
  rw [h.touchBuf]
  rfl

/-- A flush copies the bytes up to the end of the data. -/
theorem flushMemory (h : Holds s key i) (hinv : (s.buf i).invCnt = 0) {junk : ℕ → UInt8}
    {old : Option Shard.Found} {mem : List UInt8}
    (hok : Shard.flushMemory d (s.buf i) (sub32 (s.buf i).wbIdx (s.buf i).invCnt) junk old =
      .ok mem) :
    (mem.take (sub32 (s.buf i).wbIdx (s.buf i).invCnt)).drop (PairMem.metaSz key.length) =
      data (s.buf i) := by
  have hle := h.wbIdx_le
  have hwb : sub32 (s.buf i).wbIdx (s.buf i).invCnt = (s.buf i).wbIdx := by
    rw [hinv, sub32, if_pos (Nat.zero_le _), Nat.sub_zero]
  rw [hwb] at hok ⊢
  have hread : ∀ src, PairMem.read (s.buf i).bytes 0 (s.buf i).wbIdx = .ok src →
      src = (s.buf i).bytes.take (s.buf i).wbIdx ∧ src.length = (s.buf i).wbIdx := by
    intro src hsrc
    rw [PairMem.read, Nat.zero_add, ensure_of (by rw [h.bytes_len]; exact hle)] at hsrc
    cases hsrc
    rw [List.drop_zero, List.length_take, h.bytes_len, Nat.min_eq_left hle]
    exact ⟨rfl, rfl⟩
  -- old and new pairs differ in the memory the bytes go to, not in the bytes
  have hput : ∀ src mem₀, PairMem.read (s.buf i).bytes 0 (s.buf i).wbIdx = .ok src →
      PairMem.write mem₀ 0 src = .ok mem → mem.take (s.buf i).wbIdx =
        (s.buf i).bytes.take (s.buf i).wbIdx := by
    intro src mem₀ hsrc hw
    obtain ⟨heq, hlen⟩ := hread src hsrc
    rw [PairMem.write_zero hw, List.take_left' hlen, heq]
  rw [data, h.klen]
  congr 1
  cases old with
  | some x =>
    simp only [Shard.flushMemory, bind_eq_ok] at hok
    obtain ⟨src, hsrc, hw⟩ := hok
    exact hput src _ hsrc hw
  | none =>
    simp only [Shard.flushMemory, bind_eq_ok] at hok
    obtain ⟨src, hsrc, mem', hw, klen, -, -, -, heq⟩ := hok
    cases heq
    exact hput src _ hsrc hw

end Holds

/-! ### Runs on one key -/

/-- The buffer of a key holds a header and the data `w`. -/
def InBuffer (s : Shard) (key w : List UInt8) : Prop :=
  ∃ i hdr, s.getAppendBuf key = some i ∧ hdr.length = PairMem.metaSz key.length ∧
    (s.buf i).bytes.take (s.buf i).wbIdx = hdr ++ w

/-- The data `w` of a key is in a buffer, and nothing in the buffer counts as deleted. -/
def Exact (s : Shard) (key w : List UInt8) : Prop :=
  ∃ i, Holds s key i ∧ (s.buf i).invCnt = 0 ∧ data (s.buf i) = w

/-- The host, the next append and a flush see `w` as the data of a key, and what is counted as
deleted is in the buffer. -/
structure Sees (d : Device) (s : Shard) (key w : List UInt8) : Prop where
  read : ∀ off vlen, off < 2 ^ 32 → vlen < 2 ^ 32 →
    Yields (s.retrieve d key vlen off false)
      (fun _ => off % 4 ≠ 0 ∨ 2 ^ 32 ≤ off + PairMem.metaSz key.length + vlen)
      (·.1 = readReply w off vlen)
  append : ∀ bs junk, Yields (s.append d key bs junk) (fun _ => 2 ^ 32 ≤ bufAlloc + bs.length)
    fun x => x.1 = Shard.AppendReply.small ∨ x.1 = ⟨.success, w.length⟩
  flush : ∀ i, s.getAppendBuf key = some i → ∀ junk old mem,
    Shard.flushMemory d (s.buf i) (sub32 (s.buf i).wbIdx (s.buf i).invCnt) junk old = .ok mem →
      (mem.take (sub32 (s.buf i).wbIdx (s.buf i).invCnt)).drop (PairMem.metaSz key.length) = w
  invCnt_le : ∀ i, s.getAppendBuf key = some i →
    (s.buf i).invCnt ≤ w.length ∧ (s.buf i).invCnt ≤ wbSize ∧
      (s.buf i).invCnt ≤ sub32 (s.buf i).wbIdx (PairMem.metaSz (s.buf i).klen)

/-- A run of appends, reads and deletes on one key whose deletes meet a condition, with the
data of the key: what was appended and not deleted. -/
inductive BufRuns (d : Device) (key : List UInt8) (ok : List UInt8 → ℕ → ℕ → Prop) (s : Shard)
    (w₀ : List UInt8) : Shard → List UInt8 → Prop where
  | start : BufRuns d key ok s w₀ s w₀
  | append {t u : Shard} {w bs : List UInt8} {junk : ℕ → UInt8} {r : Shard.AppendReply} :
    BufRuns d key ok s w₀ t w → t.append d key bs junk = .ok (r, u) →
    BufRuns d key ok s w₀ u (if r.status = .success then w ++ bs else w)
  | read {t u : Shard} {w : List UInt8} {off vlen : ℕ} {r : Reply} :
    BufRuns d key ok s w₀ t w → off < 2 ^ 32 → vlen < 2 ^ 32 →
    t.retrieve d key vlen off false = .ok (r, u) → BufRuns d key ok s w₀ u w
  | delete {t u : Shard} {w : List UInt8} {off n : ℕ} {r : Reply} :
    BufRuns d key ok s w₀ t w → off < 2 ^ 32 → n < 2 ^ 32 → ok w off n →
    t.retrieve d key n off true = .ok (r, u) → BufRuns d key ok s w₀ u (deleted w off n)

theorem Harmless.deleted_eq {off n : ℕ} (h : Harmless w off n) : deleted w off n = w := by
  rw [deleted]
  split
  · rename_i hzero
    obtain ⟨rfl, rfl⟩ := hzero
    exact ((h (Nat.zero_le _)).2.resolve_left (fun hne => hne rfl)).symm
  split
  · rename_i hle
    obtain ⟨rfl, -⟩ := h hle
    rw [Nat.add_zero, List.take_append_drop]
  · rfl

/-- A delete that has something to delete makes the data shorter. -/
theorem length_deleted_lt {off n : ℕ} (h : ¬Harmless w off n) :
    (deleted w off n).length < w.length := by
  rw [Harmless, Classical.not_imp] at h
  obtain ⟨hle, hsome⟩ := h
  rw [deleted]
  split
  · rename_i hzero
    rw [List.length_nil, List.length_pos_iff]
    intro hnil
    exact hsome ⟨hzero.2, .inr hnil⟩
  · rename_i hne
    have hn : n ≠ 0 := fun hn => hsome ⟨hn, .inl fun hoff => hne ⟨hoff, hn⟩⟩
    simp only [List.length_append, List.length_take, List.length_drop]
    omega

/-- A read of a whole value from its start shows when data is missing. -/
theorem length_le_of_readReply {v : List UInt8}
    (h : readReply w 0 v.length = readReply v 0 v.length) : v.length ≤ w.length := by
  have hlen := congrArg Reply.valueLen h
  simp only [readReply, Reply.notExist] at hlen
  split at hlen <;> split at hlen <;> dsimp only at hlen <;> omega

namespace Exact

theorem sees (h : Exact s key w) : Sees d s key w := by
  obtain ⟨i, hi, hinv, rfl⟩ := h
  have hidx : ∀ j, s.getAppendBuf key = some j → j = i := by
    intro j hj
    rw [hi.found] at hj
    exact (Option.some.inj hj).symm
  refine ⟨fun off vlen hoff hvlen => ?_, fun bs junk => ?_, fun j hj junk old mem hmem => ?_,
    fun j hj => ?_⟩
  · rw [hi.retrieve_eq]
    refine Yields.bind (P := fun _ => True) (by simpa using Or.inl) fun _ _ => ?_
    exact (hi.touched.retrieveFromBuf_read hoff hvlen).mono (fun _ hf => .inr hf) fun x hx => by
      rw [hx]
      rfl
  · rw [hi.append_eq]
    refine (hi.touched.appendTo bs).post fun x hx => ?_
    rcases hx.2.2 with ⟨hr, -⟩ | ⟨hr, -⟩
    · exact .inl hr
    · exact .inr hr
  · rw [hidx j hj] at hmem ⊢
    exact hi.flushMemory hinv hmem
  · rw [hidx j hj, hinv]
    exact ⟨Nat.zero_le _, Nat.zero_le _, Nat.zero_le _⟩

theorem append (h : Exact s key w) {bs : List UInt8} {junk : ℕ → UInt8} {r : Shard.AppendReply}
    (hok : s.append d key bs junk = .ok (r, u)) :
    Exact u key (if r.status = .success then w ++ bs else w) := by
  obtain ⟨i, hi, hinv, rfl⟩ := h
  rw [hi.append_eq] at hok
  obtain ⟨hu, hkeep, hdata⟩ := (hi.touched.appendTo bs).of_eq_ok hok
  refine ⟨i, hu, hkeep.trans hinv, ?_⟩
  rcases hdata with ⟨rfl, hdata⟩ | ⟨rfl, hdata⟩
  · exact hdata
  · exact hdata

theorem read (h : Exact s key w) {off vlen : ℕ} {r : Reply} (hoff : off < 2 ^ 32)
    (hvlen : vlen < 2 ^ 32) (hok : s.retrieve d key vlen off false = .ok (r, u)) :
    Exact u key w := by
  obtain ⟨i, hi, hinv, rfl⟩ := h
  rw [hi.retrieve_eq, bind_eq_ok] at hok
  obtain ⟨-, -, hok⟩ := hok
  cases (hi.touched.retrieveFromBuf_read hoff hvlen).of_eq_ok hok
  exact ⟨i, hi.touched, hinv, rfl⟩

/-- A delete with nothing to delete. -/
theorem delete (h : Exact s key w) {off n : ℕ} (hoff : off < 2 ^ 32) (hn : n < 2 ^ 32)
    (hharm : Harmless w off n) :
    Yields (s.retrieve d key n off true)
      (fun _ => off % 4 ≠ 0 ∨ 2 ^ 32 ≤ off + PairMem.metaSz key.length + n)
      fun x => Exact x.2 key (deleted w off n) := by
  obtain ⟨i, hi, hinv, rfl⟩ := h
  rw [hi.retrieve_eq, hharm.deleted_eq]
  refine Yields.bind (P := fun _ => True) (by simpa using Or.inl) fun _ _ => ?_
  refine (hi.touched.retrieveFromBuf_harmless hinv hoff hn hharm).mono (fun _ hf => .inr hf)
    fun x hx => ?_
  rw [hx]
  exact ⟨i, hi.touched, hinv, rfl⟩

/-- A delete with something to delete leaves data that can still be read. -/
theorem not_sees_deleted (h : Exact s key w) {off n : ℕ} {r : Reply}
    (hharm : ¬Harmless w off n) (hok : s.retrieve d key n off true = .ok (r, u)) :
    ¬Sees d u key (deleted w off n) := by
  obtain ⟨i, hi, -, rfl⟩ := h
  rw [hi.retrieve_eq, bind_eq_ok] at hok
  obtain ⟨-, -, hok⟩ := hok
  obtain ⟨hu, hlen⟩ := hi.touched.retrieveFromBuf_delete hok
  have hlt : (deleted (data (s.buf i)) off n).length < (data (u.buf i)).length :=
    (length_deleted_lt hharm).trans_eq hlen.symm
  intro hsees
  -- a read of as many bytes as there were
  have hle : (data (u.buf i)).length + PairMem.metaSz key.length < 2 ^ 31 := by
    have halloc := hu.alloc_lt
    have hwb := hu.wbIdx_le
    rw [hu.length_data]
    omega
  have hread := hsees.read 0 (data (u.buf i)).length (by omega) (by omega)
  rw [hu.retrieve_eq, ensure_of (Nat.zero_mod 4), ok_bind] at hread
  have hreply := hu.touched.retrieveFromBuf_read (show 0 < 2 ^ 32 by omega)
    (show (data (u.buf i)).length < 2 ^ 32 by omega)
  obtain ⟨x, hx, rfl⟩ :=
    (hreply.mono (B := fun _ => False) (fun _ hf => by omega) fun _ h => h).exists_ok
  have hge := length_le_of_readReply (hread.of_eq_ok hx).symm
  omega

/-- A run whose deletes have nothing to delete. -/
theorem of_bufRuns {w₀ : List UInt8} (h : Exact s key w₀) (hr : BufRuns d key Harmless s w₀ t w) :
    Exact t key w := by
  induction hr with
  | start => exact h
  | append _ hok ih => exact ih.append hok
  | read _ hoff hvlen hok ih => exact ih.read hoff hvlen hok
  | delete _ hoff hn hharm hok ih => exact (ih.delete hoff hn hharm).of_eq_ok hok

/-- Which delete leaves what it should. -/
theorem sees_deleted_iff (h : Exact s key w) {off n : ℕ} (hoff : off % 4 = 0)
    (hend : off + PairMem.metaSz key.length + n < 2 ^ 32) :
    (∃ r u, s.retrieve d key n off true = .ok (r, u) ∧ Sees d u key (deleted w off n)) ↔
      Harmless w off n := by
  constructor
  · rintro ⟨r, u, hok, hsees⟩
    by_contra hharm
    exact h.not_sees_deleted hharm hok hsees
  · intro hharm
    have hdel := h.delete (d := d) (by omega : off < 2 ^ 32) (by omega : n < 2 ^ 32) hharm
    obtain ⟨x, hx, hexact⟩ :=
      (hdel.mono (B := fun _ => False) (fun _ hf => by omega) fun _ h => h).exists_ok
    exact ⟨x.1, x.2, hx, hexact.sees⟩

end Exact

/-- A buffer of a run from a fresh device. -/
theorem InBuffer.exact (hs : s.appendBufs.Ok) (hkey : key ≠ []) (h : InBuffer s key w) :
    Exact s key w := by
  obtain ⟨i, hdr, hfound, hlen, hbytes⟩ := h
  have hb := hs.each i
  have hsum := congrArg List.length hbytes
  have hle : (s.buf i).wbIdx ≤ (s.buf i).bytes.length := hb.wbIdx_le.trans hb.bytes_len.ge
  rw [List.length_take, Nat.min_eq_left hle, List.length_append, hlen] at hsum
  have hholds : Holds s key i :=
    ⟨hfound, Shard.listed_of_getAppendBuf hs hkey hfound, hb.key_len, hb.bytes_len,
      .inr (by omega), hb.wbIdx_le⟩
  refine ⟨i, hholds, hb.inv, ?_⟩
  rw [data, hbytes, hholds.klen, List.drop_left' hlen]

end Buffered

open Buffered

/-- Four bytes of a new key. -/
def oneAppend : List Op := [.append [1] [5, 6, 7, 8] fun _ => 0]

/-- Whether a key has the first buffer, with four bytes behind a header. -/
def holdsFour (s : Shard) : Bool :=
  decide (s.getAppendBuf [1] = some 0 ∧ (s.buf 0).wbIdx = PairMem.metaSz 1 + 4 ∧
    (s.buf 0).bytes.take (PairMem.metaSz 1 + 4) =
      (s.buf 0).bytes.take (PairMem.metaSz 1) ++ [5, 6, 7, 8] ∧
    ((s.buf 0).bytes.take (PairMem.metaSz 1)).length = PairMem.metaSz 1)

theorem inBuffer_of_holdsFour {s : Shard} (h : holdsFour s = true) :
    InBuffer s [1] [5, 6, 7, 8] := by
  obtain ⟨hfound, hwb, hbytes, hlen⟩ := of_decide_eq_true h
  refine ⟨0, _, hfound, hlen, ?_⟩
  rw [hwb]
  exact hbytes

theorem keyed_oneAppend : ∀ op ∈ oneAppend, op.Keyed := by
  intro op hop
  rw [oneAppend, List.mem_singleton] at hop
  rw [hop]
  exact List.cons_ne_nil _ _

/-- Whether a read of the four bytes succeeds behind a delete of the whole key. -/
def survivesDelete (s : Shard) : Bool :=
  match s.retrieve smallDevice [1] 0 0 true with
  | .ok (_, t) => match t.retrieve smallDevice [1] 4 0 false with
    | .ok (r, _) => decide (r = { status := .success, valueLen := 4, bytes := [5, 6, 7, 8] })
    | .error _ => false
  | .error _ => false

end Virtkv
