import Virtkv.Append.Frame
import Virtkv.Command.Insert
import Virtkv.Run.Defs

/-!
# The append buffers in a run

A buffer in use has a key and is on the LRU list, once; the other buffers are not on it. In every
run of commands that have keys, evictions and collections this stays so, and nothing in a buffer
counts as deleted as long as only whole keys are deleted.

The length of a key in a command is `key_len + 1`.

## Main results

- `bufsOk_of_runs` — the append buffers in every run
-/

namespace Virtkv

open Outcome

/-- A buffer as `init` allocates it, with the data up to `wb_idx` inside. -/
structure AppendBuf.Ok (b : AppendBuf) : Prop where
  klen_le : b.klen ≤ maxKlen
  key_len : b.key.length = maxKlen
  bytes_len : b.bytes.length = bufAlloc
  wbIdx_le : b.wbIdx ≤ bufAlloc
  inv : b.invCnt = 0

/-- The buffers in use are those on the LRU list. -/
structure AppendBufs.Ok (a : AppendBufs) : Prop where
  each : ∀ i, (a.buf i).Ok
  nodup : a.lru.Nodup
  listed : ∀ i, i ∈ a.lru ↔ i < numAppendBufs ∧ (a.buf i).klen ≠ 0

namespace AppendBufs.Ok

variable {a : AppendBufs} {b : AppendBuf} {i : ℕ} {l : List ℕ}

theorem length_lru_le (h : a.Ok) : a.lru.length ≤ numAppendBufs := by
  have hsub : a.lru ⊆ List.range numAppendBufs := by
    intro i hi
    exact List.mem_range.mpr ((h.listed i).mp hi).1
  have hle := (h.nodup.subperm hsub).length_le
  rwa [List.length_range] at hle

/-- The order of the list does not matter. -/
theorem perm (h : a.Ok) (hl : l.Perm a.lru) : Ok { a with lru := l } where
  each := h.each
  nodup := hl.nodup_iff.mpr h.nodup
  listed i := hl.mem_iff.trans (h.listed i)

/-- A buffer that stays in use, or out of use. -/
theorem update (h : a.Ok) (hb : b.Ok) (hklen : b.klen = (a.buf i).klen) :
    Ok { a with buf := Function.update a.buf i b } where
  each j := by
    dsimp only
    rw [Function.update_apply]
    split
    · exact hb
    · exact h.each j
  nodup := h.nodup
  listed j := by
    dsimp only
    rw [h.listed j, Function.update_apply]
    split
    · rename_i hj
      rw [hj, hklen]
    · rfl

/-- A buffer that comes into use. -/
theorem assign (h : a.Ok) (hb : b.Ok) (hi : i < numAppendBufs) (hfree : (a.buf i).klen = 0)
    (hklen : b.klen ≠ 0) : Ok { buf := Function.update a.buf i b, lru := i :: a.lru } where
  each j := by
    dsimp only
    rw [Function.update_apply]
    split
    · exact hb
    · exact h.each j
  nodup := List.nodup_cons.mpr ⟨fun hmem => ((h.listed i).mp hmem).2 hfree, h.nodup⟩
  listed j := by
    dsimp only
    rw [List.mem_cons, h.listed j, Function.update_apply]
    split
    · rename_i hj
      rw [hj]
      exact ⟨fun _ => ⟨hi, hklen⟩, fun _ => .inl rfl⟩
    · rename_i hj
      exact or_iff_right hj

/-- A buffer that goes out of use. -/
theorem clear (h : a.Ok) (hb : b.Ok) (hklen : b.klen = 0) (hl : (i :: l).Perm a.lru) :
    Ok { buf := Function.update a.buf i b, lru := l } where
  each j := by
    dsimp only
    rw [Function.update_apply]
    split
    · exact hb
    · exact h.each j
  nodup := (List.nodup_cons.mp (hl.nodup_iff.mpr h.nodup)).2
  listed j := by
    have hnot := (List.nodup_cons.mp (hl.nodup_iff.mpr h.nodup)).1
    have hmem := hl.mem_iff.trans (h.listed j)
    rw [List.mem_cons] at hmem
    dsimp only
    rw [Function.update_apply]
    split
    · rename_i hj
      rw [hj]
      exact ⟨fun hin => absurd hin hnot, fun hin => absurd hklen hin.2⟩
    · rename_i hj
      rw [← hmem]
      exact (or_iff_right hj).symm

end AppendBufs.Ok

namespace PairMem

variable {mem mem' src : List UInt8} {off : ℕ}

theorem length_write (h : write mem off src = .ok mem') : mem'.length = mem.length := by
  obtain ⟨hle, rfl⟩ := write_eq_ok h
  simp only [List.length_append, List.length_take, List.length_drop]
  omega

theorem le_of_write (h : write mem off src = .ok mem') : off + src.length ≤ mem.length :=
  (write_eq_ok h).1

end PairMem

namespace Shard

variable {d : Device} {s s' : Shard} {key : List UInt8} {i : ℕ}

theorem lt_of_getAppendBuf (h : s.getAppendBuf key = some i) : i < numAppendBufs :=
  List.mem_range.mp (List.mem_of_find?_eq_some h)

theorem klen_of_getAppendBuf (h : s.getAppendBuf key = some i) : (s.buf i).klen = key.length := by
  have hfound := List.find?_some h
  rw [decide_eq_true_iff] at hfound
  exact hfound.1

/-- The buffer of a key is on the list. -/
theorem listed_of_getAppendBuf (hs : s.appendBufs.Ok) (hkey : key ≠ [])
    (h : s.getAppendBuf key = some i) : i ∈ s.appendBufs.lru := by
  refine (hs.listed i).mpr ⟨lt_of_getAppendBuf h, ?_⟩
  have hklen := klen_of_getAppendBuf h
  rw [buf] at hklen
  rw [hklen]
  exact fun hzero => hkey (List.eq_nil_of_length_eq_zero hzero)

theorem ok_dropAppendBuf (hs : s.appendBufs.Ok) (h : s.dropAppendBuf key = .ok s') :
    s'.appendBufs.Ok := by
  rw [dropAppendBuf] at h
  split at h
  · rename_i i hi
    simp only [Lru.remove, bind_eq_ok, ensure_eq_ok, pure_eq_ok] at h
    obtain ⟨l, ⟨-, -, -, hmem, rfl⟩, rfl⟩ := h
    have hb := hs.each i
    exact hs.clear ⟨Nat.zero_le _, hb.key_len, hb.bytes_len, Nat.zero_le _, rfl⟩ rfl
      (List.perm_cons_erase hmem).symm
  · cases h
    exact hs

theorem ok_touchBuf (hs : s.appendBufs.Ok) (h : s.touchBuf i = .ok s') : s'.appendBufs.Ok := by
  simp only [touchBuf, bind_eq_ok, pure_eq_ok] at h
  obtain ⟨l, hl, rfl⟩ := h
  rw [Lru.get] at hl
  split at hl
  · cases hl
    exact hs
  · simp only [bind_eq_ok, ensure_eq_ok, pure_eq_ok] at hl
    obtain ⟨-, hmem, rfl⟩ := hl
    exact hs.perm (List.perm_cons_erase hmem).symm

/-- A delete of no bytes counts nothing. -/
theorem ok_retrieveFromBuf {vlen rOffset : ℕ} {forDel : Bool} {r : Reply} (hs : s.appendBufs.Ok)
    (hfull : forDel = true → vlen = 0) (h : s.retrieveFromBuf i vlen rOffset forDel = .ok (r, s')) :
    s'.appendBufs.Ok := by
  simp only [retrieveFromBuf] at h
  split at h
  · cases h
    exact hs
  split at h
  · simp only [bind_eq_ok] at h
    obtain ⟨bytes, -, h⟩ := h
    cases h
    exact hs
  split at h
  · simp only [bind_eq_ok] at h
    obtain ⟨bytes, -, h⟩ := h
    cases h
    exact hs
  · rename_i hdel
    have hzero : vlen = 0 := hfull (of_not_not hdel)
    simp only [bind_eq_ok, pure_eq_ok] at h
    obtain ⟨moved, -, bytes, hbytes, -, -, h⟩ := h
    cases h
    have hb := hs.each i
    refine hs.update ⟨hb.klen_le, hb.key_len, (PairMem.length_write hbytes).trans hb.bytes_len,
      hb.wbIdx_le, ?_⟩ rfl
    show (s.buf i).invCnt + vlen = 0
    rw [hzero, Nat.add_zero]
    exact hb.inv

theorem metaSz_le {klen : ℕ} (h : klen ≤ maxKlen) : PairMem.metaSz klen ≤ bufAlloc := by
  rw [PairMem.metaSz, bufAlloc]
  omega

theorem ok_startBuf {b b' : AppendBuf} (hb : b.Ok) (h : startBuf b = .ok b') :
    b'.Ok ∧ b'.klen = b.klen := by
  rw [startBuf] at h
  split at h
  · simp only [bind_eq_ok, pure_eq_ok] at h
    obtain ⟨bytes, hbytes, rfl⟩ := h
    exact ⟨⟨hb.klen_le, hb.key_len, (PairMem.length_write hbytes).trans hb.bytes_len,
      metaSz_le hb.klen_le, hb.inv⟩, rfl⟩
  · cases h
    exact ⟨hb, rfl⟩

theorem ok_appendTo {data : List UInt8} {r : AppendReply} (hs : s.appendBufs.Ok)
    (h : s.appendTo i data = .ok (r, s')) : s'.appendBufs.Ok := by
  rw [appendTo] at h
  split at h
  · cases h
    exact hs
  · simp only [bind_eq_ok, pure_eq_ok] at h
    obtain ⟨b, hb, bytes, hbytes, h⟩ := h
    cases h
    obtain ⟨hok, hklen⟩ := ok_startBuf (hs.each i) hb
    have hlen := (PairMem.length_write hbytes).trans hok.bytes_len
    refine hs.update ⟨hok.klen_le, hok.key_len, hlen, ?_, hok.inv⟩ hklen
    have hle := PairMem.le_of_write hbytes
    rw [hok.bytes_len] at hle
    exact (Nat.mod_le ..).trans hle

/-- A free buffer gets a key. -/
theorem ok_assignBuf (hs : s.appendBufs.Ok) (hkey : key ≠ []) (h : s.assignBuf key = .ok (i, s')) :
    s'.appendBufs.Ok := by
  rw [assignBuf] at h
  split at h
  · cases h
  · rename_i j hj
    simp only [bind_eq_ok, pure_eq_ok] at h
    obtain ⟨-, -, k, hk, h⟩ := h
    cases h
    have hfree := List.find?_some hj
    rw [decide_eq_true_iff] at hfree
    have hb := hs.each i
    have hroom := hs.length_lru_le
    -- four buffers never fill the list, so nothing drops out at its end
    have hset : Lru.set s.appendBufs.lru i = i :: s.appendBufs.lru := by
      rw [Lru.set, if_neg]
      rw [numAppendBufs] at hroom
      rw [Lru.capacity]
      omega
    have hle := PairMem.le_of_write hk
    rw [Nat.zero_add] at hle
    have hnew := hs.assign (b := { s.buf i with klen := key.length, key := k })
      ⟨hle.trans hb.key_len.le, (PairMem.length_write hk).trans hb.key_len, hb.bytes_len,
        hb.wbIdx_le, hb.inv⟩
      (List.mem_range.mp (List.mem_of_find?_eq_some hj)) hfree
      (fun hzero => hkey (List.eq_nil_of_length_eq_zero hzero))
    rw [← hset] at hnew
    exact hnew

/-- The data of a pair is copied from the table. -/
theorem ok_copyToBuf {mem : List UInt8} (hs : s.appendBufs.Ok) (hkey : key ≠ [])
    (h : s.copyToBuf key mem = .ok (i, s')) : s'.appendBufs.Ok := by
  simp only [copyToBuf, bind_eq_ok, pure_eq_ok] at h
  obtain ⟨vlen, -, klen, -, ⟨j, s1⟩, h1, old, hold, bytes, hbytes, h⟩ := h
  cases h
  have hs1 := ok_assignBuf hs hkey h1
  have hb := hs1.each j
  refine hs1.update ⟨hb.klen_le, hb.key_len, (PairMem.length_write hbytes).trans hb.bytes_len, ?_,
    hb.inv⟩ rfl
  have hle := PairMem.le_of_write hbytes
  simp only [PairMem.read, bind_eq_ok, ensure_eq_ok, pure_eq_ok] at hold
  obtain ⟨-, hin, rfl⟩ := hold
  rw [Nat.zero_add] at hin hle
  rw [List.drop_zero, List.length_take, Nat.min_eq_left hin] at hle
  exact hle.trans hb.bytes_len.le

theorem ok_checkLen {data : List UInt8} {credits : ℕ} {r : AppendReply} (hs : s.appendBufs.Ok)
    (hkey : key ≠ []) (h : s.checkLen d key data credits = .ok (r, s')) : s'.appendBufs.Ok := by
  simp only [checkLen, bind_eq_ok] at h
  obtain ⟨-, -, ⟨sl, s1⟩, h1, h⟩ := h
  have hs1 : s1.appendBufs.Ok := by
    rw [appendBufs_storeLoop h1]
    exact hs
  split at h
  · simp only [bind_eq_ok] at h
    obtain ⟨⟨j, s2⟩, h2, h⟩ := h
    have hassign := ok_assignBuf hs1 hkey h2
    have hs2 : (s2.unlock d sl.lpa).appendBufs.Ok := hassign
    exact ok_appendTo hs2 h
  split at h
  · cases h
    exact hs1
  · simp only [bind_eq_ok] at h
    obtain ⟨⟨j, s2⟩, h2, s3, h3, h⟩ := h
    have hs3 : s3.appendBufs.Ok := by
      rw [appendBufs_releaseMap h3]
      exact ok_copyToBuf hs1 hkey h2
    exact ok_appendTo hs3 h

/-- A flush frees the buffer. -/
theorem appendBufs_flushBuf {vlen n : ℕ} {junk : ℕ → UInt8}
    (h : s.flushBuf d i vlen junk = .ok (n, s')) :
    s'.appendBufs = (s.clearBuf i).appendBufs := by
  simp only [flushBuf, bind_eq_ok, pure_eq_ok] at h
  obtain ⟨⟨sl, s1⟩, h1, mem, -, ⟨credits, s2⟩, h2, mem', -, h⟩ := h
  cases h
  have hloop := appendBufs_storeLoop h1
  have hbufs : s2.appendBufs = s.appendBufs := (appendBufs_placeAt h2).trans hloop
  show ((s2.setPair sl.lpa (some mem')).clearBuf i).appendBufs = _
  simp only [clearBuf, setBuf, buf, appendBufs_setPair, hbufs]

/-- The least recently used buffer is freed. -/
theorem ok_freeOldest {vlen n : ℕ} {junk : ℕ → UInt8} (hs : s.appendBufs.Ok)
    (h : s.freeOldest d key vlen junk = .ok (n, s')) : s'.appendBufs.Ok := by
  rw [freeOldest] at h
  split at h
  · cases h
  rename_i i l hold
  simp only [Lru.getOldest, Option.map_eq_some_iff, Prod.mk.injEq] at hold
  obtain ⟨j, hlast, rfl, rfl⟩ := hold
  have hb := hs.each j
  have hcleared : ((s.setLru s.appendBufs.lru.dropLast).clearBuf j).appendBufs.Ok := by
    refine hs.clear ⟨Nat.zero_le _, hb.key_len, hb.bytes_len, Nat.zero_le _, rfl⟩ rfl ?_
    -- the oldest buffer is the last one on the list
    have hsplit : s.appendBufs.lru = s.appendBufs.lru.dropLast ++ [j] :=
      (List.dropLast_append_getLast? _ hlast).symm
    nth_rewrite 2 [hsplit]
    exact (List.perm_append_singleton j _).symm
  simp only [bind_eq_ok] at h
  obtain ⟨-, -, h⟩ := h
  split at h
  · cases h
    exact hcleared
  · simp only [bind_eq_ok] at h
    obtain ⟨-, -, h⟩ := h
    rw [appendBufs_flushBuf h]
    exact hcleared

theorem ok_append {data : List UInt8} {junk : ℕ → UInt8} {r : AppendReply} (hs : s.appendBufs.Ok)
    (hkey : key ≠ []) (h : s.append d key data junk = .ok (r, s')) : s'.appendBufs.Ok := by
  rw [append] at h
  split at h
  · simp only [bind_eq_ok] at h
    obtain ⟨s1, h1, h⟩ := h
    exact ok_appendTo (ok_touchBuf hs h1) h
  split at h
  · simp only [bind_eq_ok] at h
    obtain ⟨⟨n, s1⟩, h1, h⟩ := h
    exact ok_checkLen (ok_freeOldest hs h1) hkey h
  · exact ok_checkLen hs hkey h

/-- A read, or a delete of a whole key. -/
theorem ok_retrieve {vlen rOffset : ℕ} {forDel : Bool} {r : Reply} (hs : s.appendBufs.Ok)
    (hfull : forDel = true → vlen = 0) (h : s.retrieve d key vlen rOffset forDel = .ok (r, s')) :
    s'.appendBufs.Ok := by
  simp only [retrieve, bind_eq_ok] at h
  obtain ⟨-, -, -, -, h⟩ := h
  split at h
  · simp only [bind_eq_ok] at h
    obtain ⟨s1, h1, h⟩ := h
    exact ok_retrieveFromBuf (ok_touchBuf hs h1) hfull h
  · rw [appendBufs_retrieveFromTable h]
    exact hs

theorem ok_store {value : List UInt8} {junk : ℕ → UInt8} (hs : s.appendBufs.Ok)
    (h : s.store d key value junk = .ok s') : s'.appendBufs.Ok := by
  simp only [store, storeMapping, storeAt, bind_eq_ok, pure_eq_ok] at h
  obtain ⟨⟨lpa, s4⟩, hmap, s5, h5, h6⟩ := h
  obtain ⟨s1, h1, -, -, ⟨sl, s2⟩, h2, s3, ⟨mem, -, ⟨n, s3'⟩, h3, rfl⟩, h4⟩ := hmap
  cases h4
  have hs3 : s3'.appendBufs.Ok := by
    have hdrop := ok_dropAppendBuf hs h1
    rw [appendBufs_placeAt h3, appendBufs_storeLoop h2]
    exact hdrop
  rw [appendBufs_releaseMap h6]
  rw [copyValue] at h5
  split at h5
  · cases h5
  · simp only [bind_eq_ok, pure_eq_ok] at h5
    obtain ⟨mem', -, rfl⟩ := h5
    exact hs3

theorem ok_init (h : Shard.init d = .ok s) : s.appendBufs.Ok := by
  simp only [Shard.init, bind_eq_ok, pure_eq_ok] at h
  obtain ⟨f, -, rfl⟩ := h
  refine ⟨fun i => ?_, List.nodup_nil, fun i => ?_⟩
  · exact ⟨Nat.zero_le _, List.length_replicate, List.length_replicate, Nat.zero_le _, rfl⟩
  · exact ⟨fun hmem => absurd hmem List.not_mem_nil, fun hin => absurd rfl hin.2⟩

end Shard

/-- An append has a key, and a delete is one of a whole key. -/
def Op.Keyed : Op → Prop
  | .append key _ _ => key ≠ []
  | .delete _ vlen _ => vlen = 0
  | _ => True

theorem ok_run {d : Device} {s s' : Shard} {op : Op} (hs : s.appendBufs.Ok) (hop : op.Keyed)
    (h : op.run d s = .ok s') : s'.appendBufs.Ok := by
  cases op with
  | store key value junk => exact Shard.ok_store hs h
  | append key data junk =>
    simp only [Op.run, bind_eq_ok, pure_eq_ok] at h
    obtain ⟨⟨r, s1⟩, h1, rfl⟩ := h
    exact Shard.ok_append hs hop h1
  | retrieve key vlen rOffset =>
    simp only [Op.run, bind_eq_ok, pure_eq_ok] at h
    obtain ⟨⟨r, s1⟩, h1, rfl⟩ := h
    exact Shard.ok_retrieve hs (fun hdel => by cases hdel) h1
  | delete key vlen rOffset =>
    simp only [Op.run, bind_eq_ok, pure_eq_ok] at h
    obtain ⟨⟨r, s1⟩, h1, rfl⟩ := h
    exact Shard.ok_retrieve hs (fun _ => hop) h1
  | evict =>
    simp only [Op.run, bind_eq_ok, pure_eq_ok] at h
    obtain ⟨⟨n, s1⟩, h1, rfl⟩ := h
    rw [Shard.appendBufs_evictOne h1]
    exact hs
  | gc =>
    rw [Gc.appendBufs_turn h]
    exact hs

/-- The append buffers in every run from a fresh device. -/
theorem bufsOk_of_runs {d : Device} {s₀ s : Shard} (hinit : Shard.init d = .ok s₀)
    (hr : Runs d (fun _ op => op.Keyed) s₀ s) : s.appendBufs.Ok :=
  hr.invariant (Shard.ok_init hinit) fun _ _ _ hu hop hrun => ok_run hu hop hrun

end Virtkv
