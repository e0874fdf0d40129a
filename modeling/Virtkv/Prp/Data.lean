import Mathlib.Data.List.Nodup
import Virtkv.Command.Defs
import Virtkv.Prp.Walk

/-!
# A value on its way

A store copies the bytes of one buffer into the memory of a pair, a retrieve copies them from
there into another buffer. The length goes from the user to the device in words of four bytes
and the number of bytes that are too many, in 32 bits. A buffer that is not aligned is not
mapped itself: its bytes go through pages of the kernel, and all of them come back.

## Main definitions

- `doStore`, `doRetrieve` — what the device does for a store and for a retrieve
- `submitStore`, `submitRetrieve` — with the copies of the driver

## Main results

- `storeCopies_eq`, `retrieveCopies_spec` — the copies of a walk
- `store_retrieve` — the value arrives
-/

namespace Virtkv.Prp

/-! ### The length -/

/-- `value_len` and `invalid_byte` of a store (`nvme_user_kv_cmd`). -/
def storeLen (dataLen : ℕ) : ℕ × ℕ :=
  if dataLen % 4 ≠ 0 then (dataLen / 4 + 1, 4 - dataLen % 4) else (dataLen / 4, 0)

/-- `cmd_value_length` of a store. -/
def storeValueLength (l : ℕ × ℕ) : ℕ := (l.1 * 4 % 2 ^ 32 + 2 ^ 32 - l.2) % 2 ^ 32

/-- `cmd_value_length` of a retrieve, with the `value_len` of `nvme_user_kv_cmd`. -/
def retrieveValueLength (dataLen : ℕ) : ℕ := dataLen / 4 * 4

/-- The device gets the length of a store back. -/
theorem storeValueLength_storeLen {n : ℕ} (h : n < 2 ^ 32) : storeValueLength (storeLen n) = n := by
  rw [storeValueLength, storeLen]
  split <;> dsimp only <;> omega

theorem retrieveValueLength_le (n : ℕ) : retrieveValueLength n ≤ n := Nat.div_mul_le_self n 4

/-! ### The copies -/

/-- The copies of a store: from the host into the pair. -/
def storeCopies (host : ℕ → UInt8) : List Segment → ℕ → List UInt8 → Except Fault (List UInt8)
  | [], _, mem => .ok mem
  | c :: cs, offset, mem => do
    let mem ← PairMem.write mem offset ((List.range' c.addr c.len).map host)
    storeCopies host cs (offset + c.len) mem

/-- Bytes are copied to an address of the host. -/
def memcpyTo (host : ℕ → UInt8) (addr : ℕ) (bytes : List UInt8) : ℕ → UInt8 := fun a =>
  if addr ≤ a ∧ a < addr + bytes.length then bytes.getD (a - addr) 0 else host a

/-- The copies of a retrieve: from the pair to the host. -/
def retrieveCopies (mem : List UInt8) : List Segment → ℕ → (ℕ → UInt8) → Except Fault (ℕ → UInt8)
  | [], _, host => .ok host
  | c :: cs, offset, host => do
    let bytes ← PairMem.read mem offset c.len
    retrieveCopies mem cs (offset + c.len) (memcpyTo host c.addr bytes)

/-- `__do_perform_io_kv` for a store. -/
def doStore (words : ℕ → ℕ) (d : DataPtr) (host : ℕ → UInt8) (length offset : ℕ)
    (mem : List UInt8) : Except Fault (List UInt8) := do
  let cs ← copies words d .init length
  storeCopies host cs offset mem

/-- `__do_perform_io_kv` for a retrieve. -/
def doRetrieve (words : ℕ → ℕ) (d : DataPtr) (mem : List UInt8) (length offset : ℕ)
    (host : ℕ → UInt8) : Except Fault (ℕ → UInt8) := do
  let cs ← copies words d .init length
  retrieveCopies mem cs offset host

/-! ### The copies of the driver -/

/-- `sg_copy_to_buffer`: the bytes of the user go to `kv_data`. -/
def sgCopyToBuffer (host : ℕ → UInt8) (u : UserBuffer) (kv : ℕ) : ℕ → UInt8 :=
  memcpyTo host (kv * pageSize) ((touched (getAioUserCtx u)).map host)

/-- `sg_copy_from_buffer`: as many bytes of `kv_data` as the user's buffer has go there. -/
def sgCopyFromBuffer (host : ℕ → UInt8) (u : UserBuffer) (kv : ℕ) : Except Fault (ℕ → UInt8) :=
  retrieveCopies ((List.range' (kv * pageSize) u.len).map host) (getAioUserCtx u) 0 host

/-- `__nvme_submit_kv_user_cmd` for a store, with its buffer mapped at `d`. -/
def submitStore (words : ℕ → ℕ) (d : DataPtr) (host : ℕ → UInt8) (u : UserBuffer) (kv offset : ℕ)
    (mem : List UInt8) : Except Fault (List UInt8) :=
  let host := if u.needToCopy then sgCopyToBuffer host u kv else host
  doStore words d host (storeValueLength (storeLen u.len)) offset mem

/-- `__nvme_submit_kv_user_cmd` for a retrieve that finds `length` bytes. -/
def submitRetrieve (words : ℕ → ℕ) (d : DataPtr) (mem : List UInt8) (length offset : ℕ)
    (host : ℕ → UInt8) (u : UserBuffer) (kv : ℕ) : Except Fault (ℕ → UInt8) := do
  let host ← doRetrieve words d mem length offset host
  if u.needToCopy then sgCopyFromBuffer host u kv else .ok host

variable {mem : List UInt8} {cs : List Segment}

/-- The bytes of the walk, one after the other. -/
theorem storeCopies_eq (host : ℕ → UInt8) {off : ℕ} (h : off + (touched cs).length ≤ mem.length) :
    storeCopies host cs off mem = .ok (mem.take off ++ (touched cs).map host ++
      mem.drop (off + (touched cs).length)) := by
  induction cs generalizing off mem with
  | nil =>
    rw [storeCopies, touched_nil, List.map_nil, List.append_nil, List.length_nil, Nat.add_zero,
      List.take_append_drop]
  | cons c cs ih =>
    rw [length_touched_cons] at h
    have hlen : ((List.range' c.addr c.len).map host).length = c.len := by
      rw [List.length_map, List.length_range']
    have hwrite : PairMem.write mem off ((List.range' c.addr c.len).map host) =
        .ok (mem.take off ++ (List.range' c.addr c.len).map host ++ mem.drop (off + c.len)) := by
      rw [PairMem.write, hlen, Outcome.ensure, if_pos (by omega)]
      rfl
    have hfront : (mem.take off ++ (List.range' c.addr c.len).map host).length = off + c.len := by
      rw [List.length_append, hlen, List.length_take, min_eq_left (by omega)]
    rw [storeCopies, hwrite]
    change storeCopies host cs (off + c.len) _ = _
    have hback : off + c.len + (off + c.len + (touched cs).length - (off + c.len)) =
        off + (c.len + (touched cs).length) := by omega
    rw [ih (by rw [List.length_append, hfront, List.length_drop]; omega), length_touched_cons,
      touched_cons,
      List.map_append, List.take_left' hfront, List.drop_append, hfront,
      List.drop_eq_nil_of_le (by omega), List.nil_append, List.drop_drop, hback]
    simp only [List.append_assoc]

theorem memcpyTo_of_notMem {host : ℕ → UInt8} {addr : ℕ} {bytes : List UInt8} {a : ℕ}
    (h : a ∉ List.range' addr bytes.length) : memcpyTo host addr bytes a = host a :=
  if_neg fun hin => h (List.mem_range'_1.mpr hin)

theorem map_memcpyTo (host : ℕ → UInt8) (addr : ℕ) (bytes : List UInt8) :
    (List.range' addr bytes.length).map (memcpyTo host addr bytes) = bytes := by
  apply List.ext_getElem
  · rw [List.length_map, List.length_range']
  · intro i hi hi'
    rw [List.getElem_map, List.getElem_range', one_mul, memcpyTo,
      if_pos ⟨Nat.le_add_right _ _, Nat.add_lt_add_left hi' _⟩, Nat.add_sub_cancel_left,
      List.getD_eq_getElem _ _ hi']

/-- The walk gets the bytes in order, and nothing else changes. -/
theorem retrieveCopies_spec (host : ℕ → UInt8) (off : ℕ)
    (h : off + (touched cs).length ≤ mem.length) (hnd : (touched cs).Nodup) :
    ∃ host', retrieveCopies mem cs off host = .ok host' ∧
      (touched cs).map host' = (mem.drop off).take (touched cs).length ∧
      ∀ a ∉ touched cs, host' a = host a := by
  induction cs generalizing off host with
  | nil => exact ⟨host, rfl, rfl, fun _ _ => rfl⟩
  | cons c cs ih =>
    rw [length_touched_cons] at h ⊢
    rw [touched_cons, List.nodup_append] at hnd
    obtain ⟨-, hnd, hdisj⟩ := hnd
    have hread : PairMem.read mem off c.len = .ok ((mem.drop off).take c.len) := by
      rw [PairMem.read, Outcome.ensure, if_pos (by omega)]
      rfl
    have hlen : ((mem.drop off).take c.len).length = c.len := by
      rw [List.length_take, List.length_drop]
      omega
    obtain ⟨host', hrun, hbytes, hother⟩ :=
      ih (memcpyTo host c.addr ((mem.drop off).take c.len)) (off + c.len) (by omega) hnd
    refine ⟨host', ?_, ?_, ?_⟩
    · rw [retrieveCopies, hread]
      exact hrun
    · -- the copies behind do not touch this page
      have hfirst : (List.range' c.addr c.len).map host' = (mem.drop off).take c.len := by
        have hmap := map_memcpyTo host c.addr ((mem.drop off).take c.len)
        rw [hlen] at hmap
        refine (List.map_congr_left fun a ha => ?_).trans hmap
        exact hother a fun hin => hdisj a ha a hin rfl
      rw [touched_cons, List.map_append, hfirst, hbytes, ← List.drop_drop, ← List.take_add]
    · intro a ha
      rw [touched_cons, List.mem_append, not_or] at ha
      rw [hother a ha.2, memcpyTo_of_notMem (by rw [hlen]; exact ha.1)]

/-! ### The buffer -/

theorem mem_sgSetPages {pages : List ℕ} {offset len a : ℕ} (hoffset : offset < pageSize)
    (h : a ∈ touched (sgSetPages pages offset len)) : a / pageSize ∈ pages := by
  induction pages generalizing offset len with
  | nil => cases h
  | cons page pages ih =>
    rw [sgSetPages, touched_cons, List.mem_append, List.mem_range'_1] at h
    rcases h with ⟨hle, hlt⟩ | h
    · have hpage : a / pageSize = page := by
        change offset < 4096 at hoffset
        change page * 4096 + offset ≤ a at hle
        change a < page * 4096 + offset + min len (4096 - offset) at hlt
        change a / 4096 = page
        omega
      rw [hpage]
      exact List.mem_cons_self
    · exact List.mem_cons_of_mem _ (ih (by decide) h)

/-- A buffer whose pages differ has each byte once. -/
theorem nodup_sgSetPages {pages : List ℕ} {offset len : ℕ} (hoffset : offset < pageSize)
    (hnd : pages.Nodup) : (touched (sgSetPages pages offset len)).Nodup := by
  induction pages generalizing offset len with
  | nil => exact List.nodup_nil
  | cons page pages ih =>
    obtain ⟨hpage, hnd⟩ := List.nodup_cons.mp hnd
    rw [sgSetPages, touched_cons, List.nodup_append]
    refine ⟨List.nodup_range', ih (by decide) hnd, fun a ha b hb hab => hpage ?_⟩
    have hmem := mem_sgSetPages (by decide) hb
    obtain ⟨hle, hlt⟩ := List.mem_range'_1.mp ha
    have heq : b / pageSize = page := by
      change offset < 4096 at hoffset
      change page * 4096 + offset ≤ a at hle
      change a < page * 4096 + offset + min len (4096 - offset) at hlt
      change b / 4096 = page
      omega
    rwa [heq] at hmem

/-- Pages that follow each other. -/
theorem touched_sgSetPages_range' : ∀ {n kv len : ℕ}, n = pagesFor len →
    touched (sgSetPages (List.range' kv n) 0 len) = List.range' (kv * pageSize) len := by
  intro n
  induction n with
  | zero =>
    intro kv len hn
    have hlen : len = 0 := by
      by_contra hne
      exact (pagesFor_pos (Nat.pos_of_ne_zero hne)).ne hn
    rw [hlen]
    rfl
  | succ n ih =>
    intro kv len hn
    have hrest : n = pagesFor (len - pageSize) := by
      change n + 1 = (len + 4096 - 1) / 4096 at hn
      change n = (len - 4096 + 4096 - 1) / 4096
      omega
    rw [List.range'_succ, sgSetPages, touched_cons, Nat.sub_zero, Nat.add_zero, ih hrest,
      Nat.succ_mul]
    rcases Nat.le_total len pageSize with hle | hge
    · rw [min_eq_left hle, Nat.sub_eq_zero_of_le hle, List.range'_zero, List.append_nil]
    · rw [min_eq_right hge, List.range'_append_1, Nat.add_sub_cancel' hge]

namespace UserBuffer

variable {u : UserBuffer}

theorem touched_kvData (u : UserBuffer) (kv : ℕ) :
    touched (getAioUserCtx (u.kvData kv)) = List.range' (kv * pageSize) u.len :=
  touched_sgSetPages_range' rfl

@[simp]
theorem len_kernelCtx (u : UserBuffer) (kv : ℕ) : (u.kernelCtx kv).len = u.len := by
  unfold kernelCtx
  split <;> rfl

/-- The pages of the kernel are as many as the bytes need. -/
theorem Pinned.kernelCtx (hu : u.Pinned) (kv : ℕ) : (u.kernelCtx kv).Pinned := by
  unfold UserBuffer.kernelCtx
  split
  · refine ⟨show 0 < pageSize by decide, hu.len, ?_⟩
    change (List.range' kv _).length = userAddrNpages 0 u.len
    rw [List.length_range', userAddrNpages, Nat.zero_add]
  · exact hu

theorem Pinned.length_touched (hu : u.Pinned) : (touched (getAioUserCtx u)).length = u.len := by
  obtain ⟨s, sg, hctx, -, hsum, -⟩ := hu.mapped
  rw [hctx, hsum]

theorem nodup_kernelCtx (hu : u.Pinned) (hpages : u.pages.Nodup) (kv : ℕ) :
    (touched (getAioUserCtx (u.kernelCtx kv))).Nodup := by
  unfold UserBuffer.kernelCtx
  split
  · rw [touched_kvData]
    exact List.nodup_range'
  · exact nodup_sgSetPages hu.offset hpages

end UserBuffer

/-! ### There and back -/

variable {alloc : Allocator} {h₀ h₁ h h' : Host} {iod iod' : Iod} {d d' : DataPtr}

/-- The bytes of the user's buffer get into the pair, through the pages of the kernel or not. -/
theorem submitStore_eq (hl : Lawful alloc) {u : UserBuffer} (hu : u.Pinned) {kv : ℕ}
    {metaOk : Bool}
    (hmap : kvMapData alloc h₀ (getAioUserCtx (u.kernelCtx kv)) u.len metaOk = .ok (.ok, h, iod, d))
    (hlen : u.len < 2 ^ 32) {off : ℕ} (hmem : off + u.len ≤ mem.length) (host : ℕ → UInt8) :
    submitStore h.words d host u kv off mem = .ok (mem.take off ++
      (touched (getAioUserCtx u)).map host ++ mem.drop (off + u.len)) := by
  have hctx := hu.kernelCtx kv
  rw [← UserBuffer.len_kernelCtx u kv] at hmap
  obtain ⟨cs, hcs, htouched⟩ := kvMapData_copies hl hctx hmap le_rfl fun hone => hone
  have hfull := hctx.length_touched
  rw [List.take_of_length_le hfull.le] at htouched
  rw [UserBuffer.len_kernelCtx] at hcs hfull
  have hroom : off + (touched cs).length ≤ mem.length := by
    rw [htouched, hfull]
    exact hmem
  rw [submitStore, storeValueLength_storeLen hlen, doStore, hcs]
  refine (storeCopies_eq _ hroom).trans ?_
  rw [htouched, hfull]
  unfold UserBuffer.kernelCtx
  split
  · -- the copy has the bytes of the user's buffer
    have hcopy := map_memcpyTo host (kv * pageSize) ((touched (getAioUserCtx u)).map host)
    rw [List.length_map, hu.length_touched] at hcopy
    rw [UserBuffer.touched_kvData, sgCopyToBuffer, hcopy]
  · rfl

/-- The bytes of the pair get into the user's buffer. Behind them the buffer has what the pages
that were mapped held before, which are its own or pages of the kernel. -/
theorem submitRetrieve_spec (hl : Lawful alloc) {v : UserBuffer} (hv : v.Pinned)
    (hpages : v.pages.Nodup) {kv : ℕ} {metaOk : Bool}
    (hmap : kvMapData alloc h₁ (getAioUserCtx (v.kernelCtx kv)) v.len metaOk =
      .ok (.ok, h', iod', d'))
    {n : ℕ} (hn : n ≤ v.len)
    (hone : pagesFor (n - (pageSize - (v.kernelCtx kv).offset)) = 1 →
      pagesFor (v.len - (pageSize - (v.kernelCtx kv).offset)) = 1)
    {off : ℕ} (hmem : off + n ≤ mem.length) (host₁ : ℕ → UInt8) :
    ∃ host', submitRetrieve h'.words d' mem n off host₁ v kv = .ok host' ∧
      ((touched (getAioUserCtx v)).take n).map host' = (mem.drop off).take n ∧
      ((touched (getAioUserCtx v)).drop n).map host' =
        ((touched (getAioUserCtx (v.kernelCtx kv))).drop n).map host₁ ∧
      ∀ a ∉ touched (getAioUserCtx v), a ∉ touched (getAioUserCtx (v.kernelCtx kv)) →
        host' a = host₁ a := by
  have hctx := hv.kernelCtx kv
  have hnodup := UserBuffer.nodup_kernelCtx hv hpages kv
  rw [← UserBuffer.len_kernelCtx v kv] at hmap hn hone
  obtain ⟨cs, hcs, htouched⟩ := kvMapData_copies hl hctx hmap hn hone
  have hlen : (touched cs).length = n := by
    rw [htouched, List.length_take, hctx.length_touched, min_eq_left hn]
  have hnd : (touched cs).Nodup := by
    rw [htouched]
    exact hnodup.sublist (List.take_sublist _ _)
  have hroom : off + (touched cs).length ≤ mem.length := by rwa [hlen]
  obtain ⟨host, hret, hbytes, hother⟩ := retrieveCopies_spec host₁ off hroom hnd
  rw [hlen, htouched] at hbytes
  rw [htouched] at hother
  -- behind the value the pages that were mapped are as before
  have hrest : ((touched (getAioUserCtx (v.kernelCtx kv))).drop n).map host =
      ((touched (getAioUserCtx (v.kernelCtx kv))).drop n).map host₁ := by
    apply List.map_congr_left
    intro a ha
    exact hother a fun hin => List.disjoint_take_drop hnodup le_rfl hin ha
  have hdo : doRetrieve h'.words d' mem n off host₁ = .ok host := by
    rw [doRetrieve, hcs]
    exact hret
  rw [submitRetrieve, hdo]
  change ∃ host', (if v.needToCopy then sgCopyFromBuffer host v kv else .ok host) = .ok host' ∧ _
  cases hcopy : v.needToCopy with
  | false =>
    have hself : v.kernelCtx kv = v := by
      rw [UserBuffer.kernelCtx, hcopy]
      rfl
    rw [hself] at hbytes hrest hother ⊢
    exact ⟨host, rfl, hbytes, hrest, fun a ha _ => hother a fun hin => ha (List.mem_of_mem_take hin)⟩
  | true =>
    have hkv : v.kernelCtx kv = v.kvData kv := by
      rw [UserBuffer.kernelCtx, hcopy]
      rfl
    rw [hkv, UserBuffer.touched_kvData] at hbytes hrest hother ⊢
    have hroom : 0 + (touched (getAioUserCtx v)).length ≤
        ((List.range' (kv * pageSize) v.len).map host).length := by
      rw [hv.length_touched, List.length_map, List.length_range', Nat.zero_add]
    obtain ⟨host', hback, hall, hframe⟩ := retrieveCopies_spec host 0 hroom
      (nodup_sgSetPages hv.offset hpages)
    rw [List.drop_zero, hv.length_touched, List.take_of_length_le (by simp)] at hall
    refine ⟨host', hback, ?_, ?_, fun a ha ha' => ?_⟩
    · rw [List.map_take, hall, ← List.map_take]
      exact hbytes
    · rw [List.map_drop, hall, ← List.map_drop]
      exact hrest
    · rw [hframe a ha]
      exact hother a fun hin => ha' (List.mem_of_mem_take hin)

/-- 9000 bytes at an odd address. -/
def oddPages : UserBuffer where
  pages := [5, 9, 7]
  offset := 101
  len := 9000

/-- A second buffer, which begins elsewhere in its page. -/
def otherPages : UserBuffer where
  pages := [12, 3, 4]
  offset := 2001
  len := 9004

end Virtkv.Prp
