import Mathlib.Data.List.Basic
import Mathlib.Logic.Function.Basic
import Virtkv.Config

/-!
# The data of a command: from the user's buffer to the device and back

The driver turns the buffer of a user into a scatterlist, and that into the two addresses of a
command: `prp1` is the first page, `prp2` the second, or a list of all pages but the first. A
list that does not fit into one page goes on in another page, whose address takes the place of
the last entry. The device walks the pages with a length of its own.

## Main definitions

- `getAioUserCtx`, `UserBuffer.kernelCtx` — the buffer of a command, and the one that is mapped
- `setupPrps`, `kvMapData`, `kvUnmapData` — the driver
- `copies`, `touched` — the addresses the device copies from or to
- `dmaCopies` — the copies that are left to the DMA engine
-/

namespace Virtkv.Prp

/-! ### The buffer -/

/-- A run of addresses: an entry of a scatterlist, or a copy of the device. -/
structure Segment where
  addr : ℕ
  len : ℕ
  deriving DecidableEq

/-- The addresses of a list of segments, in order. -/
def touched (sg : List Segment) : List ℕ := sg.flatMap fun s => List.range' s.addr s.len

/-- `user_addr_npages`. -/
def userAddrNpages (offset size : ℕ) : ℕ := (offset + size + pageSize - 1) / pageSize

/-- The loop of `get_aio_user_ctx` that enters the pages into the scatterlist. -/
def sgSetPages : List ℕ → ℕ → ℕ → List Segment
  | [], _, _ => []
  | page :: pages, offset, datalen =>
    { addr := page * pageSize + offset, len := min datalen (pageSize - offset) } ::
      sgSetPages pages 0 (datalen - (pageSize - offset))

/-- A buffer of a user: the frames of its pages, and where it begins in the first. -/
structure UserBuffer where
  pages : List ℕ
  offset : ℕ
  len : ℕ

/-- `get_aio_user_ctx`, once the pages are pinned. -/
def getAioUserCtx (u : UserBuffer) : List Segment := sgSetPages u.pages u.offset u.len

/-- `need_to_copy`: the address has bits of `KV_QUEUE_DMA_ALIGNMENT`. -/
def UserBuffer.needToCopy (u : UserBuffer) : Bool := decide (u.offset % 4 ≠ 0)

/-- `kv_data`: pages of the kernel from the frame `kv` on, as many as the bytes need. -/
def UserBuffer.kvData (u : UserBuffer) (kv : ℕ) : UserBuffer where
  pages := List.range' kv ((u.len + pageSize - 1) / pageSize)
  offset := 0
  len := u.len

/-- `kernel_ctx`: the buffer that is mapped, the user's own or one of the kernel. -/
def UserBuffer.kernelCtx (u : UserBuffer) (kv : ℕ) : UserBuffer :=
  if u.needToCopy then u.kvData kv else u

/-! ### The pools -/

/-- `prp_small_pool` and `prp_page_pool`. -/
inductive PoolKind where
  | small
  | page
  deriving DecidableEq

/-- The size of the blocks of a pool; the blocks are aligned to it. -/
def PoolKind.size : PoolKind → ℕ
  | small => 256
  | page => pageSize

/-- A block of a pool. -/
structure Block where
  kind : PoolKind
  addr : ℕ
  deriving DecidableEq

/-- `dma_pool_alloc`: the address of a new block, given the blocks that are in use. -/
abbrev Allocator := List Block → PoolKind → Option ℕ

/-- The pools: their memory in words of 8 bytes, and the blocks in use. -/
structure Host where
  words : ℕ → ℕ
  live : List Block

/-- `dma_pool_free`, which is given the block and its bus address. -/
def Host.free (h : Host) (b : Block) (dma : ℕ) : Except Fault Host :=
  if b ∈ h.live ∧ dma = b.addr then .ok { h with live := h.live.erase b } else .error .bug

/-- `struct nvme_iod`; `npages` is -1 without a list and 0 for a list from the small pool. -/
structure Iod where
  firstDma : ℕ
  npages : ℤ
  list : ℕ → ℕ

/-- `blk_status_t`. -/
inductive BlkStatus where
  | ok
  | resource
  | ioerr
  deriving DecidableEq

/-! ### The driver -/

/-- The loop of `nvme_free_prps` that frees `list[i]` and those behind it. -/
def freePrpsFrom (iod : Iod) : ℕ → ℕ → ℕ → Host → Except Fault Host
  | 0, _, _, h => .ok h
  | n + 1, i, dma, h => do
    let prpList := iod.list i
    let next := h.words (prpList + 8 * 511)
    let h ← h.free ⟨.page, prpList⟩ dma
    freePrpsFrom iod n (i + 1) next h

/-- `nvme_free_prps`. -/
def freePrps (iod : Iod) (h : Host) : Except Fault Host :=
  freePrpsFrom iod iod.npages.toNat 0 iod.firstDma h

/-- The locals of `nvme_pci_setup_prps`; `sg` is what follows the current entry. -/
structure Fill where
  host : Host
  iod : Iod
  prpList : ℕ
  i : ℕ
  dmaAddr : ℕ
  dmaLen : ℤ
  sg : List Segment

/-- A new page of lists: the last entry of the full one moves there, and its place leads to the
new page. -/
def Fill.grow (kind : PoolKind) (prpDma : ℕ) (f : Fill) : Fill :=
  let last := f.prpList + 8 * (f.i - 1)
  let words := Function.update f.host.words prpDma (f.host.words last)
  { f with
    host := { words := Function.update words last prpDma, live := ⟨kind, prpDma⟩ :: f.host.live }
    iod := { f.iod with
      npages := f.iod.npages + 1
      list := Function.update f.iod.list f.iod.npages.toNat prpDma }
    prpList := prpDma
    i := 1 }

/-- A list that is full goes on in a new page. -/
def Fill.chain (alloc : Allocator) (kind : PoolKind) (f : Fill) : Option Fill :=
  if f.i = pageSize / 8 then (alloc f.host.live kind).map fun prpDma => f.grow kind prpDma
  else some f

/-- Enter a page into the list. -/
def Fill.put (f : Fill) : Fill :=
  { f with
    host := { f.host with
      words := Function.update f.host.words (f.prpList + 8 * f.i) f.dmaAddr }
    i := f.i + 1
    dmaAddr := f.dmaAddr + pageSize
    dmaLen := f.dmaLen - pageSize }

/-- The loop of `nvme_pci_setup_prps`. -/
def fillLists (alloc : Allocator) (kind : PoolKind) (length : ℤ) (f : Fill) :
    Except Fault (BlkStatus × Host × Iod) :=
  match f.chain alloc kind with
  | none => do
    let h ← freePrps f.iod f.host
    .ok (.resource, h, f.iod)
  | some f =>
    let f := f.put
    let rest := length - pageSize
    if _hlast : rest ≤ 0 then .ok (.ok, f.host, f.iod)
    else if 0 < f.dmaLen then fillLists alloc kind rest f
    else if f.dmaLen < 0 then .ok (.ioerr, f.host, f.iod)
    else match f.sg with
      | [] => .error .badAccess
      | s :: sg => fillLists alloc kind rest { f with dmaAddr := s.addr, dmaLen := s.len, sg := sg }
termination_by length.toNat
decreasing_by
  all_goals
    have hpage : (pageSize : ℤ) = 4096 := rfl
    omega

/-- `nvme_pci_setup_prps` from the second page on. -/
def setupPrp2 (alloc : Allocator) (h : Host) (iod : Iod) (length : ℤ) (dmaAddr : ℕ) (dmaLen : ℤ)
    (sg : List Segment) : Except Fault (BlkStatus × Host × Iod) :=
  if length ≤ pageSize then .ok (.ok, h, { iod with firstDma := dmaAddr })
  else
    let nprps := (length.toNat + pageSize - 1) / pageSize
    let kind := if nprps ≤ 256 / 8 then .small else .page
    match alloc h.live kind with
    | none => .ok (.resource, h, { iod with firstDma := dmaAddr, npages := -1 })
    | some prpDma =>
      fillLists alloc kind length
        { host := { h with live := ⟨kind, prpDma⟩ :: h.live }
          iod :=
            { firstDma := prpDma
              npages := if nprps ≤ 256 / 8 then 0 else 1
              list := Function.update iod.list 0 prpDma }
          prpList := prpDma
          i := 0
          dmaAddr := dmaAddr
          dmaLen := dmaLen
          sg := sg }

/-- The bytes up to the end of the page: `NVME_CTRL_PAGE_SIZE - offset`. -/
def Segment.first (s : Segment) : ℕ := pageSize - s.addr % pageSize

/-- `nvme_pci_setup_prps` for a KV command with a scatterlist and `length` bytes. -/
def setupPrps (alloc : Allocator) (h : Host) (iod : Iod) (sg : List Segment) (length : ℕ) :
    Except Fault (BlkStatus × Host × Iod) :=
  match sg with
  | [] => .error .badAccess
  | s :: sg =>
    let length : ℤ := length - s.first
    if length ≤ 0 then .ok (.ok, h, { iod with firstDma := 0 })
    else
      let dmaLen : ℤ := s.len - s.first
      if dmaLen ≠ 0 then setupPrp2 alloc h iod length (s.addr + s.first) dmaLen sg
      else match sg with
        | [] => .error .badAccess
        | s :: sg => setupPrp2 alloc h iod length s.addr s.len sg

/-- `dptr` of a command. -/
structure DataPtr where
  prp1 : ℕ
  prp2 : ℕ

/-- The entries that fit behind `iod->sg`: `nvme_pci_iod_alloc_size` asks for `NVME_MAX_SEGS`
of 32 bytes and 8 bytes for the address of a list, and `mempool_kmalloc` gives a page. -/
def iodSgSz : ℕ := 128

/-- `nvme_kv_map_data` for a command with data: the scatterlist is copied behind `iod->sg`
whatever its length, and mapped at its own addresses; `metaOk` tells whether a long key could
be mapped. The request has no segments of its own, so the address of a list is stored over the
page of the first entry, which is not read again. -/
def kvMapData (alloc : Allocator) (h : Host) (sg : List Segment) (length : ℕ) (metaOk : Bool) :
    Except Fault (BlkStatus × Host × Iod × DataPtr) :=
  if iodSgSz < sg.length then .error .badAccess
  else do
    -- `nvme_queue_rq` has set `npages` to -1
    let iod : Iod := { firstDma := 0, npages := -1, list := fun _ => 0 }
    let (status, h, iod) ← setupPrps alloc h iod sg length
    let prp1 := (sg.head?.map Segment.addr).getD 0
    if status = .ok then
      .ok (if metaOk then .ok else .ioerr, h, iod, ⟨prp1, iod.firstDma⟩)
    else .ok (status, h, iod, ⟨0, 0⟩)

/-- `nvme_kv_unmap_data`. -/
def kvUnmapData (h : Host) (iod : Iod) : Except Fault Host :=
  if iod.npages = 0 then h.free ⟨.small, iod.list 0⟩ iod.firstDma else freePrps iod h

/-! ### The device -/

/-- The locals of the loop of `__do_perform_io_kv`. -/
structure Walk where
  prpOffs : ℕ
  prp2Offs : ℕ
  paddrList : Option ℕ

def Walk.init : Walk := { prpOffs := 0, prp2Offs := 0, paddrList := none }

/-- The address of the next page. -/
def Walk.next (words : ℕ → ℕ) (d : DataPtr) (w : Walk) (remaining : ℕ) : Except Fault (ℕ × Walk) :=
  let prpOffs := w.prpOffs + 1
  if prpOffs = 1 then .ok (d.prp1, { w with prpOffs := prpOffs })
  else if prpOffs = 2 then
    if remaining > pageSize then
      .ok (words (d.prp2 + 8 * w.prp2Offs),
        { prpOffs := prpOffs, prp2Offs := w.prp2Offs + 1, paddrList := some d.prp2 })
    else .ok (d.prp2, { w with prpOffs := prpOffs })
  else match w.paddrList with
    | none => .error .badAccess
    | some list =>
      .ok (words (list + 8 * w.prp2Offs), { w with prpOffs := prpOffs, prp2Offs := w.prp2Offs + 1 })

/-- `io_size`: not beyond the page. -/
def ioSize (paddr remaining : ℕ) : ℕ :=
  let ioSize := min remaining pageSize
  let memOffs := paddr % pageSize
  if ioSize + memOffs > pageSize then pageSize - memOffs else ioSize

theorem ioSize_pos (paddr : ℕ) {remaining : ℕ} (h : remaining ≠ 0) : 0 < ioSize paddr remaining := by
  have hmod := Nat.mod_lt paddr (by decide : 0 < pageSize)
  have hpos : 0 < pageSize := by decide
  unfold ioSize
  dsimp only
  split <;> omega

/-- The loop of `__do_perform_io_kv`: the pages it copies from or to, in order. -/
def copies (words : ℕ → ℕ) (d : DataPtr) (w : Walk) (remaining : ℕ) :
    Except Fault (List Segment) :=
  if _h : remaining = 0 then .ok []
  else do
    let (paddr, w) ← w.next words d remaining
    let rest ← copies words d w (remaining - ioSize paddr remaining)
    .ok ({ addr := paddr, len := ioSize paddr remaining } :: rest)
termination_by remaining
decreasing_by
  have := ioSize_pos paddr _h
  omega

/-! ### The copies of the DMA engine -/

/-- The pages that follow each other in memory, from `addr` on: their number, and the rest. -/
def follow (addr : ℕ) : List ℕ → ℕ × List ℕ
  | [] => (0, [])
  | a :: as =>
    if a = addr + pageSize then
      let (n, rest) := follow a as
      (n + 1, rest)
    else (0, a :: as)

theorem follow_length (addr : ℕ) (as : List ℕ) : (follow addr as).2.length ≤ as.length := by
  induction as generalizing addr with
  | nil => exact Nat.le_refl _
  | cons a as ih =>
    unfold follow
    split
    · exact Nat.le_trans (ih a) (Nat.le_succ _)
    · exact Nat.le_refl _

/-- The second loop of `__do_perform_io_using_dma`, over the pages the first loop found. -/
def transfers : List ℕ → ℕ → Except Fault (List Segment)
  | [], remaining => if remaining = 0 then .ok [] else .error .badAccess
  | paddr :: as, remaining =>
    if remaining = 0 then .ok []
    else do
      let run := follow paddr as
      let size := min remaining (ioSize paddr remaining + run.1 * pageSize)
      let ts ← transfers run.2 (remaining - size)
      .ok ({ addr := paddr, len := size } :: ts)
termination_by as => as.length
decreasing_by
  have := follow_length paddr as
  simp only [List.length_cons]
  omega

/-- The entries of `paddr_list`, of which the first is not used. -/
def paddrListSz : ℕ := 513

/-- `__do_perform_io_using_dma`. -/
def dmaCopies (words : ℕ → ℕ) (d : DataPtr) (length : ℕ) : Except Fault (List Segment) := do
  let cs ← copies words d .init length
  if cs.length < paddrListSz then transfers (cs.map Segment.addr) length
  else .error .badAccess

end Virtkv.Prp
