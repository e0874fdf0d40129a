import Mathlib.Data.List.Sort
import Mathlib.Logic.Function.Basic
import Virtkv.Config

/-!
# The two-level mapping table of the Plus build

The mapping page of a section is a `kzalloc`ed page that `twolevel.c` reads as a
`struct root` (a count and `IN_ROOT` keys) followed by `IN_ROOT` leaves of
`IN_LEAF` indices and `IN_LEAF` grains. The page is modelled as its 32-bit words,
so that the raw byte position that `twolevel_find` hands out and
`twolevel_insert` writes through keeps its meaning.

The functions follow `twolevel.c` one to one. `twolevel_insert` and
`twolevel_reload` call each other; the inner calls run with `reloading` set,
where a full leaf is a failed assertion, and are `insertReloading` here.
-/

namespace Virtkv

open Outcome

/-- A kernel page read as 32-bit words. -/
abbrev PageWords := ℕ → ℕ

/-- `struct leaf_e`: an index and its grain. -/
abbrev LeafE := ℕ × ℕ

namespace TwoLevel

/-- `sizeof(struct root)` and `sizeof(struct leaf)` in words. -/
def rootWords : ℕ := 1 + inRoot
def leafWords : ℕ := 2 * inLeaf

/-- The first word of leaf `i`. -/
def leafBase (i : ℕ) : ℕ := rootWords + leafWords * i

/-- `root->cnt`. -/
def cnt (m : PageWords) : ℕ := m 0

/-- `root->entries[i]`. -/
def entry (m : PageWords) (i : ℕ) : ℕ := m (1 + i)

/-- `leaf->hidx[j]` and `leaf->ppa[j]` of leaf `i`. -/
def hidx (m : PageWords) (i j : ℕ) : ℕ := m (leafBase i + j)
def ppa (m : PageWords) (i j : ℕ) : ℕ := m (leafBase i + inLeaf + j)

def setCnt (m : PageWords) (v : ℕ) : PageWords := Function.update m 0 v
def setEntry (m : PageWords) (i v : ℕ) : PageWords := Function.update m (1 + i) v

/-- Write index and grain of slot `j` of leaf `i`. -/
def setSlot (m : PageWords) (i j h p : ℕ) : PageWords :=
  Function.update (Function.update m (leafBase i + j) h) (leafBase i + inLeaf + j) p

end TwoLevel

/-- The part of a section that `twolevel.c` changes. -/
structure Table where
  cachedCnt : ℕ
  mem : PageWords

namespace TwoLevel

/-- `twolevel_init`: two leaves, every key and every slot empty. -/
def twolevelInit (m : PageWords) : PageWords := fun w =>
  if w = 0 then origGlen - rootG
  else if w < leafBase inRoot then uintMax
  else m w

/-- `twolevel_expand`. -/
def twolevelExpand (m : PageWords) : PageWords := setCnt m (cnt m + 1)

/-- The loop of `__lower_bound` over `[left, right]`; `bound` is `right + 1`. -/
def lowerBoundLoop (e : ℕ → ℕ) (h : ℕ) : ℕ → ℕ → ℕ → ℕ
  | 0, left, _ => left
  | fuel + 1, left, bound =>
    if left < bound then
      let mid := left + (bound - 1 - left) / 2
      if e mid < h then lowerBoundLoop e h fuel (mid + 1) bound
      else lowerBoundLoop e h fuel left mid
    else left

/-- `__lower_bound`. -/
def lowerBound (m : PageWords) (h : ℕ) : ℕ :=
  lowerBoundLoop (entry m) h (cnt m) 0 (cnt m)

/-- The inner gathering loop of `twolevel_reload`: move the slots of leaf `i` from
`j` on into the temporary array, up to the first empty one. -/
def drainLeaf (i : ℕ) : ℕ → ℕ → PageWords → List LeafE × PageWords
  | 0, _, m => ([], m)
  | n + 1, j, m =>
    if hidx m i j = uintMax then ([], m)
    else
      let r := drainLeaf i n (j + 1) (setSlot m i j uintMax uintMax)
      ((hidx m i j, ppa m i j) :: r.1, r.2)

/-- The outer gathering loop of `twolevel_reload`, over `n` leaves from `i` on. -/
def drainLeaves : ℕ → ℕ → PageWords → List LeafE × PageWords
  | 0, _, m => ([], m)
  | n + 1, i, m =>
    let r := drainLeaf i inLeaf 0 m
    let s := drainLeaves n (i + 1) r.2
    (r.1 ++ s.1, s.2)

/-- `leaves[k].hidx`, with `k` an `int`. -/
def keyAt (leaves : List LeafE) (k : ℤ) : Except Fault ℕ :=
  if k < 0 then .error .badAccess
  else match leaves[k.toNat]? with
    | some e => .ok e.1
    | none => .error .badAccess

/-- The loop of `__new_roots` from iteration `i` on, `n` iterations left. -/
def newRootsLoop (leaves : List LeafE) (rootEntries keysPerLeaf : ℕ) :
    ℕ → ℕ → ℤ → ℕ → Except Fault (List ℕ)
  | 0, _, _, _ => .ok []
  | n + 1, i, keyIndex, extra => do
    let k := keyIndex + (keysPerLeaf : ℤ) - 1 + (if 0 < extra then 1 else 0)
    let key ← if i + 1 < rootEntries then keyAt leaves k else .ok uintMax
    let rest ← newRootsLoop leaves rootEntries keysPerLeaf n (i + 1) (k + 1) (extra - 1)
    return key :: rest

/-- `__new_roots`. -/
def newRoots (leaves : List LeafE) (numLeaves : ℕ) : Except Fault (List ℕ) :=
  newRootsLoop leaves numLeaves (leaves.length / numLeaves) numLeaves 0 0
    (leaves.length % numLeaves)

/-- Copy the new keys to the root, from entry `i` on. -/
def setEntries : List ℕ → ℕ → PageWords → PageWords
  | [], _, m => m
  | k :: ks, i, m => setEntries ks (i + 1) (setEntry m i k)

/-- The last loop of `twolevel_insert`: fill the first empty slot of leaf `i`. -/
def fillSlot (i h p : ℕ) : ℕ → ℕ → PageWords → PageWords
  | 0, _, m => m
  | n + 1, j, m =>
    if hidx m i j = uintMax then setSlot m i j h p else fillSlot i h p n (j + 1) m

/-- The tail of `twolevel_insert` for a leaf `i` with room: raise the root key, then
fill a slot. -/
def insertLeaf (m : PageWords) (i h p : ℕ) : PageWords :=
  let m1 :=
    if i ≠ cnt m - 1 ∧ (entry m i ≤ h ∨ entry m i = uintMax) then setEntry m i h else m
  fillSlot i h p inLeaf 0 m1

/-- `twolevel_insert` without a position, called while `reloading`. -/
def insertReloading (t : Table) (e : LeafE) : Except Fault Table := do
  let i := lowerBound t.mem e.1
  ensure (hidx t.mem i (inLeaf - 1) = uintMax) .bug
  return { cachedCnt := (t.cachedCnt + 1) % 2 ^ 32, mem := insertLeaf t.mem i e.1 e.2 }

/-- `sort(tmp_leaves, .., cmp_hidx)`. -/
def sortLeaves (es : List LeafE) : List LeafE :=
  es.insertionSort (fun a b => a.1 ≤ b.1)

/-- `twolevel_reload`. -/
def twolevelReload (t : Table) (h p : ℕ) : Except Fault Table := do
  let r := drainLeaves (cnt t.mem) 0 t.mem
  let es := sortLeaves (if h ≠ uintMax then r.1 ++ [(h, p)] else r.1)
  let keys ← newRoots es (cnt r.2)
  let start : Table :=
    { cachedCnt := (t.cachedCnt + 2 ^ 32 - es.length) % 2 ^ 32, mem := setEntries keys 0 r.2 }
  let t' ← es.foldlM insertReloading start
  ensure (t'.cachedCnt = t.cachedCnt) .bug
  return t'

/-- The shifting loop of a delete: `n` slots of leaf `i` from `j` on take their
successor, the last one becomes empty. -/
def shiftLeaf (i : ℕ) : ℕ → ℕ → PageWords → PageWords
  | 0, j, m => setSlot m i j uintMax uintMax
  | n + 1, j, m => shiftLeaf i n (j + 1) (setSlot m i j (hidx m i (j + 1)) (ppa m i (j + 1)))

/-- The leaf and the slot a byte position of `twolevel_find` stands for, as the delete
branch of `twolevel_insert` computes them. -/
def posLeaf (pos : ℕ) : ℕ := pos / Build.plus.grainedUnit - rootG
def posSlot (pos : ℕ) : ℕ := (pos - 4 * leafBase (posLeaf pos) - 4 * inLeaf) / 4

/-- `twolevel_insert`, called while not `reloading`. Positions are multiples of
four, so the raw `memcpy` writes one word. -/
def twolevelInsert (t : Table) (h p pos : ℕ) : Except Fault Table :=
  if pos ≠ uintMax then
    if p = uintMax then
      .ok { cachedCnt := (t.cachedCnt + 2 ^ 32 - 1) % 2 ^ 32,
            mem := shiftLeaf (posLeaf pos) (inLeaf - 1 - posSlot pos) (posSlot pos) t.mem }
    else .ok { t with mem := Function.update t.mem (pos / 4) p }
  else
    let t1 : Table := { t with cachedCnt := (t.cachedCnt + 1) % 2 ^ 32 }
    let i := lowerBound t.mem h
    if hidx t.mem i (inLeaf - 1) ≠ uintMax then twolevelReload t1 h p
    else .ok { t1 with mem := insertLeaf t.mem i h p }

/-- The byte position `twolevel_find` stores for slot `j` of leaf `i`. -/
def slotPos (i j : ℕ) : ℕ := 4 * (leafBase i + inLeaf + j)

/-- The loop of `twolevel_find` over the slots of leaf `i` from `j` on: the grain, and
the position if the index is there. -/
def findInLeaf (m : PageWords) (i h : ℕ) : ℕ → ℕ → ℕ × Option ℕ
  | 0, _ => (uintMax, none)
  | n + 1, j =>
    if hidx m i j = h then (ppa m i j, some (slotPos i j))
    else if hidx m i j = uintMax then (uintMax, none)
    else findInLeaf m i h n (j + 1)

/-- `twolevel_find`: the grain, and the value stored through `pos` if any. -/
def twolevelFind (m : PageWords) (h : ℕ) : ℕ × Option ℕ :=
  let i := lowerBound m h
  if i = cnt m then (uintMax, none) else findInLeaf m i h inLeaf 0

/-- `twolevel_direct_read` of one word. -/
def twolevelDirectRead (m : PageWords) (pos : ℕ) : ℕ := m (pos / 4)

/-- The table side of `__update_map`: grow the root when every slot is used and the
index is new, then insert. -/
def updateTable (t : Table) (h p pos : ℕ) : Except Fault Table := do
  let t1 ←
    if t.cachedCnt = cnt t.mem * inLeaf ∧ pos = uintMax then
      twolevelReload { t with mem := twolevelExpand t.mem } uintMax uintMax
    else .ok t
  twolevelInsert t1 h p pos

end TwoLevel

end Virtkv
