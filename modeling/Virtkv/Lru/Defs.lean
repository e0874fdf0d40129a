import Virtkv.Command.Defs

/-!
# The LRU cache of the append buffers

`lru.c` keeps items in a list that is linked both ways, with an array that finds the item of
an id and a counter. The fields of the items belong to the state; a null pointer is `none`,
and following one is a fault, as is an index behind the array.
-/

namespace Virtkv

open Outcome

/-- `struct lru_cache` and the fields `id`, `prev` and `next` of all items. -/
structure LruCache (α : Type) where
  id : α → ℕ
  prev : α → Option α
  next : α → Option α
  head : Option α
  tail : Option α
  capacity : ℕ
  size : ℕ
  items : ℕ → Option α

namespace LruCache

variable {α : Type} [DecidableEq α]

/-- `item->prev = y` and `item->next = y`. -/
def setPrev (c : LruCache α) (item : α) (y : Option α) : LruCache α :=
  { c with prev := Function.update c.prev item y }

def setNext (c : LruCache α) (item : α) (y : Option α) : LruCache α :=
  { c with next := Function.update c.next item y }

/-- The item a pointer leads to. -/
def deref : Option α → Except Fault α
  | none => .error .badAccess
  | some item => .ok item

/-- `cache->items[id] = y`. -/
def setItem (c : LruCache α) (id : ℕ) (y : Option α) : Except Fault (LruCache α) := do
  ensure (id < Lru.maxCapacity) .badAccess
  return { c with items := Function.update c.items id y }

/-- `lru_cache_init`. -/
def init (c : LruCache α) (capacity : ℕ) : LruCache α :=
  { c with head := none, tail := none, capacity := capacity, size := 0 }

/-- `cache->tail = item->prev; cache->tail->next = NULL`. -/
def cutTail (c : LruCache α) (item : α) : Except Fault (LruCache α) := do
  let c := { c with tail := c.prev item }
  let t ← deref c.tail
  return c.setNext t none

/-- `item->prev->next = item->next; item->next->prev = item->prev`. -/
def bypass (c : LruCache α) (item : α) : Except Fault (LruCache α) := do
  let p ← deref (c.prev item)
  let c := c.setNext p (c.next item)
  let n ← deref (c.next item)
  return c.setPrev n (c.prev item)

/-- What `lru_cache_get` and `lru_cache_remove` do with an item that is not the head. -/
def unlinkBehind (c : LruCache α) (item : α) : Except Fault (LruCache α) :=
  if c.tail = some item then c.cutTail item else c.bypass item

/-- `lru_cache_get`. -/
def get (c : LruCache α) (id : ℕ) : Except Fault (Option α × LruCache α) :=
  if c.size = 0 ∨ Lru.maxCapacity ≤ id then .ok (none, c)
  else
    match c.items id with
    | none => .error .bug
    | some item =>
      if c.head = some item then .ok (some item, c)
      else do
        let c ← c.unlinkBehind item
        let c := (c.setPrev item none).setNext item c.head
        let h ← deref c.head
        let c := c.setPrev h (some item)
        return (some item, { c with head := some item })

/-- The part of `lru_cache_set` that drops the least recently used item of a full cache. -/
def makeRoom (c : LruCache α) : Except Fault (LruCache α) :=
  if c.size = c.capacity then do
    let lru ← deref c.tail
    let c ← c.cutTail lru
    let c ← c.setItem (c.id lru) none
    return { c with size := c.size - 1 }
  else .ok c

/-- The part of `lru_cache_set` that links the item in front of the head. -/
def linkHead (c : LruCache α) (item : α) : LruCache α :=
  let c := (c.setPrev item none).setNext item c.head
  let c :=
    match c.head with
    | some h => c.setPrev h (some item)
    | none => { c with tail := some item }
  { c with head := some item }

/-- `lru_cache_set`. -/
def set (c : LruCache α) (item : α) : Except Fault (LruCache α) := do
  let id := c.id item
  let c ← c.makeRoom
  let c ← (c.linkHead item).setItem id (some item)
  return { c with size := c.size + 1 }

/-- What `lru_cache_remove` does with the head. -/
def cutHead (c : LruCache α) (item : α) : LruCache α :=
  let c := { c with head := c.next item }
  match c.head with
  | some h => c.setPrev h none
  | none => { c with tail := none }

/-- The part of `lru_cache_remove` that takes the item out of the list. -/
def unlink (c : LruCache α) (item : α) : Except Fault (LruCache α) :=
  if c.head = some item then .ok (c.cutHead item) else c.unlinkBehind item

/-- `lru_cache_remove`. -/
def remove (c : LruCache α) (id : ℕ) : Except Fault (LruCache α) := do
  ensure (¬(c.size = 0 ∨ Lru.maxCapacity ≤ id)) .bug
  match c.items id with
  | none => .error .bug
  | some item =>
    let c ← c.unlink item
    let c ← c.setItem id none
    return { c with size := c.size - 1 }

/-- The part of `lru_cache_get_oldest` that takes the tail out of the list. -/
def unlinkTail (c : LruCache α) (oldest : α) : Except Fault (LruCache α) :=
  if some oldest = c.head then .ok { c with head := none, tail := none } else c.cutTail oldest

/-- `lru_cache_get_oldest`. -/
def getOldest (c : LruCache α) : Except Fault (Option α × LruCache α) :=
  if c.size = 0 then .ok (none, c)
  else do
    let oldest ← deref c.tail
    let c ← c.unlinkTail oldest
    let c ← c.setItem (c.id oldest) none
    return (some oldest, { c with size := c.size - 1 })

end LruCache

/-- The calls of the cache's user. `label` is the write of an item's id with which
`__assign_buf` and `__clear_buf` name the items they own. -/
inductive LruOp (α : Type) where
  | label (item : α) (id : ℕ)
  | set (item : α)
  | get (id : ℕ)
  | remove (id : ℕ)
  | getOldest

namespace LruOp

variable {α : Type} [DecidableEq α]

/-- A call, with the pointer it returns. -/
def run (c : LruCache α) : LruOp α → Except Fault (Option α × LruCache α)
  | label item id => .ok (none, { c with id := Function.update c.id item id })
  | set item => do
    let c ← c.set item
    return (none, c)
  | get id => c.get id
  | remove id => do
    let c ← c.remove id
    return (none, c)
  | getOldest => c.getOldest

/-- A sequence of calls, with the pointers they return. -/
def runAll (c : LruCache α) : List (LruOp α) → Except Fault (List (Option α) × LruCache α)
  | [] => .ok ([], c)
  | op :: ops => do
    let (r, c) ← run c op
    let (rs, c) ← runAll c ops
    return (r :: rs, c)

end LruOp

end Virtkv
