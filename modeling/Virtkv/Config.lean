import Virtkv.Lib.Outcome

/-!
# Build configuration and faults

The firmware is compiled in two variants: `original` (the macro `ORIGINAL` is
defined, 512-byte grains, a flat mapping page per section) and `plus` (64-byte
grains, a two-level table per section, an invalid-mapping log). Every constant
that depends on the variant is a function of `Build`.
-/

namespace Virtkv

/-- `ORIGINAL` defined, or not. -/
inductive Build where
  | original
  | plus
  deriving DecidableEq, Repr

/-- The ways in which the modelled code does not return.

`bug` is a failed `NVMEV_ASSERT` (a `BUG_ON`), `noFreeLine` the `BUG_ON` of
`get_next_free_line`, `pageWalk` the assertion of the timing page walk,
`trailerScan` a failure inside the scan of a pair's trailer, `badAccess` a
memory access outside its object, `blocked` a wait that no background thread
ends, `deadlock` a spin on a section lock that is held, `underflow` the release of a
section lock that is not held and `hang` a loop that never ends. -/
inductive Fault where
  | bug
  | noFreeLine
  | pageWalk
  | trailerScan
  | badAccess
  | blocked
  | deadlock
  | underflow
  | hang
  deriving DecidableEq, Repr

/-- `UINT_MAX`, the empty mapping. -/
def uintMax : ℕ := 2 ^ 32 - 1

/-- `PAGESIZE`. -/
def pageSize : ℕ := 4096

/-- `KLEN_MARKER_SZ` and `VLEN_MARKER_SZ`. -/
def klenMarkerSz : ℕ := 1
def vlenMarkerSz : ℕ := 4

/-- `MAX_KLEN`. -/
def maxKlen : ℕ := 16

/-- `ROOT_G`, `ORIG_GLEN` (Plus). -/
def rootG : ℕ := 4
def origGlen : ℕ := rootG + 2

namespace Build

/-- `GRAINED_UNIT`. -/
def grainedUnit : Build → ℕ
  | original => 512
  | plus => 64

/-- `GRAIN_PER_PAGE`. -/
def grainPerPage (b : Build) : ℕ := pageSize / b.grainedUnit

/-- `ENTRY_SIZE`: a grain, or an index with its grain. -/
def entrySize : Build → ℕ
  | original => 4
  | plus => 8

/-- `EPP`, the hash indices of one section. -/
def epp : Build → ℕ
  | original => pageSize / entrySize original
  | plus => (grainPerPage plus - rootG) * grainedUnit plus / entrySize plus

end Build

/-- `IN_LEAF` and `IN_ROOT` (Plus). -/
def inLeaf : ℕ := Build.plus.grainedUnit / Build.plus.entrySize
def inRoot : ℕ := Build.plus.epp / Build.plus.entrySize

end Virtkv
