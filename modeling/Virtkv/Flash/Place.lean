import Virtkv.Flash.Defs

/-!
# Placing a pair

Where `__store` puts a pair: behind the last one if the stripe of the current page
has room, else at the start of the next stripe. The first grain of a pair carries its
length and index out of band, every further page it reaches a spill marker.
-/

namespace Virtkv

open Outcome

/-- `shard->offset` and `cur_page`: the next free byte of the page being filled. -/
structure UserPos where
  offset : ℕ
  curPage : Ppa

namespace Device

variable (d : Device)

/-- Grains of so many bytes. -/
def grainsOf (bytes : ℕ) : ℕ := (bytes + d.gu - 1) / d.gu

end Device

namespace Flash

variable (d : Device)

/-- `__new_page`. -/
def newUserPage (f : Flash) : Except Fault (UserPos × Flash) := do
  let (p, pgidx, f) ← f.newPage d .user
  return ({ offset := pgidx * pageSize, curPage := p }, f)

/-- A pair that does not fit: the rest of the stripe is given up. Returns the credits. -/
def skipStripe (f : Flash) (u : UserPos) : Except Fault (ℕ × UserPos × Flash) := do
  ensure ((pageSize - u.offset % pageSize) % d.gu = 0) .bug
  let (credits, f) ← f.clearRestOfLine d u.curPage (d.gOffset (u.offset / d.gu)) .user
  let (u, f) ← f.newUserPage d
  return (credits, u, f)

/-- Skip the rest of the stripe if `glen` grains do not fit. -/
def skipUnlessFits (f : Flash) (u : UserPos) (glen : ℕ) : Except Fault (ℕ × UserPos × Flash) := do
  let enough ← enoughSpaceInLine d u.curPage (d.gOffset (u.offset / d.gu)) glen
  if enough then return (0, u, f) else f.skipStripe d u

/-- The first page ever is taken when the first pair comes. -/
def firstUserPage (f : Flash) (u : UserPos) : Except Fault (UserPos × Flash) :=
  if u.offset = 0 then f.newUserPage d else .ok (u, f)

/-- The loop of `__store` that marks the grains of a pair valid, with `rem` bytes left. A
page that is filled up is followed by a new one at once. -/
def writeLoop : ℕ → Flash → UserPos → ℕ → Except Fault (UserPos × Flash)
  | 0, _, _, _ => .error .hang
  | fuel + 1, f, u, rem => do
    let sz := min rem (pageSize - u.offset % pageSize)
    let f ← f.markGrainValid d (u.offset / d.gu) (d.grainsOf sz)
    let u := { u with offset := u.offset + d.grainsOf sz * d.gu }
    if rem - sz = 0 ∧ u.offset % pageSize ≠ 0 then return (u, f)
    ensure (u.offset % pageSize = 0) .bug
    let (u, f) ← f.newUserPage d
    if rem - sz = 0 then return (u, f)
    writeLoop fuel f u (rem - sz)

/-- The out-of-band words at the start of a page that a pair spills to with `sz`
grains. -/
def tagSpill (f : Flash) (pgidx sz : ℕ) : Flash :=
  if sz = 1 then f.setOob d pgidx 0 (uintMax - 11)
  else (f.setOob d pgidx 0 (uintMax - 10)).setOob d pgidx 1 sz

/-- The loop of `__store` over the pages behind page `p`, with `rem` grains left. -/
def spillLoop (blk : ℕ) : ℕ → Flash → Ppa → ℕ → Except Fault Flash
  | 0, _, _, _ => .error .hang
  | fuel + 1, f, p, rem => do
    let q ← d.geo.peekNextPage p
    ensure (q.blk = blk) .bug
    let pgidx ← d.geo.ppa2pgidx q
    let f := f.tagSpill d pgidx (min rem d.gpp)
    if rem - min rem d.gpp = 0 then return f
    spillLoop blk fuel f q (rem - min rem d.gpp)

/-- The out-of-band words of a pair at `grain`. -/
def tagPair (f : Flash) (grain lpa glen : ℕ) : Except Fault Flash :=
  let f := f.setOob d (d.gIdx grain) (d.gOffset grain) (glen * 2 ^ 32 + lpa)
  if d.gpp < d.gOffset grain + glen then do
    let p ← d.geo.ppaToStruct (d.gIdx grain)
    spillLoop d p.blk (glen + 1) f p (glen - (d.gpp - d.gOffset grain))
  else .ok f

/-- The flash part of `__store` for a pair of `bytes` bytes: its grain and the credits. -/
def placePair (f : Flash) (u : UserPos) (lpa bytes : ℕ) :
    Except Fault (ℕ × ℕ × UserPos × Flash) := do
  let (credits, u, f) ← f.skipUnlessFits d u (d.grainsOf bytes)
  let (u, f) ← f.firstUserPage d u
  let (u', f) ← writeLoop d (bytes + 1) f u bytes
  let f ← f.tagPair d (u.offset / d.gu) lpa (d.grainsOf bytes)
  return (u.offset / d.gu, credits, u', f)

end Flash

end Virtkv
