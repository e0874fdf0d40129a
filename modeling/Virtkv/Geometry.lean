import Virtkv.Config

/-!
# Flash geometry and page addresses

`struct ssdparams` as `ssd_init_params` fills it, with one plane per LUN, and the
page addresses `struct ppa`. A flash page and a one-shot page are the same here, as
in the header's configuration.
-/

namespace Virtkv

open Outcome

/-- The free parameters of `ssd_init_params`. -/
structure Geometry where
  nchs : ℕ
  lunsPerCh : ℕ
  blksPerPl : ℕ
  oneshotpgsPerBlk : ℕ
  pgsPerOneshotpg : ℕ
  deriving DecidableEq

namespace Geometry

variable (g : Geometry)

def pgsPerBlk : ℕ := g.pgsPerOneshotpg * g.oneshotpgsPerBlk
def pgsPerLun : ℕ := g.pgsPerBlk * g.blksPerPl
def pgsPerCh : ℕ := g.pgsPerLun * g.lunsPerCh
def ttPgs : ℕ := g.pgsPerCh * g.nchs
def blksPerLine : ℕ := g.lunsPerCh * g.nchs
def pgsPerLine : ℕ := g.blksPerLine * g.pgsPerBlk
def ttLines : ℕ := g.blksPerPl

end Geometry

/-- `struct ppa`; the plane is always 0. -/
structure Ppa where
  ch : ℕ
  lun : ℕ
  blk : ℕ
  pg : ℕ
  deriving DecidableEq

namespace Geometry

variable (g : Geometry)

/-- `ppa2pgidx`. -/
def ppa2pgidx (p : Ppa) : Except Fault ℕ := do
  let pgidx := p.ch * g.pgsPerCh + p.lun * g.pgsPerLun + p.blk * g.pgsPerBlk + p.pg
  ensure (pgidx < g.ttPgs) .bug
  return pgidx

/-- `ppa_to_struct`. -/
def ppaToStruct (pgidx : ℕ) : Except Fault Ppa := do
  ensure (pgidx < g.ttPgs) .bug
  return { ch := pgidx / g.pgsPerCh % g.pgsPerCh
           lun := pgidx % g.pgsPerCh / g.pgsPerLun
           blk := pgidx % g.pgsPerLun / g.pgsPerBlk
           pg := pgidx % g.pgsPerBlk }

/-- `last_pg_in_wordline`, `last_pg_in_ch`, `last_pg_in_lun`, `last_pg_in_blk`. -/
def lastPgInWordline (p : Ppa) : Bool := p.pg % g.pgsPerOneshotpg = g.pgsPerOneshotpg - 1
def lastPgInCh (p : Ppa) : Bool := p.ch = g.nchs - 1
def lastPgInLun (p : Ppa) : Bool := p.lun = g.lunsPerCh - 1
def lastPgInBlk (p : Ppa) : Bool := p.pg = g.pgsPerBlk - 1

/-- `last_pg_in_line`. -/
def lastPgInLine (p : Ppa) : Bool :=
  g.lastPgInWordline p && g.lastPgInCh p && g.lastPgInLun p && g.lastPgInBlk p

/-- `peek_next_page`. -/
def peekNextPage (p : Ppa) : Except Fault Ppa :=
  let pg := p.pg + 1
  if pg % g.pgsPerOneshotpg ≠ 0 then .ok { p with pg := pg }
  else do
    let pg := pg - g.pgsPerOneshotpg
    ensure (p.ch < g.nchs) .bug
    if p.ch + 1 ≠ g.nchs then return { p with pg := pg, ch := p.ch + 1 }
    ensure (p.lun < g.lunsPerCh) .bug
    if p.lun + 1 ≠ g.lunsPerCh then return { p with pg := pg, ch := 0, lun := p.lun + 1 }
    let pg := pg + g.pgsPerOneshotpg
    if pg ≠ g.pgsPerBlk then return { p with pg := pg, ch := 0, lun := 0 }
    return { ch := 0, lun := 0, blk := p.blk + 1, pg := 0 }

end Geometry

end Virtkv
