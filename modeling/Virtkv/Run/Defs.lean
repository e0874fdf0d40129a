import Virtkv.Append.Defs
import Virtkv.Gc.Defs

/-!
# Runs of a device

The commands of the host, evictions and collections, one after the other, from a
freshly initialised device.
-/

namespace Virtkv

open Outcome

/-- `init_cache`. -/
def Cache.init : Cache where
  secs := fun _ =>
    { tPpa := uintMax, state := .clean, cached := false, hasMem := false
      table := { cachedCnt := 0, mem := fun _ => 0 }
      gOff := 0, lenOnDisk := 0, outgoing := false, written := fun _ => 0 }
  fifo := []
  nrCached := 0
  ring := []
  candidates := 0
  haveVictims := 0
  collecting := false

/-- `conv_init_ftl`. -/
def Shard.init (d : Device) : Except Fault Shard := do
  let f ← Flash.init d
  return {
    flash := f
    log := InvLog.init
    cache := Cache.init
    pairMem := fun _ => none
    user := { offset := 0, curPage := { ch := 0, lun := 0, blk := 0, pg := 0 } }
    maxTry := 0
    leftoverCredits := 0
    writeCredits := d.grainsPerLine
    creditsToRefill := d.grainsPerLine
    appendBufs := {
      buf := fun _ =>
        { klen := 0, key := List.replicate maxKlen 0, bytes := List.replicate bufAlloc 0
          wbIdx := 0, invCnt := 0 }
      lru := [] } }

/-- What can happen to a device. `junk` is what a fresh allocation holds. -/
inductive Op where
  | store (key value : List UInt8) (junk : ℕ → UInt8)
  | append (key data : List UInt8) (junk : ℕ → UInt8)
  | retrieve (key : List UInt8) (vlen rOffset : ℕ)
  | delete (key : List UInt8) (vlen rOffset : ℕ)
  | evict
  | gc

/-- The state after an operation that returns. -/
def Op.run (d : Device) (s : Shard) : Op → Except Fault Shard
  | .store key value junk => s.store d key value junk
  | .append key data junk => do
    let (_, s) ← s.append d key data junk
    return s
  | .retrieve key vlen rOffset => do
    let (_, s) ← s.retrieve d key vlen rOffset false
    return s
  | .delete key vlen rOffset => do
    let (_, s) ← s.retrieve d key vlen rOffset true
    return s
  | .evict => do
    let (_, s) ← s.evictOne d
    return s
  | .gc => Gc.turn d s

/-- The states a run from `s` can reach by operations that meet a condition. -/
inductive Runs (d : Device) (ok : Shard → Op → Prop) (s : Shard) : Shard → Prop where
  | start : Runs d ok s s
  | step {t u : Shard} {op : Op} :
    Runs d ok s t → ok t op → op.run d t = .ok u → Runs d ok s u

/-- A condition that every operation keeps holds in every state of a run. -/
theorem Runs.invariant {d : Device} {ok : Shard → Op → Prop} {s t : Shard} {P : Shard → Prop}
    (hr : Runs d ok s t) (h : P s)
    (hstep : ∀ u v op, P u → ok u op → op.run d u = .ok v → P v) : P t := by
  induction hr with
  | start => exact h
  | step _ hok hrun ih => exact hstep _ _ _ ih hok hrun

/-! ### Runs by evaluation -/

/-- The state after a list of operations. -/
def runOps (d : Device) : List Op → Shard → Except Fault Shard
  | [], s => .ok s
  | op :: ops, s => do
    let s ← op.run d s
    runOps d ops s

theorem Runs.runOps {d : Device} {ok : Shard → Op → Prop} {ops : List Op} {s t u : Shard}
    (hr : Runs d ok s t) (hok : ∀ op ∈ ops, ∀ v, ok v op) (h : runOps d ops t = .ok u) :
    Runs d ok s u := by
  induction ops generalizing t with
  | nil =>
    cases h
    exact hr
  | cons op ops ih =>
    simp only [Virtkv.runOps, bind_eq_ok] at h
    obtain ⟨v, hv, h⟩ := h
    have hop := hok op (List.mem_cons_self ..) t
    exact ih (hr.step hop hv) (fun o ho => hok o (List.mem_cons_of_mem _ ho)) h

/-- Whether a run from a fresh device returns and ends in a state with a property. -/
def endsWith (d : Device) (ops : List Op) (p : Shard → Bool) : Bool :=
  match (do let s ← Shard.init d; runOps d ops s) with
  | .ok t => p t
  | .error _ => false

theorem exists_of_endsWith (d : Device) (ops : List Op) (p : Shard → Bool)
    (h : endsWith d ops p = true) :
    ∃ s t, Shard.init d = .ok s ∧ runOps d ops s = .ok t ∧ p t = true := by
  unfold endsWith at h
  split at h
  · rename_i t ht
    rw [bind_eq_ok] at ht
    obtain ⟨s, hs, ht⟩ := ht
    exact ⟨s, t, hs, ht, h⟩
  · cases h

end Virtkv
