import Virtkv.Append.Defs
import Virtkv.Gc.Defs

/-!
# What leaves the append buffers alone

Evictions, the opening of sections, updates of the mapping and collections do not touch the
append buffers. Only the commands do.

Every function has a lemma here that is also a rule for `grind`, so that the proof for a caller
names no callee.
-/

namespace Virtkv

open Outcome

namespace Shard

variable {d : Device} {s s' : Shard} {e e' : Filling} {i n : ℕ}

/-! ### Fields -/

@[grind =] theorem appendBufs_setFlash (s : Shard) (f : Flash) :
    (s.setFlash f).appendBufs = s.appendBufs := rfl

@[grind =] theorem appendBufs_setLog (s : Shard) (l : InvLog) :
    (s.setLog l).appendBufs = s.appendBufs := rfl

@[grind =] theorem appendBufs_setCache (s : Shard) (c : Cache) :
    (s.setCache c).appendBufs = s.appendBufs := rfl

@[grind =] theorem appendBufs_setPair (s : Shard) (lpa : ℕ) (m : Option (List UInt8)) :
    (s.setPair lpa m).appendBufs = s.appendBufs := rfl

@[grind =] theorem appendBufs_setSec (s : Shard) (i : ℕ) (x : Section) :
    (s.setSec i x).appendBufs = s.appendBufs := rfl

@[grind =] theorem appendBufs_addCached (s : Shard) (n : ℤ) :
    (s.addCached n).appendBufs = s.appendBufs := rfl

@[grind =] theorem appendBufs_clearPairs (s : Shard) (i : ℕ) :
    (s.clearPairs d i).appendBufs = s.appendBufs := rfl

@[grind =] theorem appendBufs_popRing (s : Shard) : s.popRing.appendBufs = s.appendBufs := rfl

@[grind =] theorem appendBufs_dropVictim (s : Shard) (i gLen : ℕ) :
    (s.dropVictim i gLen).appendBufs = s.appendBufs := rfl

@[grind =] theorem appendBufs_consumeWriteCredit (s : Shard) (n : ℕ) :
    (s.consumeWriteCredit n).appendBufs = s.appendBufs := rfl

@[grind =] theorem appendBufs_markDirty (s : Shard) (i : ℕ) :
    (s.markDirty i).appendBufs = s.appendBufs := rfl

@[grind =] theorem appendBufs_updateFlat (s : Shard) (lpa ppa : ℕ) (mem : Option (List UInt8)) :
    (s.updateFlat d lpa mem ppa).appendBufs = s.appendBufs := rfl

@[grind =] theorem appendBufs_unlock (s : Shard) (lpa : ℕ) :
    (s.unlock d lpa).appendBufs = s.appendBufs := rfl

/-! ### Evictions -/

@[grind →] theorem appendBufs_clearPage {ppa grain : ℕ} (h : s.clearPage d ppa grain = .ok s') :
    s'.appendBufs = s.appendBufs := by
  simp only [clearPage, bind_eq_ok, pure_eq_ok] at h
  grind

@[grind →] theorem appendBufs_evictPage (h : s.evictPage d e = .ok (e', s')) :
    s'.appendBufs = s.appendBufs := by
  rw [evictPage] at h
  split at h
  · grind
  · simp only [bind_eq_ok, pure_eq_ok] at h
    grind

@[grind →] theorem appendBufs_dropOnDisk {gLen : ℕ} (h : s.dropOnDisk d i gLen = .ok s') :
    s'.appendBufs = s.appendBufs := by
  simp only [dropOnDisk] at h
  split at h
  all_goals
    simp only [bind_eq_ok, pure_eq_ok] at h
    grind

@[grind →] theorem appendBufs_placeVictim (h : s.placeVictim d e i = .ok (e', s')) :
    s'.appendBufs = s.appendBufs := by
  simp only [placeVictim, bind_eq_ok, pure_eq_ok] at h
  grind

@[grind →] theorem appendBufs_writeVictim (h : s.writeVictim d e i = .ok (e', s')) :
    s'.appendBufs = s.appendBufs := by
  simp only [writeVictim, bind_eq_ok] at h
  grind

@[grind →] theorem appendBufs_turnPage {gLen : ℕ} (h : s.turnPage d e i gLen = .ok (e', s')) :
    s'.appendBufs = s.appendBufs := by
  rw [turnPage] at h
  split at h
  · simp only [bind_eq_ok, pure_eq_ok] at h
    grind
  · grind

@[grind →] theorem appendBufs_writeIfDirty (h : s.writeIfDirty d e i = .ok (e', s')) :
    s'.appendBufs = s.appendBufs := by
  rw [writeIfDirty] at h
  split at h <;> grind

@[grind →] theorem appendBufs_evictRound (h : s.evictRound d e i = .ok (e', s')) :
    s'.appendBufs = s.appendBufs := by
  simp only [evictRound, bind_eq_ok, pure_eq_ok] at h
  grind

@[grind →] theorem appendBufs_evictLoop {fuel : ℕ} (h : evictLoop d fuel e s = .ok (e', s')) :
    s'.appendBufs = s.appendBufs := by
  induction fuel generalizing s e with
  | zero => cases h
  | succ fuel ih =>
    rw [evictLoop] at h
    split at h
    · grind
    split at h
    · cases h
    · simp only [bind_eq_ok] at h
      obtain ⟨⟨e1, s1⟩, h1, h⟩ := h
      split at h
      · rw [pure_eq_ok] at h
        grind
      · exact (ih h).trans (appendBufs_evictRound h1)

@[grind →] theorem appendBufs_closePage (h : s.closePage d e = .ok s') :
    s'.appendBufs = s.appendBufs := by
  rw [closePage] at h
  split at h <;> grind

@[grind →] theorem appendBufs_evictOne (h : s.evictOne d = .ok (n, s')) :
    s'.appendBufs = s.appendBufs := by
  simp only [evictOne, awaitVictims, bind_eq_ok, pure_eq_ok] at h
  grind

@[grind →] theorem appendBufs_evictWhileFull {fuel credits credits' : ℕ}
    (h : evictWhileFull d fuel credits s = .ok (credits', s')) : s'.appendBufs = s.appendBufs := by
  induction fuel generalizing s credits with
  | zero => cases h
  | succ fuel ih =>
    rw [evictWhileFull] at h
    split at h
    · simp only [bind_eq_ok] at h
      obtain ⟨⟨m, s1⟩, h1, h⟩ := h
      exact (ih h).trans (appendBufs_evictOne h1)
    · grind

@[grind →] theorem appendBufs_makeRoom (h : s.makeRoom d n = .ok s') :
    s'.appendBufs = s.appendBufs := by
  simp only [makeRoom, bind_eq_ok, pure_eq_ok] at h
  grind

/-! ### Sections and the mapping -/

@[grind →] theorem appendBufs_getHt {lpa : ℕ} (h : s.getHt d lpa = .ok s') :
    s'.appendBufs = s.appendBufs := by
  simp only [getHt, bind_eq_ok, pure_eq_ok] at h
  grind

@[grind →] theorem appendBufs_releaseMap {lpa : ℕ} (h : s.releaseMap d lpa = .ok s') :
    s'.appendBufs = s.appendBufs := by
  simp only [releaseMap, bind_eq_ok, pure_eq_ok] at h
  grind

@[grind →] theorem appendBufs_getMappings {first : Bool} (h : s.getMappings d i first = .ok s') :
    s'.appendBufs = s.appendBufs := by
  rw [getMappings] at h
  split at h
  · grind
  · simp only [bind_eq_ok, pure_eq_ok] at h
    grind

@[grind →] theorem appendBufs_loadSection {first : Bool} (h : s.loadSection d i first = .ok s') :
    s'.appendBufs = s.appendBufs := by
  rw [loadSection] at h
  split at h
  · grind
  · simp only [getOne, bind_eq_ok, pure_eq_ok] at h
    grind

@[grind →] theorem appendBufs_allocSection (h : s.allocSection d i = .ok s') :
    s'.appendBufs = s.appendBufs := by
  simp only [allocSection, bind_eq_ok, pure_eq_ok] at h
  grind

@[grind →] theorem appendBufs_openSection (h : s.openSection d i = .ok s') :
    s'.appendBufs = s.appendBufs := by
  rw [openSection] at h
  split at h
  · simp only [bind_eq_ok] at h
    grind
  · grind

@[grind →] theorem appendBufs_expandMapEntry (h : s.expandMapEntry d i = .ok s') :
    s'.appendBufs = s.appendBufs := by
  simp only [expandMapEntry, bind_eq_ok, pure_eq_ok] at h
  grind

@[grind →] theorem appendBufs_growTable {pos : ℕ} (h : s.growTable d i pos = .ok s') :
    s'.appendBufs = s.appendBufs := by
  simp only [growTable] at h
  split at h
  · simp only [bind_eq_ok, pure_eq_ok] at h
    grind
  · grind

@[grind →] theorem appendBufs_recordOld {lpa pos : ℕ} {record : Bool}
    (h : s.recordOld d i lpa pos record = .ok (n, s')) : s'.appendBufs = s.appendBufs := by
  simp only [recordOld] at h
  split at h
  · simp only [bind_eq_ok, pure_eq_ok] at h
    grind
  · grind

@[grind →] theorem appendBufs_updateMap {lpa ppa pos : ℕ} {mem : Option (List UInt8)}
    {record : Bool} (h : s.updateMap d lpa mem ppa pos record = .ok (n, s')) :
    s'.appendBufs = s.appendBufs := by
  simp only [updateMap, bind_eq_ok] at h
  obtain ⟨-, -, h⟩ := h
  split at h
  · grind
  · simp only [updateTwolevel, bind_eq_ok, pure_eq_ok] at h
    grind

/-! ### Commands -/

@[grind →] theorem appendBufs_dropOld {old : Option Found} (h : s.dropOld d old = .ok s') :
    s'.appendBufs = s.appendBufs := by
  cases old with
  | none =>
    cases h
    rfl
  | some x =>
    simp only [dropOld, bind_eq_ok, pure_eq_ok] at h
    grind

@[grind →] theorem appendBufs_placeAt {total : ℕ} {mem : List UInt8} {sl : Slot}
    (h : s.placeAt d total mem sl = .ok (n, s')) : s'.appendBufs = s.appendBufs := by
  simp only [placeAt, bind_eq_ok, pure_eq_ok] at h
  grind

theorem appendBufs_storeLoop {key : List UInt8} {total fuel cnt credits : ℕ} {sl : Slot}
    (h : storeLoop d key total fuel cnt credits s = .ok (sl, s')) :
    s'.appendBufs = s.appendBufs := by
  induction fuel generalizing s cnt credits with
  | zero => cases h
  | succ fuel ih =>
    simp only [storeLoop, bind_eq_ok] at h
    obtain ⟨⟨lpa, c⟩, -, s1, h1, s2, h2, s3, h3, h⟩ := h
    split at h
    · rw [pure_eq_ok] at h
      grind
    · simp only [bind_eq_ok] at h
      obtain ⟨x, -, r, -, h⟩ := h
      cases r with
      | none =>
        have hrest := ih h
        grind
      | some y =>
        simp only [pure_eq_ok] at h
        grind

theorem appendBufs_retrieveLoop {key : List UInt8} {vlen rOffset fuel cnt : ℕ} {forDel : Bool}
    {hit : Hit} (h : retrieveLoop d key vlen rOffset forDel fuel cnt s = .ok (hit, s')) :
    s'.appendBufs = s.appendBufs := by
  induction fuel generalizing s cnt with
  | zero => cases h
  | succ fuel ih =>
    simp only [retrieveLoop, bind_eq_ok] at h
    obtain ⟨⟨lpa, c⟩, -, s1, h1, h⟩ := h
    split at h
    · rw [pure_eq_ok] at h
      grind
    split at h
    · have hrest := ih h
      grind
    simp only [bind_eq_ok] at h
    obtain ⟨s2, h2, h⟩ := h
    split at h
    · rw [pure_eq_ok] at h
      grind
    simp only [bind_eq_ok] at h
    obtain ⟨r, -, h⟩ := h
    cases r with
    | none =>
      have hrest := ih h
      grind
    | some x =>
      simp only [pure_eq_ok] at h
      grind

@[grind →] theorem appendBufs_deleteAt {lpa pos vlen rOffset : ℕ} {x : Found}
    (h : s.deleteAt d lpa pos vlen rOffset x = .ok (n, s')) : s'.appendBufs = s.appendBufs := by
  simp only [deleteAt, bind_eq_ok] at h
  obtain ⟨klen, -, h⟩ := h
  split at h
  · simp only [deletePair, bind_eq_ok] at h
    grind
  · simp only [deletePart, bind_eq_ok] at h
    obtain ⟨p, -, g, -, f, -, h⟩ := h
    split at h
    · grind
    · simp only [bind_eq_ok, pure_eq_ok] at h
      grind

/-- The lookup in the table. -/
theorem appendBufs_retrieveFromTable {key : List UInt8} {vlen rOffset : ℕ} {forDel : Bool}
    {r : Reply} (h : s.retrieveFromTable d key vlen rOffset forDel = .ok (r, s')) :
    s'.appendBufs = s.appendBufs := by
  simp only [retrieveFromTable, beginRetrieve, bind_eq_ok] at h
  obtain ⟨s1, h1, ⟨hit, s2⟩, h2, h⟩ := h
  have hhead := appendBufs_makeRoom h1
  have hloop := appendBufs_retrieveLoop h2
  cases hit with
  | miss held =>
    cases held with
    | none =>
      simp only [pure_eq_ok] at h
      grind
    | some lpa =>
      simp only [bind_eq_ok, pure_eq_ok] at h
      grind
  | slot lpa pos x =>
    cases forDel with
    | true =>
      simp only [if_true, bind_eq_ok, pure_eq_ok] at h
      obtain ⟨⟨n, s3⟩, h3, s4, h4, h⟩ := h
      have hrelease := appendBufs_releaseMap h4
      grind
    | false =>
      simp only [Bool.false_eq_true, if_false, bind_eq_ok, pure_eq_ok] at h
      grind

end Shard

/-! ### Collections -/

namespace Gc

variable {d : Device} {s s' : Shard} {c c' : State} {q q' : Pos} {i n pgidx line : ℕ} {map : Bool}

@[grind =] theorem shard_setShard (c : State) (s : Shard) : (c.setShard s).shard = s := rfl

@[grind =] theorem appendBufs_resetOffset (s : Shard) (grain : ℕ) :
    (resetOffset d s grain).appendBufs = s.appendBufs := by
  rw [resetOffset]
  split <;> rfl

@[grind =] theorem appendBufs_shadowRead (c : State) (i : ℕ) :
    (shadowRead c i).shard.appendBufs = c.shard.appendBufs := by
  rw [shadowRead]
  split <;> rfl

@[grind =] theorem appendBufs_dropLog (s : Shard) (map : Bool) :
    (dropLog d s map).appendBufs = s.appendBufs := by
  rw [dropLog]
  split <;> rfl

@[grind →] theorem appendBufs_copyMap {len : ℕ} (h : copyMap d s q i len = .ok (q', s')) :
    s'.appendBufs = s.appendBufs := by
  simp only [copyMap, bind_eq_ok, pure_eq_ok] at h
  grind

@[grind →] theorem appendBufs_copyInvMap {page : LogWords}
    (h : copyInvMap d s q line page = .ok (q', s')) : s'.appendBufs = s.appendBufs := by
  simp only [copyInvMap, bind_eq_ok, pure_eq_ok] at h
  grind

@[grind →] theorem appendBufs_moveLogPage (h : moveLogPage d c pgidx = .ok c') :
    c'.shard.appendBufs = c.shard.appendBufs := by
  simp only [moveLogPage, bind_eq_ok] at h
  obtain ⟨-, -, h⟩ := h
  split at h
  · cases h
  · simp only [bind_eq_ok, pure_eq_ok] at h
    grind

@[grind →] theorem appendBufs_moveSection (h : moveSection d c pgidx i = .ok (n, c')) :
    c'.shard.appendBufs = c.shard.appendBufs := by
  simp only [moveSection, bind_eq_ok] at h
  obtain ⟨-, -, s1, h1, -, -, h⟩ := h
  split at h
  · rw [pure_eq_ok] at h
    grind
  · simp only [bind_eq_ok, pure_eq_ok] at h
    grind

@[grind →] theorem appendBufs_switchMapping {lpa pos grain : ℕ}
    (h : switchMapping d s lpa pos grain line = .ok s') : s'.appendBufs = s.appendBufs := by
  simp only [switchMapping] at h
  split at h
  all_goals
    simp only [bind_eq_ok, pure_eq_ok] at h
    grind

@[grind →] theorem appendBufs_copyValidPair {lpa len pos : ℕ}
    (h : copyValidPair d s q lpa len pos line = .ok (q', s')) : s'.appendBufs = s.appendBufs := by
  simp only [copyValidPair, bind_eq_ok, pure_eq_ok] at h
  grind

@[grind →] theorem appendBufs_relocate {lpa len grain pos : ℕ}
    (h : relocate d c lpa len grain pos line = .ok c') :
    c'.shard.appendBufs = c.shard.appendBufs := by
  rw [relocate] at h
  split at h
  · cases h
  · simp only [bind_eq_ok] at h
    obtain ⟨r, -, h⟩ := h
    cases r with
    | none =>
      simp only [bind_eq_ok, pure_eq_ok] at h
      grind
    | some x =>
      simp only [bind_eq_ok, pure_eq_ok] at h
      grind

@[grind →] theorem appendBufs_moveIfLive {lpa len grain : ℕ}
    (h : moveIfLive d c lpa len grain line = .ok c') :
    c'.shard.appendBufs = c.shard.appendBufs := by
  simp only [moveIfLive, bind_eq_ok] at h
  obtain ⟨-, -, h⟩ := h
  split at h
  · grind
  split at h
  · grind
  · simp only [bind_eq_ok, pure_eq_ok] at h
    grind

@[grind →] theorem appendBufs_movePair (h : movePair d c pgidx i line = .ok (n, c')) :
    c'.shard.appendBufs = c.shard.appendBufs := by
  simp only [movePair, moveUnlessInvalid, bind_eq_ok, pure_eq_ok] at h
  obtain ⟨-, -, -, -, -, -, s1, h1, c1, h2, h⟩ := h
  split at h2 <;> grind

@[grind →] theorem appendBufs_cleanGrain (h : cleanGrain d map line c pgidx i = .ok (n, c')) :
    c'.shard.appendBufs = c.shard.appendBufs := by
  simp only [cleanGrain] at h
  split at h
  · simp only [bind_eq_ok, pure_eq_ok] at h
    grind
  split at h
  · simp only [bind_eq_ok, pure_eq_ok] at h
    grind
  split at h
  · grind
  split at h
  · simp only [bind_eq_ok, pure_eq_ok] at h
    grind
  split at h
  · simp only [moveGrain, bind_eq_ok, pure_eq_ok] at h
    obtain ⟨⟨m, c1⟩, h1, h⟩ := h
    split at h1 <;> grind
  · rw [pure_eq_ok] at h
    grind

@[grind →] theorem appendBufs_cleanPageLoop {fuel : ℕ}
    (h : cleanPageLoop d map line pgidx fuel i c = .ok c') :
    c'.shard.appendBufs = c.shard.appendBufs := by
  induction fuel generalizing i c with
  | zero => cases h
  | succ fuel ih =>
    rw [cleanPageLoop] at h
    split at h
    · grind
    · simp only [bind_eq_ok] at h
      obtain ⟨⟨j, c1⟩, h1, h⟩ := h
      exact (ih h).trans (appendBufs_cleanGrain h1)

@[grind →] theorem appendBufs_cleanPages {p : Ppa} {k cnt cnt' : ℕ}
    (h : cleanPages d map p n k cnt c = .ok (cnt', c')) :
    c'.shard.appendBufs = c.shard.appendBufs := by
  induction n generalizing k cnt c with
  | zero =>
    cases h
    rfl
  | succ n ih =>
    simp only [cleanPages, bind_eq_ok] at h
    obtain ⟨pgidx, -, f, -, h⟩ := h
    split at h
    · cases h
    · simp only [bind_eq_ok] at h
      obtain ⟨c1, h1, h⟩ := h
      have hrest := ih h
      grind
    · simp only [bind_eq_ok] at h
      obtain ⟨-, -, h⟩ := h
      have hrest := ih h
      grind

@[grind →] theorem appendBufs_flushShadow {is : List ℕ} (h : flushShadow d is s = .ok s') :
    s'.appendBufs = s.appendBufs := by
  induction is generalizing s with
  | nil =>
    cases h
    rfl
  | cons i is ih =>
    simp only [flushShadow, bind_eq_ok] at h
    obtain ⟨s1, h1, h⟩ := h
    have hrest := ih h
    grind

@[grind →] theorem appendBufs_cleanIfLive {p : Ppa} (h : cleanIfLive d map line c p = .ok c') :
    c'.shard.appendBufs = c.shard.appendBufs := by
  rw [cleanIfLive] at h
  split at h
  · simp only [cleanOneFlashpg, bind_eq_ok] at h
    obtain ⟨⟨cnt, c1⟩, h1, h⟩ := h
    split at h
    · rw [pure_eq_ok] at h
      grind
    · simp only [bind_eq_ok, pure_eq_ok] at h
      grind
  · grind

@[grind →] theorem appendBufs_cleanLine {ps : List (Ppa × Bool)}
    (h : cleanLine d map line ps c = .ok c') : c'.shard.appendBufs = c.shard.appendBufs := by
  induction ps generalizing c with
  | nil =>
    cases h
    rfl
  | cons x ps ih =>
    simp only [cleanLine, bind_eq_ok] at h
    obtain ⟨c1, h1, f, -, h⟩ := h
    have hrest := ih h
    grind

@[grind →] theorem appendBufs_readLog (h : readLog d s line map = .ok s') :
    s'.appendBufs = s.appendBufs := by
  rw [readLog] at h
  split at h
  · simp only [bind_eq_ok, pure_eq_ok] at h
    grind
  · grind

@[grind →] theorem appendBufs_collectLine (h : collectLine d s line = .ok s') :
    s'.appendBufs = s.appendBufs := by
  simp only [collectLine, bind_eq_ok, pure_eq_ok] at h
  grind

@[grind →] theorem appendBufs_doGc {v : Option ℕ} (h : doGc d s = .ok (v, s')) :
    s'.appendBufs = s.appendBufs := by
  simp only [doGc, bind_eq_ok] at h
  obtain ⟨⟨v', f⟩, -, h⟩ := h
  cases v' with
  | none =>
    simp only [pure_eq_ok] at h
    grind
  | some line =>
    simp only [bind_eq_ok, pure_eq_ok] at h
    grind

/-- A turn of the collector. -/
theorem appendBufs_turn (h : turn d s = .ok s') : s'.appendBufs = s.appendBufs := by
  simp only [turn, bind_eq_ok, pure_eq_ok] at h
  obtain ⟨⟨v, s1⟩, h1, h⟩ := h
  rw [← h, ← appendBufs_doGc h1]
  cases v with
  | none => rfl
  | some line => rfl

end Gc

end Virtkv
