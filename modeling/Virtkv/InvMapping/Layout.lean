import Mathlib.Data.List.Induction
import Virtkv.InvMapping.Defs
import Virtkv.Flash.Frame

/-!
# Where the records of a line lie

A run of `__record_inv_mapping` calls for one line fills the buffer of the line and
flushes it whenever the next record does not fit. `layout` says which records end up
in which page and which stay in the buffer, and `Laid` relates it to the log. The part
of the first flushed page that no record covers is what the buffer held before.
-/

namespace Virtkv

open Outcome

/-- The arguments of a `__record_inv_mapping` call. -/
structure Rec where
  lpa : ℕ
  ppa : ℕ
  off : ℕ
  len : ℕ
  deriving DecidableEq

namespace Rec

variable (r : Rec)

def key : ℕ := invKey r.lpa r.ppa

/-- The whole pair is invalid. -/
def whole : Bool := r.off = uintMax

/-- The second word of an offset delete. -/
def marker : ℕ := offMarker r.off r.len

/-- The words a record takes in its buffer. -/
def words : List ℕ := if r.whole then [r.key] else [r.key, r.marker]

/-- Records the code makes: an index that is no translation entry, a mapped grain, and
an offset below `2^31` for an offset delete. -/
structure Proper (r : Rec) : Prop where
  lpa_gt : Build.plus.epp < r.lpa
  lpa_lt : r.lpa < uintMax
  ppa_lt : r.ppa < uintMax
  off_lt : r.off = uintMax ∨ r.off < 2 ^ 31
  len_lt : r.len < 2 ^ 32

instance : Decidable r.Proper :=
  decidable_of_iff
    (Build.plus.epp < r.lpa ∧ r.lpa < uintMax ∧ r.ppa < uintMax ∧
      (r.off = uintMax ∨ r.off < 2 ^ 31) ∧ r.len < 2 ^ 32)
    ⟨fun h => ⟨h.1, h.2.1, h.2.2.1, h.2.2.2.1, h.2.2.2.2⟩,
      fun h => ⟨h.lpa_gt, h.lpa_lt, h.ppa_lt, h.off_lt, h.len_lt⟩⟩

end Rec

/-- The words of a sequence of records. -/
def wordsOf (rs : List Rec) : List ℕ := rs.flatMap Rec.words

@[simp] theorem wordsOf_nil : wordsOf [] = [] := rfl

theorem wordsOf_cons (r : Rec) (rs : List Rec) : wordsOf (r :: rs) = r.words ++ wordsOf rs := rfl

theorem wordsOf_append (rs rs' : List Rec) : wordsOf (rs ++ rs') = wordsOf rs ++ wordsOf rs' := by
  simp [wordsOf]

/-- Flushed pages and the open buffer of a line. -/
structure Layout where
  pages : List (List Rec)
  buf : List Rec

namespace Layout

/-- Add a record, after a flush if the buffer cannot take it. -/
def add (y : Layout) (r : Rec) : Layout :=
  if invPageEntries < (wordsOf y.buf).length + r.words.length then
    { pages := y.pages ++ [y.buf], buf := [r] }
  else { y with buf := y.buf ++ [r] }

/-- All records in order. -/
def records (y : Layout) : List Rec := y.pages.flatten ++ y.buf

theorem records_add (y : Layout) (r : Rec) : (y.add r).records = y.records ++ [r] := by
  unfold add
  split <;> simp [records]

end Layout

/-- The layout of a run of records. -/
def layout (rs : List Rec) : Layout := rs.foldl Layout.add { pages := [], buf := [] }

theorem layout_append_singleton (rs : List Rec) (r : Rec) :
    layout (rs ++ [r]) = (layout rs).add r := by
  simp [layout]

theorem records_layout (rs : List Rec) : (layout rs).records = rs := by
  induction rs using List.reverseRecOn with
  | nil => rfl
  | append_singleton rs r ih => rw [layout_append_singleton, Layout.records_add, ih]

theorem words_length_le (r : Rec) : r.words.length ≤ 2 := by
  unfold Rec.words
  split <;> simp

/-- A page is flushed when some record does not fit, and neither a page nor the buffer
holds more than a page of words. -/
theorem layout_fits (rs : List Rec) :
    (∀ p ∈ (layout rs).pages, (wordsOf p).length ≤ invPageEntries ∧
      ∃ r ∈ rs, invPageEntries < (wordsOf p).length + r.words.length) ∧
    (wordsOf (layout rs).buf).length ≤ invPageEntries := by
  induction rs using List.reverseRecOn with
  | nil => exact ⟨nofun, by simp [layout]⟩
  | append_singleton rs r ih =>
    obtain ⟨hp, hb⟩ := ih
    have hold : ∀ p ∈ (layout rs).pages, (wordsOf p).length ≤ invPageEntries ∧
        ∃ x ∈ rs ++ [r], invPageEntries < (wordsOf p).length + x.words.length := by
      intro p hmem
      obtain ⟨hle, x, hx, hlt⟩ := hp p hmem
      exact ⟨hle, x, List.mem_append_left _ hx, hlt⟩
    rw [layout_append_singleton]
    unfold Layout.add
    split
    · rename_i h
      refine ⟨fun p hmem => ?_, ?_⟩
      · rcases List.mem_append.mp hmem with hmem | hmem
        · exact hold p hmem
        · cases List.mem_singleton.mp hmem
          exact ⟨hb, r, by simp, h⟩
      · simpa [wordsOf_cons] using
          Nat.le_trans (words_length_le r) (by decide : 2 ≤ invPageEntries)
    · rename_i h
      refine ⟨hold, ?_⟩
      simpa [wordsOf_append, wordsOf_cons] using h

/-- A page is flushed with at most its last word uncovered. -/
theorem layout_sizes {rs p : List Rec} (hmem : p ∈ (layout rs).pages) :
    (wordsOf p).length = invPageEntries ∨ (wordsOf p).length + 1 = invPageEntries := by
  obtain ⟨hle, r, -, hlt⟩ := (layout_fits rs).1 p hmem
  have hr := words_length_le r
  omega

/-! ### Pages and buffers as words -/

/-- A page with the given first words over what was there before. -/
def pageOf (ws : List ℕ) (spare : LogWords) : LogWords := fun j => ws.getD j (spare j)

/-- The flushed pages with what lay in the buffer before them: only for the first one is
this not zero. -/
def withSpare (stale : LogWords) : List (List Rec) → List (List Rec × LogWords)
  | [] => []
  | p :: ps => (p, stale) :: ps.map fun q => (q, fun _ => 0)

/-- The words of the flushed pages. -/
def stored (stale : LogWords) (pages : List (List Rec)) : List LogWords :=
  (withSpare stale pages).map fun x => pageOf (wordsOf x.1) x.2

/-- What lies behind the records of the open buffer. -/
def spareOf (stale : LogWords) (pages : List (List Rec)) : LogWords :=
  if pages = [] then stale else fun _ => 0

theorem map_fst_withSpare (stale : LogWords) (pages : List (List Rec)) :
    (withSpare stale pages).map Prod.fst = pages := by
  cases pages with
  | nil => rfl
  | cons p ps => simp [withSpare, Function.comp_def]

theorem stored_append_singleton (stale : LogWords) (ps : List (List Rec)) (p : List Rec) :
    stored stale (ps ++ [p]) = stored stale ps ++ [pageOf (wordsOf p) (spareOf stale ps)] := by
  cases ps with
  | nil => rfl
  | cons q qs => simp [stored, withSpare, spareOf]

theorem pageOf_append_singleton (ws : List ℕ) (w : ℕ) (spare : LogWords) :
    Function.update (pageOf ws spare) ws.length w = pageOf (ws ++ [w]) spare := by
  funext j
  by_cases hj : j = ws.length
  · subst hj
    simp [pageOf]
  · rw [Function.update_of_ne hj]
    simp only [pageOf, List.getD_eq_getElem?_getD]
    rcases Nat.lt_or_gt_of_ne hj with h | h
    · rw [List.getElem?_append_left h]
    · rw [List.getElem?_eq_none (by omega), List.getElem?_eq_none (by simp; omega)]

namespace InvLog

variable {d : Device} {f f' : Flash} {log log' : InvLog} {l : ℕ}

/-- The buffer of line `l` holds the words `ws` over `spare`. -/
structure Holding (l : ℕ) (ws : List ℕ) (spare : LogWords) (log : InvLog) : Prop where
  bufs_eq : log.bufs l = pageOf ws spare
  offs_eq : log.offs l = invEntrySz * ws.length

theorem Holding.push {ws : List ℕ} {spare : LogWords} (h : Holding l ws spare log) (w : ℕ) :
    Holding l (ws ++ [w]) spare (log.push l w) where
  bufs_eq := by
    have hoff : log.offs l / invEntrySz = ws.length := by
      rw [h.offs_eq]
      exact Nat.mul_div_cancel_left _ (by decide)
    simp only [InvLog.push, Function.update_self, hoff, h.bufs_eq]
    exact pageOf_append_singleton ws w spare
  offs_eq := by
    simp only [InvLog.push, Function.update_self, h.offs_eq, List.length_append,
      List.length_singleton, Nat.mul_add, Nat.mul_one]

/-- The words of a record go behind those in the buffer. -/
def pushRec (log : InvLog) (l : ℕ) (r : Rec) : InvLog := log.append l r.lpa r.ppa r.off r.len

theorem Holding.pushRec {ws : List ℕ} {spare : LogWords} (h : Holding l ws spare log) (r : Rec) :
    Holding l (ws ++ r.words) spare (log.pushRec l r) := by
  unfold InvLog.pushRec InvLog.append
  by_cases hr : r.off = uintMax
  · have hw : r.words = [r.key] := by simp [Rec.words, Rec.whole, hr]
    rw [hw, if_neg (not_not.mpr hr)]
    exact h.push r.key
  · have hw : r.words = [r.key] ++ [r.marker] := by simp [Rec.words, Rec.whole, hr]
    rw [hw, if_pos hr, ← List.append_assoc]
    exact (h.push r.key).push r.marker

theorem pushRec_frame (log : InvLog) (l : ℕ) (r : Rec) :
    (log.pushRec l r).xa = log.xa ∧ (log.pushRec l r).invMHash = log.invMHash ∧
      (log.pushRec l r).offDelHash = log.offDelHash := by
  unfold pushRec append
  dsimp only
  split <;> exact ⟨rfl, rfl, rfl⟩

/-- The bytes `recordAt` makes room for are those of the record's words. -/
theorem entry_bytes (r : Rec) : invEntrySz + (if r.off ≠ uintMax then invEntrySz else 0) =
    invEntrySz * r.words.length := by
  unfold Rec.words Rec.whole
  by_cases hr : r.off = uintMax
  · simp [hr]
  · simp [hr]
    rfl

/-- A record either finds room or comes after a flush. -/
theorem recordAt_eq_ok {r : Rec} {c : ℕ}
    (h : recordAt d f log l r.lpa r.ppa r.off r.len = .ok (c, f', log')) :
    (log.offs l + invEntrySz * r.words.length ≤ pageSize ∧ f' = f ∧ log' = log.pushRec l r) ∨
    (pageSize < log.offs l + invEntrySz * r.words.length ∧
      ∃ log1, flush d f log l = .ok (f', log1) ∧ log' = log1.pushRec l r) := by
  simp only [recordAt, bind_eq_ok] at h
  obtain ⟨⟨c1, f1, log1⟩, h1, h⟩ := h
  cases h
  rw [makeRoom, entry_bytes] at h1
  split at h1
  · rename_i hlt
    simp only [bind_eq_ok] at h1
    obtain ⟨⟨f2, log2⟩, h2, h1⟩ := h1
    cases h1
    exact .inr ⟨hlt, log2, h2, rfl⟩
  · rename_i hlt
    cases h1
    exact .inl ⟨Nat.le_of_not_lt hlt, rfl, rfl⟩

/-! ### The run -/

/-- The calls of `__record_inv_mapping` one after the other. -/
def recordAll (d : Device) : List Rec → Flash → InvLog → Except Fault (Flash × InvLog)
  | [], f, log => .ok (f, log)
  | r :: rs, f, log => do
    let (_, f, log) ← recordInvMapping d f log r.lpa r.ppa r.off r.len
    recordAll d rs f log

/-- Line `l` has no records: neither in its buffer nor in flushed pages. -/
def Drained (l : ℕ) (log : InvLog) : Prop := log.offs l = 0 ∧ log.linePages l = []

/-- The log of line `l` holds the records of a layout, over the buffer contents
`stale`. -/
structure Laid (l : ℕ) (stale : LogWords) (y : Layout) (f : Flash) (log : InvLog) : Prop where
  holding : Holding l (wordsOf y.buf) (spareOf stale y.pages) log
  pages : ((log.linePages l).map Prod.snd).Perm (stored stale y.pages)
  used : ∀ e ∈ log.linePages l, f.status (e.1 % 2 ^ 32) ≠ .free

theorem Laid.start (h : Drained l log) : Laid l (log.bufs l) (layout []) f log where
  holding := ⟨by funext j; simp [layout, pageOf, spareOf], by simp [layout, h.1]⟩
  pages := by simp [layout, h.2, stored, withSpare]
  used := by simp [h.2]

/-- Storing a page at an index that is not there adds it. -/
theorem perm_xaStore {idx : ℕ} {page : LogWords} {xa : List (ℕ × LogWords)}
    (h : ∀ e ∈ xa, e.1 ≠ idx) : (xaStore idx page xa).Perm ((idx, page) :: xa) := by
  induction xa with
  | nil => exact List.Perm.refl _
  | cons e xa ih =>
    have he : idx ≠ e.1 := fun h' => h e List.mem_cons_self h'.symm
    unfold xaStore
    rw [if_neg he]
    split
    · exact List.Perm.refl _
    · exact ((ih fun x hx => h x (List.mem_cons_of_mem _ hx)).cons e).trans
        (List.Perm.swap _ _ _)

theorem mem_linePages_xaIdx {pgidx : ℕ} (hpg : pgidx < 2 ^ 32) :
    xaIdx l 0 ≤ xaIdx l pgidx ∧ xaIdx l pgidx ≤ xaIdx (l + 1) 0 := by
  unfold xaIdx
  omega

theorem xaIdx_mod {pgidx : ℕ} (hpg : pgidx < 2 ^ 32) : xaIdx l pgidx % 2 ^ 32 = pgidx := by
  unfold xaIdx
  omega

/-- `flushPageLoop` hands out a page that was free and keeps the used ones used. -/
theorem flushPageLoop_takesPage {fuel pgidx : ℕ}
    (h : flushPageLoop d fuel f = .ok (pgidx, f')) :
    f.status pgidx = .free ∧ f'.status pgidx ≠ .free ∧ pgidx < d.geo.ttPgs ∧
      ∀ q, f.status q ≠ .free → f'.status q ≠ .free := by
  induction fuel generalizing f with
  | zero => cases h
  | succ fuel ih =>
    simp only [flushPageLoop, bind_eq_ok, ensure_eq_ok] at h
    obtain ⟨-, -, -, -, ⟨p, q, f1⟩, h1, f2, h2, h⟩ := h
    obtain ⟨htake, hlt⟩ := Flash.takePage_takesPage h1
    have htake2 := htake.keeps (Flash.keepsPages_markGrainValid h2)
    split at h
    · rename_i hq
      simp only [bind_eq_ok] at h
      obtain ⟨f3, h3, h⟩ := h
      obtain ⟨hfree, htaken, hlt', hused⟩ := ih h
      have htake3 := htake2.keeps (Flash.keepsPages_markGrainInvalid h3)
      refine ⟨?_, htaken, hlt', fun r hr => hused r (htake3.in_use r hr)⟩
      by_contra hne
      exact htake3.in_use pgidx hne hfree
    · cases h
      exact ⟨htake2.was_free, htake2.taken, hlt, htake2.in_use⟩

/-- A flush moves the buffer of the line to a page of its own. -/
theorem Laid.flush {stale : LogWords} {y : Layout} (hpg : d.geo.ttPgs ≤ 2 ^ 32)
    (hy : Laid l stale y f log) (h : flush d f log l = .ok (f', log')) :
    Laid l stale { pages := y.pages ++ [y.buf], buf := [] } f' log' := by
  simp only [InvLog.flush, bind_eq_ok] at h
  obtain ⟨⟨pgidx, f1⟩, h1, h⟩ := h
  cases h
  obtain ⟨hfree, htaken, hlt, hused⟩ := flushPageLoop_takesPage h1
  have hlt' : pgidx < 2 ^ 32 := Nat.lt_of_lt_of_le hlt hpg
  have hnew : ∀ e ∈ log.xa, e.1 ≠ xaIdx l pgidx := by
    intro e he heq
    have hmem : e ∈ log.linePages l := by
      refine List.mem_filter.mpr ⟨he, ?_⟩
      rw [heq]
      exact decide_eq_true (mem_linePages_xaIdx hlt')
    apply hy.used e hmem
    rw [heq, xaIdx_mod hlt']
    exact hfree
  have hperm : (linePages { log with
        xa := xaStore (xaIdx l pgidx) (log.bufs l) log.xa
        bufs := Function.update log.bufs l (fun _ => 0)
        offs := Function.update log.offs l 0 } l).Perm
      ((xaIdx l pgidx, log.bufs l) :: log.linePages l) := by
    unfold linePages
    refine ((perm_xaStore hnew).filter _).trans ?_
    rw [List.filter_cons_of_pos]
    exact decide_eq_true (mem_linePages_xaIdx hlt')
  constructor
  · refine ⟨?_, by simp⟩
    funext j
    simp [pageOf, spareOf]
  · refine (hperm.map Prod.snd).trans ?_
    rw [stored_append_singleton, List.map_cons, hy.holding.bufs_eq]
    exact (hy.pages.cons _).trans (List.perm_append_singleton _ _).symm
  · intro e he
    rcases List.mem_cons.mp (hperm.mem_iff.mp he) with rfl | he
    · rw [xaIdx_mod hlt']
      exact htaken
    · exact hused _ (hy.used e he)

theorem Laid.pushRec {stale : LogWords} {y : Layout} (hy : Laid l stale y f log) (r : Rec) :
    Laid l stale { y with buf := y.buf ++ [r] } f (log.pushRec l r) where
  holding := by
    have h := hy.holding.pushRec r
    rw [wordsOf_append, wordsOf_cons, wordsOf_nil, List.append_nil]
    exact h
  pages := by
    unfold linePages
    rw [(pushRec_frame log l r).1]
    exact hy.pages
  used := by
    unfold linePages
    rw [(pushRec_frame log l r).1]
    exact hy.used

/-- The step lemma: one record. -/
theorem Laid.record {stale : LogWords} {y : Layout} {r : Rec} {c : ℕ}
    (hpg : d.geo.ttPgs ≤ 2 ^ 32) (hy : Laid l stale y f log)
    (h : recordAt d f log l r.lpa r.ppa r.off r.len = .ok (c, f', log')) :
    Laid l stale (y.add r) f' log' := by
  have hfull : pageSize < log.offs l + invEntrySz * r.words.length ↔
      invPageEntries < (wordsOf y.buf).length + r.words.length := by
    rw [hy.holding.offs_eq, ← Nat.mul_add]
    simp only [pageSize, invEntrySz, invPageEntries]
    omega
  unfold Layout.add
  obtain ⟨hle, rfl, rfl⟩ | ⟨hlt, log1, h1, rfl⟩ := recordAt_eq_ok h
  · rw [if_neg (fun hc => Nat.not_lt.mpr hle (hfull.mpr hc))]
    exact hy.pushRec r
  · rw [if_pos (hfull.mp hlt)]
    exact (hy.flush hpg h1).pushRec r

/-- Records leave the hash tables alone. -/
theorem recordAt_hashes {r : Rec} {c : ℕ}
    (h : recordAt d f log l r.lpa r.ppa r.off r.len = .ok (c, f', log')) :
    log'.invMHash = log.invMHash ∧ log'.offDelHash = log.offDelHash := by
  obtain ⟨-, rfl, rfl⟩ | ⟨-, log1, h1, rfl⟩ := recordAt_eq_ok h
  · exact (pushRec_frame ..).2
  · simp only [InvLog.flush, bind_eq_ok] at h1
    obtain ⟨s, -, h1⟩ := h1
    cases h1
    exact (pushRec_frame ..).2

/-- The run lemma: after any number of records of the line, its log holds their
layout. -/
theorem Laid.recordAll {stale : LogWords} {rs : List Rec} (hpg : d.geo.ttPgs ≤ 2 ^ 32)
    (hl : ∀ r ∈ rs, grain2lineid d r.ppa = .ok l) {done : List Rec}
    (hy : Laid l stale (layout done) f log) (h : recordAll d rs f log = .ok (f', log')) :
    Laid l stale (layout (done ++ rs)) f' log' ∧
      log'.invMHash = log.invMHash ∧ log'.offDelHash = log.offDelHash := by
  induction rs generalizing done f log with
  | nil =>
    cases h
    exact ⟨by simpa using hy, rfl, rfl⟩
  | cons r rs ih =>
    simp only [InvLog.recordAll, bind_eq_ok, recordInvMapping] at h
    obtain ⟨⟨c, f1, log1⟩, ⟨l', hl', h1⟩, h⟩ := h
    rw [hl r List.mem_cons_self] at hl'
    cases hl'
    have hy1 := hy.record hpg h1
    rw [← layout_append_singleton] at hy1
    obtain ⟨hlaid, hinv, hoff⟩ := ih (fun x hx => hl x (List.mem_cons_of_mem _ hx)) hy1 h
    obtain ⟨hinv1, hoff1⟩ := recordAt_hashes h1
    refine ⟨?_, hinv.trans hinv1, hoff.trans hoff1⟩
    rwa [List.append_assoc, List.singleton_append] at hlaid

end InvLog

end Virtkv
