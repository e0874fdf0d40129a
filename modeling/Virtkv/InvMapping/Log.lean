import Mathlib.Algebra.Ring.Parity
import Mathlib.Data.List.Nodup
import Virtkv.InvMapping.RoundTrip

/-!
# Recording and draining the log of a line

A run of records of one line, from a line without records, and the drain that follows
it. Both theorems say exactly when the drained tables agree with what was recorded:
`getInvMappings_decodes_iff` for distinct records of both kinds, and
`getInvMappings_cancels_iff` for whole-pair records with repetitions.
-/

namespace Virtkv

open Outcome

/-- Every grain of the device is a 32-bit number, as `ppa_t` is. -/
def Device.Addressable (d : Device) : Prop := d.geo.ttPgs * d.gpp ≤ 2 ^ 32

theorem Device.Addressable.ttPgs_le {d : Device} (h : d.Addressable) : d.geo.ttPgs ≤ 2 ^ 32 := by
  refine le_trans (Nat.le_mul_of_pos_right _ ?_) h
  cases hb : d.build <;> simp [Device.gpp, hb] <;> decide

namespace InvLog

variable {d : Device} {f f1 f2 : Flash} {log log1 log2 : InvLog} {l : ℕ} {rs : List Rec}

/-- A run of records of line `l`, from a line without records and with empty tables, and
the drain of the line. -/
structure Drain (d : Device) (l : ℕ) (rs : List Rec) (f : Flash) (log : InvLog)
    (f2 : Flash) (log2 : InvLog) : Prop where
  addressable : d.Addressable
  drained : Drained l log
  words : ∀ j, log.bufs l j < 2 ^ 64
  inv_empty : log.invMHash = []
  off_empty : log.offDelHash = []
  proper : ∀ r ∈ rs, r.Proper
  line : ∀ r ∈ rs, grain2lineid d r.ppa = .ok l
  run : (do let (f1, log1) ← recordAll d rs f log; getInvMappings d f1 log1 l) = .ok (f2, log2)

theorem wordsFrom_pageOf (ws : List ℕ) (spare : LogWords) :
    wordsFrom (pageOf ws spare) 0 ws.length = ws := by
  apply List.ext_getElem
  · simp [wordsFrom]
  · intro i h1 h2
    simp [wordsFrom, pageOf, h2]

theorem wordsFrom_succ_right (w : LogWords) (n : ℕ) :
    wordsFrom w 0 (n + 1) = wordsFrom w 0 n ++ [w n] := by
  simp [wordsFrom, List.range'_concat]

/-- A flushed page reads as its records and the uncovered word. -/
theorem findPage_pageOf {p : List Rec} (spare : LogWords)
    (hlen : (wordsOf p).length = invPageEntries ∨ (wordsOf p).length + 1 = invPageEntries) :
    findPage (pageOf (wordsOf p) spare) = scanPage (wordsOf p ++ tailOf p spare) := by
  unfold findPage tailOf
  rcases hlen with hlen | hlen
  · rw [if_neg (by omega), List.append_nil, ← hlen, wordsFrom_pageOf]
  · rw [if_pos (by omega), ← hlen, wordsFrom_succ_right, wordsFrom_pageOf]
    simp [pageOf]

theorem pageOf_lt {ws : List ℕ} {spare : LogWords} {n : ℕ} (hws : ∀ w ∈ ws, w < n)
    (hsp : ∀ j, spare j < n) (j : ℕ) : pageOf ws spare j < n := by
  unfold pageOf
  rw [List.getD_eq_getElem?_getD]
  cases hj : ws[j]? with
  | none => exact hsp j
  | some w => exact hws w (List.mem_of_getElem? hj)

theorem mem_withSpare {stale : LogWords} {pages : List (List Rec)} {x : List Rec × LogWords}
    (hx : x ∈ withSpare stale pages) : x.1 ∈ pages ∧ (x.2 = stale ∨ x.2 = fun _ => 0) := by
  cases pages with
  | nil => cases hx
  | cons p ps =>
    rw [withSpare, List.mem_cons, List.mem_map] at hx
    rcases hx with rfl | ⟨q, hq, rfl⟩
    · exact ⟨List.mem_cons_self, .inl rfl⟩
    · exact ⟨List.mem_cons_of_mem _ hq, .inr rfl⟩

theorem mem_of_mem_page {p : List Rec} {r : Rec} (hp : p ∈ (layout rs).pages) (hr : r ∈ p) :
    r ∈ rs := by
  rw [← records_layout rs]
  exact List.mem_append_left _ (List.mem_flatten.mpr ⟨p, hp, hr⟩)

theorem mem_of_mem_buf {r : Rec} (hr : r ∈ (layout rs).buf) : r ∈ rs := by
  rw [← records_layout rs]
  exact List.mem_append_right _ hr

/-- What the drain of a line finds in its pages and in its buffer. -/
theorem Drain.found (h : Drain d l rs f log f2 log2) :
    ∃ odd : List ℕ,
      odd.Nodup ∧
      (∀ k, k ∈ odd ↔
        (keysIn (findings (withSpare (log.bufs l) (layout rs).pages))).count k % 2 = 1) ∧
      log2.invMHash.Perm (keysIn (scanBuf (wordsOf (layout rs).buf)) ++ odd) ∧
      log2.offDelHash.Perm (delsIn (scanBuf (wordsOf (layout rs).buf)) ++
        delsIn (findings (withSpare (log.bufs l) (layout rs).pages))) := by
  have hrun := h.run
  rw [bind_eq_ok] at hrun
  obtain ⟨⟨f1, log1⟩, h1, h2⟩ := hrun
  obtain ⟨hlaid, hinv, hoff⟩ := Laid.recordAll h.addressable.ttPgs_le h.line
    (Laid.start h.drained) h1
  rw [List.nil_append] at hlaid
  have hspare : ∀ x ∈ withSpare (log.bufs l) (layout rs).pages, ∀ j, x.2 j < 2 ^ 64 := by
    intro x hx j
    rcases (mem_withSpare hx).2 with hx2 | hx2
    · rw [hx2]
      exact h.words j
    · simp [hx2]
  have hpages : ∀ e ∈ log1.linePages l, ∀ j, e.2 j < 2 ^ 64 := by
    intro e he
    obtain ⟨x, hx, hxe⟩ :=
      List.mem_map.mp (hlaid.pages.mem_iff.mp (List.mem_map_of_mem (f := Prod.snd) he))
    rw [← hxe]
    refine pageOf_lt (fun w hw => lt_of_mem_wordsOf (fun r hr => ?_) hw) (hspare x hx)
    exact h.proper r (mem_of_mem_page (mem_withSpare hx).1 hr)
  have hbuf : ∀ j, log1.bufs l j < 2 ^ 64 := by
    rw [hlaid.holding.bufs_eq]
    refine pageOf_lt (fun w hw => lt_of_mem_wordsOf (fun r hr => ?_) hw) ?_
    · exact h.proper r (mem_of_mem_buf hr)
    · unfold spareOf
      split
      · exact h.words
      · exact fun j => by simp
  have hfind : (((log1.linePages l).map Prod.snd).flatMap findPage).Perm
      (findings (withSpare (log.bufs l) (layout rs).pages)) := by
    refine (hlaid.pages.flatMap_right _).trans (List.Perm.of_eq ?_)
    unfold stored findings
    rw [List.flatMap_map]
    exact List.flatMap_congr fun x hx =>
      findPage_pageOf _ (layout_sizes (mem_withSpare hx).1)
  obtain ⟨odd, hnd, hodd, hperm, hpoff⟩ := getInvMappings_eq_ok hpages hbuf
    ⟨hinv.trans h.inv_empty, hoff.trans h.off_empty⟩ h2
  have hcnt : log1.offs l / invEntrySz = (wordsOf (layout rs).buf).length := by
    rw [hlaid.holding.offs_eq]
    exact Nat.mul_div_cancel_left _ (by decide)
  rw [hcnt, hlaid.holding.bufs_eq, wordsFrom_pageOf] at hperm hpoff
  refine ⟨odd, hnd, fun k => ?_, hperm, hpoff.trans (List.Perm.append_left _ ?_)⟩
  · rw [hodd k, (perm_keysIn hfind).count_eq k]
  · exact perm_delsIn hfind

/-! ### Distinct records -/

/-- The drain of the line finds what was recorded: the whole-pair keys are in
`inv_m_hash`, apart from the all-zero entry, and the offset deletes in
`off_del_hash`. -/
def Decodes (rs : List Rec) (log : InvLog) : Prop :=
  (log.invMHash.filter fun k => k ≠ 0).Perm (wholeKeys rs) ∧ log.offDelHash.Perm (offDels rs)

/-- The layouts that decode. -/
structure Readable (stale : LogWords) (y : Layout) : Prop where
  buf : BufClear y.buf
  pages : ∀ x ∈ withSpare stale y.pages, PageClear x.1 x.2
  even : ∀ k, k ≠ 0 → seen k = true → Even ((strays (withSpare stale y.pages)).count k)

/-- The offset deletes found in the pages and the buffer: those recorded and the stray
ones. -/
theorem offDels_layout (rs : List Rec) :
    offDels rs = offDels (layout rs).pages.flatten ++ offDels (layout rs).buf := by
  rw [← offDels_append]
  exact congrArg offDels (records_layout rs).symm

theorem wholeKeys_layout (rs : List Rec) :
    wholeKeys rs = wholeKeys (layout rs).pages.flatten ++ wholeKeys (layout rs).buf := by
  rw [← wholeKeys_append]
  exact congrArg wholeKeys (records_layout rs).symm

theorem Drain.bufClear (h : Drain d l rs f log f2 log2) (hdist : (rs.map Rec.key).Nodup)
    (hdec : Decodes rs log2) : BufClear (layout rs).buf := by
  obtain ⟨odd, -, -, -, hoff⟩ := h.found
  by_contra hc
  obtain ⟨r, hr, hw, o, ho⟩ :=
    exists_whole_of_not_clear (fun r hr => h.proper r (mem_of_mem_buf hr)) hc
  have hmem := hdec.2.mem_iff.mp (hoff.mem_iff.mpr (List.mem_append_left _ ho))
  obtain ⟨r', hr', heq⟩ := List.mem_map.mp hmem
  rw [List.mem_filter] at hr'
  have hrr : r' = r :=
    List.inj_on_of_nodup_map hdist hr'.1 (mem_of_mem_buf hr) (congrArg Prod.fst heq)
  rw [hrr, hw] at hr'
  exact absurd hr'.2 (by decide)

theorem Drain.pagesClear (h : Drain d l rs f log f2 log2) (hb : BufClear (layout rs).buf)
    (hdec : Decodes rs log2) :
    ∀ x ∈ withSpare (log.bufs l) (layout rs).pages, PageClear x.1 x.2 := by
  have hpx : ∀ x ∈ withSpare (log.bufs l) (layout rs).pages, ∀ r ∈ x.1, r.Proper :=
    fun x hx r hr => h.proper r (mem_of_mem_page (mem_withSpare hx).1 hr)
  obtain ⟨odd, -, -, -, hoff⟩ := h.found
  have hlen := (hdec.2.symm.trans hoff).length_eq
  have hfind := (delsIn_findings hpx).length_eq
  rw [map_fst_withSpare, List.length_append] at hfind
  rw [List.length_append, hfind,
    (scanBuf_of_clear (fun r hr => h.proper r (mem_of_mem_buf hr)) hb).2, offDels_layout,
    List.length_append] at hlen
  have hnil := List.length_eq_zero_iff.mp (by omega :
    ((withSpare (log.bufs l) (layout rs).pages).flatMap
      fun x => strayDels (tailOf x.1 x.2) x.1).length = 0)
  intro x hx
  exact (strayDels_eq_nil (hpx x hx) x.2).mp (List.flatMap_eq_nil_iff.mp hnil x hx)

/-- With no stray offset delete, a key other than 0 is as often in `inv_m_hash` as it was
recorded if and only if it is an even number of times among the stray words. -/
theorem Drain.count_invMHash (h : Drain d l rs f log f2 log2) (hdist : (rs.map Rec.key).Nodup)
    (hb : BufClear (layout rs).buf)
    (hc : ∀ x ∈ withSpare (log.bufs l) (layout rs).pages, PageClear x.1 x.2) (k : ℕ) :
    log2.invMHash.count k = (wholeKeys rs).count k ↔
      (seen k = true →
        Even ((strays (withSpare (log.bufs l) (layout rs).pages)).count k)) := by
  obtain ⟨odd, hnd, hodd, hinv, -⟩ := h.found
  have hpx : ∀ x ∈ withSpare (log.bufs l) (layout rs).pages, ∀ r ∈ x.1, r.Proper :=
    fun x hx r hr => h.proper r (mem_of_mem_page (mem_withSpare hx).1 hr)
  have hkeys := (keysIn_findings hpx hc).count_eq k
  rw [map_fst_withSpare, List.count_append] at hkeys
  have hone : (wholeKeys (layout rs).pages.flatten).count k ≤ 1 := by
    have hsub : (wholeKeys rs).Nodup :=
      hdist.sublist ((List.filter_sublist).map Rec.key)
    rw [wholeKeys_layout] at hsub
    exact List.nodup_iff_count_le_one.mp (List.nodup_append.mp hsub).1 k
  have hoddk : odd.count k =
      (keysIn (findings (withSpare (log.bufs l) (layout rs).pages))).count k % 2 := by
    by_cases hk : k ∈ odd
    · rw [List.count_eq_one_of_mem hnd hk, (hodd k).mp hk]
    · rw [List.count_eq_zero_of_not_mem hk]
      have := mt (hodd k).mpr hk
      omega
  rw [hinv.count_eq k, List.count_append, hoddk, hkeys, wholeKeys_layout rs, List.count_append,
    (scanBuf_of_clear (fun r hr => h.proper r (mem_of_mem_buf hr)) hb).1]
  by_cases hs : seen k = true
  · rw [List.count_filter hs, Nat.even_iff]
    simp only [hs, true_implies]
    omega
  · have hz : ((strays (withSpare (log.bufs l) (layout rs).pages)).filter seen).count k = 0 := by
      refine List.count_eq_zero_of_not_mem fun hmem => hs ?_
      exact (List.mem_filter.mp hmem).2
    simp only [hs, hz, false_implies, iff_true, Bool.false_eq_true]
    omega

theorem perm_filter_ne_zero {ks ks' : List ℕ} (h : 0 ∉ ks') :
    (ks.filter fun k => k ≠ 0).Perm ks' ↔ ∀ k, k ≠ 0 → ks.count k = ks'.count k := by
  rw [List.perm_iff_count]
  refine forall_congr' fun k => ?_
  by_cases hk : k = 0
  · subst hk
    rw [List.count_eq_zero_of_not_mem h, List.count_eq_zero_of_not_mem (by simp)]
    simp
  · rw [List.count_filter (by simpa using hk)]
    simp [hk]

/-- For distinct records of one line, the drain that follows finds exactly what was
recorded if and only if the layout of the records is readable. -/
theorem getInvMappings_decodes_iff (h : Drain d l rs f log f2 log2)
    (hdist : (rs.map Rec.key).Nodup) :
    Decodes rs log2 ↔ Readable (log.bufs l) (layout rs) := by
  have hpx : ∀ x ∈ withSpare (log.bufs l) (layout rs).pages, ∀ r ∈ x.1, r.Proper :=
    fun x hx r hr => h.proper r (mem_of_mem_page (mem_withSpare hx).1 hr)
  have hzero : 0 ∉ wholeKeys rs := by
    intro hz
    obtain ⟨r, hr, hrz⟩ := List.mem_map.mp hz
    exact Rec.key_ne_zero (h.proper r (List.mem_filter.mp hr).1) hrz
  constructor
  · intro hdec
    have hb := h.bufClear hdist hdec
    have hc := h.pagesClear hb hdec
    refine ⟨hb, hc, fun k hk => (h.count_invMHash hdist hb hc k).mp ?_⟩
    exact (perm_filter_ne_zero hzero).mp hdec.1 k hk
  · intro hr
    refine ⟨(perm_filter_ne_zero hzero).mpr fun k hk =>
      (h.count_invMHash hdist hr.buf hr.pages k).mpr (hr.even k hk), ?_⟩
    obtain ⟨odd, -, -, -, hoff⟩ := h.found
    have hnil : ((withSpare (log.bufs l) (layout rs).pages).flatMap
        fun x => strayDels (tailOf x.1 x.2) x.1) = [] :=
      List.flatMap_eq_nil_iff.mpr fun x hx => (strayDels_eq_nil (hpx x hx) x.2).mpr (hr.pages x hx)
    have hfind := delsIn_findings hpx
    rw [hnil, List.append_nil, map_fst_withSpare] at hfind
    rw [(scanBuf_of_clear (fun r hr => h.proper r (mem_of_mem_buf hr)) hr.buf).2] at hoff
    rw [offDels_layout]
    exact (hoff.trans (hfind.append_left _)).trans List.perm_append_comm

/-- The header's geometry, with 256 GiB less one block per LUN. -/
def largeDevice : Device where
  build := .plus
  geo := { nchs := 8, lunsPerCh := 8, blksPerPl := 2 ^ 15 - 1, oneshotpgsPerBlk := 4,
           pgsPerOneshotpg := 8 }
  maxCached := 0
  hash := fun _ => 0

/-- The first records after initialisation. -/
theorem Drain.of_init {rs : List Rec}
    (hrs : ∀ r ∈ rs, r.Proper ∧ grain2lineid largeDevice r.ppa = .ok 0)
    (hrun : (do
      let (f1, log1) ← recordAll largeDevice rs (Flash.blank largeDevice) InvLog.init
      getInvMappings largeDevice f1 log1 0) = .ok (f2, log2)) :
    Drain largeDevice 0 rs (Flash.blank largeDevice) InvLog.init f2 log2 where
  addressable := by
    unfold Device.Addressable
    decide
  drained := ⟨rfl, rfl⟩
  words := fun _ => Nat.two_pow_pos 64
  inv_empty := rfl
  off_empty := rfl
  proper := fun r hr => (hrs r hr).1
  line := fun r hr => (hrs r hr).2
  run := hrun

theorem getInvMappings_decodes_iff_one_of_each :
    ∃ f2 log2, Drain largeDevice 0 [⟨481, 64, uintMax, 0⟩, ⟨482, 128, 16, 32⟩]
        (Flash.blank largeDevice) InvLog.init f2 log2 ∧
      (Decodes [⟨481, 64, uintMax, 0⟩, ⟨482, 128, 16, 32⟩] log2 ↔
        Readable (fun _ => 0) (layout [⟨481, 64, uintMax, 0⟩, ⟨482, 128, 16, 32⟩])) := by
  have h := @Drain.of_init _ _ [⟨481, 64, uintMax, 0⟩, ⟨482, 128, 16, 32⟩] (by decide) rfl
  exact ⟨_, _, h, getInvMappings_decodes_iff h (by decide)⟩

/-- Two whole-pair records, the second at a grain of `2^31` or more: the first one turns
up as an offset delete and both are missing from `inv_m_hash`. -/
theorem getInvMappings_loses_large_grain :
    ∃ f2 log2, Drain largeDevice 0 [⟨481, 64, uintMax, 0⟩, ⟨482, 2684272640, uintMax, 0⟩]
        (Flash.blank largeDevice) InvLog.init f2 log2 ∧
      ([⟨481, 64, uintMax, 0⟩, ⟨482, 2684272640, uintMax, 0⟩].map Rec.key).Nodup ∧
      ¬Decodes [⟨481, 64, uintMax, 0⟩, ⟨482, 2684272640, uintMax, 0⟩] log2 := by
  have h := @Drain.of_init _ _ [⟨481, 64, uintMax, 0⟩, ⟨482, 2684272640, uintMax, 0⟩]
    (by decide) rfl
  refine ⟨_, _, h, by decide, fun hdec => ?_⟩
  exact absurd hdec.1.length_eq (by decide)

/-! ### Whole-pair records with repetitions -/

/-- The records of a page that the page loop does not take for whole-pair records: those
directly followed by a record at a grain of `2^31` or more. -/
def lostInPage : List Rec → List Rec
  | r :: r' :: rs => if r'.ppa < 2 ^ 31 then lostInPage (r' :: rs) else r :: lostInPage (r' :: rs)
  | _ => []

/-- The records of a buffer that the buffer loop reads as whole-pair records, and those
it does not: a record directly followed by one at a grain of `2^31` or more is lost, and
the one that follows it too. -/
def keptInBuf : List Rec → List Rec
  | r :: r' :: rs => if r'.ppa < 2 ^ 31 then r :: keptInBuf (r' :: rs) else keptInBuf rs
  | rs => rs
def lostInBuf : List Rec → List Rec
  | r :: r' :: rs => if r'.ppa < 2 ^ 31 then lostInBuf (r' :: rs) else r :: r' :: lostInBuf rs
  | _ => []

/-- How often an index was recorded at a grain. -/
def timesIn (rs : List Rec) (lpa ppa : ℕ) : ℕ := rs.countP fun r => r.lpa = lpa ∧ r.ppa = ppa

theorem invKey_inj {lpa lpa' ppa ppa' : ℕ} (hl : lpa < 2 ^ 32) (hl' : lpa' < 2 ^ 32) :
    invKey lpa ppa = invKey lpa' ppa' ↔ lpa = lpa' ∧ ppa = ppa' := by
  unfold invKey
  omega

theorem count_key {lpa ppa : ℕ} (hp : ∀ r ∈ rs, r.Proper) (hl : lpa < 2 ^ 32) :
    (rs.map Rec.key).count (invKey lpa ppa) = timesIn rs lpa ppa := by
  rw [List.count, List.countP_map]
  refine List.countP_congr fun r hr => ?_
  have hr1 : r.lpa < 2 ^ 32 := lt_trans (hp r hr).lpa_lt (by decide)
  rw [Function.comp_apply, beq_iff_eq, decide_eq_true_eq]
  exact invKey_inj hr1 hl

section Whole

variable {p b : List Rec}

/-- What the page loop finds in a page of whole-pair records, and what it misses. -/
theorem keysIn_page_whole (hp : ∀ r ∈ p, r.Proper) (hw : ∀ r ∈ p, r.whole = true) :
    (keysIn (scanPage (wordsOf p)) ++ (lostInPage p).map Rec.key).Perm (p.map Rec.key) := by
  induction p with
  | nil => exact List.Perm.refl _
  | cons r p ih =>
    have hr := hp r List.mem_cons_self
    have ih := ih (fun x hx => hp x (List.mem_cons_of_mem _ hx))
      fun x hx => hw x (List.mem_cons_of_mem _ hx)
    rw [wordsOf_cons, scanPage_whole hr (hw r List.mem_cons_self)]
    cases p with
    | nil => exact List.Perm.refl _
    | cons r' p =>
      have htag := headTag_wordsOf_cons (hp r' (by simp)) p []
      rw [List.append_nil] at htag
      rw [htag, lostInPage]
      by_cases h31 : r'.ppa < 2 ^ 31
      · rw [if_pos h31, if_pos h31, keysIn_cons_none]
        exact ih.cons _
      · rw [if_neg h31, if_neg h31, keysIn_cons_some]
        exact List.perm_middle.trans (ih.cons _)

/-- What the buffer loop finds in a buffer of whole-pair records. -/
theorem keysIn_buf_whole (hp : ∀ r ∈ b, r.Proper) (hw : ∀ r ∈ b, r.whole = true) :
    keysIn (scanBuf (wordsOf b)) = (keptInBuf b).map Rec.key := by
  induction b using keptInBuf.induct with
  | case1 r r' b h31 ih =>
    have hr := hp r List.mem_cons_self
    have htag := headTag_wordsOf_cons (hp r' (by simp)) b []
    rw [List.append_nil, if_pos h31] at htag
    rw [wordsOf_cons, scanBuf_whole hr (hw r List.mem_cons_self) _ htag, keysIn_cons_none,
      keptInBuf, if_pos h31, List.map_cons, ih (fun x hx => hp x (List.mem_cons_of_mem _ hx))
        fun x hx => hw x (List.mem_cons_of_mem _ hx)]
  | case2 r r' b h31 ih =>
    have hr := hp r List.mem_cons_self
    have htag := headTag_wordsOf_cons (hp r' (by simp)) b []
    rw [List.append_nil, if_neg h31] at htag
    have htail : (wordsOf (r' :: b)).tail = wordsOf b := by
      rw [wordsOf_cons, Rec.words_of_whole (hw r' (by simp))]
      rfl
    rw [wordsOf_cons, scanBuf_whole_tagged hr (hw r List.mem_cons_self) _ htag, keysIn_cons_some,
      htail, keptInBuf, if_neg h31, ih (fun x hx => hp x (by simp [hx]))
        fun x hx => hw x (by simp [hx])]
  | case3 b hb =>
    cases b with
    | nil => rfl
    | cons r b =>
      cases b with
      | nil =>
        have hr := hp r List.mem_cons_self
        rw [wordsOf_cons, wordsOf_nil, scanBuf_whole hr (hw r List.mem_cons_self) [] rfl]
        rfl
      | cons r' b => exact (hb r r' b rfl).elim

theorem perm_keptInBuf (b : List Rec) : (keptInBuf b ++ lostInBuf b).Perm b := by
  induction b using keptInBuf.induct with
  | case1 r r' b h31 ih =>
    rw [keptInBuf, lostInBuf, if_pos h31, if_pos h31]
    exact ih.cons r
  | case2 r r' b h31 ih =>
    rw [keptInBuf, lostInBuf, if_neg h31, if_neg h31]
    exact List.perm_middle.trans ((List.perm_middle.trans (ih.cons r')).cons r)
  | case3 b hb =>
    cases b with
    | nil => exact List.Perm.refl _
    | cons r b =>
      cases b with
      | nil => exact List.Perm.refl _
      | cons r' b => exact (hb r r' b rfl).elim

end Whole

/-- The records that are not read as whole-pair records. -/
def lostIn (y : Layout) : List Rec := y.pages.flatMap lostInPage ++ lostInBuf y.buf

/-- The layouts of whole-pair records in which repetitions cancel: what is left in the
buffer was recorded an odd number of times, and of everything else an even number of
records is lost. -/
structure Cancelling (y : Layout) : Prop where
  kept : ∀ r ∈ keptInBuf y.buf, Odd (timesIn y.records r.lpa r.ppa)
  lost : ∀ r ∈ lostIn y, timesIn (keptInBuf y.buf) r.lpa r.ppa = 0 →
    Even (timesIn (lostIn y) r.lpa r.ppa)

/-- Pages of whole-pair records are full. -/
theorem tailOf_eq_nil (hw : ∀ r ∈ rs, r.whole = true) {p : List Rec}
    (hmem : p ∈ (layout rs).pages) (spare : LogWords) : tailOf p spare = [] := by
  obtain ⟨-, r, hr, hlt⟩ := (layout_fits rs).1 p hmem
  rw [Rec.words_of_whole (hw r hr), List.length_singleton] at hlt
  rw [tailOf, if_neg (by omega)]

theorem keysIn_pages_whole {xs : List (List Rec × LogWords)}
    (hp : ∀ x ∈ xs, ∀ r ∈ x.1, r.Proper) (hw : ∀ x ∈ xs, ∀ r ∈ x.1, r.whole = true)
    (ht : ∀ x ∈ xs, tailOf x.1 x.2 = []) :
    (keysIn (findings xs) ++ ((xs.map Prod.fst).flatMap lostInPage).map Rec.key).Perm
      ((xs.map Prod.fst).flatten.map Rec.key) := by
  induction xs with
  | nil => exact List.Perm.refl _
  | cons x xs ih =>
    have ih := ih (fun y hy => hp y (List.mem_cons_of_mem _ hy))
      (fun y hy => hw y (List.mem_cons_of_mem _ hy)) fun y hy => ht y (List.mem_cons_of_mem _ hy)
    have hx := keysIn_page_whole (hp x List.mem_cons_self) (hw x List.mem_cons_self)
    simp only [findings, List.flatMap_cons, ht x List.mem_cons_self, List.append_nil,
      keysIn_append, List.map_cons, List.flatten_cons, List.map_append] at ih ⊢
    refine List.Perm.trans ?_ (hx.append ih)
    simp only [List.append_assoc]
    refine List.Perm.append_left _ ?_
    simp only [← List.append_assoc]
    exact List.perm_append_comm.append_right _

theorem lostInPage_sublist (p : List Rec) : (lostInPage p).Sublist p := by
  induction p using lostInPage.induct with
  | case1 r r' p h31 ih =>
    rw [lostInPage, if_pos h31]
    exact ih.cons r
  | case2 r r' p h31 ih =>
    rw [lostInPage, if_neg h31]
    exact ih.cons_cons r
  | case3 p hp =>
    rw [lostInPage.eq_2 p hp]
    exact List.nil_sublist p

theorem Drain.lost_proper (h : Drain d l rs f log f2 log2) :
    ∀ r ∈ lostIn (layout rs), r.Proper := by
  intro r hr
  rcases List.mem_append.mp hr with hr | hr
  · obtain ⟨p, hp, hr⟩ := List.mem_flatMap.mp hr
    exact h.proper r (mem_of_mem_page hp ((lostInPage_sublist p).subset hr))
  · exact h.proper r (mem_of_mem_buf
      ((perm_keptInBuf _).mem_iff.mp (List.mem_append_right _ hr)))

/-- Every record is found in a page, lost in a page, kept in the buffer or lost there. -/
theorem Drain.times_eq (h : Drain d l rs f log f2 log2) (hw : ∀ r ∈ rs, r.whole = true)
    {lpa ppa : ℕ} (hl : lpa < 2 ^ 32) :
    timesIn rs lpa ppa =
      (keysIn (findings (withSpare (log.bufs l) (layout rs).pages))).count (invKey lpa ppa) +
      timesIn (lostIn (layout rs)) lpa ppa + timesIn (keptInBuf (layout rs).buf) lpa ppa := by
  have hpages := @keysIn_pages_whole (withSpare (log.bufs l) (layout rs).pages)
    (fun x hx r hr => h.proper r (mem_of_mem_page (mem_withSpare hx).1 hr))
    (fun x hx r hr => hw r (mem_of_mem_page (mem_withSpare hx).1 hr))
    fun x hx => tailOf_eq_nil hw (mem_withSpare hx).1 _
  rw [map_fst_withSpare] at hpages
  have hbuf := ((perm_keptInBuf (layout rs).buf).map Rec.key).count_eq (invKey lpa ppa)
  have hcnt := hpages.count_eq (invKey lpa ppa)
  have hall : rs.map Rec.key =
      (layout rs).pages.flatten.map Rec.key ++ (layout rs).buf.map Rec.key := by
    rw [← List.map_append]
    exact congrArg _ (records_layout rs).symm
  have hkept : ∀ r ∈ keptInBuf (layout rs).buf, r.Proper := fun r hr =>
    h.proper r (mem_of_mem_buf ((perm_keptInBuf _).mem_iff.mp (List.mem_append_left _ hr)))
  rw [← count_key h.proper hl, ← count_key h.lost_proper hl, ← count_key hkept hl, hall]
  simp only [lostIn, List.map_append, List.count_append] at hbuf hcnt ⊢
  omega

/-- For whole-pair records of one line, the drain that follows reports exactly the pairs
recorded an odd number of times if and only if repetitions cancel in the layout of the
records. -/
theorem getInvMappings_cancels_iff (h : Drain d l rs f log f2 log2)
    (hw : ∀ r ∈ rs, r.whole = true) :
    (∀ lpa ppa, lpa < 2 ^ 32 → ppa < 2 ^ 32 →
      (validMapping log2 lpa ppa = false ↔ Odd (timesIn rs lpa ppa))) ↔
    Cancelling (layout rs) := by
  obtain ⟨odd, -, hodd, hinv, -⟩ := h.found
  have hbufp : ∀ r ∈ (layout rs).buf, r.Proper := fun r hr => h.proper r (mem_of_mem_buf hr)
  have hkeptp : ∀ r ∈ keptInBuf (layout rs).buf, r.Proper := fun r hr =>
    hbufp r ((perm_keptInBuf _).mem_iff.mp (List.mem_append_left _ hr))
  rw [keysIn_buf_whole hbufp fun r hr => hw r (mem_of_mem_buf hr)] at hinv
  -- a key is reported if it is kept in the buffer or found an odd number of times in the pages
  have hvalid : ∀ lpa ppa, lpa < 2 ^ 32 → (validMapping log2 lpa ppa = false ↔
      0 < timesIn (keptInBuf (layout rs).buf) lpa ppa ∨
      (keysIn (findings (withSpare (log.bufs l) (layout rs).pages))).count (invKey lpa ppa) % 2
        = 1) := by
    intro lpa ppa hl
    rw [← count_key hkeptp hl, List.count_pos_iff, ← hodd, ← List.mem_append, ← hinv.mem_iff]
    simp [validMapping]
  constructor
  · intro hall
    constructor
    · intro r hr
      have hl : r.lpa < 2 ^ 32 := lt_trans (hkeptp r hr).lpa_lt (by decide)
      have hp : r.ppa < 2 ^ 32 := lt_trans (hkeptp r hr).ppa_lt (by decide)
      rw [records_layout, ← hall r.lpa r.ppa hl hp, hvalid r.lpa r.ppa hl]
      left
      rw [← count_key hkeptp hl, List.count_pos_iff]
      exact List.mem_map_of_mem hr
    · intro r hr hz
      have hl : r.lpa < 2 ^ 32 := lt_trans (h.lost_proper r hr).lpa_lt (by decide)
      have hp : r.ppa < 2 ^ 32 := lt_trans (h.lost_proper r hr).ppa_lt (by decide)
      have hiff := (hvalid r.lpa r.ppa hl).symm.trans (hall r.lpa r.ppa hl hp)
      rw [h.times_eq hw hl, hz, Nat.odd_iff] at hiff
      rw [Nat.even_iff]
      omega
  · intro hc lpa ppa hl hp
    have hkept : 0 < timesIn (keptInBuf (layout rs).buf) lpa ppa → Odd (timesIn rs lpa ppa) := by
      intro hpos
      obtain ⟨r, hr, heq⟩ := List.countP_pos_iff.mp hpos
      rw [decide_eq_true_eq] at heq
      have hodd := hc.kept r hr
      rwa [heq.1, heq.2, records_layout] at hodd
    have hlost : timesIn (keptInBuf (layout rs).buf) lpa ppa = 0 →
        Even (timesIn (lostIn (layout rs)) lpa ppa) := by
      intro hz
      rcases Nat.eq_zero_or_pos (timesIn (lostIn (layout rs)) lpa ppa) with h0 | hpos
      · rw [h0]
        exact Even.zero
      · obtain ⟨r, hr, heq⟩ := List.countP_pos_iff.mp hpos
        rw [decide_eq_true_eq] at heq
        have heven := hc.lost r hr
        rw [heq.1, heq.2] at heven
        exact heven hz
    rw [hvalid lpa ppa hl]
    rcases Nat.eq_zero_or_pos (timesIn (keptInBuf (layout rs).buf) lpa ppa) with h0 | hpos
    · have heven := hlost h0
      rw [Nat.even_iff] at heven
      rw [h.times_eq hw hl, h0, Nat.odd_iff]
      omega
    · exact ⟨fun _ => hkept hpos, fun _ => .inl hpos⟩

theorem getInvMappings_cancels_iff_two_records :
    ∃ f2 log2, Drain largeDevice 0 [⟨481, 64, uintMax, 0⟩, ⟨482, 128, uintMax, 0⟩]
        (Flash.blank largeDevice) InvLog.init f2 log2 ∧
      ((∀ lpa ppa, lpa < 2 ^ 32 → ppa < 2 ^ 32 →
        (validMapping log2 lpa ppa = false ↔
          Odd (timesIn [⟨481, 64, uintMax, 0⟩, ⟨482, 128, uintMax, 0⟩] lpa ppa))) ↔
      Cancelling (layout [⟨481, 64, uintMax, 0⟩, ⟨482, 128, uintMax, 0⟩])) := by
  have h := @Drain.of_init _ _ [⟨481, 64, uintMax, 0⟩, ⟨482, 128, uintMax, 0⟩] (by decide) rfl
  exact ⟨_, _, h, getInvMappings_cancels_iff h (by decide)⟩

/-- A pair recorded twice in the buffer is still reported. -/
theorem getInvMappings_reports_duplicate :
    ∃ f2 log2, Drain largeDevice 0 [⟨481, 64, uintMax, 0⟩, ⟨481, 64, uintMax, 0⟩]
        (Flash.blank largeDevice) InvLog.init f2 log2 ∧
      (∀ r ∈ ([⟨481, 64, uintMax, 0⟩, ⟨481, 64, uintMax, 0⟩] : List Rec), r.whole = true) ∧
      ¬(validMapping log2 481 64 = false ↔
        Odd (timesIn [⟨481, 64, uintMax, 0⟩, ⟨481, 64, uintMax, 0⟩] 481 64)) := by
  have h := @Drain.of_init _ _ [⟨481, 64, uintMax, 0⟩, ⟨481, 64, uintMax, 0⟩] (by decide) rfl
  exact ⟨_, _, h, by decide, by decide⟩

end InvLog

end Virtkv
