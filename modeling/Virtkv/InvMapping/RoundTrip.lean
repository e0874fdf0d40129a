import Mathlib.Data.List.Chain
import Virtkv.InvMapping.Decode

/-!
# What decoding finds of a run of records

The records of a page or a buffer against what the decoding loops find in its words.
The page loop looks at the marker of an offset delete a second time, as if it were a
record, and both loops take a record at a grain of `2^31` or more for the marker of
the record before it.
-/

namespace Virtkv

open Outcome

namespace Rec

variable {r : Rec}

/-- The offset word of an offset delete, as it is kept in `off_del_hash`. -/
def offWord (r : Rec) : ℕ := r.off * 2 ^ 32 + r.len

theorem key_lt (h : r.Proper) : r.key < 2 ^ 64 := by
  have h1 := h.lpa_lt
  have h2 := h.ppa_lt
  unfold key invKey
  simp only [uintMax] at h1 h2
  omega

theorem key_mod (h : r.Proper) : r.key % 2 ^ 32 = r.lpa := by
  have h1 := h.lpa_lt
  unfold key invKey
  simp only [uintMax] at h1
  omega

theorem key_mod_ne (h : r.Proper) : r.key % 2 ^ 32 ≠ uintMax := by
  rw [key_mod h]
  exact Nat.ne_of_lt h.lpa_lt

theorem key_ne_zero (h : r.Proper) : r.key ≠ 0 := by
  have h1 := h.lpa_gt
  unfold key invKey
  omega

/-- A record is taken for a marker if its grain is `2^31` or more. -/
theorem tagOf_key (h : r.Proper) :
    tagOf r.key = if r.ppa < 2 ^ 31 then none else some (r.key % 2 ^ 63) := by
  have h1 := h.lpa_lt
  have h2 := h.ppa_lt
  simp only [uintMax] at h1 h2
  unfold tagOf key invKey
  split
  · rw [if_neg (by omega)]
  · rw [if_pos (by omega)]

theorem whole_eq_true : r.whole = true ↔ r.off = uintMax := by
  simp [whole]

theorem words_of_whole (h : r.whole = true) : r.words = [r.key] := by
  simp [words, h]

theorem words_of_not_whole (h : r.whole = false) : r.words = [r.key, r.marker] := by
  simp [words, h]

theorem off_lt_of_not_whole (hp : r.Proper) (h : r.whole = false) : r.off < 2 ^ 31 := by
  rcases hp.off_lt with ho | ho
  · rw [← whole_eq_true, h] at ho
    cases ho
  · exact ho

theorem marker_eq (hp : r.Proper) (h : r.whole = false) : r.marker = 2 ^ 63 + r.offWord := by
  have ho := off_lt_of_not_whole hp h
  have hl := hp.len_lt
  have hlt : r.offWord < 2 ^ 63 := by
    unfold offWord
    omega
  change r.offWord ||| 2 ^ 63 = _
  rw [Nat.or_comm]
  simpa using (Nat.two_pow_add_eq_or_of_lt hlt 1).symm

theorem tagOf_marker (hp : r.Proper) (h : r.whole = false) : tagOf r.marker = some r.offWord := by
  have ho := off_lt_of_not_whole hp h
  have hl := hp.len_lt
  rw [marker_eq hp h]
  unfold tagOf offWord
  rw [if_pos (by omega)]
  congr 1
  omega

theorem marker_mod (hp : r.Proper) (h : r.whole = false) : r.marker % 2 ^ 32 = r.len := by
  have hl := hp.len_lt
  rw [marker_eq hp h]
  unfold offWord
  omega

theorem marker_lt (hp : r.Proper) (h : r.whole = false) : r.marker < 2 ^ 64 := by
  have ho := off_lt_of_not_whole hp h
  have hl := hp.len_lt
  rw [marker_eq hp h]
  unfold offWord
  omega

end Rec

/-- The keys of the whole-pair records, the offset deletes, and the markers of the
offset deletes. -/
def wholeKeys (rs : List Rec) : List ℕ := (rs.filter Rec.whole).map Rec.key
def offDels (rs : List Rec) : List (ℕ × ℕ) :=
  (rs.filter fun r => !r.whole).map fun r => (r.key, r.offWord)
def markers (rs : List Rec) : List ℕ := (rs.filter fun r => !r.whole).map Rec.marker

/-- Words the loops look at: those whose lower half is not the empty index. -/
def seen (w : ℕ) : Bool := w % 2 ^ 32 ≠ uintMax

theorem seen_iff {w : ℕ} : seen w = true ↔ w % 2 ^ 32 ≠ uintMax := decide_eq_true_iff

variable {rs p b : List Rec}

theorem lt_of_mem_wordsOf (hp : ∀ r ∈ rs, r.Proper) {w : ℕ} (hw : w ∈ wordsOf rs) :
    w < 2 ^ 64 := by
  obtain ⟨r, hr, hw⟩ := List.mem_flatMap.mp hw
  cases hwh : r.whole with
  | true =>
    rw [Rec.words_of_whole hwh, List.mem_singleton] at hw
    rw [hw]
    exact Rec.key_lt (hp r hr)
  | false =>
    rw [Rec.words_of_not_whole hwh] at hw
    simp only [List.mem_cons, List.not_mem_nil, or_false] at hw
    rcases hw with rfl | rfl
    · exact Rec.key_lt (hp r hr)
    · exact Rec.marker_lt (hp r hr) hwh

/-! ### The page loop -/

/-- What the page loop finds in the words of one record, before the words `ws`. -/
theorem scanPage_whole {r : Rec} (hp : r.Proper) (h : r.whole = true) (ws : List ℕ) :
    scanPage (r.words ++ ws) = (r.key, headTag ws) :: scanPage ws := by
  rw [Rec.words_of_whole h, List.singleton_append, scanPage, if_neg (Rec.key_mod_ne hp)]

theorem scanPage_offDel {r : Rec} (hp : r.Proper) (h : r.whole = false) (ws : List ℕ) :
    scanPage (r.words ++ ws) = (r.key, some r.offWord) ::
      if r.len = uintMax then scanPage ws else (r.marker, headTag ws) :: scanPage ws := by
  rw [Rec.words_of_not_whole h, List.cons_append, List.cons_append, List.nil_append, scanPage,
    if_neg (Rec.key_mod_ne hp), headTag, Rec.tagOf_marker hp h, scanPage, Rec.marker_mod hp h]

/-- The page loop reads the last word of the record as a record of its own. -/
def Rec.open (r : Rec) : Bool := r.whole || decide (r.len ≠ uintMax)

/-- Offset deletes the page loop finds although they were not recorded: one for each
record whose last word is read as a record and is followed by a tagged word. -/
def strayDels (tail : List ℕ) : List Rec → List (ℕ × ℕ)
  | [] => []
  | r :: rs =>
    (if r.open then
      (headTag (wordsOf rs ++ tail)).toList.map ((if r.whole then r.key else r.marker), ·)
    else []) ++ strayDels tail rs

theorem delsIn_scanPage {tail : List ℕ} (htail : tail.length ≤ 1) (hp : ∀ r ∈ p, r.Proper) :
    (delsIn (scanPage (wordsOf p ++ tail))).Perm (offDels p ++ strayDels tail p) := by
  induction p with
  | nil =>
    match tail, htail with
    | [], _ => exact List.Perm.refl _
    | [w], _ =>
      simp only [wordsOf_nil, List.nil_append, scanPage, headTag]
      split <;> exact List.Perm.refl _
  | cons r p ih =>
    have ih := ih fun x hx => hp x (List.mem_cons_of_mem _ hx)
    have hr := hp r List.mem_cons_self
    rw [wordsOf_cons, List.append_assoc]
    cases hw : r.whole with
    | true =>
      rw [scanPage_whole hr hw]
      have hdel : offDels (r :: p) = offDels p := by simp [offDels, hw]
      rw [hdel, strayDels]
      simp only [Rec.open, hw, Bool.true_or, if_true]
      cases headTag (wordsOf p ++ tail) with
      | none => exact ih
      | some o => exact (ih.cons _).trans List.perm_middle.symm
    | false =>
      rw [scanPage_offDel hr hw]
      have hdel : offDels (r :: p) = (r.key, r.offWord) :: offDels p := by simp [offDels, hw]
      rw [hdel, strayDels, delsIn_cons_some]
      refine List.Perm.cons _ ?_
      by_cases hlen : r.len = uintMax
      · simpa [Rec.open, hw, hlen] using ih
      · simp only [Rec.open, hw, hlen, Bool.false_or, ne_eq, not_false_eq_true, decide_true,
          if_true, if_false, Bool.false_eq_true]
        cases headTag (wordsOf p ++ tail) with
        | none => exact ih
        | some o => exact (ih.cons _).trans List.perm_middle.symm

/-- Without stray offset deletes the page loop finds the whole-pair keys and, besides,
the markers and what lies behind the records. -/
theorem keysIn_scanPage {tail : List ℕ} (htail : tail.length ≤ 1) (hp : ∀ r ∈ p, r.Proper)
    (hnone : strayDels tail p = []) :
    (keysIn (scanPage (wordsOf p ++ tail))).Perm
      (wholeKeys p ++ (markers p ++ tail).filter seen) := by
  induction p with
  | nil =>
    match tail, htail with
    | [], _ => exact List.Perm.refl _
    | [w], _ =>
      simp only [wordsOf_nil, List.nil_append, scanPage, headTag, wholeKeys, markers,
        List.filter_nil, List.map_nil]
      by_cases hw : w % 2 ^ 32 = uintMax
      · rw [if_pos hw, List.filter_cons_of_neg (fun h => seen_iff.mp h hw)]
        exact List.Perm.refl _
      · rw [if_neg hw, List.filter_cons_of_pos (seen_iff.mpr hw)]
        exact List.Perm.refl _
  | cons r p ih =>
    have hr := hp r List.mem_cons_self
    rw [strayDels, List.append_eq_nil_iff] at hnone
    have ih := ih (fun x hx => hp x (List.mem_cons_of_mem _ hx)) hnone.2
    rw [wordsOf_cons, List.append_assoc]
    have htag : r.open = true → headTag (wordsOf p ++ tail) = none := by
      intro ho
      have h1 := hnone.1
      rw [if_pos ho, List.map_eq_nil_iff] at h1
      cases hh : headTag (wordsOf p ++ tail) with
      | none => rfl
      | some o => simp [hh] at h1
    cases hw : r.whole with
    | true =>
      have hk : wholeKeys (r :: p) = r.key :: wholeKeys p := by simp [wholeKeys, hw]
      have hm : markers (r :: p) = markers p := by simp [markers, hw]
      rw [scanPage_whole hr hw, htag (by simp [Rec.open, hw]), keysIn_cons_none, hk, hm]
      exact ih.cons _
    | false =>
      have hk : wholeKeys (r :: p) = wholeKeys p := by simp [wholeKeys, hw]
      have hm : markers (r :: p) = r.marker :: markers p := by simp [markers, hw]
      rw [scanPage_offDel hr hw, keysIn_cons_some, hk, hm, List.cons_append]
      have hmod := Rec.marker_mod hr hw
      by_cases hlen : r.len = uintMax
      · rw [if_pos hlen, List.filter_cons_of_neg (fun h => seen_iff.mp h (hmod.trans hlen))]
        exact ih
      · rw [if_neg hlen, htag (by simp [Rec.open, hlen]), keysIn_cons_none,
          List.filter_cons_of_pos (seen_iff.mpr (by rw [hmod]; exact hlen))]
        exact (ih.cons _).trans List.perm_middle.symm

/-! ### The buffer loop -/

theorem scanBuf_whole {r : Rec} (hp : r.Proper) (h : r.whole = true) (ws : List ℕ)
    (htag : headTag ws = none) : scanBuf (r.words ++ ws) = (r.key, none) :: scanBuf ws := by
  rw [Rec.words_of_whole h, List.singleton_append]
  cases ws with
  | nil => simp only [scanBuf, if_neg (Rec.key_mod_ne hp)]
  | cons v ws =>
    rw [headTag] at htag
    rw [scanBuf, if_neg (Rec.key_mod_ne hp), htag]

theorem scanBuf_offDel {r : Rec} (hp : r.Proper) (h : r.whole = false) (ws : List ℕ) :
    scanBuf (r.words ++ ws) = (r.key, some r.offWord) :: scanBuf ws := by
  rw [Rec.words_of_not_whole h, List.cons_append, List.cons_append, List.nil_append, scanBuf,
    if_neg (Rec.key_mod_ne hp), Rec.tagOf_marker hp h]

theorem scanBuf_whole_tagged {r : Rec} (hp : r.Proper) (h : r.whole = true) (ws : List ℕ) {o : ℕ}
    (htag : headTag ws = some o) :
    scanBuf (r.words ++ ws) = (r.key, some o) :: scanBuf ws.tail := by
  rw [Rec.words_of_whole h, List.singleton_append]
  cases ws with
  | nil => cases htag
  | cons v ws =>
    rw [headTag] at htag
    rw [scanBuf, if_neg (Rec.key_mod_ne hp), htag, List.tail_cons]

/-- In a buffer no whole-pair record is directly followed by one at a grain of `2^31` or
more. -/
def BufClear (b : List Rec) : Prop := b.IsChain fun r r' => r.whole = true → r'.ppa < 2 ^ 31

theorem headTag_wordsOf_cons {r : Rec} (hp : r.Proper) (rs : List Rec) (ws : List ℕ) :
    headTag (wordsOf (r :: rs) ++ ws) = if r.ppa < 2 ^ 31 then none else some (r.key % 2 ^ 63) := by
  rw [← Rec.tagOf_key hp, wordsOf_cons, Rec.words]
  split <;> rfl

theorem scanBuf_of_clear (hp : ∀ r ∈ b, r.Proper) (hb : BufClear b) :
    keysIn (scanBuf (wordsOf b)) = wholeKeys b ∧ delsIn (scanBuf (wordsOf b)) = offDels b := by
  induction b with
  | nil => exact ⟨rfl, rfl⟩
  | cons r b ih =>
    have hr := hp r List.mem_cons_self
    obtain ⟨ihk, ihd⟩ := ih (fun x hx => hp x (List.mem_cons_of_mem _ hx)) hb.tail
    rw [wordsOf_cons]
    cases hw : r.whole with
    | true =>
      have htag : headTag (wordsOf b) = none := by
        cases b with
        | nil => rfl
        | cons r' b =>
          have h31 := (List.isChain_cons_cons.mp hb).1 hw
          have htag := headTag_wordsOf_cons (hp r' (by simp)) b []
          rwa [List.append_nil, if_pos h31] at htag
      rw [scanBuf_whole hr hw _ htag, keysIn_cons_none, delsIn_cons_none, ihk, ihd]
      simp [wholeKeys, offDels, hw]
    | false =>
      rw [scanBuf_offDel hr hw, keysIn_cons_some, delsIn_cons_some, ihk, ihd]
      simp [wholeKeys, offDels, hw]

/-- Otherwise the key of a whole-pair record turns up as an offset delete. -/
theorem exists_whole_of_not_clear (hp : ∀ r ∈ b, r.Proper) (hb : ¬BufClear b) :
    ∃ r ∈ b, r.whole = true ∧ ∃ o, (r.key, o) ∈ delsIn (scanBuf (wordsOf b)) := by
  induction b with
  | nil => exact absurd List.isChain_nil hb
  | cons r b ih =>
    have hr := hp r List.mem_cons_self
    have hpb : ∀ x ∈ b, x.Proper := fun x hx => hp x (List.mem_cons_of_mem _ hx)
    rw [wordsOf_cons]
    cases hw : r.whole with
    | true =>
      cases htag : headTag (wordsOf b) with
      | none =>
        have hb' : ¬BufClear b := by
          intro hc
          apply hb
          cases b with
          | nil => exact List.isChain_singleton r
          | cons r' b =>
            refine List.isChain_cons_cons.mpr ⟨fun _ => ?_, hc⟩
            by_contra h31
            have htag' := headTag_wordsOf_cons (hpb r' List.mem_cons_self) b []
            rw [List.append_nil, if_neg h31, htag] at htag'
            cases htag'
        obtain ⟨x, hx, hxw, o, ho⟩ := ih hpb hb'
        rw [scanBuf_whole hr hw _ htag]
        exact ⟨x, List.mem_cons_of_mem _ hx, hxw, o, ho⟩
      | some o =>
        rw [scanBuf_whole_tagged hr hw _ htag]
        exact ⟨r, List.mem_cons_self, hw, o, List.mem_cons_self⟩
    | false =>
      have hb' : ¬BufClear b := by
        intro hc
        apply hb
        cases b with
        | nil => exact List.isChain_singleton r
        | cons r' b =>
          exact List.isChain_cons_cons.mpr ⟨fun h => (by rw [hw] at h; cases h), hc⟩
      obtain ⟨x, hx, hxw, o, ho⟩ := ih hpb hb'
      rw [scanBuf_offDel hr hw]
      exact ⟨x, List.mem_cons_of_mem _ hx, hxw, o, List.mem_cons_of_mem _ ho⟩

/-! ### Pages with what lies behind their records -/

/-- The uncovered last word of a flushed page, if there is one. -/
def tailOf (p : List Rec) (spare : LogWords) : List ℕ :=
  if (wordsOf p).length < invPageEntries then [spare (invPageEntries - 1)] else []

theorem tailOf_length_le (p : List Rec) (spare : LogWords) : (tailOf p spare).length ≤ 1 := by
  unfold tailOf
  split <;> simp

/-- In a flushed page no record whose last word is read as a record is directly followed
by a word with the top bit set. -/
structure PageClear (p : List Rec) (spare : LogWords) : Prop where
  chain : p.IsChain fun r r' => r.open = true → r'.ppa < 2 ^ 31
  last : ∀ r ∈ p.getLast?, r.open = true → ∀ w ∈ tailOf p spare, w / 2 ^ 63 % 2 ≠ 1

theorem headTag_tail_eq_none {tail : List ℕ} (htail : tail.length ≤ 1) :
    headTag tail = none ↔ ∀ w ∈ tail, w / 2 ^ 63 % 2 ≠ 1 := by
  match tail, htail with
  | [], _ => simp [headTag]
  | [w], _ => simp [headTag, tagOf]

theorem strayDels_eq_nil_iff {tail : List ℕ} (htail : tail.length ≤ 1)
    (hp : ∀ r ∈ p, r.Proper) :
    strayDels tail p = [] ↔
      (p.IsChain fun r r' => r.open = true → r'.ppa < 2 ^ 31) ∧
      ∀ r ∈ p.getLast?, r.open = true → ∀ w ∈ tail, w / 2 ^ 63 % 2 ≠ 1 := by
  induction p with
  | nil => simp [strayDels]
  | cons r p ih =>
    have ih := ih fun x hx => hp x (List.mem_cons_of_mem _ hx)
    have hhead : (if r.open then
        (headTag (wordsOf p ++ tail)).toList.map ((if r.whole then r.key else r.marker), ·)
        else []) = [] ↔ (r.open = true → headTag (wordsOf p ++ tail) = none) := by
      by_cases ho : r.open = true
      · cases headTag (wordsOf p ++ tail) <;> simp [ho]
      · simp [ho]
    rw [strayDels, List.append_eq_nil_iff, hhead, ih]
    cases p with
    | nil =>
      rw [wordsOf_nil, List.nil_append, headTag_tail_eq_none htail]
      simp
    | cons r' p =>
      rw [headTag_wordsOf_cons (hp r' (by simp)), List.isChain_cons_cons, List.getLast?_cons_cons]
      by_cases h31 : r'.ppa < 2 ^ 31
      · simp only [h31, if_true, implies_true, true_and]
      · simp only [h31, if_false, reduceCtorEq, imp_false, and_assoc]

theorem strayDels_eq_nil (hp : ∀ r ∈ p, r.Proper) (spare : LogWords) :
    strayDels (tailOf p spare) p = [] ↔ PageClear p spare := by
  rw [strayDels_eq_nil_iff (tailOf_length_le p spare) hp]
  exact ⟨fun h => ⟨h.1, h.2⟩, fun h => ⟨h.chain, h.last⟩⟩

section Pages

variable {xs : List (List Rec × LogWords)}

/-- What the page loop finds in the given pages. -/
def findings (xs : List (List Rec × LogWords)) : List (ℕ × Option ℕ) :=
  xs.flatMap fun x => scanPage (wordsOf x.1 ++ tailOf x.1 x.2)

/-- Words of flushed pages that are read as records without being any. -/
def strays (xs : List (List Rec × LogWords)) : List ℕ :=
  xs.flatMap fun x => markers x.1 ++ tailOf x.1 x.2

theorem offDels_append (rs rs' : List Rec) : offDels (rs ++ rs') = offDels rs ++ offDels rs' := by
  simp [offDels]

theorem wholeKeys_append (rs rs' : List Rec) :
    wholeKeys (rs ++ rs') = wholeKeys rs ++ wholeKeys rs' := by
  simp [wholeKeys]

theorem delsIn_findings (hp : ∀ x ∈ xs, ∀ r ∈ x.1, r.Proper) :
    (delsIn (findings xs)).Perm
      (offDels (xs.map Prod.fst).flatten ++
        xs.flatMap fun x => strayDels (tailOf x.1 x.2) x.1) := by
  induction xs with
  | nil => exact List.Perm.refl _
  | cons x xs ih =>
    have ih := ih fun y hy => hp y (List.mem_cons_of_mem _ hy)
    have hx := delsIn_scanPage (tailOf_length_le x.1 x.2) (hp x List.mem_cons_self)
    simp only [findings, List.flatMap_cons, delsIn_append, List.map_cons, List.flatten_cons,
      offDels_append] at ih ⊢
    refine (hx.append ih).trans ?_
    rw [List.append_assoc, List.append_assoc]
    refine List.Perm.append_left _ ?_
    rw [← List.append_assoc, ← List.append_assoc]
    exact List.perm_append_comm.append_right _

theorem keysIn_findings (hp : ∀ x ∈ xs, ∀ r ∈ x.1, r.Proper)
    (hc : ∀ x ∈ xs, PageClear x.1 x.2) :
    (keysIn (findings xs)).Perm
      (wholeKeys (xs.map Prod.fst).flatten ++ (strays xs).filter seen) := by
  induction xs with
  | nil => exact List.Perm.refl _
  | cons x xs ih =>
    have ih := ih (fun y hy => hp y (List.mem_cons_of_mem _ hy))
      fun y hy => hc y (List.mem_cons_of_mem _ hy)
    have hpx := hp x List.mem_cons_self
    have hx := keysIn_scanPage (tailOf_length_le x.1 x.2) hpx
      ((strayDels_eq_nil hpx x.2).mpr (hc x List.mem_cons_self))
    simp only [findings, strays, List.flatMap_cons, keysIn_append, List.map_cons,
      List.flatten_cons, wholeKeys_append, List.filter_append] at ih hx ⊢
    refine (hx.append ih).trans ?_
    simp only [List.append_assoc]
    refine List.Perm.append_left _ ?_
    simp only [← List.append_assoc]
    refine List.Perm.append_right _ ?_
    rw [List.append_assoc (wholeKeys _)]
    exact List.perm_append_comm

end Pages

end Virtkv
