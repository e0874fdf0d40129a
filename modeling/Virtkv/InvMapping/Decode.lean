import Virtkv.InvMapping.Layout

/-!
# What the two decoding loops read

Both loops of `__get_inv_mappings` read a sequence of words; a word counts as an
offset delete if the next word has its top bit set. The page loop looks at every
word, the buffer loop steps over the marker of an offset delete. `scanPage` and
`scanBuf` list what the loops find, and `getInvMappings_eq_ok` says what the hash
tables hold afterwards.
-/

namespace Virtkv

open Outcome

/-- The offset word in a word with the top bit set. -/
def tagOf (w : ℕ) : Option ℕ := if w / 2 ^ 63 % 2 = 1 then some (w % 2 ^ 63) else none

/-- The tag that follows a word. -/
def headTag : List ℕ → Option ℕ
  | [] => none
  | w :: _ => tagOf w

/-- What the page loop finds: keys, each with the offset word it takes for its own. -/
def scanPage : List ℕ → List (ℕ × Option ℕ)
  | [] => []
  | w :: ws => if w % 2 ^ 32 = uintMax then scanPage ws else (w, headTag ws) :: scanPage ws

/-- What the buffer loop finds. -/
def scanBuf : List ℕ → List (ℕ × Option ℕ)
  | [] => []
  | [w] => if w % 2 ^ 32 = uintMax then [] else [(w, none)]
  | w :: v :: ws =>
    if w % 2 ^ 32 = uintMax then scanBuf (v :: ws)
    else
      match tagOf v with
      | none => (w, none) :: scanBuf (v :: ws)
      | some o => (w, some o) :: scanBuf ws

/-- The keys found without an offset word, and the offset deletes found. -/
def keysIn (es : List (ℕ × Option ℕ)) : List ℕ :=
  es.filterMap fun e => if e.2 = none then some e.1 else none
def delsIn (es : List (ℕ × Option ℕ)) : List (ℕ × ℕ) := es.filterMap fun e => e.2.map (e.1, ·)

@[simp] theorem keysIn_nil : keysIn [] = [] := rfl
@[simp] theorem delsIn_nil : delsIn [] = [] := rfl

@[simp] theorem keysIn_cons_none (k : ℕ) (es : List (ℕ × Option ℕ)) :
    keysIn ((k, none) :: es) = k :: keysIn es := rfl
@[simp] theorem delsIn_cons_none (k : ℕ) (es : List (ℕ × Option ℕ)) :
    delsIn ((k, none) :: es) = delsIn es := rfl
@[simp] theorem keysIn_cons_some (k o : ℕ) (es : List (ℕ × Option ℕ)) :
    keysIn ((k, some o) :: es) = keysIn es := rfl
@[simp] theorem delsIn_cons_some (k o : ℕ) (es : List (ℕ × Option ℕ)) :
    delsIn ((k, some o) :: es) = (k, o) :: delsIn es := rfl

@[simp] theorem keysIn_append (es es' : List (ℕ × Option ℕ)) :
    keysIn (es ++ es') = keysIn es ++ keysIn es' := by
  simp [keysIn]
@[simp] theorem delsIn_append (es es' : List (ℕ × Option ℕ)) :
    delsIn (es ++ es') = delsIn es ++ delsIn es' := by
  simp [delsIn]

theorem perm_keysIn {es es' : List (ℕ × Option ℕ)} (h : es.Perm es') :
    (keysIn es).Perm (keysIn es') := h.filterMap _

theorem perm_delsIn {es es' : List (ℕ × Option ℕ)} (h : es.Perm es') :
    (delsIn es).Perm (delsIn es') := h.filterMap _

namespace InvLog

variable {d : Device} {f f' : Flash} {log log' : InvLog} {l : ℕ}

/-- What the page loop and the buffer loop do with a finding. -/
def pageStep (log : InvLog) : ℕ × Option ℕ → InvLog
  | (k, none) => toggle k log
  | (k, some o) => addOffDel k o log
def bufStep (log : InvLog) : ℕ × Option ℕ → InvLog
  | (k, none) => addInv k log
  | (k, some o) => addOffDel k o log

/-- The words `j, …, j + n - 1` of a page. -/
def wordsFrom (w : LogWords) (j n : ℕ) : List ℕ := (List.range' j n).map w

theorem wordsFrom_succ (w : LogWords) (j n : ℕ) :
    wordsFrom w j (n + 1) = w j :: wordsFrom w (j + 1) n := rfl

theorem recKey_eq {w : LogWords} {j : ℕ} (h : w j < 2 ^ 64) : recKey w j = w j := by
  unfold recKey recLpa invKey
  omega

/-- The tag that follows word `j` is the first one of the remaining words. -/
theorem tagged_eq (w : LogWords) (j n : ℕ) :
    tagged w (j + (n + 1)) j = headTag (wordsFrom w (j + 1) n) := by
  cases n with
  | zero => simp [tagged, headTag, wordsFrom]
  | succ n =>
    simp only [tagged, wordsFrom_succ, headTag, tagOf]
    simp

theorem decodePage_eq {w : LogWords} (hw : ∀ j, w j < 2 ^ 64) (n j : ℕ) (log : InvLog) :
    decodePage w (j + n) n j log = (scanPage (wordsFrom w j n)).foldl pageStep log := by
  induction n generalizing j log with
  | zero => rfl
  | succ n ih =>
    have hcnt : j + (n + 1) = j + 1 + n := by omega
    rw [decodePage, wordsFrom_succ, scanPage, recKey_eq (hw j), tagged_eq]
    unfold recLpa
    split
    · rw [hcnt, ih]
    · rw [List.foldl_cons]
      cases htag : headTag (wordsFrom w (j + 1) n) with
      | none =>
        dsimp only
        rw [hcnt, ih]
        rfl
      | some o =>
        dsimp only
        rw [hcnt, ih]
        rfl

theorem decodeBuf_eq {w : LogWords} (hw : ∀ j, w j < 2 ^ 64) (fuel n j : ℕ) (hn : n ≤ fuel)
    (log : InvLog) :
    decodeBuf w (j + n) fuel j log = (scanBuf (wordsFrom w j n)).foldl bufStep log := by
  induction fuel generalizing n j log with
  | zero =>
    obtain rfl : n = 0 := by omega
    rfl
  | succ fuel ih =>
    cases n with
    | zero => simp [decodeBuf, wordsFrom, scanBuf]
    | succ n =>
      have hcnt : j + (n + 1) = j + 1 + n := by omega
      rw [decodeBuf, if_neg (by omega), wordsFrom_succ, recKey_eq (hw j), tagged_eq]
      unfold recLpa
      cases n with
      | zero =>
        simp only [wordsFrom, List.range'_zero, List.map_nil, scanBuf, headTag]
        split
        · simpa [wordsFrom, scanBuf] using ih 0 (j + 1) (by omega) log
        · simpa [wordsFrom, scanBuf, bufStep] using ih 0 (j + 1) (by omega) (addInv (w j) log)
      | succ n =>
        rw [wordsFrom_succ, scanBuf, headTag]
        split
        · rw [hcnt, ih (n + 1) (j + 1) (by omega)]
          rfl
        · cases htag : tagOf (w (j + 1)) with
          | none =>
            dsimp only
            rw [hcnt, ih (n + 1) (j + 1) (by omega)]
            rfl
          | some o =>
            have hcnt' : j + (n + 1 + 1) = j + 2 + n := by omega
            dsimp only
            rw [hcnt', ih n (j + 2) (by omega)]
            rfl

/-! ### The tables after a loop -/

theorem toggle_nodup {k : ℕ} (h : log.invMHash.Nodup) : (toggle k log).invMHash.Nodup := by
  unfold toggle
  split
  · exact h.erase k
  · rename_i hk
    exact List.nodup_cons.mpr ⟨hk, h⟩

theorem mem_toggle {k k' : ℕ} (h : log.invMHash.Nodup) :
    k' ∈ (toggle k log).invMHash ↔ if k' = k then k' ∉ log.invMHash else k' ∈ log.invMHash := by
  unfold toggle
  split
  · rename_i hk
    by_cases hkk : k' = k
    · subst hkk
      simp [h.mem_erase_iff, hk]
    · simp [h.mem_erase_iff, hkk]
  · rename_i hk
    by_cases hkk : k' = k
    · subst hkk
      simp [hk]
    · simp [hkk]

/-- After the page loops a key is in the table if it was found an odd number of
times. -/
theorem foldl_pageStep (es : List (ℕ × Option ℕ)) (log : InvLog) (h : log.invMHash.Nodup) :
    (es.foldl pageStep log).invMHash.Nodup ∧
    (∀ k, k ∈ (es.foldl pageStep log).invMHash ↔
      if (keysIn es).count k % 2 = 1 then k ∉ log.invMHash else k ∈ log.invMHash) ∧
    (es.foldl pageStep log).offDelHash.Perm (delsIn es ++ log.offDelHash) := by
  induction es generalizing log with
  | nil => exact ⟨h, by simp, List.Perm.refl _⟩
  | cons e es ih =>
    obtain ⟨k, o⟩ := e
    cases o with
    | none =>
      obtain ⟨hnd, hmem, hoff⟩ := ih (toggle k log) (toggle_nodup h)
      refine ⟨hnd, fun k' => ?_, ?_⟩
      · rw [List.foldl_cons, pageStep, hmem k', mem_toggle h, keysIn_cons_none]
        by_cases hk : k' = k
        · subst hk
          simp only [if_true, List.count_cons_self]
          by_cases hodd : (keysIn es).count k' % 2 = 1
          · rw [if_pos hodd, if_neg (by omega), not_not]
          · rw [if_neg hodd, if_pos (by omega)]
        · rw [if_neg hk, List.count_cons_of_ne (Ne.symm hk)]
      · refine hoff.trans ?_
        unfold toggle
        split <;> exact List.Perm.refl _
    | some o =>
      obtain ⟨hnd, hmem, hoff⟩ := ih (addOffDel k o log) h
      refine ⟨hnd, hmem, hoff.trans ?_⟩
      rw [delsIn_cons_some]
      exact List.perm_middle

theorem foldl_bufStep (es : List (ℕ × Option ℕ)) (log : InvLog) :
    (es.foldl bufStep log).invMHash.Perm (keysIn es ++ log.invMHash) ∧
    (es.foldl bufStep log).offDelHash.Perm (delsIn es ++ log.offDelHash) := by
  induction es generalizing log with
  | nil => exact ⟨List.Perm.refl _, List.Perm.refl _⟩
  | cons e es ih =>
    obtain ⟨k, o⟩ := e
    cases o with
    | none =>
      obtain ⟨hinv, hoff⟩ := ih (addInv k log)
      exact ⟨hinv.trans List.perm_middle, hoff⟩
    | some o =>
      obtain ⟨hinv, hoff⟩ := ih (addOffDel k o log)
      exact ⟨hinv, hoff.trans List.perm_middle⟩

/-- A finding goes to the tables only. -/
theorem pageStep_frame (log : InvLog) (e : ℕ × Option ℕ) :
    (pageStep log e).bufs = log.bufs ∧ (pageStep log e).offs = log.offs ∧
      (pageStep log e).xa = log.xa := by
  obtain ⟨k, o⟩ := e
  cases o with
  | none =>
    unfold pageStep toggle
    dsimp only
    split <;> exact ⟨rfl, rfl, rfl⟩
  | some o => exact ⟨rfl, rfl, rfl⟩

theorem pageStep_xa (log : InvLog) (e : ℕ × Option ℕ) (xa : List (ℕ × LogWords)) :
    pageStep { log with xa := xa } e = { pageStep log e with xa := xa } := by
  obtain ⟨k, o⟩ := e
  cases o with
  | none =>
    unfold pageStep toggle
    dsimp only
    split <;> rfl
  | some o => rfl

theorem foldl_pageStep_xa (es : List (ℕ × Option ℕ)) (log : InvLog) (xa : List (ℕ × LogWords)) :
    es.foldl pageStep { log with xa := xa } = { es.foldl pageStep log with xa := xa } := by
  induction es generalizing log with
  | nil => rfl
  | cons e es ih => rw [List.foldl_cons, List.foldl_cons, pageStep_xa, ih]

theorem foldl_pageStep_frame (es : List (ℕ × Option ℕ)) (log : InvLog) :
    (es.foldl pageStep log).bufs = log.bufs ∧ (es.foldl pageStep log).offs = log.offs ∧
      (es.foldl pageStep log).xa = log.xa := by
  induction es generalizing log with
  | nil => exact ⟨rfl, rfl, rfl⟩
  | cons e es ih =>
    obtain ⟨hb, ho, hx⟩ := ih (pageStep log e)
    obtain ⟨hb', ho', hx'⟩ := pageStep_frame log e
    exact ⟨hb.trans hb', ho.trans ho', hx.trans hx'⟩

/-! ### `__get_inv_mappings` -/

/-- What the page loop finds in a whole page. -/
def findPage (w : LogWords) : List (ℕ × Option ℕ) := scanPage (wordsFrom w 0 invPageEntries)

/-- The page loop, as a fold over everything it finds. -/
theorem drainPages_eq_ok {es : List (ℕ × LogWords)} (hw : ∀ e ∈ es, ∀ j, e.2 j < 2 ^ 64)
    (h : drainPages d es f log = .ok (f', log')) :
    log' = { ((es.map Prod.snd).flatMap findPage).foldl pageStep log with
      xa := es.foldl (fun xa e => xaErase e.1 xa) log.xa } := by
  induction es generalizing f log with
  | nil =>
    cases h
    rfl
  | cons e es ih =>
    simp only [drainPages, bind_eq_ok] at h
    obtain ⟨f1, h1, h⟩ := h
    have hlog := ih (fun x hx => hw x (List.mem_cons_of_mem _ hx)) h
    have hdec := decodePage_eq (hw e List.mem_cons_self) invPageEntries 0 log
    rw [Nat.zero_add] at hdec
    have hxa := (foldl_pageStep_frame (findPage e.2) log).2.2
    rw [findPage] at hxa
    rw [hlog, hdec, foldl_pageStep_xa, List.map_cons, List.flatMap_cons, List.foldl_append,
      List.foldl_cons, findPage, hxa]

/-- What both loops find for a line: the pages of the line and the words in its
buffer. -/
theorem getInvMappings_eq_ok (hw : ∀ e ∈ log.linePages l, ∀ j, e.2 j < 2 ^ 64)
    (hb : ∀ j, log.bufs l j < 2 ^ 64) (hempty : log.invMHash = [] ∧ log.offDelHash = [])
    (h : getInvMappings d f log l = .ok (f', log')) :
    ∃ odd : List ℕ,
      odd.Nodup ∧
      (∀ k, k ∈ odd ↔
        (keysIn (((log.linePages l).map Prod.snd).flatMap findPage)).count k % 2 = 1) ∧
      log'.invMHash.Perm
        (keysIn (scanBuf (wordsFrom (log.bufs l) 0 (log.offs l / invEntrySz))) ++ odd) ∧
      log'.offDelHash.Perm
        (delsIn (scanBuf (wordsFrom (log.bufs l) 0 (log.offs l / invEntrySz))) ++
          delsIn (((log.linePages l).map Prod.snd).flatMap findPage)) := by
  simp only [getInvMappings, bind_eq_ok] at h
  obtain ⟨⟨f1, log1⟩, h1, h⟩ := h
  cases h
  have hlog := drainPages_eq_ok hw h1
  set es := ((log.linePages l).map Prod.snd).flatMap findPage
  obtain ⟨hnd, hmem, hoff⟩ := foldl_pageStep es log (by simp [hempty.1])
  obtain ⟨hbufs', hoffs', -⟩ := foldl_pageStep_frame es log
  have hbufs : log1.bufs = log.bufs := by rw [hlog, ← hbufs']
  have hoffs : log1.offs = log.offs := by rw [hlog, ← hoffs']
  have hdec := decodeBuf_eq hb (log.offs l / invEntrySz) (log.offs l / invEntrySz) 0 le_rfl log1
  rw [Nat.zero_add] at hdec
  dsimp only
  rw [hbufs, hoffs, hdec]
  obtain ⟨hinv2, hoff2⟩ :=
    foldl_bufStep (scanBuf (wordsFrom (log.bufs l) 0 (log.offs l / invEntrySz))) log1
  refine ⟨_, hnd, fun k => ?_, ?_, ?_⟩
  · rw [hmem k, hempty.1]
    simp
  · rw [hlog] at hinv2 ⊢
    exact hinv2
  · refine hoff2.trans (List.Perm.append_left _ ?_)
    rw [hlog]
    simpa [hempty.2] using hoff

end InvLog

end Virtkv
