import Virtkv.Command.Insert
import Virtkv.Flash.Span
import Virtkv.Gc.Combine

/-!
# The trailer of a pair

A pair from which bytes were deleted ends in a trailer: a start mark, the deletes of all
collections, zeros, and an end mark in the last word of the last grain. The next collection
searches the trailer from its end. The zeros are counted on the way, since there is no other
way to tell how many deletes there are.

## Main results

- `existing_of_trailed` — the search finds the deletes of a trailer
- `writeTrailer_trailed` — what is written is a trailer, if it fits
- `Collections.logged` — the deletes of a pair over any number of collections
-/

namespace Virtkv

open Outcome

namespace Shift

variable {d : Device} {mem mem' pre post : List UInt8} {xs : List ℕ}

/-! ### Words in memory -/

/-- The bytes of a list of words. -/
def bytesOf (ws : List ℕ) : List UInt8 := ws.flatMap le32

theorem length_bytesOf (ws : List ℕ) : (bytesOf ws).length = 4 * ws.length := by
  induction ws with
  | nil => rfl
  | cons w ws ih =>
    change (le32 w ++ bytesOf ws).length = _
    rw [List.length_append, PairMem.length_le32, ih, List.length_cons, vlenMarkerSz]
    omega

theorem bytesOf_append (ws ws' : List ℕ) : bytesOf (ws ++ ws') = bytesOf ws ++ bytesOf ws' :=
  List.flatMap_append

theorem word_at {w : ℕ} (hw : w < 2 ^ 32) :
    word (pre ++ (le32 w ++ post)) pre.length = .ok w := by
  have hlen : pre.length + 4 ≤ (pre ++ (le32 w ++ post)).length := by
    rw [List.length_append, List.length_append, PairMem.length_le32, vlenMarkerSz]
    omega
  have htake : ((pre ++ (le32 w ++ post)).drop pre.length).take 4 = le32 w := by
    rw [List.drop_left]
    exact List.take_left' (PairMem.length_le32 w)
  have hval : ofLe32 (le32 w) = w := by
    have h := PairMem.ofLe32_le32_append hw []
    rwa [List.append_nil] at h
  simp only [word, PairMem.read, ensure_of hlen, ok_bind, htake]
  exact congrArg _ hval

/-- Word `k` of a list of words. -/
theorem word_bytesOf {ws : List ℕ} {k : ℕ} (hk : k < ws.length) (hlt : ws[k] < 2 ^ 32) :
    word (pre ++ (bytesOf ws ++ post)) (pre.length + 4 * k) = .ok ws[k] := by
  have hsplit : ws = ws.take k ++ ws[k] :: ws.drop (k + 1) := by
    rw [List.getElem_cons_drop, List.take_append_drop]
  have hmem : pre ++ (bytesOf ws ++ post) =
      (pre ++ bytesOf (ws.take k)) ++ (le32 ws[k] ++ (bytesOf (ws.drop (k + 1)) ++ post)) := by
    conv_lhs => rw [hsplit, bytesOf_append]
    simp only [bytesOf, List.flatMap_cons, List.append_assoc]
  have hlen : pre.length + 4 * k = (pre ++ bytesOf (ws.take k)).length := by
    rw [List.length_append, length_bytesOf, List.length_take, Nat.min_eq_left hk.le]
  rw [hmem, hlen]
  exact word_at hlt

theorem pack_off_len (x : ℕ) : off x * 2 ^ 32 + len x = x := by
  rw [off, len, Nat.div_add_mod']

theorem dword_at {x : ℕ} (hx : off x < 2 ^ 32) :
    dword (pre ++ (le64 x ++ post)) pre.length = .ok x := by
  have hlo : word (pre ++ (le64 x ++ post)) pre.length = .ok (len x) := by
    rw [le64, List.append_assoc]
    exact word_at (Nat.mod_lt _ (by decide))
  have hhi : word (pre ++ (le64 x ++ post)) (pre.length + 4) = .ok (off x) := by
    have hmem : pre ++ (le64 x ++ post) = (pre ++ le32 (len x)) ++ (le32 (off x) ++ post) := by
      rw [le64, List.append_assoc, List.append_assoc]
      rfl
    have hlen : pre.length + 4 = (pre ++ le32 (len x)).length := by
      rw [List.length_append, PairMem.length_le32, vlenMarkerSz]
    rw [hmem, hlen]
    exact word_at hx
  rw [dword, hlo, ok_bind, hhi, ok_bind]
  exact congrArg _ (pack_off_len x)

/-! ### Reading a trailer -/

/-- A delete whose words are neither zero nor a mark. -/
structure Marked (x : ℕ) : Prop where
  off_pos : 0 < off x
  off_lt : off x < 2 ^ 31
  len_pos : 0 < len x
  len_lt : len x < startMarker

/-- The words of a list of deletes. -/
def wordsOf (xs : List ℕ) : List ℕ := xs.flatMap fun x => [len x, off x]

theorem length_wordsOf (xs : List ℕ) : (wordsOf xs).length = 2 * xs.length := by
  induction xs with
  | nil => rfl
  | cons x xs ih =>
    change (wordsOf xs).length + 2 = _
    rw [ih, List.length_cons]
    omega

theorem bytesOf_wordsOf (xs : List ℕ) : bytesOf (wordsOf xs) = xs.flatMap le64 := by
  induction xs with
  | nil => rfl
  | cons x xs ih =>
    change le32 (len x) ++ (le32 (off x) ++ bytesOf (wordsOf xs)) = _
    rw [ih, List.flatMap_cons, le64, List.append_assoc]
    rfl

theorem mem_wordsOf (hx : ∀ x ∈ xs, Marked x) {w : ℕ} (hw : w ∈ wordsOf xs) :
    0 < w ∧ w < startMarker := by
  obtain ⟨x, hxs, hw⟩ := List.mem_flatMap.mp hw
  obtain ⟨h1, h2, h3, h4⟩ := hx x hxs
  have : startMarker = 2 ^ 32 - 1 := rfl
  rcases List.mem_cons.mp hw with rfl | hw
  · exact ⟨h3, h4⟩
  · rw [List.mem_singleton.mp hw]
    exact ⟨h1, by omega⟩

/-- A trailer behind its start mark, with `z` words of zeros. -/
def tailWords (xs : List ℕ) (z : ℕ) : List ℕ := wordsOf xs ++ (List.replicate z 0 ++ [endMarker])

theorem length_tailWords (xs : List ℕ) (z : ℕ) :
    (tailWords xs z).length = 2 * xs.length + z + 1 := by
  rw [tailWords, List.length_append, length_wordsOf, List.length_append, List.length_replicate,
    List.length_singleton]
  omega

theorem count_tailWords (hx : ∀ x ∈ xs, Marked x) (z : ℕ) : (tailWords xs z).count 0 = z := by
  have h0 : (wordsOf xs).count 0 = 0 :=
    List.count_eq_zero.mpr fun h => absurd (mem_wordsOf hx h).1 (lt_irrefl 0)
  rw [tailWords, List.count_append, h0, List.count_append, List.count_replicate_self,
    show List.count 0 [endMarker] = 0 by decide]
  omega

theorem mem_tailWords (hx : ∀ x ∈ xs, Marked x) {z w : ℕ} (hw : w ∈ tailWords xs z) :
    w < startMarker := by
  rw [tailWords, List.mem_append, List.mem_append] at hw
  rcases hw with hw | hw | hw
  · exact (mem_wordsOf hx hw).2
  · rw [List.eq_of_mem_replicate hw]
    decide
  · rw [List.mem_singleton.mp hw]
    decide

/-- The pair ends in a trailer with the deletes `xs`. -/
structure Trailed (d : Device) (glen : ℕ) (mem : List UInt8) (xs : List ℕ) : Prop where
  layout : ∃ pre z post s, mem = pre ++ (bytesOf (startMarker :: tailWords xs z) ++ post) ∧
    pre.length = 4 * s ∧ 4 * s + 4 * (2 * xs.length + z + 2) = glen * d.gu

/-- The search goes back over the words `l` to the start mark. -/
theorem findStart_eq {s c : ℕ} {l : List ℕ} (hs : word mem (4 * s) = .ok startMarker)
    (hl : ∀ j, (hj : j < l.length) → word mem (4 * (s + 1 + j)) = .ok l[j])
    (hne : startMarker ∉ l) :
    findStart mem (s + l.length) c = .ok (4 * s, c + l.count 0) := by
  induction l using List.reverseRecOn generalizing c with
  | nil =>
    cases s with
    | zero =>
      rw [List.length_nil, findStart, hs]
      rfl
    | succ s =>
      rw [List.length_nil, Nat.add_zero, findStart, hs, ok_bind, if_pos rfl]
      rfl
  | append_singleton l w ih =>
    rw [List.mem_append, List.mem_singleton, not_or] at hne
    have hw : word mem (4 * (s + l.length + 1)) = .ok w := by
      have h := hl l.length (by rw [List.length_append, List.length_singleton]; omega)
      rw [List.getElem_concat_length rfl] at h
      rw [← h]
      congr 2
      omega
    have hl' : ∀ j, (hj : j < l.length) → word mem (4 * (s + 1 + j)) = .ok l[j] := by
      intro j hj
      have h := hl j (by rw [List.length_append]; omega)
      rwa [List.getElem_append_left hj] at h
    rw [List.length_append, List.length_singleton, ← Nat.add_assoc, findStart, hw, ok_bind,
      if_neg (Ne.symm hne.2), ih hl' hne.1, List.count_append]
    congr 2
    by_cases h0 : w = 0
    · rw [if_pos h0, h0, List.count_singleton_self]
      omega
    · rw [if_neg h0, List.count_singleton, if_neg (by simpa using h0)]
      omega

theorem readShifts_eq {glen : ℕ} (hx : ∀ x ∈ xs, Marked x)
    (hfit : pre.length + 8 * xs.length ≤ glen * d.gu) :
    readShifts d (pre ++ (xs.flatMap le64 ++ post)) glen xs.length pre.length = .ok xs := by
  induction xs generalizing pre with
  | nil => rfl
  | cons x xs ih =>
    have hm := hx x List.mem_cons_self
    have hlt := hm.off_lt
    rw [List.length_cons] at hfit ⊢
    have hne : off x ≠ endMarker := by
      intro he
      rw [he] at hlt
      exact absurd hlt (by decide)
    have hmem : pre ++ ((x :: xs).flatMap le64 ++ post) =
        (pre ++ le64 x) ++ (xs.flatMap le64 ++ post) := by
      rw [List.flatMap_cons, List.append_assoc, List.append_assoc]
    have hlen : (pre ++ le64 x).length = pre.length + 8 := List.length_append
    have hnext : readShifts d ((pre ++ le64 x) ++ (xs.flatMap le64 ++ post)) glen xs.length
        (pre ++ le64 x).length = .ok xs :=
      ih (fun y hy => hx y (List.mem_cons_of_mem _ hy)) (by omega)
    rw [hlen, ← hmem] at hnext
    rw [readShifts, List.flatMap_cons, List.append_assoc, dword_at (by omega), ok_bind,
      if_neg hne, ensure_of (by omega), ok_bind]
    rw [List.flatMap_cons, List.append_assoc] at hnext
    rw [hnext]
    rfl

/-- The next collection finds the deletes of a trailer. -/
theorem existing_of_trailed {glen : ℕ} (h : Trailed d glen mem xs) (hx : ∀ x ∈ xs, Marked x)
    (hlen : xs.length ≤ maxShifts) : existing d mem glen = .ok xs := by
  obtain ⟨pre, z, post, s, hmem, hpre, hend⟩ := h.layout
  have hne : startMarker ∉ tailWords xs z := fun h => lt_irrefl _ (mem_tailWords hx h)
  have hlt : ∀ w ∈ startMarker :: tailWords xs z, w < 2 ^ 32 := by
    intro w hw
    rcases List.mem_cons.mp hw with rfl | hw
    · decide
    · exact (mem_tailWords hx hw).trans (by decide)
  have hword : ∀ k, (hk : k < (startMarker :: tailWords xs z).length) →
      word mem (4 * (s + k)) = .ok (startMarker :: tailWords xs z)[k] := by
    intro k hk
    rw [hmem, Nat.mul_add, ← hpre]
    exact word_bytesOf hk (hlt _ (List.getElem_mem hk))
  have htl := length_tailWords xs z
  have hscan : findStart mem (s + (tailWords xs z).length) 0 = .ok (4 * s, z) := by
    have h := findStart_eq (c := 0) (hword 0 (Nat.succ_pos _)) (l := tailWords xs z)
      (fun j hj => ?_) hne
    · rwa [count_tailWords hx, Nat.zero_add] at h
    · have h := hword (j + 1) (Nat.succ_lt_succ hj)
      rw [← Nat.add_assoc, Nat.add_right_comm] at h
      exact h
  have hlast : word mem (glen * d.gu - 4) = .ok endMarker := by
    have hsplit : mem = (pre ++ bytesOf (startMarker :: (wordsOf xs ++ List.replicate z 0))) ++
        (le32 endMarker ++ post) := by
      rw [hmem, tailWords, ← List.append_assoc (wordsOf xs), ← List.cons_append, bytesOf_append]
      simp only [List.append_assoc]
      rfl
    have hlen : glen * d.gu - 4 =
        (pre ++ bytesOf (startMarker :: (wordsOf xs ++ List.replicate z 0))).length := by
      rw [List.length_append, length_bytesOf, List.length_cons, List.length_append, length_wordsOf,
        List.length_replicate, hpre]
      omega
    rw [hsplit, hlen]
    exact word_at (by decide)
  have hread : readShifts d mem glen xs.length (4 * s + 4) = .ok xs := by
    have hsplit : mem = (pre ++ le32 startMarker) ++
        (xs.flatMap le64 ++ (bytesOf (List.replicate z 0 ++ [endMarker]) ++ post)) := by
      rw [hmem, tailWords, ← bytesOf_wordsOf, ← List.cons_append, bytesOf_append]
      simp only [List.append_assoc]
      rw [show bytesOf (startMarker :: wordsOf xs) = le32 startMarker ++ bytesOf (wordsOf xs) from rfl,
        List.append_assoc]
    have hlen : (pre ++ le32 startMarker).length = 4 * s + 4 := by
      rw [List.length_append, hpre, PairMem.length_le32, vlenMarkerSz]
    have h : readShifts d ((pre ++ le32 startMarker) ++ (xs.flatMap le64 ++
        (bytesOf (List.replicate z 0 ++ [endMarker]) ++ post))) glen xs.length
        (pre ++ le32 startMarker).length = .ok xs := readShifts_eq hx (by omega)
    rwa [← hsplit, hlen] at h
  have hn : (glen * d.gu - 4 - 4 * s - 4) / 8 - z / 2 = xs.length := by omega
  have hshifts : getExistingShifts d mem glen = .ok xs := by
    rw [getExistingShifts]
    dsimp only
    rw [show (glen * d.gu - 4) / 4 = s + (tailWords xs z).length by omega, hscan, ok_bind]
    dsimp only
    rw [hn, hread, ok_bind, ensure_of hlen]
    rfl
  rw [existing, hasMarker, ensure_of (show 4 ≤ glen * d.gu by omega), ok_bind, hlast, ok_bind]
  change asTrailerScan (getExistingShifts d mem glen) = _
  rw [hshifts]
  rfl

/-! ### Writing a trailer -/

theorem bytesOf_replicate (z : ℕ) : bytesOf (List.replicate z 0) = List.replicate (4 * z) 0 := by
  induction z with
  | zero => rfl
  | succ z ih =>
    rw [List.replicate_succ]
    change le32 0 ++ bytesOf (List.replicate z 0) = _
    rw [ih, Nat.mul_succ, Nat.add_comm, List.replicate_add]
    rfl

theorem writeShifts_append {ys : List ℕ} {old : List UInt8} (hlen : old.length = 8 * ys.length)
    (h : writeShifts ys pre.length (pre ++ (old ++ post)) = .ok mem') :
    mem' = pre ++ (ys.flatMap le64 ++ post) := by
  induction ys generalizing pre old with
  | nil =>
    rw [List.length_nil, Nat.mul_zero, List.length_eq_zero_iff] at hlen
    cases h
    rw [hlen]
    rfl
  | cons y ys ih =>
    rw [List.length_cons] at hlen
    have hold : old = old.take 8 ++ old.drop 8 := (List.take_append_drop 8 old).symm
    have h8 : (old.take 8).length = (le64 y).length := by
      rw [List.length_take, Nat.min_eq_left (by omega)]
      rfl
    rw [writeShifts, hold, List.append_assoc, bind_eq_ok] at h
    obtain ⟨mem1, h1, h2⟩ := h
    rw [PairMem.write_append h8 h1, ← List.append_assoc] at h2
    have hpre : pre.length + 8 = (pre ++ le64 y).length := by
      rw [List.length_append]
      rfl
    rw [hpre] at h2
    rw [ih (by rw [List.length_drop]; omega) h2, List.flatMap_cons, List.append_assoc,
      List.append_assoc]

theorem four_dvd_gu (d : Device) : 4 ∣ d.gu := by
  rw [Device.gu]
  cases d.build <;> decide

/-- What is written is a trailer with all deletes in order, if the grains have room for it. -/
theorem writeTrailer_trailed (hsort : Sorts d.sort) {klen newLen : ℕ} {es ps : List ℕ} {r : Result}
    (h : writeTrailer d klen es ps r = .ok (newLen, mem'))
    (hfit : roundUp4 (PairMem.metaSz klen + r.vlen) + 8 * (es.length + ps.length) + 8 ≤
      newLen * d.gu) :
    Trailed d newLen mem' (d.sort (es ++ ps)) ∧ ∃ post,
      mem' = r.mem.take (roundUp4 (PairMem.metaSz klen + r.vlen)) ++ post := by
  simp only [writeTrailer, bind_eq_ok, ensure_eq_ok] at h
  obtain ⟨-, -, -, -, mem1, h1, mem2, h2, mem3, h3, mem4, h4, h⟩ := h
  cases h
  set start := roundUp4 (PairMem.metaSz klen + r.vlen) with hstart
  set newLen := if r.vlen % d.gu ≠ 0 then _ else _ with hnew
  set ys := d.sort (es ++ ps) with hys
  have hn : ys.length = es.length + ps.length := by
    rw [hys, (hsort _).1.length_eq, List.length_append]
  obtain ⟨z, hz⟩ : ∃ z, newLen * d.gu = start + 8 * ys.length + 4 * z + 8 := by
    have h1 : 4 ∣ newLen * d.gu := (four_dvd_gu d).mul_left newLen
    have h2 : 4 ∣ start := ⟨_, Nat.mul_comm _ _⟩
    refine ⟨(newLen * d.gu - start - 8 * ys.length - 8) / 4, ?_⟩
    omega
  obtain ⟨hle1, hm1⟩ := PairMem.write_eq_ok h1
  rw [PairMem.length_le32, vlenMarkerSz] at hle1 hm1
  have hB : newLen * d.gu ≤ r.mem.length := by
    have := (PairMem.write_eq_ok h2).1
    rw [List.length_replicate, hm1] at this
    simp only [List.length_append, List.length_take, List.length_drop, PairMem.length_le32,
      vlenMarkerSz] at this
    omega
  -- what is before the trailer, and what is behind it
  set front := r.mem.take start ++ le32 startMarker with hfront
  set back := r.mem.drop (newLen * d.gu) with hback
  have hlen : front.length = start + 4 := by
    rw [hfront, List.length_append, PairMem.length_le32, List.length_take, vlenMarkerSz]
    omega
  clear_value front back
  have hmem1 : mem1 =
      front ++ ((r.mem.drop (start + 4)).take (newLen * d.gu - (start + 4)) ++ back) := by
    have hdrop : back = (r.mem.drop (start + 4)).drop (newLen * d.gu - (start + 4)) := by
      rw [hback, List.drop_drop]
      congr 1
      omega
    rw [hm1, ← List.append_assoc, hdrop, List.take_append_drop, hfront]
  have hmem2 : mem2 = front ++ (List.replicate (8 * ys.length) 0 ++
      (List.replicate (4 * z) 0 ++ (List.replicate 4 0 ++ back))) := by
    rw [← hlen, hmem1] at h2
    rw [PairMem.write_append ?_ h2]
    · rw [hlen, show newLen * d.gu - (start + 4) = 8 * ys.length + (4 * z + 4) by omega,
        List.replicate_add, List.replicate_add]
      simp only [List.append_assoc]
    · rw [List.length_take, List.length_drop, List.length_replicate, hlen]
      omega
  have hmem3 : mem3 = front ++ (ys.flatMap le64 ++
      (List.replicate (4 * z) 0 ++ (List.replicate 4 0 ++ back))) := by
    rw [← hlen, hmem2] at h3
    exact writeShifts_append List.length_replicate h3
  have hmem4 : mem' = front ++ (ys.flatMap le64 ++
      (List.replicate (4 * z) 0 ++ (le32 endMarker ++ back))) := by
    have hlen4 : newLen * d.gu - 4 =
        (front ++ (ys.flatMap le64 ++ List.replicate (4 * z) 0)).length := by
      rw [← bytesOf_wordsOf, List.length_append, List.length_append, length_bytesOf,
        length_wordsOf, List.length_replicate, hlen]
      omega
    rw [hlen4, hmem3] at h4
    have hassoc : ∀ tail : List UInt8,
        front ++ (ys.flatMap le64 ++ (List.replicate (4 * z) 0 ++ tail)) =
          (front ++ (ys.flatMap le64 ++ List.replicate (4 * z) 0)) ++ tail := fun tail => by
      simp only [List.append_assoc]
    have hsize : (List.replicate 4 (0 : UInt8)).length = (le32 endMarker).length := rfl
    rw [hassoc] at h4 ⊢
    exact PairMem.write_append hsize h4
  have h4s : start = 4 * ((PairMem.metaSz klen + r.vlen + 3) / 4) := Nat.mul_comm _ _
  refine ⟨⟨r.mem.take start, z, back, (PairMem.metaSz klen + r.vlen + 3) / 4, ?_, ?_, ?_⟩, ?_⟩
  · have hend : bytesOf [endMarker] = le32 endMarker := List.append_nil _
    rw [hmem4, hfront, tailWords, ← bytesOf_replicate, ← bytesOf_wordsOf]
    change _ = _ ++ ((le32 startMarker ++ bytesOf _) ++ back)
    rw [bytesOf_append, bytesOf_append, hend]
    simp only [List.append_assoc]
  · rw [List.length_take, Nat.min_eq_left (by omega), h4s]
  · omega
  · exact ⟨_, by rw [hmem4, hfront, List.append_assoc]⟩

/-- The trailer fits in the grains of the pair. -/
def Room (d : Device) (newLen klen vlen n : ℕ) : Prop :=
  roundUp4 (PairMem.metaSz klen + vlen) + 8 * n + 8 ≤ newLen * d.gu

/-- It fits whenever the last grain of the value is not full. -/
theorem room_of_mod {klen newLen : ℕ} {es ps : List ℕ} {r : Result}
    (h : writeTrailer d klen es ps r = .ok (newLen, mem')) (hmod : r.vlen % d.gu ≠ 0) :
    Room d newLen klen r.vlen (es.length + ps.length) := by
  simp only [writeTrailer, bind_eq_ok] at h
  obtain ⟨_, -, _, -, _, -, _, -, _, -, _, -, h⟩ := h
  cases h
  have hgu : 0 < d.gu := by
    rw [Device.gu]
    cases d.build <;> decide
  rw [if_pos hmod, Room]
  set start := roundUp4 (PairMem.metaSz klen + r.vlen)
  set space := (es.length + ps.length) * 8 + 4 + 4 + (4 - klen % 4)
  have hdiv := Nat.div_add_mod (start + space) d.gu
  have hlt := Nat.mod_lt (start + space) hgu
  have hmul : ((start + space) / d.gu + 1) * d.gu = d.gu * ((start + space) / d.gu) + d.gu := by
    rw [Nat.add_one_mul, Nat.mul_comm]
  omega

/-! ### Collecting a pair -/

theorem marked_pack {o l : ℕ} (ho : 0 < o) (ho31 : o < 2 ^ 31) (hl : 0 < l)
    (hlt : o + l < 2 ^ 32) : Marked (pack o l) := by
  have hl32 : l < 2 ^ 32 := by omega
  have hmax : startMarker = 2 ^ 32 - 1 := rfl
  refine ⟨?_, ?_, ?_, ?_⟩
  · rwa [off_pack o hl32]
  · rwa [off_pack o hl32]
  · rwa [len_pack o hl32]
  · rw [len_pack o hl32]
    omega

/-- A merged delete lies where the deletes lie. -/
theorem combineLoop_marked {xs ys : List ℕ} {o l : ℕ} (hpos : 0 < o) (ho31 : o < 2 ^ 31)
    (hl : 0 < l) (hlt : o + l < 2 ^ 32) (ho : ∀ x ∈ xs, o ≤ off x) (hsort : Ordered xs)
    (hx : ∀ x ∈ xs, Proper x) (h : combineLoop xs o l (o + l) = .ok ys) : ∀ y ∈ ys, Marked y := by
  induction xs generalizing o l ys with
  | nil =>
    cases h
    intro y hy
    rw [List.mem_singleton.mp hy]
    exact marked_pack hpos ho31 hl hlt
  | cons x xs ih =>
    obtain ⟨hxs, hsort⟩ := List.pairwise_cons.mp hsort
    have hox := ho x List.mem_cons_self
    obtain ⟨hlen, hoff, hstop⟩ := hx x List.mem_cons_self
    have hx' : ∀ y ∈ xs, Proper y := fun y hy => hx y (List.mem_cons_of_mem _ hy)
    have ho' : ∀ y ∈ xs, o ≤ off y := fun y hy => ho y (List.mem_cons_of_mem _ hy)
    have hend : stop x = off x + len x := rfl
    rw [combineLoop_cons xs hox hl hlen] at h
    split at h
    · obtain ⟨zs, hzs, h⟩ := bind_eq_ok.mp h
      cases h
      intro y hy
      rcases List.mem_cons.mp hy with rfl | hy
      · exact marked_pack hpos ho31 hl hlt
      · exact ih (by omega) hoff hlen (by omega) hxs hsort hx' hzs y hy
    split at h
    · exact ih hpos ho31 (by omega) (by omega) ho' hsort hx' h
    split at h
    · exact ih hpos ho31 hl hlt ho' hsort hx' h
    · cases h

theorem combine_marked (hsort : Sorts d.sort) {pre ps : List ℕ}
    (hx : ∀ x ∈ pre, Proper x ∧ 0 < off x) (h : combine d pre = .ok ps) : ∀ y ∈ ps, Marked y := by
  obtain ⟨hperm, hord⟩ := hsort pre
  have hx' : ∀ x ∈ d.sort pre, Proper x ∧ 0 < off x := fun x h => hx x (hperm.mem_iff.mp h)
  rw [combine] at h
  generalize d.sort pre = zs at h hord hx'
  cases zs with
  | nil =>
    cases h
    intro y hy
    cases hy
  | cons x zs =>
    obtain ⟨hle, hord⟩ := List.pairwise_cons.mp hord
    obtain ⟨⟨hpos, h31, hstop⟩, hoff⟩ := hx' x List.mem_cons_self
    simp only [bind_eq_ok] at h
    obtain ⟨_, -, h⟩ := h
    exact combineLoop_marked hoff h31 hpos hstop hle hord
      (fun y hy => (hx' y (List.mem_cons_of_mem _ hy)).1) h

theorem applyLoop_changed {glen klen running : ℕ} {ps es : List ℕ} {r r' : Result}
    (h : applyLoop d glen klen ps es running r = .ok r') (hr : r.changed = true) :
    r'.changed = true := by
  induction ps generalizing es running r with
  | nil =>
    cases h
    exact hr
  | cons x xs ih =>
    rw [applyLoop] at h
    dsimp only at h
    split at h
    · exact ih h hr
    split at h
    · cases h
      rfl
    · simp only [bind_eq_ok] at h
      obtain ⟨_, -, moved, -, mem1, -, h⟩ := h
      exact ih h rfl

/-- A pair that no delete changed is as it was. -/
theorem applyLoop_unchanged {glen klen running : ℕ} {ps es : List ℕ} {r r' : Result}
    (h : applyLoop d glen klen ps es running r = .ok r') (hr : r'.changed = false) :
    r'.mem = r.mem := by
  induction ps generalizing es running r with
  | nil =>
    cases h
    rfl
  | cons x xs ih =>
    rw [applyLoop] at h
    dsimp only at h
    split at h
    · exact ih h
    split at h
    · cases h
      cases hr
    · simp only [bind_eq_ok] at h
      obtain ⟨_, -, moved, -, mem1, -, h⟩ := h
      have hch := applyLoop_changed h rfl
      rw [hr] at hch
      cases hch

/-- What is left of a pair of `glen` grains after the deletes `pre`, with the length of its key,
the deletes of its trailer and the merged ones. -/
def carryOut (d : Device) (glen : ℕ) (mem : List UInt8) (pre : List ℕ) :
    Except Fault (ℕ × List ℕ × List ℕ × Result) := do
  let vlen ← PairMem.vlenFromValue mem
  let klen ← PairMem.klenFromValue mem
  let es ← existing d mem glen
  let ps ← combine d pre
  let r ← applyLoop d glen klen ps es 0 { mem := mem, vlen := vlen, changed := false, deleted := 0 }
  return (klen, es, ps, r)

/-- The merged deletes that are carried out: one that hits an existing delete is dropped. -/
def carried : List ℕ → List ℕ → List ℕ
  | [], _ => []
  | x :: xs, es =>
    let (hit, es, _) := seek (off x) (len x) es 0
    if hit then carried xs es else x :: carried xs es

/-- The pairs that some collections make of a pair, with the merged deletes of those that
changed the pair, and the deletes that were carried out. A collection after which nothing of the
pair is left ends them. -/
inductive Collections (d : Device) : ℕ → List UInt8 → List ℕ → List ℕ → Prop where
  | stored {glen : ℕ} {mem : List UInt8} :
    hasMarker d mem glen = .ok false → Collections d glen mem [] []
  | collect {glen glen' klen : ℕ} {mem mem' : List UInt8} {merged kept pre es ps : List ℕ}
    {r : Result} :
    Collections d glen mem merged kept → carryOut d glen mem pre = .ok (klen, es, ps, r) →
    shiftPair d glen mem pre = .ok (some (glen', mem')) →
    (∀ x ∈ pre, Proper x ∧ 0 < off x) →
    (r.changed = true → Room d glen' klen r.vlen (es.length + ps.length) ∧
      es.length + ps.length ≤ maxShifts) →
    Collections d glen' mem' (if r.changed then merged ++ ps else merged) (kept ++ carried ps es)

/-- Which existing deletes are left to look at does not depend on what was removed so far. -/
theorem seek_running (o l : ℕ) (es : List ℕ) (running : ℕ) :
    (seek o l es running).1 = (seek o l es 0).1 ∧
      (seek o l es running).2.1 = (seek o l es 0).2.1 := by
  have hboth : ∀ a b, (seek o l es a).1 = (seek o l es b).1 ∧
      (seek o l es a).2.1 = (seek o l es b).2.1 := by
    induction es with
    | nil => exact fun _ _ => ⟨rfl, rfl⟩
    | cons e es ih =>
      intro a b
      simp only [seek]
      split
      · exact ⟨rfl, rfl⟩
      split
      · exact ih _ _
      · exact ⟨rfl, rfl⟩
  exact hboth _ _

theorem carried_sublist (ps es : List ℕ) : (carried ps es).Sublist ps := by
  induction ps generalizing es with
  | nil => exact List.Sublist.refl _
  | cons x xs ih =>
    rw [carried]
    dsimp only
    split
    · exact (ih _).cons x
    · exact (ih _).cons_cons x

/-- A pair that is as it was: all deletes were dropped. -/
theorem carried_of_unchanged {glen klen running : ℕ} {ps es : List ℕ} {r r' : Result}
    (h : applyLoop d glen klen ps es running r = .ok r') (hr : r'.changed = false) :
    carried ps es = [] := by
  induction ps generalizing es running r with
  | nil => rfl
  | cons x xs ih =>
    obtain ⟨hhit, hleft⟩ := seek_running (off x) (len x) es running
    rw [applyLoop] at h
    rw [carried]
    dsimp only at h ⊢
    rw [← hhit, ← hleft]
    split at h
    · rename_i hdrop
      rw [if_pos hdrop]
      exact ih h
    split at h
    · cases h
      cases hr
    · simp only [bind_eq_ok] at h
      obtain ⟨_, -, moved, -, mem1, -, h⟩ := h
      have hch := applyLoop_changed h rfl
      rw [hr] at hch
      cases hch

/-- The second half of a collection. -/
theorem shiftPair_of_carryOut {glen glen' klen : ℕ} {es ps pre : List ℕ} {r : Result}
    (hc : carryOut d glen mem pre = .ok (klen, es, ps, r))
    (h : shiftPair d glen mem pre = .ok (some (glen', mem'))) :
    existing d mem glen = .ok es ∧ combine d pre = .ok ps ∧
      (r.changed = false → glen' = glen ∧ mem' = mem ∧ carried ps es = []) ∧
      (r.changed = true → ∃ mem1, writeTrailer d klen es ps { r with mem := mem1 } =
        .ok (glen', mem')) := by
  simp only [carryOut, bind_eq_ok] at hc
  obtain ⟨vlen, hv, klen', hk, es', he, ps', hp, r', hr, hc⟩ := hc
  cases hc
  simp only [shiftPair, hv, hk, he, hp, hr, ok_bind] at h
  refine ⟨he, hp, fun hch => ?_, fun hch => ?_⟩
  · have hmem := applyLoop_unchanged hr hch
    rw [hch] at h
    split at h
    · cases h
    · simp only [Bool.false_eq_true, if_false, bind_eq_ok] at h
      obtain ⟨_, -, h⟩ := h
      cases h
      exact ⟨rfl, hmem, carried_of_unchanged hr hch⟩
  · rw [hch] at h
    split at h
    · cases h
    · simp only [if_true, bind_eq_ok] at h
      obtain ⟨_, -, mem1, -, ⟨newLen, mem2⟩, hw, h⟩ := h
      cases h
      exact ⟨mem1, hw⟩

/-- The trailer holds the merged deletes of the collections, of which some were carried out. -/
structure Logged (d : Device) (glen : ℕ) (mem : List UInt8) (merged kept : List ℕ) : Prop where
  marked : ∀ x ∈ merged, Marked x
  read : ∃ es, existing d mem glen = .ok es ∧ es.Perm merged ∧ Ordered es
  sublist : kept.Sublist merged

theorem Collections.inv (hsort : Sorts d.sort) {glen : ℕ} {merged kept : List ℕ}
    (h : Collections d glen mem merged kept) : Logged d glen mem merged kept := by
  induction h with
  | stored h =>
    refine ⟨fun x hx => (by cases hx), ⟨[], ?_, List.Perm.refl _, List.Pairwise.nil⟩,
      List.Sublist.refl _⟩
    rw [existing, h]
    rfl
  | @collect glen glen' klen mem mem' merged kept pre es ps r _ hc hs hpre hroom ih =>
    obtain ⟨hmarked, ⟨es', hes', hperm, hord⟩, hsub⟩ := ih
    obtain ⟨hes, hps, hkept, hchanged⟩ := shiftPair_of_carryOut hc hs
    rw [hes] at hes'
    cases hes'
    cases hch : r.changed with
    | false =>
      obtain ⟨rfl, rfl, hnone⟩ := hkept hch
      rw [hnone, List.append_nil]
      exact ⟨hmarked, ⟨es, hes, hperm, hord⟩, hsub⟩
    | true =>
      obtain ⟨mem1, hw⟩ := hchanged hch
      obtain ⟨hfit, hmax⟩ := hroom hch
      obtain ⟨hsorted, hordered⟩ := hsort (es ++ ps)
      obtain ⟨htr, -⟩ := writeTrailer_trailed hsort hw hfit
      have hall : ∀ x ∈ merged ++ ps, Marked x := by
        intro x hx
        rcases List.mem_append.mp hx with hx | hx
        · exact hmarked x hx
        · exact combine_marked hsort hpre hps x hx
      have hperm' : (d.sort (es ++ ps)).Perm (merged ++ ps) :=
        hsorted.trans (hperm.append_right ps)
      rw [if_pos rfl]
      refine ⟨hall, ⟨_, existing_of_trailed htr (fun x hx => hall x (hperm'.mem_iff.mp hx)) ?_,
        hperm', hordered⟩, hsub.append (carried_sublist ps es)⟩
      rw [hsorted.length_eq, List.length_append]
      exact hmax

/-- A collection that changes the pair, from its outcome. -/
theorem Collections.collect_changed {glen glen' klen vlen : ℕ} {merged kept es ps : List ℕ}
    {deletes : List ℕ} (h : Collections d glen mem merged kept)
    (hc : (carryOut d glen mem deletes).map
      (fun x => (x.1, x.2.1, x.2.2.1, x.2.2.2.vlen, x.2.2.2.changed)) =
        .ok (klen, es, ps, vlen, true))
    (hs : shiftPair d glen mem deletes = .ok (some (glen', mem')))
    (hpre : ∀ x ∈ deletes, Proper x ∧ 0 < off x)
    (hroom : Room d glen' klen vlen (es.length + ps.length))
    (hmax : es.length + ps.length ≤ maxShifts) :
    Collections d glen' mem' (merged ++ ps) (kept ++ carried ps es) := by
  cases hcarry : carryOut d glen mem deletes with
  | error e =>
    rw [hcarry] at hc
    cases hc
  | ok c =>
    obtain ⟨klen', es', ps', r⟩ := c
    rw [hcarry] at hc
    injection hc with hc
    simp only [Prod.mk.injEq] at hc
    obtain ⟨rfl, rfl, rfl, rfl, hch⟩ := hc
    have hcol := h.collect hcarry hs hpre fun _ => ⟨hroom, hmax⟩
    rwa [if_pos hch] at hcol

/-- A device with grains of 64 bytes. -/
def plusDevice : Device := { Flash.smallDevice with build := .plus }

/-- A pair of five grains with a key of 4 bytes and a value of 300 bytes. -/
def longPair : List UInt8 := PairMem.header [1, 2, 3, 4] 300 ++ List.replicate 311 7

/-- The memory of a pair behind a collection. -/
def memOf : Except Fault (Option (ℕ × List UInt8)) → List UInt8
  | .ok (some (_, mem)) => mem
  | _ => []

/-- Bytes 21 to 52 of the pair are deleted, then bytes 33 to 36 and 101 to 160. -/
def once : List UInt8 := memOf (shiftPair plusDevice 5 longPair [pack 21 32])
def twice : List UInt8 := memOf (shiftPair plusDevice 5 once [pack 33 4, pack 101 60])

end Shift

end Virtkv
