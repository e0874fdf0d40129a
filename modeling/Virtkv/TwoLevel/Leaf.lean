import Mathlib.Tactic.Ring
import Virtkv.TwoLevel.Defs

/-!
# Leaves of the two-level table

What the loops of `twolevel.c` do to a single leaf. `LeafHolds m i L` reads the
words of leaf `i` as the packed list `L`; every loop gets one lemma that says what
it does to that list, and one that says it leaves the other leaves alone.
-/

namespace Virtkv

open Outcome

namespace TwoLevel

/-! ### Words of the page -/

theorem leafBase_eq (i : ℕ) : leafBase i = 61 + 16 * i := rfl

theorem inLeaf_eq : inLeaf = 8 := rfl

theorem inRoot_eq : inRoot = 60 := rfl

@[simp] theorem cnt_setSlot (m : PageWords) (i j h p : ℕ) : cnt (setSlot m i j h p) = cnt m := by
  unfold cnt setSlot
  rw [Function.update_of_ne (by rw [leafBase_eq]; omega),
    Function.update_of_ne (by rw [leafBase_eq]; omega)]

@[simp] theorem cnt_setEntry (m : PageWords) (i v : ℕ) : cnt (setEntry m i v) = cnt m := by
  unfold cnt setEntry
  rw [Function.update_of_ne (by omega)]

theorem entry_setSlot {m : PageWords} {i j h p k : ℕ} (hk : k < inRoot) :
    entry (setSlot m i j h p) k = entry m k := by
  rw [inRoot_eq] at hk
  unfold entry setSlot
  rw [Function.update_of_ne (by rw [leafBase_eq, inLeaf_eq]; omega),
    Function.update_of_ne (by rw [leafBase_eq]; omega)]

@[simp] theorem entry_setEntry_same (m : PageWords) (i v : ℕ) : entry (setEntry m i v) i = v := by
  simp [entry, setEntry]

theorem entry_setEntry_of_ne {m : PageWords} {i k v : ℕ} (hk : k ≠ i) :
    entry (setEntry m i v) k = entry m k := by
  unfold entry setEntry
  rw [Function.update_of_ne (by omega)]

theorem hidx_setEntry {m : PageWords} {i v k j : ℕ} (hi : i < inRoot) :
    hidx (setEntry m i v) k j = hidx m k j := by
  rw [inRoot_eq] at hi
  unfold hidx setEntry
  rw [Function.update_of_ne (by rw [leafBase_eq]; omega)]

theorem ppa_setEntry {m : PageWords} {i v k j : ℕ} (hi : i < inRoot) :
    ppa (setEntry m i v) k j = ppa m k j := by
  rw [inRoot_eq] at hi
  unfold ppa setEntry
  rw [Function.update_of_ne (by rw [leafBase_eq]; omega)]

theorem hidx_setSlot_same {m : PageWords} {i j h p : ℕ} :
    hidx (setSlot m i j h p) i j = h := by
  unfold hidx setSlot
  rw [Function.update_of_ne (by rw [inLeaf_eq]; omega), Function.update_self]

theorem ppa_setSlot_same {m : PageWords} {i j h p : ℕ} :
    ppa (setSlot m i j h p) i j = p := by
  simp [ppa, setSlot]

theorem hidx_setSlot_of_ne {m : PageWords} {i j h p i' j' : ℕ} (hj : j < inLeaf)
    (hj' : j' < inLeaf) (hne : i' ≠ i ∨ j' ≠ j) :
    hidx (setSlot m i j h p) i' j' = hidx m i' j' := by
  rw [inLeaf_eq] at hj hj'
  unfold hidx setSlot
  rw [Function.update_of_ne (by simp only [leafBase_eq, inLeaf_eq]; omega),
    Function.update_of_ne (by simp only [leafBase_eq]; omega)]

theorem ppa_setSlot_of_ne {m : PageWords} {i j h p i' j' : ℕ} (hj : j < inLeaf)
    (hj' : j' < inLeaf) (hne : i' ≠ i ∨ j' ≠ j) :
    ppa (setSlot m i j h p) i' j' = ppa m i' j' := by
  rw [inLeaf_eq] at hj hj'
  unfold ppa setSlot
  rw [Function.update_of_ne (by simp only [leafBase_eq, inLeaf_eq]; omega),
    Function.update_of_ne (by simp only [leafBase_eq, inLeaf_eq]; omega)]

/-! ### A leaf as a packed list -/

/-- Leaf `i` holds the pairs `L`, packed from slot 0, and nothing else. -/
structure LeafHolds (m : PageWords) (i : ℕ) (L : List LeafE) : Prop where
  length_le : L.length ≤ inLeaf
  slot : ∀ j (hj : j < L.length), hidx m i j = L[j].1 ∧ ppa m i j = L[j].2
  empty : ∀ j, L.length ≤ j → j < inLeaf → hidx m i j = uintMax
  key_ne : ∀ e ∈ L, e.1 ≠ uintMax

/-- The slots of leaf `i` are the same words in both pages. -/
def SameLeaf (m m' : PageWords) (i : ℕ) : Prop :=
  ∀ j < inLeaf, hidx m' i j = hidx m i j ∧ ppa m' i j = ppa m i j

theorem SameLeaf.trans {m m' m'' : PageWords} {i : ℕ} (h : SameLeaf m m' i)
    (h' : SameLeaf m' m'' i) : SameLeaf m m'' i := fun j hj =>
  ⟨(h' j hj).1.trans (h j hj).1, (h' j hj).2.trans (h j hj).2⟩

theorem LeafHolds.same {m m' : PageWords} {i : ℕ} {L : List LeafE} (h : LeafHolds m i L)
    (hs : SameLeaf m m' i) : LeafHolds m' i L where
  length_le := h.length_le
  slot j hj := by
    have hj8 : j < inLeaf := lt_of_lt_of_le hj h.length_le
    rw [(hs j hj8).1, (hs j hj8).2]
    exact h.slot j hj
  empty j hj hj8 := by rw [(hs j hj8).1]; exact h.empty j hj hj8
  key_ne := h.key_ne

theorem sameLeaf_setSlot {m : PageWords} {i j h p k : ℕ} (hj : j < inLeaf) (hk : k ≠ i) :
    SameLeaf m (setSlot m i j h p) k := fun _ hj' =>
  ⟨hidx_setSlot_of_ne hj hj' (.inl hk), ppa_setSlot_of_ne hj hj' (.inl hk)⟩

theorem sameLeaf_setEntry {m : PageWords} {i v k : ℕ} (hi : i < inRoot) :
    SameLeaf m (setEntry m i v) k := fun _ _ => ⟨hidx_setEntry hi, ppa_setEntry hi⟩

/-- The last slot tells whether a leaf is full. -/
theorem LeafHolds.last_eq_iff {m : PageWords} {i : ℕ} {L : List LeafE} (h : LeafHolds m i L) :
    hidx m i (inLeaf - 1) = uintMax ↔ L.length < inLeaf := by
  constructor
  · intro hlast
    by_contra hlen
    have hj : inLeaf - 1 < L.length := by have := inLeaf_eq; omega
    refine h.key_ne _ (L.getElem_mem hj) ?_
    rw [← (h.slot _ hj).1]
    exact hlast
  · intro hlen
    exact h.empty _ (by omega) (by have := inLeaf_eq; omega)

/-- In a list without repeated indices an index has one position. -/
theorem key_inj {L : List LeafE} (hnd : (L.map Prod.fst).Nodup) {a b : ℕ} (ha : a < L.length)
    (hb : b < L.length) (heq : L[a].1 = L[b].1) : a = b := by
  have ha' : a < (L.map Prod.fst).length := by simpa using ha
  have hb' : b < (L.map Prod.fst).length := by simpa using hb
  have heq' : (L.map Prod.fst)[a] = (L.map Prod.fst)[b] := by simpa using heq
  exact hnd.getElem_inj_iff.mp heq'

theorem leafHolds_nil {m : PageWords} {i : ℕ} (h : ∀ j < inLeaf, hidx m i j = uintMax) :
    LeafHolds m i [] where
  length_le := Nat.zero_le _
  slot j hj := absurd hj (Nat.not_lt_zero j)
  empty j _ hj := h j hj
  key_ne _ he := absurd he (List.not_mem_nil)

/-! ### The filling loop -/

/-- From a slot before the first empty one on, the loop writes the first empty one. -/
theorem fillSlot_eq {m : PageWords} {i h p : ℕ} {L : List LeafE} (hL : LeafHolds m i L)
    (hroom : L.length < inLeaf) {n j : ℕ} (hj : j ≤ L.length) (hn : L.length < j + n) :
    fillSlot i h p n j m = setSlot m i L.length h p := by
  induction n generalizing j with
  | zero => omega
  | succ n ih =>
    rw [fillSlot]
    by_cases hlt : j < L.length
    · rw [if_neg, ih (by omega) (by omega)]
      rw [(hL.slot j hlt).1]
      exact hL.key_ne _ (L.getElem_mem hlt)
    · obtain rfl : j = L.length := by omega
      rw [if_pos (hL.empty _ le_rfl hroom)]

theorem LeafHolds.fill {m : PageWords} {i h p : ℕ} {L : List LeafE} (hL : LeafHolds m i L)
    (hroom : L.length < inLeaf) (hh : h ≠ uintMax) :
    LeafHolds (setSlot m i L.length h p) i (L ++ [(h, p)]) where
  length_le := by
    rw [List.length_append, List.length_singleton]
    exact hroom
  slot j hj := by
    rw [List.length_append, List.length_singleton] at hj
    by_cases hlt : j < L.length
    · rw [hidx_setSlot_of_ne hroom (by omega) (.inr (by omega)),
        ppa_setSlot_of_ne hroom (by omega) (.inr (by omega)), List.getElem_append_left hlt]
      exact hL.slot j hlt
    · obtain rfl : j = L.length := by omega
      simp [hidx_setSlot_same, ppa_setSlot_same]
  empty j hj hj8 := by
    rw [List.length_append, List.length_singleton] at hj
    rw [hidx_setSlot_of_ne hroom hj8 (.inr (by omega))]
    exact hL.empty j (by omega) hj8
  key_ne e he := by
    rcases List.mem_append.mp he with he | he
    · exact hL.key_ne e he
    · rw [List.mem_singleton.mp he]
      exact hh

/-! ### The shifting loop of a delete -/

@[simp] theorem cnt_shiftLeaf (i n j : ℕ) (m : PageWords) : cnt (shiftLeaf i n j m) = cnt m := by
  induction n generalizing j m with
  | zero => simp [shiftLeaf]
  | succ n ih => simp [shiftLeaf, ih]

theorem entry_shiftLeaf {i n j k : ℕ} {m : PageWords} (hk : k < inRoot) :
    entry (shiftLeaf i n j m) k = entry m k := by
  induction n generalizing j m with
  | zero => exact entry_setSlot hk
  | succ n ih => rw [shiftLeaf, ih, entry_setSlot hk]

theorem sameLeaf_shiftLeaf {i n j k : ℕ} {m : PageWords} (hn : j + n < inLeaf) (hk : k ≠ i) :
    SameLeaf m (shiftLeaf i n j m) k := by
  induction n generalizing j m with
  | zero => exact sameLeaf_setSlot hn hk
  | succ n ih =>
    rw [shiftLeaf]
    exact (sameLeaf_setSlot (by omega) hk).trans (ih (by omega))

/-- Slot by slot: slots before `j` stay, slot `j + n` is emptied, the ones between
take their successor. -/
theorem hidx_ppa_shiftLeaf {i n j : ℕ} {m : PageWords} (hn : j + n < inLeaf) {k : ℕ}
    (hk : k < inLeaf) :
    (hidx (shiftLeaf i n j m) i k, ppa (shiftLeaf i n j m) i k) =
      if k < j ∨ j + n < k then (hidx m i k, ppa m i k)
      else if k = j + n then (uintMax, uintMax)
      else (hidx m i (k + 1), ppa m i (k + 1)) := by
  induction n generalizing j m with
  | zero =>
    rw [shiftLeaf]
    by_cases hkj : k = j
    · subst hkj
      simp [hidx_setSlot_same, ppa_setSlot_same]
    · rw [hidx_setSlot_of_ne (by omega) hk (.inr hkj), ppa_setSlot_of_ne (by omega) hk (.inr hkj),
        if_pos (by omega)]
  | succ n ih =>
    rw [shiftLeaf, ih (by omega)]
    by_cases hlow : k < j
    · rw [if_pos (by omega), if_pos (by omega),
        hidx_setSlot_of_ne (by omega) hk (.inr (by omega)),
        ppa_setSlot_of_ne (by omega) hk (.inr (by omega))]
    by_cases hkj : k = j
    · subst hkj
      rw [if_pos (by omega), if_neg (by omega), if_neg (by omega)]
      simp [hidx_setSlot_same, ppa_setSlot_same]
    by_cases hhigh : j + (n + 1) < k
    · rw [if_pos (by omega), if_pos (by omega),
        hidx_setSlot_of_ne (by omega) hk (.inr (by omega)),
        ppa_setSlot_of_ne (by omega) hk (.inr (by omega))]
    rw [if_neg (show ¬(k < j + 1 ∨ j + 1 + n < k) by omega),
      if_neg (show ¬(k < j ∨ j + (n + 1) < k) by omega)]
    by_cases hlast : k = j + (n + 1)
    · rw [if_pos (by omega), if_pos hlast]
    · rw [if_neg (by omega), if_neg hlast,
        hidx_setSlot_of_ne (by omega) (by omega) (.inr (by omega)),
        ppa_setSlot_of_ne (by omega) (by omega) (.inr (by omega))]

/-- Shifting from slot `j` on removes the pair at position `j`. -/
theorem LeafHolds.shift {m : PageWords} {i j : ℕ} {L : List LeafE} (hL : LeafHolds m i L)
    (hj : j < L.length) :
    LeafHolds (shiftLeaf i (inLeaf - 1 - j) j m) i (L.eraseIdx j) := by
  have hlen := hL.length_le
  have h8 := inLeaf_eq
  have hword : ∀ k < inLeaf, _ := fun k hk =>
    hidx_ppa_shiftLeaf (i := i) (n := inLeaf - 1 - j) (j := j) (m := m) (by omega) (k := k) hk
  have hL' : (L.eraseIdx j).length = L.length - 1 := List.length_eraseIdx_of_lt hj
  refine ⟨by omega, ?_, ?_, ?_⟩
  · intro k hk
    have hw := hword k (by omega)
    rw [List.getElem_eraseIdx]
    by_cases hkj : k < j
    · rw [if_pos (by omega)] at hw
      rw [dif_pos hkj]
      simp only [Prod.mk.injEq] at hw
      rw [hw.1, hw.2]
      exact hL.slot k (by omega)
    · rw [if_neg (by omega), if_neg (by omega)] at hw
      rw [dif_neg hkj]
      simp only [Prod.mk.injEq] at hw
      rw [hw.1, hw.2]
      exact hL.slot (k + 1) (by omega)
  · intro k hk hk8
    have hw := hword k hk8
    rw [if_neg (by omega)] at hw
    by_cases hlast : k = j + (inLeaf - 1 - j)
    · rw [if_pos hlast] at hw
      exact congrArg Prod.fst hw
    · rw [if_neg hlast] at hw
      simp only [Prod.mk.injEq] at hw
      rw [hw.1]
      exact hL.empty (k + 1) (by omega) (by omega)
  · intro e he
    exact hL.key_ne e (List.mem_of_mem_eraseIdx he)

/-! ### The raw overwrite -/

theorem slotPos_eq (i j : ℕ) : slotPos i j = 276 + 64 * i + 4 * j := by
  simp only [slotPos, leafBase_eq, inLeaf_eq]
  ring

theorem posLeaf_slotPos {i j : ℕ} (hj : j < inLeaf) : posLeaf (slotPos i j) = i := by
  rw [inLeaf_eq] at hj
  have : posLeaf (slotPos i j) = slotPos i j / 64 - 4 := rfl
  rw [this, slotPos_eq]
  omega

theorem posSlot_slotPos {i j : ℕ} (hj : j < inLeaf) : posSlot (slotPos i j) = j := by
  rw [posSlot, posLeaf_slotPos hj, slotPos_eq, leafBase_eq, inLeaf_eq]
  omega

/-- Writing a word through a position is writing the grain of the slot. -/
theorem update_slotPos (m : PageWords) (i j p : ℕ) :
    Function.update m (slotPos i j / 4) p = Function.update m (leafBase i + inLeaf + j) p := by
  congr 1
  unfold slotPos
  omega

theorem cnt_update_slot (m : PageWords) (i j p : ℕ) :
    cnt (Function.update m (leafBase i + inLeaf + j) p) = cnt m := by
  unfold cnt
  rw [Function.update_of_ne (by rw [leafBase_eq]; omega)]

theorem entry_update_slot {m : PageWords} {i j p k : ℕ} (hk : k < inRoot) :
    entry (Function.update m (leafBase i + inLeaf + j) p) k = entry m k := by
  rw [inRoot_eq] at hk
  unfold entry
  rw [Function.update_of_ne (by rw [leafBase_eq]; omega)]

theorem hidx_update_slot {m : PageWords} {i j p i' j' : ℕ} (hj : j < inLeaf)
    (hj' : j' < inLeaf) :
    hidx (Function.update m (leafBase i + inLeaf + j) p) i' j' = hidx m i' j' := by
  rw [inLeaf_eq] at hj hj'
  unfold hidx
  rw [Function.update_of_ne (by simp only [leafBase_eq, inLeaf_eq]; omega)]

theorem ppa_update_slot_of_ne {m : PageWords} {i j p i' j' : ℕ} (hj : j < inLeaf)
    (hj' : j' < inLeaf) (hne : i' ≠ i ∨ j' ≠ j) :
    ppa (Function.update m (leafBase i + inLeaf + j) p) i' j' = ppa m i' j' := by
  rw [inLeaf_eq] at hj hj'
  unfold ppa
  rw [Function.update_of_ne (by simp only [leafBase_eq, inLeaf_eq]; omega)]

theorem LeafHolds.overwrite {m : PageWords} {i j h p p' : ℕ} {L : List LeafE}
    (hL : LeafHolds m i L) (hj : j < L.length) (hkey : L[j] = (h, p')) :
    LeafHolds (Function.update m (leafBase i + inLeaf + j) p) i (L.set j (h, p)) := by
  have hlen := hL.length_le
  refine ⟨by simpa using hlen, ?_, ?_, ?_⟩
  · intro k hk
    rw [List.length_set] at hk
    rw [hidx_update_slot (by omega) (by omega), List.getElem_set]
    by_cases hkj : j = k
    · subst hkj
      rw [if_pos rfl]
      refine ⟨by rw [(hL.slot j hj).1, hkey], ?_⟩
      unfold ppa
      rw [Function.update_self]
    · rw [if_neg hkj, ppa_update_slot_of_ne (by omega) (by omega) (.inr (Ne.symm hkj))]
      exact hL.slot k hk
  · intro k hk hk8
    rw [List.length_set] at hk
    rw [hidx_update_slot (by omega) hk8]
    exact hL.empty k hk hk8
  · intro e he
    rcases List.mem_or_eq_of_mem_set he with he | rfl
    · exact hL.key_ne e he
    · have := hL.key_ne _ (L.getElem_mem hj)
      rwa [hkey] at this

/-! ### The searching loop -/

/-- An index of the leaf is found at its slot. -/
theorem findInLeaf_of_mem {m : PageWords} {i h : ℕ} {L : List LeafE} (hL : LeafHolds m i L)
    (hnd : (L.map Prod.fst).Nodup) {k : ℕ} (hk : k < L.length) (hkey : L[k].1 = h) {n j : ℕ}
    (hj : j ≤ k) (hn : k < j + n) :
    findInLeaf m i h n j = (L[k].2, some (slotPos i k)) := by
  induction n generalizing j with
  | zero => omega
  | succ n ih =>
    rw [findInLeaf]
    by_cases hjk : j = k
    · subst hjk
      rw [if_pos ((hL.slot j hk).1.trans hkey), (hL.slot j hk).2]
    · have hlt : j < L.length := by omega
      have hne : hidx m i j ≠ h := by
        rw [(hL.slot j hlt).1, ← hkey]
        intro heq
        exact hjk (key_inj hnd hlt hk heq)
      have hne' : hidx m i j ≠ uintMax := by
        rw [(hL.slot j hlt).1]
        exact hL.key_ne _ (L.getElem_mem hlt)
      rw [if_neg hne, if_neg hne']
      exact ih (by omega) (by omega)

/-- An index that is not in the leaf is not found. -/
theorem findInLeaf_of_not_mem {m : PageWords} {i h : ℕ} {L : List LeafE} (hL : LeafHolds m i L)
    (hh : h ≠ uintMax) (hmem : ∀ e ∈ L, e.1 ≠ h) {n j : ℕ} (hn : j + n ≤ inLeaf) :
    findInLeaf m i h n j = (uintMax, none) := by
  induction n generalizing j with
  | zero => rfl
  | succ n ih =>
    rw [findInLeaf]
    by_cases hlt : j < L.length
    · have hne : hidx m i j ≠ h := by
        rw [(hL.slot j hlt).1]
        exact hmem _ (L.getElem_mem hlt)
      have hne' : hidx m i j ≠ uintMax := by
        rw [(hL.slot j hlt).1]
        exact hL.key_ne _ (L.getElem_mem hlt)
      rw [if_neg hne, if_neg hne']
      exact ih (by omega)
    · have hemp := hL.empty j (by omega) (by omega)
      rw [hemp, if_neg (Ne.symm hh), if_pos rfl]

/-! ### The gathering loops -/

/-- What gathering leaves behind in a page: the leaves of `P` are emptied, the other
leaves and the root are as before. -/
structure Drained (m m' : PageWords) (P : ℕ → Prop) : Prop where
  cnt_eq : cnt m' = cnt m
  emptied : ∀ i, P i → ∀ j < inLeaf, hidx m' i j = uintMax
  same : ∀ i, ¬P i → SameLeaf m m' i

theorem drainLeaf_spec {m : PageWords} {i : ℕ} {L : List LeafE} {n j : ℕ} (hn : j + n = inLeaf)
    (hlen : j + L.length ≤ inLeaf) (hkey : ∀ e ∈ L, e.1 ≠ uintMax)
    (hslot : ∀ k (hk : k < L.length), hidx m i (j + k) = L[k].1 ∧ ppa m i (j + k) = L[k].2)
    (hemp : ∀ k, j + L.length ≤ k → k < inLeaf → hidx m i k = uintMax)
    (hbefore : ∀ k < j, hidx m i k = uintMax) :
    (drainLeaf i n j m).1 = L ∧ Drained m (drainLeaf i n j m).2 (· = i) := by
  induction n generalizing j m L with
  | zero =>
    have hL : L = [] := List.length_eq_zero_iff.mp (by omega)
    subst hL
    refine ⟨rfl, ⟨rfl, ?_, fun _ _ _ _ => ⟨rfl, rfl⟩⟩⟩
    rintro k rfl k' hk'
    exact hbefore k' (by omega)
  | succ n ih =>
    rw [drainLeaf]
    cases L with
    | nil =>
      have hj := hemp j (by simp) (by omega)
      rw [if_pos hj]
      refine ⟨rfl, ⟨rfl, ?_, fun _ _ _ _ => ⟨rfl, rfl⟩⟩⟩
      rintro k rfl k' hk'
      by_cases hlt : k' < j
      · exact hbefore k' hlt
      · exact hemp k' (by simpa using hlt) hk'
    | cons e L =>
      have h0 := hslot 0 (by simp)
      simp only [Nat.add_zero, List.getElem_cons_zero] at h0
      rw [List.length_cons] at hlen hemp
      have hne : hidx m i j ≠ uintMax := by
        rw [h0.1]
        exact hkey e (by simp)
      rw [if_neg hne]
      have hrec := ih (m := setSlot m i j uintMax uintMax) (L := L) (j := j + 1) (by omega)
        (by omega) (fun e' he' => hkey e' (by simp [he'])) ?_ ?_ ?_
      · refine ⟨by simp only [hrec.1, h0.1, h0.2], ?_, hrec.2.emptied, ?_⟩
        · rw [hrec.2.cnt_eq, cnt_setSlot]
        · intro k hk
          exact (sameLeaf_setSlot (by omega) hk).trans (hrec.2.same k hk)
      · intro k hk
        have hs := hslot (k + 1) (by simpa using hk)
        rw [List.getElem_cons_succ] at hs
        rw [hidx_setSlot_of_ne (by omega) (by omega) (.inr (by omega)),
          ppa_setSlot_of_ne (by omega) (by omega) (.inr (by omega))]
        have hidx' : j + 1 + k = j + (k + 1) := by omega
        rw [hidx']
        exact hs
      · intro k hk hk8
        rw [hidx_setSlot_of_ne (by omega) hk8 (.inr (by omega))]
        exact hemp k (by omega) hk8
      · intro k hk
        by_cases hkj : k = j
        · subst hkj
          exact hidx_setSlot_same
        · rw [hidx_setSlot_of_ne (by omega) (by omega) (.inr hkj)]
          exact hbefore k (by omega)

/-- Gathering a leaf returns its pairs and empties it. -/
theorem LeafHolds.drain {m : PageWords} {i : ℕ} {L : List LeafE} (hL : LeafHolds m i L) :
    (drainLeaf i inLeaf 0 m).1 = L ∧ Drained m (drainLeaf i inLeaf 0 m).2 (· = i) := by
  refine drainLeaf_spec (by omega) (by have := hL.length_le; omega) hL.key_ne ?_ ?_ (by omega)
  · intro k hk
    rw [Nat.zero_add]
    exact hL.slot k hk
  · intro k hk hk8
    exact hL.empty k (by omega) hk8

/-- Gathering `n` leaves from `i` on returns their pairs in order and empties them. -/
theorem drainLeaves_spec {m : PageWords} (Ls : ℕ → List LeafE) {n i : ℕ}
    (hL : ∀ k, i ≤ k → k < i + n → LeafHolds m k (Ls k)) :
    (drainLeaves n i m).1 = (List.range' i n).flatMap Ls ∧
      Drained m (drainLeaves n i m).2 (fun k => i ≤ k ∧ k < i + n) := by
  induction n generalizing i m with
  | zero =>
    exact ⟨rfl, rfl, fun k hk => absurd hk (by omega), fun _ _ _ _ => ⟨rfl, rfl⟩⟩
  | succ n ih =>
    have h1 := (hL i le_rfl (by omega)).drain
    have h2 := ih (m := (drainLeaf i inLeaf 0 m).2) (i := i + 1) (fun k hk hk' =>
      (hL k (by omega) (by omega)).same (h1.2.same k (by omega)))
    rw [drainLeaves]
    refine ⟨?_, ?_, ?_, ?_⟩
    · simp only [h1.1, h2.1]
      rw [List.range'_succ, List.flatMap_cons]
    · exact h2.2.cnt_eq.trans h1.2.cnt_eq
    · intro k hk j hj
      by_cases hki : k = i
      · subst hki
        rw [(h2.2.same k (by omega) j hj).1]
        exact h1.2.emptied k rfl j hj
      · exact h2.2.emptied k (by omega) j hj
    · intro k hk
      exact (h1.2.same k (by omega)).trans (h2.2.same k (by omega))

end TwoLevel

end Virtkv
