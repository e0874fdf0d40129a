import Mathlib.Logic.Function.Basic
import Mathlib.Order.Basic
import Mathlib.Data.Nat.Find

/-!
# Open addressing with a probe limit

A table of cells in which a key is looked for along its own probe sequence, over the
counts that are usable for it. A cell can be missing: its part of the table was never
allocated. A lookup passes missing cells and cells of other keys and ends at an empty
cell, at a cell of the key or behind the probe limit; an insertion stops at the first
cell that is free or of the key.

## Main results

- `Chained.insert`, `Chained.found` — without deletions every key is found where it was
  put
- `Unique.insert` — insertions that see no gap before a key keep it in one cell
- `FoundAt.delete_iff` — what a deletion does to the other keys
-/

namespace OpenAddressing

/-- A cell of the table. -/
inductive Cell (K V : Type) where
  | missing
  | empty
  | full (k : K) (v : V)

/-- The cells, and the highest count a key was put at. -/
structure Tab (K V : Type) where
  cell : ℕ → Cell K V
  maxTry : ℕ

/-- Where keys are looked for. -/
structure Scheme (K : Type) where
  slot : K → ℕ → ℕ
  usable : K → ℕ → Prop

variable {K V : Type}

/-- The cell holds another key. -/
def Cell.Other (k : K) : Cell K V → Prop
  | .full k' _ => k' ≠ k
  | _ => False

/-- A lookup of the key goes on behind the cell. -/
def Cell.Passes (k : K) : Cell K V → Prop
  | .missing => True
  | .empty => False
  | .full k' _ => k' ≠ k

theorem Cell.Other.passes {k : K} {x : Cell K V} (h : x.Other k) : x.Passes k := by
  cases x with
  | missing => exact h.elim
  | empty => exact h.elim
  | full k' v => exact h

variable (S : Scheme K)

/-- All usable counts below `c` satisfy `P`. -/
def Before (P : Cell K V → Prop) (t : Tab K V) (k : K) (c : ℕ) : Prop :=
  ∀ c' < c, S.usable k c' → P (t.cell (S.slot k c'))

/-- A lookup of the key ends in its cell, at count `c`. -/
structure FoundAt (t : Tab K V) (k : K) (c : ℕ) (v : V) : Prop where
  usable : S.usable k c
  le : c ≤ t.maxTry
  cell : t.cell (S.slot k c) = .full k v
  before : Before S (Cell.Passes k) t k c

/-- A lookup of the key ends without it. -/
def Absent (t : Tab K V) (k : K) : Prop :=
  ∃ c, S.usable k c ∧ Before S (Cell.Passes k) t k c ∧
    (t.maxTry < c ∨ t.cell (S.slot k c) = .empty)

variable {S} {t t' : Tab K V} {k : K} {v : V} {c : ℕ}

theorem FoundAt.not_absent (h : FoundAt S t k c v) : ¬Absent S t k := by
  rintro ⟨c', hu, hb, hend⟩
  rcases Nat.lt_trichotomy c' c with hlt | rfl | hlt
  · rcases hend with hmax | hcell
    · exact absurd h.le (by omega)
    · have := h.before c' hlt hu
      rw [hcell] at this
      exact this
  · rcases hend with hmax | hcell
    · exact absurd h.le (by omega)
    · rw [h.cell] at hcell
      cases hcell
  · have := hb c hlt h.usable
    rw [h.cell] at this
    exact this rfl

/-- A lookup ends at one count only. -/
theorem FoundAt.unique {c' : ℕ} {v' : V} (h : FoundAt S t k c v) (h' : FoundAt S t k c' v') :
    c = c' ∧ v = v' := by
  have hc : c = c' := by
    rcases Nat.lt_trichotomy c c' with hlt | heq | hlt
    · have := h'.before c hlt h.usable
      rw [h.cell] at this
      exact absurd rfl this
    · exact heq
    · have := h.before c' hlt h'.usable
      rw [h'.cell] at this
      exact absurd rfl this
  subst hc
  have hv := h.cell.symm.trans h'.cell
  cases hv
  exact ⟨rfl, rfl⟩

/-! ### Insertion -/

/-- The key is put into the first cell of its sequence that is free or its own. Parts of
the table can be allocated on the way. -/
structure Inserts (S : Scheme K) (t t' : Tab K V) (k : K) (c : ℕ) (v : V) : Prop where
  usable : S.usable k c
  before : Before S (Cell.Other k) t k c
  free : ∀ k' v', t.cell (S.slot k c) = .full k' v' → k' = k
  here : t'.cell (S.slot k c) = .full k v
  others : ∀ j, j ≠ S.slot k c →
    t'.cell j = t.cell j ∨ (t.cell j = .missing ∧ t'.cell j = .empty)
  maxTry : t'.maxTry = max t.maxTry c

/-- Cells of other keys keep their contents. -/
theorem Inserts.full_iff (h : Inserts S t t' k c v) {j : ℕ} {k' : K} {v' : V}
    (hj : j ≠ S.slot k c) : t'.cell j = .full k' v' ↔ t.cell j = .full k' v' := by
  rcases h.others j hj with heq | ⟨hm, he⟩
  · rw [heq]
  · rw [hm, he]
    constructor <;> intro hc <;> cases hc

/-- What is before a key in occupied cells stays there. -/
theorem Inserts.before_other (h : Inserts S t t' k c v) {k' : K} {c' : ℕ} (hk : k' ≠ k)
    (hb : Before S (Cell.Other k') t k' c') : Before S (Cell.Other k') t' k' c' := by
  intro i hi hu
  have hold := hb i hi hu
  by_cases hs : S.slot k' i = S.slot k c
  · rw [hs, h.here]
    exact Ne.symm hk
  · rcases h.others _ hs with heq | ⟨hm, -⟩
    · rwa [heq]
    · rw [hm] at hold
      exact hold.elim

/-- Every key in the table has only cells of other keys before it, and is within the probe
limit. -/
def Chained (S : Scheme K) (t : Tab K V) : Prop :=
  ∀ j k v, t.cell j = .full k v →
    ∃ c, S.usable k c ∧ c ≤ t.maxTry ∧ S.slot k c = j ∧ Before S (Cell.Other k) t k c

theorem Chained.found (h : Chained S t) {j : ℕ} (hj : t.cell j = .full k v) :
    ∃ c, S.slot k c = j ∧ FoundAt S t k c v := by
  obtain ⟨c, hu, hle, hs, hb⟩ := h j k v hj
  exact ⟨c, hs, hu, hle, by rw [hs, hj], fun i hi hui => (hb i hi hui).passes⟩

/-- A key that is in the table is overwritten in its cell. -/
theorem Chained.insert_slot (h : Chained S t) (hi : Inserts S t t' k c v) {j : ℕ} {v' : V}
    (hj : t.cell j = .full k v') : S.slot k c = j := by
  obtain ⟨c', hu, -, hs, hb⟩ := h j k v' hj
  rcases Nat.lt_trichotomy c c' with hlt | rfl | hlt
  · have hother := hb c hlt hi.usable
    cases hcell : t.cell (S.slot k c) with
    | missing => rw [hcell] at hother; exact hother.elim
    | empty => rw [hcell] at hother; exact hother.elim
    | full k'' v'' =>
      rw [hcell] at hother
      exact absurd (hi.free k'' v'' hcell) hother
  · exact hs
  · have hother := hi.before c' hlt hu
    rw [hs, hj] at hother
    exact absurd rfl hother

/-- Insertions keep the chains. -/
theorem Chained.insert (h : Chained S t) (hi : Inserts S t t' k c v) : Chained S t' := by
  intro j k' v' hj
  by_cases hs : j = S.slot k c
  · subst hs
    rw [hi.here] at hj
    cases hj
    refine ⟨c, hi.usable, by rw [hi.maxTry]; exact le_max_right _ _, rfl, fun i hlt hu => ?_⟩
    have hold := hi.before i hlt hu
    have hne : S.slot k i ≠ S.slot k c := by
      intro heq
      rw [heq] at hold
      cases hcell : t.cell (S.slot k c) with
      | missing => rw [hcell] at hold; exact hold.elim
      | empty => rw [hcell] at hold; exact hold.elim
      | full k'' v'' =>
        rw [hcell] at hold
        exact absurd (hi.free k'' v'' hcell) hold
    rcases hi.others _ hne with heq | ⟨hm, -⟩
    · rwa [heq]
    · rw [hm] at hold
      exact hold.elim
  · rw [hi.full_iff hs] at hj
    obtain ⟨c', hu, hle, hs', hb⟩ := h j k' v' hj
    have hk : k' ≠ k := by
      rintro rfl
      exact hs (h.insert_slot hi hj).symm
    exact ⟨c', hu, hle.trans (by rw [hi.maxTry]; exact le_max_left _ _), hs',
      hi.before_other hk hb⟩

/-! ### The contents of the table -/

/-- The table holds the given map. -/
def Holds (t : Tab K V) (m : K → Option V) : Prop :=
  ∀ k v, m k = some v ↔ ∃ j, t.cell j = .full k v

/-- An insertion updates the map. -/
theorem Holds.insert [DecidableEq K] {m : K → Option V} (hm : Holds t m) (h : Chained S t)
    (hi : Inserts S t t' k c v) : Holds t' (Function.update m k (some v)) := by
  intro k' v'
  by_cases hk : k' = k
  · subst hk
    rw [Function.update_self]
    constructor
    · intro hv
      cases hv
      exact ⟨_, hi.here⟩
    · rintro ⟨j, hj⟩
      by_cases hs : j = S.slot k' c
      · rw [hs, hi.here] at hj
        cases hj
        rfl
      · rw [hi.full_iff hs] at hj
        exact absurd (h.insert_slot hi hj).symm hs
  · rw [Function.update_of_ne hk, hm k' v']
    constructor
    · rintro ⟨j, hj⟩
      have hs : j ≠ S.slot k c := by
        rintro rfl
        exact hk (hi.free k' v' hj)
      exact ⟨j, (hi.full_iff hs).mpr hj⟩
    · rintro ⟨j, hj⟩
      have hs : j ≠ S.slot k c := by
        rintro rfl
        rw [hi.here] at hj
        cases hj
        exact hk rfl
      exact ⟨j, (hi.full_iff hs).mp hj⟩

/-! ### Deletion -/

/-- A cell is emptied. -/
structure Deletes (t t' : Tab K V) (j : ℕ) : Prop where
  here : t'.cell j = .empty
  others : ∀ i, i ≠ j → t'.cell i = t.cell i
  maxTry : t'.maxTry = t.maxTry

/-- After the deletion of a cell of another key, a key is found as before if and only if
the cell was not passed on the way to it. -/
theorem FoundAt.delete_iff {j : ℕ} (hd : Deletes t t' j) (h : FoundAt S t k c v)
    (hj : j ≠ S.slot k c) :
    FoundAt S t' k c v ↔ ∀ c' < c, S.usable k c' → S.slot k c' ≠ j := by
  constructor
  · intro h' c' hlt hu heq
    have := h'.before c' hlt hu
    rw [heq, hd.here] at this
    exact this
  · intro hno
    refine ⟨h.usable, by rw [hd.maxTry]; exact h.le, ?_, fun c' hlt hu => ?_⟩
    · rw [hd.others _ (Ne.symm hj)]
      exact h.cell
    · rw [hd.others _ (hno c' hlt hu)]
      exact h.before c' hlt hu

/-- If the cell was passed on the way, the key is no longer found. -/
theorem FoundAt.absent_of_delete {j c' : ℕ} (hd : Deletes t t' j) (h : FoundAt S t k c v)
    (hlt : c' < c) (hu : S.usable k c') (hs : S.slot k c' = j) : Absent S t' k := by
  classical
  -- the first count at which the emptied cell is met
  have hex : ∃ i, i < c ∧ S.usable k i ∧ S.slot k i = j := ⟨c', hlt, hu, hs⟩
  obtain ⟨hi, hiu, his⟩ := Nat.find_spec hex
  refine ⟨Nat.find hex, hiu, fun i hlt' hu' => ?_, .inr (by rw [his]; exact hd.here)⟩
  have hne : S.slot k i ≠ j := fun heq => Nat.find_min hex hlt' ⟨hlt'.trans hi, hu', heq⟩
  rw [hd.others _ hne]
  exact h.before i (hlt'.trans hi) hu'

/-- A key that is not found before a deletion is not found after it. -/
theorem Absent.delete {j : ℕ} (hd : Deletes t t' j) (h : Absent S t k) : Absent S t' k := by
  classical
  obtain ⟨c, hu, hb, hend⟩ := h
  by_cases hex : ∃ i, i < c ∧ S.usable k i ∧ S.slot k i = j
  · obtain ⟨hi, hiu, his⟩ := Nat.find_spec hex
    refine ⟨Nat.find hex, hiu, fun i hlt' hu' => ?_, .inr (by rw [his]; exact hd.here)⟩
    have hne : S.slot k i ≠ j := fun heq => Nat.find_min hex hlt' ⟨hlt'.trans hi, hu', heq⟩
    rw [hd.others _ hne]
    exact hb i (hlt'.trans hi) hu'
  · refine ⟨c, hu, fun i hlt hu' => ?_, ?_⟩
    · rw [hd.others _ fun heq => hex ⟨i, hlt, hu', heq⟩]
      exact hb i hlt hu'
    · rcases hend with hmax | hcell
      · exact .inl (by rw [hd.maxTry]; exact hmax)
      · right
        by_cases heq : S.slot k c = j
        · rw [heq]
          exact hd.here
        · rw [hd.others _ heq]
          exact hcell

/-! ### Keys in one cell -/

/-- No key is in two cells. -/
def Unique (t : Tab K V) : Prop :=
  ∀ i j k v w, t.cell i = .full k v → t.cell j = .full k w → i = j

/-- No free cell comes before a cell of the key, up to where its sequence first meets it. -/
def NoGap (S : Scheme K) (t : Tab K V) (k : K) : Prop :=
  ∀ j v, t.cell j = .full k v → ∃ c, S.usable k c ∧ S.slot k c = j ∧
    ∀ c' < c, S.usable k c' → ∃ k' v', t.cell (S.slot k c') = .full k' v'

theorem Unique.delete {j : ℕ} (h : Unique t) (hd : Deletes t t' j) : Unique t' := by
  have hold : ∀ i k v, t'.cell i = .full k v → t.cell i = .full k v := by
    intro i k v hi
    by_cases hs : i = j
    · rw [hs, hd.here] at hi
      cases hi
    · rwa [hd.others i hs] at hi
  intro i i' k v w hv hw
  exact h i i' k v w (hold i k v hv) (hold i' k w hw)

/-- Without deletions there are no gaps. -/
theorem Chained.noGap (h : Chained S t) : NoGap S t k := by
  intro j v hj
  obtain ⟨c, hu, -, hs, hb⟩ := h j k v hj
  refine ⟨c, hu, hs, fun c' hlt hu' => ?_⟩
  have hother := hb c' hlt hu'
  cases hcell : t.cell (S.slot k c') with
  | missing => rw [hcell] at hother; exact hother.elim
  | empty => rw [hcell] at hother; exact hother.elim
  | full k' v' => exact ⟨k', v', rfl⟩

/-- An insertion of a key with no gap before it overwrites the cell of the key. -/
theorem NoGap.insert_slot (hg : NoGap S t k) (hi : Inserts S t t' k c v) {j : ℕ} {w : V}
    (hj : t.cell j = .full k w) : ∃ w', t.cell (S.slot k c) = .full k w' := by
  obtain ⟨c', hu, rfl, hfull⟩ := hg j w hj
  rcases Nat.lt_trichotomy c c' with hlt | rfl | hlt
  · obtain ⟨k', v', hcell⟩ := hfull c hlt hi.usable
    have hk := hi.free k' v' hcell
    subst hk
    exact ⟨v', hcell⟩
  · exact ⟨w, hj⟩
  · have hother := hi.before c' hlt hu
    rw [hj] at hother
    exact absurd rfl hother

/-- Such an insertion keeps every key in one cell. -/
theorem Unique.insert (h : Unique t) (hg : NoGap S t k) (hi : Inserts S t t' k c v) :
    Unique t' := by
  have hkey : ∀ j w, j ≠ S.slot k c → t'.cell j ≠ .full k w := by
    intro j w hj hcell
    rw [hi.full_iff hj] at hcell
    obtain ⟨w', hw'⟩ := hg.insert_slot hi hcell
    exact hj (h j _ k w w' hcell hw')
  intro i j k' x y hx hy
  by_cases hix : i = S.slot k c
  · by_cases hjy : j = S.slot k c
    · rw [hix, hjy]
    · rw [hix, hi.here] at hx
      cases hx
      exact absurd hy (hkey j y hjy)
  · by_cases hjy : j = S.slot k c
    · rw [hjy, hi.here] at hy
      cases hy
      exact absurd hx (hkey i x hix)
    · exact h i j k' x y ((hi.full_iff hix).mp hx) ((hi.full_iff hjy).mp hy)

end OpenAddressing
