import Mathlib.Data.Finset.Card
import Mathlib.Data.Finset.Basic

/-!
# A ledger of items and their holders

Items are taken into use with a holder, given up, and taken out of use again. The ledger
counts the held items (`live`) and the given-up items (`dead`) of any region, and says how
each step changes the counts. It serves as a ghost state: counters that a program keeps
are related to the counts of the ledger.

## Main results

- `live_add`, `dead_add` — taking items into use
- `live_kill`, `dead_kill` — giving items up
- `live_erase`, `dead_erase` — taking a region out of use
-/

/-- The items in use, and the holder of each that is still held. -/
structure Ledger (α ω : Type) where
  used : Finset α
  owner : α → Option ω

namespace Ledger

variable {α ω : Type} [DecidableEq α] (L : Ledger α ω)

/-- The held items of a region. -/
def live (P : α → Prop) [DecidablePred P] : ℕ :=
  (L.used.filter fun a => P a ∧ (L.owner a).isSome).card

/-- The items of a region that were given up. -/
def dead (P : α → Prop) [DecidablePred P] : ℕ :=
  (L.used.filter fun a => P a ∧ (L.owner a).isNone).card

/-- Take items into use. -/
def add (R : Finset α) (o : ω) : Ledger α ω where
  used := L.used ∪ R
  owner a := if a ∈ R then some o else L.owner a

/-- Give items up. -/
def kill (R : Finset α) : Ledger α ω where
  used := L.used
  owner a := if a ∈ R then none else L.owner a

/-- Take items into use and give them up at once. -/
def waste (R : Finset α) : Ledger α ω where
  used := L.used ∪ R
  owner a := if a ∈ R then none else L.owner a

/-- Hand items to another holder. -/
def assign (R : Finset α) (o : ω) : Ledger α ω where
  used := L.used
  owner a := if a ∈ R then some o else L.owner a

/-- Take a region out of use. -/
def erase (Q : α → Prop) [DecidablePred Q] : Ledger α ω where
  used := L.used.filter fun a => ¬Q a
  owner a := if Q a then none else L.owner a

variable {L} {R : Finset α} {o : ω} {P : α → Prop} [DecidablePred P]

@[simp] theorem used_add : (L.add R o).used = L.used ∪ R := rfl

theorem owner_add (a : α) : (L.add R o).owner a = if a ∈ R then some o else L.owner a := rfl

@[simp] theorem used_kill : (L.kill R).used = L.used := rfl

theorem owner_kill (a : α) : (L.kill R).owner a = if a ∈ R then none else L.owner a := rfl

theorem kill_kill (R' : Finset α) : (L.kill R).kill R' = L.kill (R ∪ R') := by
  unfold kill
  congr 1
  funext a
  by_cases h : a ∈ R <;> by_cases h' : a ∈ R' <;> simp [h, h']

theorem kill_add : (L.add R o).kill R = L.waste R := by
  unfold add kill waste
  congr 1
  funext a
  by_cases h : a ∈ R <;> simp [h]

theorem add_add (R' : Finset α) : (L.add R o).add R' o = L.add (R ∪ R') o := by
  unfold add
  congr 1
  · exact Finset.union_assoc _ _ _
  · funext a
    by_cases h : a ∈ R <;> by_cases h' : a ∈ R' <;> simp [h, h']

@[simp] theorem used_waste : (L.waste R).used = L.used ∪ R := rfl

theorem owner_waste (a : α) : (L.waste R).owner a = if a ∈ R then none else L.owner a := rfl

theorem live_add_dead : L.live P + L.dead P = (L.used.filter P).card := by
  unfold live dead
  rw [← Finset.card_union_of_disjoint]
  · congr 1
    ext a
    simp only [Finset.mem_union, Finset.mem_filter]
    cases L.owner a <;> simp
  · rw [Finset.disjoint_filter]
    rintro a - ⟨-, h1⟩ ⟨-, h2⟩
    rw [Option.isNone_iff_eq_none] at h2
    rw [h2] at h1
    cases h1

theorem live_add (hdisj : Disjoint L.used R) :
    (L.add R o).live P = L.live P + (R.filter P).card := by
  unfold live
  rw [← Finset.card_union_of_disjoint]
  · congr 1
    ext a
    rw [Finset.mem_union, Finset.mem_filter, Finset.mem_filter, Finset.mem_filter, used_add,
      owner_add, Finset.mem_union]
    by_cases ha : a ∈ R
    · have hu : a ∉ L.used := fun hu => Finset.disjoint_left.mp hdisj hu ha
      simp [ha, hu]
    · simp [ha]
  · refine Finset.disjoint_of_subset_left (Finset.filter_subset _ _) ?_
    exact Finset.disjoint_of_subset_right (Finset.filter_subset _ _) hdisj

theorem card_used_add (hdisj : Disjoint L.used R) :
    ((L.add R o).used.filter P).card = (L.used.filter P).card + (R.filter P).card := by
  rw [used_add, Finset.filter_union, Finset.card_union_of_disjoint]
  exact Finset.disjoint_filter_filter hdisj

theorem dead_add (hdisj : Disjoint L.used R) : (L.add R o).dead P = L.dead P := by
  unfold dead
  congr 1
  ext a
  rw [Finset.mem_filter, Finset.mem_filter, used_add, owner_add, Finset.mem_union]
  by_cases ha : a ∈ R
  · have hu : a ∉ L.used := fun hu => Finset.disjoint_left.mp hdisj hu ha
    simp [ha, hu]
  · simp [ha]

theorem live_kill (hR : ∀ a ∈ R, a ∈ L.used ∧ L.owner a ≠ none) :
    (L.kill R).live P + (R.filter P).card = L.live P := by
  unfold live
  rw [← Finset.card_union_of_disjoint]
  · congr 1
    ext a
    rw [Finset.mem_union, Finset.mem_filter, Finset.mem_filter, Finset.mem_filter, used_kill,
      owner_kill]
    by_cases ha : a ∈ R
    · obtain ⟨hu, ho⟩ := hR a ha
      simp [ha, hu, Option.isSome_iff_ne_none, ho]
    · simp [ha]
  · rw [Finset.disjoint_left]
    intro a ha hb
    rw [Finset.mem_filter, owner_kill] at ha
    rw [Finset.mem_filter] at hb
    simp [hb.1] at ha

theorem dead_kill (hR : ∀ a ∈ R, a ∈ L.used ∧ L.owner a ≠ none) :
    (L.kill R).dead P = L.dead P + (R.filter P).card := by
  have hlive : (L.kill R).live P + (L.kill R).dead P = (L.used.filter P).card := live_add_dead
  have hold : L.live P + L.dead P = (L.used.filter P).card := live_add_dead
  have hk := live_kill (P := P) hR
  omega

omit [DecidableEq α] in
theorem mem_used_erase {Q : α → Prop} [DecidablePred Q] {a : α} :
    a ∈ (L.erase Q).used ↔ a ∈ L.used ∧ ¬Q a := Finset.mem_filter

omit [DecidableEq α] in
theorem owner_erase {Q : α → Prop} [DecidablePred Q] (a : α) :
    (L.erase Q).owner a = if Q a then none else L.owner a := rfl

omit [DecidableEq α] in
/-- Nothing is left of a region that was taken out of use. -/
theorem filter_erase_of_imp {Q : α → Prop} [DecidablePred Q] (h : ∀ a, P a → Q a) :
    (L.erase Q).used.filter P = ∅ := by
  refine Finset.filter_false_of_mem fun a ha hp => ?_
  exact (mem_used_erase.mp ha).2 (h a hp)

omit [DecidableEq α] in
/-- The other regions are as before. -/
theorem filter_erase_of_not {Q : α → Prop} [DecidablePred Q] (h : ∀ a, P a → ¬Q a) :
    (L.erase Q).used.filter P = L.used.filter P := by
  ext a
  rw [Finset.mem_filter, Finset.mem_filter, mem_used_erase]
  exact ⟨fun ⟨⟨hu, _⟩, hp⟩ => ⟨hu, hp⟩, fun ⟨hu, hp⟩ => ⟨⟨hu, h a hp⟩, hp⟩⟩

omit [DecidableEq α] in
theorem live_erase {Q : α → Prop} [DecidablePred Q] (h : ∀ a, P a → ¬Q a) :
    (L.erase Q).live P = L.live P := by
  unfold live
  congr 1
  ext a
  rw [Finset.mem_filter, Finset.mem_filter, mem_used_erase, owner_erase]
  constructor
  · rintro ⟨⟨hu, hq⟩, hp, ho⟩
    rw [if_neg hq] at ho
    exact ⟨hu, hp, ho⟩
  · rintro ⟨hu, hp, ho⟩
    rw [if_neg (h a hp)]
    exact ⟨⟨hu, h a hp⟩, hp, ho⟩

theorem dead_erase {Q : α → Prop} [DecidablePred Q] (h : ∀ a, P a → ¬Q a) :
    (L.erase Q).dead P = L.dead P := by
  have h1 : (L.erase Q).live P + (L.erase Q).dead P = ((L.erase Q).used.filter P).card :=
    live_add_dead
  have h2 : L.live P + L.dead P = (L.used.filter P).card := live_add_dead
  rw [filter_erase_of_not h, live_erase h] at h1
  omega

/-- The counts of a region that was taken out of use. -/
theorem counts_erase {Q : α → Prop} [DecidablePred Q] (h : ∀ a, P a → Q a) :
    (L.erase Q).live P = 0 ∧ (L.erase Q).dead P = 0 := by
  have hsum : (L.erase Q).live P + (L.erase Q).dead P = ((L.erase Q).used.filter P).card :=
    live_add_dead
  rw [filter_erase_of_imp h, Finset.card_empty] at hsum
  omega

omit [DecidableEq α] in
/-- Held items are counted. -/
theorem card_le_live (hR : ∀ a ∈ R, a ∈ L.used ∧ L.owner a ≠ none ∧ P a) :
    R.card ≤ L.live P := by
  refine Finset.card_le_card fun a ha => ?_
  obtain ⟨hu, ho, hp⟩ := hR a ha
  exact Finset.mem_filter.mpr ⟨hu, hp, Option.isSome_iff_ne_none.mpr ho⟩

end Ledger
