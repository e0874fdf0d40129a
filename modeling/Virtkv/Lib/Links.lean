import Mathlib.Data.List.Basic
import Mathlib.Data.List.Nodup
import Mathlib.Logic.Function.Basic

/-!
# Lists chained through an index array

A statically allocated pool of cells keeps its lists by storing in every cell
the index of the next one. `Seg nxt a xs b` says that the chain that starts at
`a` visits exactly the cells `xs` and then stands at `b`; the end of a list is
a reserved index that is no cell. A list that is chained both ways is a segment
of its successor array from the head and, reversed, of its predecessor array
from the tail, so that every fact about one direction serves both.

## Main definitions

- `Seg nxt a xs b` — the chain from `a` visits `xs` and arrives at `b`
- `Run nxt a xs` — the same for links that may be null; the chain ends with a null link
-/

namespace Links

variable {ι : Type*} {nxt nxt' : ι → ι} {a b c x y : ι} {xs ys : List ι}

/-- The chain from `a` through `nxt` visits the cells `xs` and arrives at `b`. -/
def Seg (nxt : ι → ι) : ι → List ι → ι → Prop
  | a, [], b => a = b
  | a, x :: xs, b => a = x ∧ Seg nxt (nxt x) xs b

@[simp] theorem seg_nil : Seg nxt a [] b ↔ a = b := Iff.rfl

@[simp] theorem seg_cons : Seg nxt a (x :: xs) b ↔ a = x ∧ Seg nxt (nxt x) xs b := Iff.rfl

theorem seg_append : Seg nxt a (xs ++ ys) b ↔ ∃ c, Seg nxt a xs c ∧ Seg nxt c ys b := by
  induction xs generalizing a with
  | nil => simp
  | cons x xs ih => simp [ih, and_assoc]

theorem seg_concat : Seg nxt a (xs ++ [x]) b ↔ Seg nxt a xs x ∧ nxt x = b := by
  rw [seg_append]
  constructor
  · rintro ⟨c, hc, rfl, hx⟩
    exact ⟨hc, hx⟩
  · rintro ⟨hc, hx⟩
    exact ⟨x, hc, rfl, hx⟩

/-- A segment depends only on the successors of the cells it visits. -/
theorem Seg.congr (h : Seg nxt a xs b) (hx : ∀ x ∈ xs, nxt' x = nxt x) : Seg nxt' a xs b := by
  induction xs generalizing a with
  | nil => exact h
  | cons x xs ih =>
    refine ⟨h.1, ?_⟩
    rw [hx x (List.mem_cons_self ..)]
    exact ih h.2 fun y hy => hx y (List.mem_cons_of_mem _ hy)

/-- A segment that does not stand at its end yet visits the cell it stands at. -/
theorem Seg.exists_cons (h : Seg nxt a xs b) (hab : a ≠ b) :
    ∃ ys, xs = a :: ys ∧ Seg nxt (nxt a) ys b := by
  cases xs with
  | nil => exact absurd h hab
  | cons x ys =>
    obtain ⟨rfl, hys⟩ := h
    exact ⟨ys, rfl, hys⟩

theorem Seg.eq_nil (h : Seg nxt b xs b) (hb : b ∉ xs) : xs = [] := by
  cases xs with
  | nil => rfl
  | cons x ys => exact absurd (List.mem_cons.mpr (.inl h.1)) hb

/-- The successor of a visited cell is visited, or is the end. -/
theorem Seg.next_mem (h : Seg nxt a xs b) (hx : x ∈ xs) : nxt x = b ∨ nxt x ∈ xs := by
  obtain ⟨l, r, rfl⟩ := List.append_of_mem hx
  obtain ⟨c, -, rfl, hr⟩ := seg_append.mp h
  cases r with
  | nil => exact .inl hr
  | cons y r => exact .inr (by simp [hr.1])

/-- The successor of a cell in the second part of a segment stays in that part. -/
theorem Seg.next_mem_right (h : Seg nxt a (xs ++ ys) b) (hx : x ∈ ys) :
    nxt x = b ∨ nxt x ∈ ys := by
  obtain ⟨c, -, hys⟩ := seg_append.mp h
  exact hys.next_mem hx

/-- Splicing a cell in behind `c`. -/
theorem Seg.insert (h : Seg nxt a (xs ++ c :: ys) b) (hn : (xs ++ c :: ys).Nodup)
    (hx : x ∉ xs ++ c :: ys) (hc : nxt' c = x) (hx' : nxt' x = nxt c)
    (hs : ∀ y, y ≠ c → y ≠ x → nxt' y = nxt y) : Seg nxt' a (xs ++ c :: x :: ys) b := by
  obtain ⟨d, hl, rfl, hr⟩ := seg_append.mp h
  have hcd : d ∉ xs ∧ d ∉ ys := by
    have hd := List.nodup_append.mp hn
    exact ⟨fun hm => hd.2.2 d hm d (by simp) rfl, (List.nodup_cons.mp hd.2.1).1⟩
  simp only [List.mem_append, List.mem_cons, not_or] at hx
  refine seg_append.mpr ⟨d, ?_, rfl, hc, ?_⟩
  · exact hl.congr fun y hy => hs y (fun e => hcd.1 (e ▸ hy)) (fun e => hx.1 (e ▸ hy))
  · rw [hx']
    exact hr.congr fun y hy => hs y (fun e => hcd.2 (e ▸ hy)) (fun e => hx.2.2 (e ▸ hy))

/-! ### Chains that end with a null link -/

section Run

variable {α : Type*} {nxt nxt' : α → Option α} {a : Option α} {p x : α} {xs ys zs : List α}

/-- The chain from `a` through nullable links visits the cells `xs` and ends. -/
def Run (nxt : α → Option α) (a : Option α) (xs : List α) : Prop :=
  Seg (fun o => o.bind nxt) a (xs.map some) none

@[simp] theorem run_nil : Run nxt a [] ↔ a = none := Iff.rfl

@[simp] theorem run_cons : Run nxt a (x :: xs) ↔ a = some x ∧ Run nxt (nxt x) xs := Iff.rfl

theorem Run.start (h : Run nxt a xs) : a = xs.head? := by
  cases xs with
  | nil => exact h
  | cons x xs => exact h.1

/-- A run depends only on the links of the cells it visits. -/
theorem Run.congr (h : Run nxt a xs) (hx : ∀ x ∈ xs, nxt' x = nxt x) : Run nxt' a xs := by
  refine Seg.congr h fun o ho => ?_
  obtain ⟨x, hmem, rfl⟩ := List.mem_map.mp ho
  exact hx x hmem

/-- The run goes on behind each of its cells. -/
theorem Run.behind (h : Run nxt a (xs ++ x :: ys)) : Run nxt (nxt x) ys := by
  rw [Run, List.map_append] at h
  obtain ⟨c, -, -, hys⟩ := seg_append.mp h
  exact hys

/-- The link of a cell is the cell behind it. -/
theorem Run.link (h : Run nxt a (xs ++ x :: ys)) : nxt x = ys.head? := h.behind.start

/-- What follows the cell `p` is replaced. -/
theorem Run.relink (h : Run nxt a (xs ++ p :: ys)) (hxs : ∀ y ∈ xs, nxt' y = nxt y)
    (hp : Run nxt' (nxt' p) zs) : Run nxt' a (xs ++ p :: zs) := by
  rw [Run, List.map_append] at h ⊢
  obtain ⟨c, hfront, hc, -⟩ := seg_append.mp h
  refine seg_append.mpr ⟨c, hfront.congr fun o ho => ?_, hc, hp⟩
  obtain ⟨y, hmem, rfl⟩ := List.mem_map.mp ho
  exact hxs y hmem

variable [DecidableEq α]

/-- A cell that is not visited gets another link. -/
theorem Run.update (h : Run nxt a xs) (hp : p ∉ xs) (b : Option α) :
    Run (Function.update nxt p b) a xs :=
  h.congr fun _ hy => Function.update_of_ne (ne_of_mem_of_not_mem hy hp) _ _

/-- The link of a cell is set to what follows its successor. -/
theorem Run.skip (h : Run nxt a (xs ++ p :: x :: ys)) (hn : (xs ++ p :: x :: ys).Nodup) :
    Run (Function.update nxt p (nxt x)) a (xs ++ p :: ys) := by
  obtain ⟨-, hright, hsep⟩ := List.nodup_append.mp hn
  have hp := (List.nodup_cons.mp hright).1
  have hys : Run nxt (nxt x) ys := h.behind.2
  refine h.relink (fun y hy => Function.update_of_ne ?_ _ _) ?_
  · exact hsep y hy p (List.mem_cons_self ..)
  · rw [Function.update_self]
    exact hys.update (fun hmem => hp (List.mem_cons_of_mem _ hmem)) _

/-- A cell is put behind the last one. -/
theorem Run.concat (h : Run nxt a (xs ++ [p])) (hn : (xs ++ [p]).Nodup) (hx : nxt x = none)
    (hxp : x ≠ p) : Run (Function.update nxt p (some x)) a (xs ++ [p, x]) := by
  obtain ⟨-, -, hsep⟩ := List.nodup_append.mp hn
  refine h.relink (fun y hy => Function.update_of_ne ?_ _ _) ?_
  · exact hsep y hy p (List.mem_cons_self ..)
  · rw [Function.update_self]
    refine ⟨rfl, ?_⟩
    show Function.update nxt p (some x) x = none
    rw [Function.update_of_ne hxp, hx]

end Run

end Links
