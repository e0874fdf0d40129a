import Mathlib.Data.List.Perm.Basic
import Mathlib.Data.List.GetD
import Mathlib.Order.Basic
import Virtkv.Lib.Chunked
import Virtkv.Prp.Defs

/-!
# The lists the driver builds

The loop that enters the pages keeps that all lists but the last are full, that their last
entries lead from one to the next, and that the pages are entered in order. Each full list
holds 511 pages; only the last can hold 512.

## Main definitions

- `Lawful` — what the pools promise
- `Whole` — a scatterlist behind the first page
- `Filled` — the invariant of the loop

## Main results

- `Filled.chain`, `Filled.put` — the loop keeps its invariant
- `Filled.freePrps` — the lists are freed with their own addresses
- `fillLists_filled` — the loop enters all pages, or frees what it took
-/

namespace Virtkv.Prp

open Chunked

/-- What the pools promise: a block is aligned, and apart from the blocks in use. -/
structure Lawful (alloc : Allocator) : Prop where
  aligned : ∀ {live kind a}, alloc live kind = some a → kind.size ∣ a
  fresh : ∀ {live kind a}, alloc live kind = some a →
    ∀ b ∈ live, a + kind.size ≤ b.addr ∨ b.addr + b.kind.size ≤ a

theorem PoolKind.size_pos (kind : PoolKind) : 0 < kind.size := by
  cases kind <;> decide

/-- The words of aligned blocks do not meet. -/
theorem slot_inj {kind : PoolKind} {a b s t : ℕ} (ha : kind.size ∣ a) (hb : kind.size ∣ b)
    (hs : s < kind.size / 8) (ht : t < kind.size / 8) (h : a + 8 * s = b + 8 * t) :
    a = b ∧ s = t := by
  cases kind with
  | small =>
    change 256 ∣ a at ha
    change 256 ∣ b at hb
    change s < 32 at hs
    change t < 32 at ht
    omega
  | page =>
    change 4096 ∣ a at ha
    change 4096 ∣ b at hb
    change s < 512 at hs
    change t < 512 at ht
    omega

/-! ### Scatterlists -/

@[simp]
theorem touched_nil : touched [] = [] := rfl

@[simp]
theorem touched_cons (s : Segment) (sg : List Segment) :
    touched (s :: sg) = List.range' s.addr s.len ++ touched sg := rfl

theorem length_touched_cons (s : Segment) (sg : List Segment) :
    (touched (s :: sg)).length = s.len + (touched sg).length := by
  rw [touched_cons, List.length_append, List.length_range']

theorem touched_append (sg sg' : List Segment) : touched (sg ++ sg') = touched sg ++ touched sg' :=
  List.flatMap_append

/-- A scatterlist behind the first page: all entries begin with a page, and all but the last
end with one. -/
def Whole : List Segment → Prop
  | [] => True
  | s :: sg => pageSize ∣ s.addr ∧ 0 < s.len ∧ (sg ≠ [] → pageSize ∣ s.len) ∧ Whole sg

theorem Whole.paged {sg : List Segment} (h : Whole sg) : Paged pageSize (touched sg) := by
  induction sg with
  | nil => exact paged_nil
  | cons s sg ih =>
    obtain ⟨haddr, -, hlen, hrest⟩ := h
    rw [touched_cons]
    cases sg with
    | nil =>
      rw [touched_nil, List.append_nil]
      exact paged_range' haddr
    | cons t sg =>
      apply (paged_range' haddr).append (ih hrest) (by decide)
      rw [List.length_range']
      exact hlen (List.cons_ne_nil t sg)

/-- An entry without its first page. -/
theorem touched_drop_lt {s : Segment} {sg : List Segment} (h : pageSize ≤ s.len) :
    touched ({ addr := s.addr + pageSize, len := s.len - pageSize } :: sg) =
      (touched (s :: sg)).drop pageSize := by
  rw [touched_cons, touched_cons, List.drop_append_of_le_length (by rwa [List.length_range']),
    List.drop_range', mul_one]

theorem touched_drop_eq {s : Segment} {sg : List Segment} (h : s.len = pageSize) :
    touched sg = (touched (s :: sg)).drop pageSize := by
  have hlen : (List.range' s.addr s.len).length = pageSize := by rw [List.length_range', h]
  rw [touched_cons, ← hlen, List.drop_left]

/-- The pages that a number of bytes needs. -/
def pagesFor (n : ℕ) : ℕ := (n + pageSize - 1) / pageSize

/-! ### The invariant of the loop -/

/-- The first `n` lists of a request. -/
def Iod.blocks (iod : Iod) (kind : PoolKind) (n : ℕ) : List Block :=
  (List.range n).map fun b => ⟨kind, iod.list b⟩

/-- The loop fills the list `m`, in which `f.i` entries are made; `entry` are the pages. -/
structure Filled (alloc : Allocator) (h₀ : Host) (kind : PoolKind) (entry : ℕ → ℕ) (m : ℕ)
    (f : Fill) : Prop where
  got : ∀ b ≤ m, ∃ live, alloc live kind = some (f.iod.list b)
  apart : ∀ b ≤ m, ∀ c ≤ m, f.iod.list b = f.iod.list c → b = c
  live : f.host.live.Perm (f.iod.blocks kind (m + 1) ++ h₀.live)
  npages : f.iod.npages = if kind = .small then 0 else (m : ℤ) + 1
  first : f.iod.firstDma = f.iod.list 0
  current : f.prpList = f.iod.list m
  fits : f.i ≤ kind.size / 8
  single : kind = .small → m = 0
  full : ∀ b < m, ∀ s < 511, f.host.words (f.iod.list b + 8 * s) = entry (511 * b + s)
  link : ∀ b < m, f.host.words (f.iod.list b + 8 * 511) = f.iod.list (b + 1)
  part : ∀ s < f.i, f.host.words (f.iod.list m + 8 * s) = entry (511 * m + s)
  frame : ∀ a, (∀ b ≤ m, a < f.iod.list b ∨ f.iod.list b + kind.size ≤ a) →
    f.host.words a = h₀.words a

variable {alloc : Allocator} {h₀ : Host} {kind : PoolKind} {entry : ℕ → ℕ} {m : ℕ} {f g : Fill}

namespace Filled

/-- A word of another list than the current one, or another word of it. -/
theorem slot_ne (hl : Lawful alloc) (h : Filled alloc h₀ kind entry m f) {b s t : ℕ}
    (hb : b ≤ m) (hs : s < kind.size / 8) (ht : t < kind.size / 8) (hne : b = m → s ≠ t) :
    f.iod.list b + 8 * s ≠ f.iod.list m + 8 * t := by
  intro heq
  obtain ⟨_, hgb⟩ := h.got b hb
  obtain ⟨_, hgm⟩ := h.got m le_rfl
  obtain ⟨hlist, hst⟩ := slot_inj (hl.aligned hgb) (hl.aligned hgm) hs ht heq
  exact hne (h.apart b hb m le_rfl hlist) hst

/-- With more than one list, the lists are pages. -/
theorem page_of_pos (h : Filled alloc h₀ kind entry m f) (hm : 0 < m) : kind = .page := by
  cases kind with
  | page => rfl
  | small =>
    have := h.single rfl
    omega

theorem put (hl : Lawful alloc) (h : Filled alloc h₀ kind entry m f) (hi : f.i < kind.size / 8)
    (hentry : f.dmaAddr = entry (511 * m + f.i)) : Filled alloc h₀ kind entry m f.put where
  got := h.got
  apart := h.apart
  live := h.live
  npages := h.npages
  first := h.first
  current := h.current
  fits := hi
  single := h.single
  full b hb s hs := by
    have hs' : s < kind.size / 8 := by
      rw [h.page_of_pos (by omega)]
      exact hs.trans (by decide)
    change Function.update f.host.words (f.prpList + 8 * f.i) f.dmaAddr (f.iod.list b + 8 * s) = _
    rw [h.current, Function.update_of_ne (h.slot_ne hl hb.le hs' hi (fun he => absurd he hb.ne))]
    exact h.full b hb s hs
  link b hb := by
    have hs' : 511 < kind.size / 8 := by
      rw [h.page_of_pos (by omega)]
      decide
    change Function.update f.host.words (f.prpList + 8 * f.i) f.dmaAddr (f.iod.list b + 8 * 511) = _
    rw [h.current, Function.update_of_ne (h.slot_ne hl hb.le hs' hi (fun he => absurd he hb.ne))]
    exact h.link b hb
  part s hs := by
    change s < f.i + 1 at hs
    change Function.update f.host.words (f.prpList + 8 * f.i) f.dmaAddr (f.iod.list m + 8 * s) = _
    rw [h.current]
    rcases Nat.lt_succ_iff_lt_or_eq.mp hs with hlt | rfl
    · rw [Function.update_of_ne (h.slot_ne hl le_rfl (hlt.trans hi) hi (fun _ => hlt.ne))]
      exact h.part s hlt
    · rw [Function.update_self, hentry]
  frame a ha := by
    change Function.update f.host.words (f.prpList + 8 * f.i) f.dmaAddr a = _
    rw [h.current, Function.update_of_ne]
    · exact h.frame a ha
    · rintro rfl
      -- the word lies in the current list
      have hin := ha m le_rfl
      have hsize := Nat.div_mul_le_self kind.size 8
      change f.iod.list m + 8 * f.i < f.iod.list m ∨ f.iod.list m + kind.size ≤ _ at hin
      omega

/-- A block the pool gives is none of the lists. -/
theorem list_ne (hl : Lawful alloc) (h : Filled alloc h₀ kind entry m f) {a : ℕ}
    (ha : alloc f.host.live kind = some a) {b : ℕ} (hb : b ≤ m) : f.iod.list b ≠ a := by
  intro heq
  have hmem : (⟨kind, f.iod.list b⟩ : Block) ∈ f.host.live := by
    apply h.live.mem_iff.mpr
    exact List.mem_append_left _ (List.mem_map.mpr ⟨b, List.mem_range.mpr (by omega), rfl⟩)
  have hsep := hl.fresh ha _ hmem
  have hpos := kind.size_pos
  change a + kind.size ≤ f.iod.list b ∨ f.iod.list b + kind.size ≤ a at hsep
  omega

/-- What the lists and the new page hold once the last entry has moved. -/
theorem grow_words (hl : Lawful alloc) (h : Filled alloc h₀ .page entry m f) (hi : f.i = 512)
    {a : ℕ} (ha : alloc f.host.live .page = some a) :
    (f.grow .page a).host.words a = entry (511 * (m + 1)) ∧
    (f.grow .page a).host.words (f.iod.list m + 8 * 511) = a ∧
    (∀ b ≤ m, ∀ s < 512, (b = m → s < 511) →
      (f.grow .page a).host.words (f.iod.list b + 8 * s) = f.host.words (f.iod.list b + 8 * s)) ∧
    ∀ x, x ≠ a → x ≠ f.iod.list m + 8 * 511 → (f.grow .page a).host.words x = f.host.words x := by
  have hwords : (f.grow .page a).host.words =
      Function.update (Function.update f.host.words a (f.host.words (f.iod.list m + 8 * 511)))
        (f.iod.list m + 8 * 511) a := by
    rw [Fill.grow, h.current, hi]
  have halign := hl.aligned ha
  have hslot : ∀ b ≤ m, ∀ s < 512, f.iod.list b + 8 * s ≠ a := by
    intro b hb s hs heq
    obtain ⟨_, hgb⟩ := h.got b hb
    exact h.list_ne hl ha hb (slot_inj (t := 0) (hl.aligned hgb) halign hs (by decide) heq).1
  rw [hwords]
  refine ⟨?_, Function.update_self _ _ _, fun b hb s hs hlast => ?_, fun x hx hx' => ?_⟩
  · rw [Function.update_of_ne (hslot m le_rfl 511 (by omega)).symm, Function.update_self,
      h.part 511 (by omega)]
    rfl
  · rw [Function.update_of_ne (h.slot_ne hl hb hs (by decide) (fun he => (hlast he).ne)),
      Function.update_of_ne (hslot b hb s hs)]
  · rw [Function.update_of_ne hx', Function.update_of_ne hx]

/-- The list goes on in a new page. -/
theorem grow (hl : Lawful alloc) (h : Filled alloc h₀ .page entry m f) (hi : f.i = 512) {a : ℕ}
    (ha : alloc f.host.live .page = some a) :
    Filled alloc h₀ .page entry (m + 1) (f.grow .page a) := by
  obtain ⟨hnew, hlink, hold, hother⟩ := h.grow_words hl hi ha
  have hnp : f.iod.npages.toNat = m + 1 := by
    rw [h.npages, if_neg (by decide)]
    omega
  have hlist : ∀ b ≤ m, (f.grow .page a).iod.list b = f.iod.list b := fun b hb => by
    change Function.update f.iod.list f.iod.npages.toNat a b = _
    rw [hnp, Function.update_of_ne (by omega)]
  have hlast : (f.grow .page a).iod.list (m + 1) = a := by
    change Function.update f.iod.list f.iod.npages.toNat a (m + 1) = _
    rw [hnp, Function.update_self]
  constructor
  case got =>
    intro b hb
    rcases Nat.le_succ_iff.mp hb with hb | rfl
    · rw [hlist b hb]
      exact h.got b hb
    · rw [hlast]
      exact ⟨_, ha⟩
  case apart =>
    intro b hb c hc heq
    rcases Nat.le_succ_iff.mp hb with hb | rfl <;> rcases Nat.le_succ_iff.mp hc with hc | rfl
    · rw [hlist b hb, hlist c hc] at heq
      exact h.apart b hb c hc heq
    · rw [hlist b hb, hlast] at heq
      exact absurd heq (h.list_ne hl ha hb)
    · rw [hlist c hc, hlast] at heq
      exact absurd heq.symm (h.list_ne hl ha hc)
    · rfl
  case live =>
    have hblocks : (f.grow .page a).iod.blocks .page (m + 1 + 1) =
        f.iod.blocks .page (m + 1) ++ [⟨.page, a⟩] := by
      rw [Iod.blocks, List.range_succ, List.map_append, List.map_singleton, hlast]
      congr 1
      apply List.map_congr_left
      intro b hb
      rw [hlist b (Nat.lt_succ_iff.mp (List.mem_range.mp hb))]
    rw [hblocks, List.append_assoc]
    exact (h.live.cons _).trans List.perm_middle.symm
  case npages =>
    change f.iod.npages + 1 = _
    rw [h.npages]
    rfl
  case first =>
    rw [hlist 0 (Nat.zero_le m)]
    exact h.first
  case current => exact hlast.symm
  case fits => exact (by decide : 1 ≤ PoolKind.page.size / 8)
  case single => intro hk; cases hk
  case full =>
    intro b hb s hs
    have hbm : b ≤ m := Nat.lt_succ_iff.mp hb
    rw [hlist b hbm, hold b hbm s (by omega) (fun _ => hs)]
    rcases hbm.lt_or_eq with hlt | rfl
    · exact h.full b hlt s hs
    · exact h.part s (by omega)
  case link =>
    intro b hb
    have hbm : b ≤ m := Nat.lt_succ_iff.mp hb
    rw [hlist b hbm]
    rcases hbm.lt_or_eq with hlt | rfl
    · rw [hold b hbm 511 (by omega) (fun he => absurd he hlt.ne), hlist (b + 1) hlt]
      exact h.link b hlt
    · rw [hlink, hlast]
  case part =>
    intro s hs
    change s < 1 at hs
    obtain rfl : s = 0 := by omega
    rw [hlast]
    exact hnew
  case frame =>
    intro x hx
    have hxa := hx (m + 1) le_rfl
    have hxm := hx m (Nat.le_succ m)
    rw [hlast] at hxa
    rw [hlist m le_rfl] at hxm
    change x < a ∨ a + 4096 ≤ x at hxa
    change x < f.iod.list m ∨ f.iod.list m + 4096 ≤ x at hxm
    rw [hother x (by omega) (by omega)]
    apply h.frame
    intro b hb
    have hb' := hx b (Nat.le_succ_of_le hb)
    rwa [hlist b hb] at hb'

end Filled

/-! ### Freeing the lists -/

/-- Lists that lead from one to the next are freed, the rest of the pools stays. -/
theorem freePrpsFrom_ok {iod : Iod} {live : List Block} :
    ∀ {n : ℕ} (b dma : ℕ) (h : Host),
      (∀ c, b ≤ c → c + 1 < b + n → h.words (iod.list c + 8 * 511) = iod.list (c + 1)) →
      (0 < n → dma = iod.list b) →
      h.live.Perm ((List.range' b n).map (fun c => ⟨.page, iod.list c⟩) ++ live) →
      ∃ h', freePrpsFrom iod n b dma h = .ok h' ∧ h'.words = h.words ∧ h'.live.Perm live := by
  intro n
  induction n with
  | zero =>
    intro b dma h _ _ hlive
    exact ⟨h, rfl, rfl, hlive⟩
  | succ n ih =>
    intro b dma h hlink hdma hlive
    rw [List.range'_succ, List.map_cons, List.cons_append] at hlive
    have hmem : (⟨.page, iod.list b⟩ : Block) ∈ h.live :=
      hlive.mem_iff.mpr List.mem_cons_self
    have hrest := hlive.erase ⟨.page, iod.list b⟩
    rw [List.erase_cons_head] at hrest
    obtain ⟨h', hok, hwords, hperm⟩ := ih (b + 1) (h.words (iod.list b + 8 * 511))
      { h with live := h.live.erase ⟨.page, iod.list b⟩ }
      (fun c hc hcn => hlink c (by omega) (by omega))
      (fun hn => hlink b le_rfl (by omega)) hrest
    refine ⟨h', ?_, hwords, hperm⟩
    rw [freePrpsFrom, Host.free, if_pos ⟨hmem, hdma (Nat.succ_pos n)⟩]
    exact hok

/-- The lists of a request are freed, each with its own address. -/
theorem Filled.freePrps (h : Filled alloc h₀ .page entry m f) {host : Host}
    (hlive : host.live.Perm f.host.live)
    (hwords : ∀ b < m, host.words (f.iod.list b + 8 * 511) = f.host.words (f.iod.list b + 8 * 511)) :
    ∃ h', Prp.freePrps f.iod host = .ok h' ∧ h'.words = host.words ∧ h'.live.Perm h₀.live := by
  have hnp : f.iod.npages.toNat = m + 1 := by
    rw [h.npages, if_neg (by decide)]
    omega
  rw [Prp.freePrps, hnp]
  apply freePrpsFrom_ok
  · intro c _ hc
    rw [hwords c (by omega)]
    exact h.link c (by omega)
  · exact fun _ => h.first
  · rw [← List.range_eq_range']
    exact hlive.trans h.live

/-! ### The loop -/

theorem pagesFor_pos {n : ℕ} (h : 0 < n) : 0 < pagesFor n := by
  change 0 < (n + 4096 - 1) / 4096
  omega

theorem pagesFor_sub {n : ℕ} (h : pageSize < n) : pagesFor n = 1 + pagesFor (n - pageSize) := by
  change 4096 < n at h
  change (n + 4096 - 1) / 4096 = 1 + (n - 4096 + 4096 - 1) / 4096
  omega

theorem pagesFor_le_one {n : ℕ} : pagesFor n ≤ 1 ↔ n ≤ pageSize := by
  change (n + 4096 - 1) / 4096 ≤ 1 ↔ n ≤ 4096
  omega

theorem chain_full (hi : f.i = 512) :
    f.chain alloc kind = (alloc f.host.live kind).map fun a => f.grow kind a := if_pos hi

theorem chain_room (hi : f.i ≠ 512) : f.chain alloc kind = some f := if_neg hi

/-- A round of the loop finds room for its page, or the pool is empty and the lists are freed. -/
theorem Filled.chain (hl : Lawful alloc) (h : Filled alloc h₀ kind entry m f)
    (hroom : kind = .small → f.i < 32) (hgrown : 0 < m → 1 < f.i) :
    (f.chain alloc kind = none ∧ ∃ h', Prp.freePrps f.iod f.host = .ok h' ∧
      h'.words = f.host.words ∧ h'.live.Perm h₀.live) ∧ (∃ live, alloc live kind = none) ∨
    ∃ m' g, f.chain alloc kind = some g ∧ Filled alloc h₀ kind entry m' g ∧
      511 * m' + g.i = 511 * m + f.i ∧ g.i < kind.size / 8 ∧ (0 < m' → 0 < g.i) ∧
      g.dmaAddr = f.dmaAddr ∧ g.dmaLen = f.dmaLen ∧ g.sg = f.sg := by
  have hfits := h.fits
  by_cases hi : f.i = 512
  · cases kind with
    | small =>
      have := hroom rfl
      omega
    | page =>
      cases ha : alloc f.host.live .page with
      | none =>
        refine .inl ⟨⟨?_, h.freePrps (List.Perm.refl _) (fun _ _ => rfl)⟩, ⟨_, ha⟩⟩
        rw [chain_full hi, ha]
        rfl
      | some a =>
        refine .inr ⟨m + 1, f.grow .page a, ?_, h.grow hl hi ha, ?_, ?_, fun _ => Nat.one_pos,
          rfl, rfl, rfl⟩
        · rw [chain_full hi, ha]
          rfl
        · change 511 * (m + 1) + 1 = _
          omega
        · exact (by decide : 1 < PoolKind.page.size / 8)
  · refine .inr ⟨m, f, ?_, h, rfl, ?_, fun hm => by have := hgrown hm; omega, rfl, rfl, rfl⟩
    · exact chain_room hi
    · cases kind with
      | small => exact hroom rfl
      | page =>
        change f.i ≤ 512 at hfits
        exact lt_of_le_of_ne hfits hi

/-- The loop enters all pages, or the pool is empty and the lists are freed. -/
theorem fillLists_filled (hl : Lawful alloc) : ∀ {n m : ℕ} {f : Fill} {len : ℕ},
    Filled alloc h₀ kind entry m f → (0 < m → 1 < f.i) → f.dmaLen = (len : ℤ) →
    Whole (⟨f.dmaAddr, len⟩ :: f.sg) →
    (touched (⟨f.dmaAddr, len⟩ :: f.sg)).length = n →
    (∀ k, pageSize * k < n → entry (511 * m + f.i + k) =
      (touched (⟨f.dmaAddr, len⟩ :: f.sg)).getD (pageSize * k) 0) →
    (kind = .small → 511 * m + f.i + pagesFor n ≤ 32) →
    (∃ h, fillLists alloc kind n f = .ok (.resource, h) ∧ h.1.live.Perm h₀.live ∧
      ∃ live, alloc live kind = none) ∨
    ∃ m' g, fillLists alloc kind n f = .ok (.ok, g.host, g.iod) ∧
      Filled alloc h₀ kind entry m' g ∧ 511 * m' + g.i = 511 * m + f.i + pagesFor n ∧
      (0 < m' → 1 < g.i) := by
  intro n
  induction n using Nat.strong_induction_on with
  | _ n ih =>
    intro m f len h hgrown hlen hwhole hn hentry hsmall
    have hlenpos : 0 < len := hwhole.2.1
    have hnpos : len ≤ n := by
      rw [← hn, touched_cons, List.length_append, List.length_range']
      exact Nat.le_add_right _ _
    have hpages := pagesFor_pos (lt_of_lt_of_le hlenpos hnpos)
    rcases h.chain hl (fun hk => by have := hsmall hk; have := h.single hk; omega) hgrown with
      ⟨⟨hnone, h', hfree, -, hperm⟩, hempty⟩ | ⟨m', g, hsome, hg, hcount, hgi, hgpos, haddr, hglen, hgsg⟩
    · refine .inl ⟨(h', f.iod), ?_, hperm, hempty⟩
      rw [fillLists, hnone]
      simp only [hfree]
      rfl
    · -- the page is entered
      have hput : Filled alloc h₀ kind entry m' g.put := by
        apply hg.put hl hgi
        have h0 := hentry 0 (by omega)
        rw [Nat.add_zero, Nat.mul_zero, touched_cons, List.getD_append _ _ _ _ (by simpa),
          getD_range' hlenpos, Nat.add_zero] at h0
        rw [haddr, hcount, h0]
      have hcount' : 511 * m' + g.put.i = 511 * m + f.i + 1 := by
        change 511 * m' + (g.i + 1) = _
        omega
      have hgrown' : 0 < m' → 1 < g.put.i := fun hm => Nat.succ_lt_succ (hgpos hm)
      rw [fillLists, hsome]
      dsimp only
      split
      · -- it was the last one
        rename_i hlast
        have hle : n ≤ pageSize := by omega
        refine .inr ⟨m', g.put, rfl, hput, ?_, hgrown'⟩
        have := pagesFor_le_one.mpr hle
        omega
      · rename_i hlast
        have hlt : pageSize < n := by omega
        have hps : 0 < pageSize := by decide
        have hsub : ((n : ℤ) - pageSize) = ((n - pageSize : ℕ) : ℤ) := by omega
        have hpos := pagesFor_sub hlt
        rw [hsub]
        -- the rest begins with the next page, in this entry or in the next one
        have hnext : ∀ (f' : Fill) (len' : ℕ), Filled alloc h₀ kind entry m' f' →
            f'.i = g.put.i → f'.dmaLen = (len' : ℤ) → Whole (⟨f'.dmaAddr, len'⟩ :: f'.sg) →
            touched (⟨f'.dmaAddr, len'⟩ :: f'.sg) =
              (touched (⟨f.dmaAddr, len⟩ :: f.sg)).drop pageSize →
            (∃ h, fillLists alloc kind (n - pageSize : ℕ) f' = .ok (.resource, h) ∧
              h.1.live.Perm h₀.live ∧ ∃ live, alloc live kind = none) ∨
            ∃ m' g, fillLists alloc kind (n - pageSize : ℕ) f' = .ok (.ok, g.host, g.iod) ∧
              Filled alloc h₀ kind entry m' g ∧
              511 * m' + g.i = 511 * m + f.i + pagesFor n ∧ (0 < m' → 1 < g.i) := by
          intro f' len' hf' hi' hlen' hwhole' htouched
          have hrun := ih (n - pageSize) (by omega) hf' (hi' ▸ hgrown') hlen' hwhole'
            (by rw [htouched, List.length_drop, hn])
            (fun k hk => ?_) (fun hk => ?_)
          · rw [hi', hcount', add_assoc (511 * m + f.i), ← hpos] at hrun
            exact hrun
          · have hk' : pageSize * (1 + k) < n := by
              rw [Nat.mul_add, Nat.mul_one]
              omega
            rw [htouched, getD_drop, hi', hcount', add_assoc, hentry (1 + k) hk', Nat.mul_add,
              Nat.mul_one]
          · have := hsmall hk
            omega
        have hglen' : g.put.dmaLen = (len : ℤ) - pageSize := by
          change g.dmaLen - (pageSize : ℤ) = _
          rw [hglen, hlen]
        obtain ⟨haddr0, -, hmult, hrest⟩ := hwhole
        split
        · rename_i hmore
          have hlenlt : pageSize < len := by omega
          apply hnext g.put (len - pageSize) hput rfl
          · omega
          · change Whole (⟨g.dmaAddr + pageSize, _⟩ :: g.sg)
            rw [haddr, hgsg]
            refine ⟨dvd_add haddr0 (dvd_refl _), Nat.sub_pos_of_lt hlenlt, fun hne => ?_, hrest⟩
            exact Nat.dvd_sub (hmult hne) (dvd_refl _)
          · change touched (⟨g.dmaAddr + pageSize, _⟩ :: g.sg) = _
            rw [haddr, hgsg]
            exact touched_drop_lt (s := ⟨f.dmaAddr, len⟩) hlenlt.le
        · rename_i hmore
          -- the entry ends with this page, since it is not the last
          have hlenle : len ≤ pageSize := by omega
          have hne : f.sg ≠ [] := by
            intro hnil
            rw [hnil, touched_cons, touched_nil, List.append_nil, List.length_range'] at hn
            change len = n at hn
            omega
          have hlenEq : len = pageSize := le_antisymm hlenle (Nat.le_of_dvd hlenpos (hmult hne))
          rw [if_neg (by omega)]
          obtain ⟨s, sg, hsg⟩ := List.exists_cons_of_ne_nil hne
          have hgput : g.put.sg = s :: sg := hgsg.trans hsg
          rw [hgput]
          rw [hsg] at hrest
          apply hnext { g.put with dmaAddr := s.addr, dmaLen := s.len, sg := sg } s.len
            { hput with } rfl rfl hrest
          rw [← touched_drop_eq (s := ⟨f.dmaAddr, len⟩) hlenEq, hsg]

end Virtkv.Prp
