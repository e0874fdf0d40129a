import Virtkv.Prp.Build

/-!
# A buffer is mapped and unmapped

The scatterlist of a buffer leads to no list, to one page or to lists, depending on how many
pages there are behind the first. What a request takes from the pools it gives back, on all
paths but one: the lists stay behind if the key of the command cannot be mapped.

## Main definitions

- `Mapped` — a scatterlist as the driver makes it
- `Listed` — the outcome of `setupPrps`
- `readPrps` — the pages of a list, for a reader who follows the lists

## Main results

- `setupPrps_listed` — the outcome for every scatterlist
- `kvMapData_lists` — the lists describe the buffer, and are given back
-/

namespace Virtkv.Prp

open Chunked

/-- The entries of a scatterlist: the first ends with a page, unless it is the last. -/
def Mapped (s : Segment) (sg : List Segment) : Prop :=
  0 < s.len ∧ (sg ≠ [] → pageSize ∣ s.addr + s.len) ∧ Whole sg

/-- The page with the number `k` behind the first. -/
def entryOf (s : Segment) (sg : List Segment) (k : ℕ) : ℕ :=
  (touched (s :: sg)).getD (s.first + pageSize * k) 0

/-- The outcome of `setupPrps` for `e` pages behind the first. -/
inductive Listed (alloc : Allocator) (h₀ : Host) (entry : ℕ → ℕ) : ℕ → Host → Iod → Prop where
  | none {iod : Iod} : iod.npages = -1 → Listed alloc h₀ entry 0 h₀ iod
  | one {iod : Iod} : iod.npages = -1 → iod.firstDma = entry 0 → Listed alloc h₀ entry 1 h₀ iod
  | lists {kind : PoolKind} {m : ℕ} {f : Fill} :
    Filled alloc h₀ kind entry m f → (0 < m → 1 < f.i) → 2 ≤ 511 * m + f.i →
    Listed alloc h₀ entry (511 * m + f.i) f.host f.iod

variable {alloc : Allocator} {h₀ : Host} {entry : ℕ → ℕ} {s : Segment} {sg : List Segment}

/-! ### Scatterlists -/

theorem Segment.dvd_addr_first (s : Segment) : pageSize ∣ s.addr + s.first := by
  change 4096 ∣ s.addr + (4096 - s.addr % 4096)
  omega

/-- Behind the first page there are whole pages. -/
theorem Mapped.behind (h : Mapped s sg) (hlen : s.first < (touched (s :: sg)).length) :
    s.first ≤ s.len ∧
    (s.first < s.len → Whole (⟨s.addr + s.first, s.len - s.first⟩ :: sg) ∧
      touched (⟨s.addr + s.first, s.len - s.first⟩ :: sg) = (touched (s :: sg)).drop s.first) ∧
    (s.first = s.len → sg ≠ [] ∧ touched sg = (touched (s :: sg)).drop s.first) := by
  obtain ⟨hpos, hend, hwhole⟩ := h
  rw [touched_cons, List.length_append, List.length_range'] at hlen
  have hdvd := s.dvd_addr_first
  have hle : s.first ≤ s.len := by
    rcases eq_or_ne sg [] with rfl | hne
    · simpa using hlen.le
    · have hmult := hend hne
      -- the end of the entry is the end of a page, and not before the first one
      have hfirst : s.first = 4096 - s.addr % 4096 := rfl
      change 4096 ∣ s.addr + s.len at hmult
      omega
  refine ⟨hle, fun hlt => ⟨⟨hdvd, Nat.sub_pos_of_lt hlt, fun hne => ?_, hwhole⟩, ?_⟩,
    fun heq => ⟨?_, ?_⟩⟩
  · have hsub := Nat.dvd_sub (hend hne) hdvd
    rwa [Nat.add_sub_add_left] at hsub
  · rw [touched_cons, touched_cons, List.drop_append_of_le_length (by rwa [List.length_range']),
      List.drop_range', mul_one]
  · rintro rfl
    rw [touched_nil, List.length_nil] at hlen
    omega
  · have hlen' : (List.range' s.addr s.len).length = s.first := by rw [List.length_range', heq]
    rw [touched_cons, ← hlen', List.drop_left]

/-- The first page. -/
theorem Mapped.take_first (h : Mapped s sg) : (touched (s :: sg)).take s.first =
    List.range' s.addr (min (touched (s :: sg)).length s.first) := by
  rcases Nat.lt_or_ge s.first (touched (s :: sg)).length with hlt | hge
  · have hle := (h.behind hlt).1
    rw [min_eq_right hlt.le, touched_cons, List.take_append_of_le_length (by rwa [List.length_range']),
      List.take_range'_of_length_ge hle]
  · -- a second entry would begin behind the first page
    have hnil : sg = [] := by
      by_contra hne
      obtain ⟨t, sg', rfl⟩ := List.exists_cons_of_ne_nil hne
      have hmult := h.2.1 hne
      have hpos : 0 < s.len := h.1
      have htpos : 0 < t.len := h.2.2.2.1
      have hfirst : s.first = 4096 - s.addr % 4096 := rfl
      change 4096 ∣ s.addr + s.len at hmult
      simp only [touched_cons, List.length_append, List.length_range'] at hge
      omega
    subst hnil
    rw [min_eq_left hge, List.take_of_length_le hge, touched_cons, touched_nil, List.append_nil,
      List.length_range']

theorem Mapped.paged (h : Mapped s sg) : Paged pageSize ((touched (s :: sg)).drop s.first) := by
  rcases Nat.lt_or_ge s.first (touched (s :: sg)).length with hlt | hge
  · obtain ⟨hle, hbig, hsame⟩ := h.behind hlt
    rcases hle.lt_or_eq with hless | heq
    · obtain ⟨hwhole, htouched⟩ := hbig hless
      rw [← htouched]
      exact hwhole.paged
    · obtain ⟨-, htouched⟩ := hsame heq
      rw [← htouched]
      exact h.2.2.paged
  · rw [List.drop_of_length_le hge]
    exact paged_nil

/-- The pages of a buffer behind the first. -/
theorem whole_sgSetPages {pages : List ℕ} : ∀ {len : ℕ}, pages.length = pagesFor len →
    Whole (sgSetPages pages 0 len) ∧ (touched (sgSetPages pages 0 len)).length = len := by
  induction pages with
  | nil =>
    intro len hlen
    rcases Nat.eq_zero_or_pos len with rfl | hpos
    · exact ⟨trivial, rfl⟩
    · have := pagesFor_pos hpos
      rw [← hlen] at this
      exact absurd this (lt_irrefl 0)
  | cons page pages ih =>
    intro len hlen
    rw [List.length_cons] at hlen
    have hrest : pages.length = pagesFor (len - pageSize) := by
      change pages.length + 1 = (len + 4096 - 1) / 4096 at hlen
      change pages.length = (len - 4096 + 4096 - 1) / 4096
      omega
    obtain ⟨hwhole, hsum⟩ := ih hrest
    have hpos : 0 < len := by
      change pages.length + 1 = (len + 4096 - 1) / 4096 at hlen
      omega
    have hps : 0 < pageSize := by decide
    change Whole (⟨page * pageSize + 0, min len (pageSize - 0)⟩ ::
        sgSetPages pages 0 (len - (pageSize - 0))) ∧
      (touched (⟨page * pageSize + 0, min len (pageSize - 0)⟩ ::
        sgSetPages pages 0 (len - (pageSize - 0)))).length = len
    rw [Nat.sub_zero, Nat.add_zero, touched_cons, List.length_append, List.length_range', hsum]
    refine ⟨⟨dvd_mul_left _ _, lt_min hpos hps, fun hne => ?_, hwhole⟩, ?_⟩
    · -- an entry that is not the last is a whole page
      have hlt : pageSize < len := by
        by_contra hge
        apply hne
        have h0 : pages.length = 0 := by
          change pages.length + 1 = (len + 4096 - 1) / 4096 at hlen
          change ¬ 4096 < len at hge
          omega
        rw [List.length_eq_zero_iff.mp h0]
        rfl
      rw [min_eq_right hlt.le]
    · change min len pageSize + (len - pageSize) = len
      omega

/-- A buffer with the frames of all its pages. -/
structure UserBuffer.Pinned (u : UserBuffer) : Prop where
  offset : u.offset < pageSize
  len : 0 < u.len
  pages : u.pages.length = userAddrNpages u.offset u.len

@[simp]
theorem length_getAioUserCtx (u : UserBuffer) : (getAioUserCtx u).length = u.pages.length := by
  have hset : ∀ pages offset len, (sgSetPages pages offset len).length = pages.length := by
    intro pages
    induction pages with
    | nil => exact fun _ _ => rfl
    | cons page pages ih =>
      intro offset len
      rw [sgSetPages, List.length_cons, List.length_cons, ih]
  exact hset _ _ _

/-- The scatterlist of a buffer. -/
theorem UserBuffer.Pinned.mapped {u : UserBuffer} (h : u.Pinned) :
    ∃ s sg, getAioUserCtx u = s :: sg ∧ Mapped s sg ∧ (touched (s :: sg)).length = u.len ∧
      s.first = pageSize - u.offset := by
  obtain ⟨hoffset, hlen, hpages⟩ := h
  obtain ⟨pages, offset, len⟩ := u
  change offset < 4096 at hoffset
  change 0 < len at hlen
  change pages.length = (offset + len + 4096 - 1) / 4096 at hpages
  cases pages with
  | nil =>
    rw [List.length_nil] at hpages
    omega
  | cons page pages =>
    rw [List.length_cons] at hpages
    have hrest : pages.length = pagesFor (len - (pageSize - offset)) := by
      change pages.length = (len - (4096 - offset) + 4096 - 1) / 4096
      omega
    obtain ⟨hwhole, hsum⟩ := whole_sgSetPages hrest
    have hmod : (page * pageSize + offset) % pageSize = offset := by
      rw [Nat.mul_comm, Nat.mul_add_mod]
      exact Nat.mod_eq_of_lt hoffset
    refine ⟨⟨page * pageSize + offset, min len (pageSize - offset)⟩, _, rfl,
      ⟨lt_min hlen (Nat.sub_pos_of_lt hoffset), fun hne => ?_, hwhole⟩, ?_, ?_⟩
    · have hlt : pageSize - offset < len := by
        by_contra hge
        apply hne
        have h0 : pages.length = 0 := by
          change ¬ 4096 - offset < len at hge
          omega
        rw [List.length_eq_zero_iff.mp h0]
        rfl
      change pageSize ∣ page * pageSize + offset + min len (pageSize - offset)
      rw [min_eq_right hlt.le, add_assoc, Nat.add_sub_cancel' (show offset ≤ pageSize from hoffset.le)]
      exact dvd_add (dvd_mul_left _ _) (dvd_refl _)
    · rw [touched_cons, List.length_append, List.length_range', hsum]
      change min len (pageSize - offset) + _ = len
      omega
    · change pageSize - (page * pageSize + offset) % pageSize = _
      rw [hmod]

/-! ### Setting up -/

theorem pagesFor_eq_toNat (n : ℕ) : ((n : ℤ).toNat + pageSize - 1) / pageSize = pagesFor n := by
  rw [Int.toNat_natCast, pagesFor]

/-- The first list, with no entry yet. -/
theorem Filled.start (entry : ℕ → ℕ) (list : ℕ → ℕ) (a : ℕ) (len : ℤ) (sg : List Segment)
    {kind : PoolKind} {dma : ℕ} {np : ℤ}
    (ha : alloc h₀.live kind = some dma) (hnp : np = if kind = .small then 0 else 1) :
    Filled alloc h₀ kind entry 0
      { host := { h₀ with live := ⟨kind, dma⟩ :: h₀.live }
        iod := { firstDma := dma, npages := np, list := Function.update list 0 dma }
        prpList := dma, i := 0, dmaAddr := a, dmaLen := len, sg := sg } := by
  have hlist : Function.update list 0 dma 0 = dma := Function.update_self _ _ _
  constructor
  case got =>
    intro b hb
    obtain rfl := Nat.le_zero.mp hb
    exact ⟨_, hlist ▸ ha⟩
  case apart => intro b hb c hc _; omega
  case live =>
    change List.Perm _ ([⟨kind, Function.update list 0 dma 0⟩] ++ h₀.live)
    rw [hlist]
    exact List.Perm.refl _
  case npages => rw [hnp]; rfl
  case first => exact hlist.symm
  case current => exact hlist.symm
  case fits => exact Nat.zero_le _
  case single => exact fun _ => rfl
  case full => exact fun b hb => absurd hb (Nat.not_lt_zero b)
  case link => exact fun b hb => absurd hb (Nat.not_lt_zero b)
  case part => exact fun b hb => absurd hb (Nat.not_lt_zero b)
  case frame => exact fun _ _ => rfl

/-- The pages behind the first: one address, or lists. -/
theorem setupPrp2_listed (hl : Lawful alloc) {iod : Iod} (hnp : iod.npages = -1) {n len a : ℕ}
    (hwhole : Whole (⟨a, len⟩ :: sg)) (hn : (touched (⟨a, len⟩ :: sg)).length = n)
    (hentry : ∀ k, pageSize * k < n → entry k = (touched (⟨a, len⟩ :: sg)).getD (pageSize * k) 0) :
    (∃ h' iod', setupPrp2 alloc h₀ iod n a len sg = .ok (.resource, h', iod') ∧
      h'.live.Perm h₀.live ∧ ∃ live kind, alloc live kind = none) ∨
    ∃ h' iod', setupPrp2 alloc h₀ iod n a len sg = .ok (.ok, h', iod') ∧
      Listed alloc h₀ entry (pagesFor n) h' iod' := by
  have hlen : 0 < len := hwhole.2.1
  have hle : len ≤ n := by
    rw [← hn, touched_cons, List.length_append, List.length_range']
    exact Nat.le_add_right _ _
  have hpages := pagesFor_pos (lt_of_lt_of_le hlen hle)
  rw [setupPrp2]
  by_cases hone : n ≤ pageSize
  · -- the second page is the last
    have h1 : pagesFor n = 1 := le_antisymm (pagesFor_le_one.mpr hone) hpages
    have ha : a = entry 0 := by
      rw [hentry 0 (by omega), Nat.mul_zero, touched_cons, List.getD_append _ _ _ _ (by simpa),
        getD_range' hlen, Nat.add_zero]
    rw [if_pos (by omega), h1]
    exact .inr ⟨_, _, rfl, .one hnp ha⟩
  · have h2 : 2 ≤ pagesFor n := by
      by_contra hlt
      exact hone (pagesFor_le_one.mp (by omega))
    rw [if_neg (by omega), pagesFor_eq_toNat]
    dsimp only
    obtain ⟨kind, hkind⟩ : ∃ kind, (if pagesFor n ≤ 256 / 8 then PoolKind.small else .page) = kind :=
      ⟨_, rfl⟩
    have hsmall : kind = .small ↔ pagesFor n ≤ 256 / 8 := by
      rw [← hkind]
      split
      · exact ⟨fun _ => ‹_›, fun _ => rfl⟩
      · exact ⟨fun h => (by cases h), fun h => absurd h ‹_›⟩
    rw [hkind]
    cases ha : alloc h₀.live kind with
    | none => exact .inl ⟨_, _, rfl, List.Perm.refl _, _, _, ha⟩
    | some dma =>
      have hnp' : (if pagesFor n ≤ 256 / 8 then (0 : ℤ) else 1) = if kind = .small then 0 else 1 := by
        simp only [hsmall]
      have hstart := Filled.start entry iod.list a len sg ha hnp'
      have hzero : ∀ k, 511 * 0 + 0 + k = k := fun k => by omega
      rcases fillLists_filled hl hstart (fun h => absurd h (lt_irrefl 0)) rfl hwhole hn
          (fun k hk => (congrArg entry (hzero k)).trans (hentry k hk))
          (fun hk => (hzero (pagesFor n)).trans_le (hsmall.mp hk)) with
        ⟨⟨h', iod'⟩, hrun, hperm, live, hempty⟩ | ⟨m, g, hrun, hg, hcount, hgrown⟩
      · exact .inl ⟨h', iod', hrun, hperm, live, kind, hempty⟩
      · rw [hzero] at hcount
        refine .inr ⟨_, _, hrun, ?_⟩
        rw [← hcount]
        exact .lists hg hgrown (hcount ▸ h2)

/-- The outcome for every scatterlist. -/
theorem setupPrps_listed (h₀ : Host) (iod : Iod) (hl : Lawful alloc) (h : Mapped s sg)
    (hnp : iod.npages = -1) {n : ℕ} (hn : (touched (s :: sg)).length = n) :
    (∃ h' iod', setupPrps alloc h₀ iod (s :: sg) n = .ok (.resource, h', iod') ∧
      h'.live.Perm h₀.live ∧ ∃ live kind, alloc live kind = none) ∨
    ∃ h' iod', setupPrps alloc h₀ iod (s :: sg) n = .ok (.ok, h', iod') ∧
      Listed alloc h₀ (entryOf s sg) (pagesFor (n - s.first)) h' iod' := by
  have hdrop : ((touched (s :: sg)).drop s.first).length = n - s.first := by
    rw [List.length_drop, hn]
  have hentry : ∀ k, entryOf s sg k = ((touched (s :: sg)).drop s.first).getD (pageSize * k) 0 :=
    fun k => by rw [getD_drop, entryOf]
  simp only [setupPrps]
  by_cases hshort : n ≤ s.first
  · -- the first page is the last
    rw [if_pos (by omega), Nat.sub_eq_zero_of_le hshort]
    exact .inr ⟨_, _, rfl, .none hnp⟩
  · have hlt : s.first < n := Nat.lt_of_not_le hshort
    obtain ⟨hle, hbig, hsame⟩ := h.behind (hn ▸ hlt)
    have hsub : (n : ℤ) - s.first = ((n - s.first : ℕ) : ℤ) := by omega
    rw [if_neg (by omega), hsub]
    rcases hle.lt_or_eq with hless | heq
    · obtain ⟨hwhole, htouched⟩ := hbig hless
      have hsub' : (s.len : ℤ) - s.first = ((s.len - s.first : ℕ) : ℤ) := by omega
      rw [if_pos (by omega), hsub']
      apply setupPrp2_listed hl hnp hwhole (by rw [htouched, hdrop])
      intro k _
      rw [htouched, hentry k]
    · obtain ⟨hne, htouched⟩ := hsame heq
      rw [if_neg (by omega)]
      obtain ⟨t, sg', rfl⟩ := List.exists_cons_of_ne_nil hne
      apply setupPrp2_listed hl hnp h.2.2 (by rw [← hdrop, ← htouched])
      intro k _
      rw [hentry k, ← htouched]

/-! ### Reading the lists -/

/-- The entries of a list, for a reader who takes the last word of a full list for the address
of the next as long as there are more entries than fit. -/
def readPrps (words : ℕ → ℕ) (list n : ℕ) : List ℕ :=
  if _h : 512 < n then
    (List.range 511).map (fun i => words (list + 8 * i)) ++
      readPrps words (words (list + 8 * 511)) (n - 511)
  else (List.range n).map fun i => words (list + 8 * i)
termination_by n
decreasing_by omega

/-- The runs of `n` bytes through pages. -/
def pageRuns : List ℕ → ℕ → List Segment
  | [], _ => []
  | page :: pages, n => { addr := page, len := min n pageSize } :: pageRuns pages (n - pageSize)

/-- The buffer of `n` bytes that a command describes. -/
def described (words : ℕ → ℕ) (d : DataPtr) (n : ℕ) : List Segment :=
  let first := pageSize - d.prp1 % pageSize
  let pages :=
    if pagesFor (n - first) ≤ 1 then (List.range (pagesFor (n - first))).map fun _ => d.prp2
    else readPrps words d.prp2 (pagesFor (n - first))
  { addr := d.prp1, len := min n first } :: pageRuns pages (n - first)

theorem touched_pageRuns {l : List ℕ} (h : Paged pageSize l) {n : ℕ} (hn : n ≤ l.length) :
    touched (pageRuns ((List.range (pagesFor n)).map fun k => l.getD (pageSize * k) 0) n) =
      l.take n := by
  induction n using Nat.strong_induction_on generalizing l with
  | _ n ih =>
    rcases Nat.eq_zero_or_pos n with rfl | hpos
    · rfl
    have hcount : pagesFor n = 1 + pagesFor (n - pageSize) := by
      change (n + 4096 - 1) / 4096 = 1 + (n - 4096 + 4096 - 1) / 4096
      omega
    have hps : 0 < pageSize := by decide
    have hrest := h.drop hps 1
    rw [Nat.mul_one] at hrest
    rw [hcount, Nat.add_comm, List.range_succ_eq_map, List.map_cons, List.map_map, pageRuns,
      touched_cons, h.eq_append n hn, Nat.mul_zero,
      ← ih (n - pageSize) (by omega) hrest (by rw [List.length_drop]; omega)]
    congr 3
    apply List.map_congr_left
    intro k _
    change l.getD (pageSize * (k + 1)) 0 = _
    rw [getD_drop, Nat.mul_succ, Nat.add_comm]

/-- The page `k` behind the first. -/
theorem Mapped.dvd_entryOf (h : Mapped s sg) {k : ℕ}
    (hk : s.first + pageSize * k < (touched (s :: sg)).length) : pageSize ∣ entryOf s sg k := by
  rw [entryOf, ← getD_drop]
  apply h.paged.base
  rw [List.length_drop]
  omega

/-- A page, and bytes of the pages behind it. -/
theorem Mapped.take_eq (h : Mapped s sg) {n : ℕ} (hn : n ≤ (touched (s :: sg)).length) :
    (touched (s :: sg)).take n = touched (⟨s.addr, min n s.first⟩ ::
      pageRuns ((List.range (pagesFor (n - s.first))).map (entryOf s sg)) (n - s.first)) := by
  have hruns := touched_pageRuns h.paged (n := n - s.first) (by rw [List.length_drop]; omega)
  have hentry : (List.range (pagesFor (n - s.first))).map (entryOf s sg) =
      (List.range (pagesFor (n - s.first))).map
        fun k => ((touched (s :: sg)).drop s.first).getD (pageSize * k) 0 := by
    apply List.map_congr_left
    intro k _
    rw [getD_drop, entryOf]
  rw [touched_cons ⟨s.addr, min n s.first⟩, hentry, hruns]
  rcases Nat.le_total n s.first with hle | hge
  · have hfirst : (touched (s :: sg)).take n = ((touched (s :: sg)).take s.first).take n := by
      rw [List.take_take, min_eq_left hle]
    rw [hfirst, h.take_first, Nat.sub_eq_zero_of_le hle, List.take_zero, List.append_nil,
      List.take_range'_of_length_ge (le_min hn hle), min_eq_left hle]
  · have hsplit := List.take_add (l := touched (s :: sg)) (i := s.first) (j := n - s.first)
    rw [Nat.add_sub_cancel' hge, h.take_first, min_eq_right (hge.trans hn)] at hsplit
    rw [hsplit, min_eq_right hge]

/-- A reader who follows the lists finds the pages in order. -/
theorem Filled.readPrps {kind : PoolKind} {m : ℕ} {f : Fill} (h : Filled alloc h₀ kind entry m f)
    (hgrown : 0 < m → 1 < f.i) {b : ℕ} (hb : b ≤ m) :
    readPrps f.host.words (f.iod.list b) (511 * (m - b) + f.i) =
      (List.range (511 * (m - b) + f.i)).map fun k => entry (511 * b + k) := by
  obtain ⟨c, rfl⟩ := Nat.exists_eq_add_of_le hb
  induction c generalizing b with
  | zero =>
    have hfits := h.fits.trans (by cases kind <;> decide : kind.size / 8 ≤ 512)
    rw [Nat.add_zero, Nat.sub_self, Nat.mul_zero, Nat.zero_add, Prp.readPrps, dif_neg (by omega)]
    apply List.map_congr_left
    intro k hk
    exact h.part k (List.mem_range.mp hk)
  | succ c ih =>
    have hi := hgrown (by omega)
    have hlt : b < b + (c + 1) := by omega
    have hshift : b + (c + 1) = b + 1 + c := by omega
    have hrest := ih (b := b + 1) (hshift ▸ h) (fun _ => hi) (by omega)
    rw [show b + 1 + c - (b + 1) = c by omega] at hrest
    rw [Prp.readPrps, dif_pos (by omega), h.link b hlt,
      show 511 * (b + (c + 1) - b) + f.i - 511 = 511 * c + f.i by omega,
      show 511 * (b + (c + 1) - b) + f.i = 511 + (511 * c + f.i) by omega,
      List.range_add, List.map_append, List.map_map, hrest]
    refine congrArg₂ (· ++ ·) ?_ ?_
    · apply List.map_congr_left
      intro k hk
      exact h.full b hlt k (List.mem_range.mp hk)
    · apply List.map_congr_left
      intro k _
      exact congrArg entry (by omega : 511 * (b + 1) + k = 511 * b + (511 + k))

/-! ### Mapping and unmapping -/

namespace Listed

variable {e : ℕ} {h : Host} {iod : Iod}

/-- The pages behind the first, for a reader who follows the lists. -/
theorem pages (hl : Listed alloc h₀ entry e h iod) :
    (if e ≤ 1 then (List.range e).map fun _ => iod.firstDma else readPrps h.words iod.firstDma e) =
      (List.range e).map entry := by
  cases hl with
  | none _ => rfl
  | one _ ha => rw [if_pos le_rfl, ha]; rfl
  | @lists kind m f hf hgrown htwo =>
    have hread := hf.readPrps hgrown (Nat.zero_le m)
    rw [Nat.sub_zero, Nat.mul_zero] at hread
    rw [if_neg (by omega), hf.first, hread]
    simp only [Nat.zero_add]

/-- What the request took is given back. -/
theorem unmap (hl : Listed alloc h₀ entry e h iod) :
    ∃ h', kvUnmapData h iod = .ok h' ∧ h'.live.Perm h₀.live := by
  have hnone : ∀ {iod : Iod}, iod.npages = -1 → kvUnmapData h₀ iod = .ok h₀ := by
    intro iod hnp
    rw [kvUnmapData, if_neg (by omega), freePrps, hnp]
    rfl
  cases hl with
  | none hnp => exact ⟨_, hnone hnp, List.Perm.refl _⟩
  | one hnp _ => exact ⟨_, hnone hnp, List.Perm.refl _⟩
  | @lists kind m f hf _ _ =>
    cases kind with
    | page =>
      have hnp : f.iod.npages ≠ 0 := by
        rw [hf.npages, if_neg (by decide)]
        omega
      obtain ⟨h', hok, -, hperm⟩ := hf.freePrps (List.Perm.refl _) (fun _ _ => rfl)
      exact ⟨h', by rw [kvUnmapData, if_neg hnp, hok], hperm⟩
    | small =>
      obtain rfl := hf.single rfl
      have hnp : f.iod.npages = 0 := hf.npages
      have hmem : (⟨.small, f.iod.list 0⟩ : Block) ∈ f.host.live :=
        hf.live.mem_iff.mpr List.mem_cons_self
      have hperm := hf.live.erase ⟨.small, f.iod.list 0⟩
      refine ⟨_, by rw [kvUnmapData, if_pos hnp, Host.free, if_pos ⟨hmem, hf.first⟩], ?_⟩
      rw [Iod.blocks, List.range_one, List.map_singleton, List.singleton_append,
        List.erase_cons_head] at hperm
      exact hperm

/-- Lists are blocks of the pools. -/
theorem live_perm_iff (hl : Listed alloc h₀ entry e h iod) : h.live.Perm h₀.live ↔ e ≤ 1 := by
  cases hl with
  | none _ => exact ⟨fun _ => Nat.zero_le 1, fun _ => List.Perm.refl _⟩
  | one _ _ => exact ⟨fun _ => le_rfl, fun _ => List.Perm.refl _⟩
  | @lists kind m f hf _ htwo =>
    constructor
    · intro hperm
      have hlen := (hf.live.symm.trans hperm).length_eq
      rw [List.length_append, Iod.blocks, List.length_map, List.length_range] at hlen
      omega
    · intro hle
      omega

end Listed

/-- A scatterlist that fits behind `iod->sg`. -/
theorem kvMapData_of_le {sg : List Segment} {n : ℕ} {metaOk : Bool} (h : sg.length ≤ iodSgSz) :
    kvMapData alloc h₀ sg n metaOk = (setupPrps alloc h₀ ⟨0, -1, fun _ => 0⟩ sg n).map fun r =>
      if r.1 = .ok then (if metaOk then .ok else .ioerr, r.2.1, r.2.2,
        ⟨(sg.head?.map Segment.addr).getD 0, r.2.2.firstDma⟩)
      else (r.1, r.2.1, r.2.2, ⟨0, 0⟩) := by
  rw [kvMapData, if_neg (Nat.not_lt.mpr h)]
  dsimp only
  cases setupPrps alloc h₀ ⟨0, -1, fun _ => 0⟩ sg n with
  | error _ => rfl
  | ok r =>
    change (if r.1 = .ok then _ else _) = Except.ok (if r.1 = .ok then _ else _)
    split <;> rfl

/-- Mapping a buffer of more than 128 pages writes behind the block of `iod->sg`. A smaller one
is mapped: the command describes the bytes of the buffer in order, for a reader who follows the
lists, and unmapping gives all lists back with their own addresses. If a pool is empty nothing
stays behind; if the key cannot be mapped, the lists stay. -/
theorem kvMapData_lists (h₀ : Host) (hl : Lawful alloc) {u : UserBuffer} (hu : u.Pinned)
    (metaOk : Bool) :
    (iodSgSz < u.pages.length →
      kvMapData alloc h₀ (getAioUserCtx u) u.len metaOk = .error .badAccess) ∧
    (u.pages.length ≤ iodSgSz → ∃ status h iod d,
      kvMapData alloc h₀ (getAioUserCtx u) u.len metaOk = .ok (status, h, iod, d) ∧
      (status = .ok → touched (described h.words d u.len) = touched (getAioUserCtx u) ∧
        ∃ h', kvUnmapData h iod = .ok h' ∧ h'.live.Perm h₀.live) ∧
      (status = .resource → h.live.Perm h₀.live ∧ ∃ live kind, alloc live kind = none) ∧
      (status = .ioerr → metaOk = false ∧
        (h.live.Perm h₀.live ↔ pagesFor (u.len - (pageSize - u.offset)) ≤ 1))) := by
  rw [← length_getAioUserCtx u]
  refine ⟨fun hmany => if_pos hmany, fun hfew => ?_⟩
  rw [kvMapData_of_le hfew]
  obtain ⟨s, sg, hctx, hmapped, hlen, hfirst⟩ := hu.mapped
  rw [hctx, ← hfirst]
  rcases setupPrps_listed h₀ ⟨0, -1, fun _ => 0⟩ hl hmapped rfl hlen with
    ⟨h, iod, hset, hempty⟩ | ⟨h, iod, hset, hlisted⟩
  · rw [hset]
    refine ⟨.resource, h, iod, ⟨0, 0⟩, rfl, ?_, fun _ => hempty, ?_⟩
    · rintro ⟨⟩
    · rintro ⟨⟩
  · rw [hset]
    refine ⟨if metaOk then .ok else .ioerr, h, iod, ⟨s.addr, iod.firstDma⟩, rfl, fun _ => ⟨?_, ?_⟩,
      ?_, ?_⟩
    · -- the first page and the pages behind it
      have hpages := hlisted.pages
      have htake := hmapped.take_eq (n := u.len) hlen.ge
      rw [List.take_of_length_le hlen.le, ← hpages] at htake
      exact htake.symm
    · exact hlisted.unmap
    · intro hs
      cases metaOk <;> cases hs
    · intro hs
      cases metaOk with
      | true => cases hs
      | false => exact ⟨rfl, hlisted.live_perm_iff⟩

/-! ### A request -/

/-- Pools that give pages from the frame `base` on, behind all blocks in use. -/
def bump (base : ℕ) : Allocator := fun live _ =>
  some (pageSize * live.foldr (fun b n => max (b.addr / pageSize + 2) n) base)

theorem le_foldr_max (live : List Block) (base : ℕ) :
    base ≤ live.foldr (fun b n => max (b.addr / pageSize + 2) n) base := by
  induction live with
  | nil => exact le_rfl
  | cons b live ih => exact ih.trans (le_max_right _ _)

theorem lawful_bump (base : ℕ) : Lawful (bump base) where
  aligned := by
    rintro live kind a ⟨⟩
    have hsize : kind.size ∣ pageSize := by cases kind <;> decide
    exact hsize.mul_right _
  fresh := by
    rintro live kind a ⟨⟩ b hb
    refine .inr ?_
    have hle : b.addr / pageSize + 2 ≤ live.foldr (fun b n => max (b.addr / pageSize + 2) n) base := by
      induction live with
      | nil => cases hb
      | cons c live ih =>
        rcases List.mem_cons.mp hb with rfl | hb
        · exact le_max_left _ _
        · exact (ih hb).trans (le_max_right _ _)
    have hsize : b.kind.size ≤ 4096 := by cases b.kind <;> decide
    change b.addr + b.kind.size ≤ 4096 * _
    change b.addr / 4096 + 2 ≤ _ at hle
    omega

/-- 9000 bytes in three pages: the request needs a list. -/
def threePages : UserBuffer where
  pages := [5, 9, 7]
  offset := 100
  len := 9000

theorem pinned_threePages : threePages.Pinned := ⟨by decide, by decide, by decide⟩

/-- Pools that are never empty. -/
theorem kvMapData_ok (h₀ : Host) (hl : Lawful alloc) (hfull : ∀ live kind, alloc live kind ≠ none)
    {u : UserBuffer} (hu : u.Pinned) (hfew : u.pages.length ≤ iodSgSz) :
    ∃ h iod d, kvMapData alloc h₀ (getAioUserCtx u) u.len true = .ok (.ok, h, iod, d) := by
  rw [kvMapData_of_le ((length_getAioUserCtx u).trans_le hfew)]
  obtain ⟨s, sg, hctx, hmapped, hlen, -⟩ := hu.mapped
  rw [hctx]
  rcases setupPrps_listed h₀ ⟨0, -1, fun _ => 0⟩ hl hmapped rfl hlen with
    ⟨_, _, _, -, live, kind, hnone⟩ | ⟨h, iod, hset, -⟩
  · exact absurd hnone (hfull live kind)
  · rw [hset]
    exact ⟨_, _, _, rfl⟩

theorem kvMapData_lists_threePages : ∃ h iod d h',
    kvMapData (bump 16) ⟨fun _ => 0, []⟩ (getAioUserCtx threePages) 9000 true = .ok (.ok, h, iod, d) ∧
    touched (described h.words d 9000) = touched (getAioUserCtx threePages) ∧
    kvUnmapData h iod = .ok h' ∧ h'.live = [] := by
  obtain ⟨h, iod, d, hmap⟩ := kvMapData_ok ⟨fun _ => 0, []⟩ (lawful_bump 16)
    (fun _ _ => Option.some_ne_none _) pinned_threePages (by decide)
  obtain ⟨status, h, iod, d, hmap', hok, -⟩ :=
    (kvMapData_lists ⟨fun _ => 0, []⟩ (lawful_bump 16) pinned_threePages true).2 (by decide)
  rw [hmap] at hmap'
  cases hmap'
  obtain ⟨hdescribed, h', hunmap, hperm⟩ := hok rfl
  exact ⟨_, _, _, h', hmap, hdescribed, hunmap, hperm.eq_nil⟩

end Virtkv.Prp
