import Virtkv.Prp.Walk

/-!
# The copies of the DMA engine

The DMA engine is given as few copies as possible: pages that follow each other in memory are
one copy. They touch the same bytes in the same order as page after page. The addresses of the
pages go through an array of a fixed size, so that a buffer can be too long for it.

## Main results

- `transfers_touched` — the copies for pages that follow each other
- `dmaCopies_iff` — when the DMA engine touches the bytes of the buffer
-/

namespace Virtkv.Prp

open Chunked

variable {words : ℕ → ℕ} {d : DataPtr} {cs : List Segment}

/-- The segments are the steps of a walk over `r` bytes. -/
def Steps : List Segment → ℕ → Prop
  | [], r => r = 0
  | c :: cs, r => 0 < r ∧ c.len = ioSize c.addr r ∧ Steps cs (r - c.len)

theorem copies_steps {w : Walk} {r : ℕ} (h : copies words d w r = .ok cs) : Steps cs r := by
  induction r using Nat.strong_induction_on generalizing w cs with
  | _ r ih =>
    rcases Nat.eq_zero_or_pos r with rfl | hr
    · rw [copies_zero] at h
      cases h
      rfl
    · cases hnext : w.next words d r with
      | error e =>
        rw [copies, dif_neg hr.ne', hnext] at h
        cases h
      | ok p =>
        obtain ⟨a, w'⟩ := p
        rw [copies_next hr hnext] at h
        cases hrest : copies words d w' (r - ioSize a r) with
        | error e =>
          rw [hrest] at h
          cases h
        | ok rest =>
          rw [hrest] at h
          cases h
          have hpos : 0 < ioSize a r := ioSize_pos _ hr.ne'
          exact ⟨hr, rfl, ih _ (by change r - ioSize a r < r; omega) hrest⟩

/-- A page, which is whole unless it is the last, and what is next to it. -/
theorem range'_page (a r x : ℕ) :
    List.range' a (min r pageSize) ++ List.range' (a + pageSize) (min (r - min r pageSize) x) =
      List.range' a (min r (pageSize + x)) := by
  rcases Nat.le_total r pageSize with hle | hge
  · rw [min_eq_left hle, Nat.sub_self, Nat.zero_min, List.range'_zero, List.append_nil,
      min_eq_left (hle.trans (Nat.le_add_right _ _))]
  · rw [min_eq_right hge, List.range'_append_1]
    exact congrArg (List.range' a) (by omega)

/-- A walk over pages that follow `a`: those that are next to each other, and the others. -/
theorem follow_steps {a : ℕ} : ∀ {cs : List Segment} {r : ℕ}, Steps cs r →
    (∀ c ∈ cs, pageSize ∣ c.addr) → ∃ pre post, cs = pre ++ post ∧
      follow a (cs.map Segment.addr) = (pre.length, post.map Segment.addr) ∧
      touched pre = List.range' (a + pageSize) (min r (pre.length * pageSize)) ∧
      Steps post (r - pre.length * pageSize) := by
  intro cs
  induction cs generalizing a with
  | nil =>
    intro r hsteps _
    have hr : r = 0 := hsteps
    exact ⟨[], [], rfl, rfl, by rw [hr, Nat.zero_min]; rfl, by rw [hr]; rfl⟩
  | cons c cs ih =>
    intro r hsteps halign
    obtain ⟨hr, hlen, hrest⟩ := hsteps
    rw [ioSize_aligned (halign c List.mem_cons_self)] at hlen
    by_cases hnext : c.addr = a + pageSize
    · obtain ⟨pre, post, hcs, hfollow, htouched, hpost⟩ :=
        ih (a := c.addr) hrest (fun x hx => halign x (List.mem_cons_of_mem _ hx))
      have hmul : (pre.length + 1) * pageSize = pageSize + pre.length * pageSize := by
        rw [Nat.succ_mul, Nat.add_comm]
      refine ⟨c :: pre, post, congrArg _ hcs, ?_, ?_, ?_⟩
      · rw [List.map_cons, follow, if_pos hnext, hfollow]
        rfl
      · rw [touched_cons, htouched, hlen, hnext, List.length_cons, hmul, range'_page]
      · rw [List.length_cons, hmul]
        rw [hlen] at hpost
        convert hpost using 1
        omega
    · refine ⟨[], c :: cs, rfl, ?_, ?_, ?_⟩
      · rw [List.map_cons, follow, if_neg hnext]
        rfl
      · rw [List.length_nil, Nat.zero_mul, Nat.min_zero]
        rfl
      · rw [List.length_nil, Nat.zero_mul, Nat.sub_zero]
        exact ⟨hr, by rw [hlen, ioSize_aligned (halign c List.mem_cons_self)], hrest⟩

/-- The copies touch the bytes of the walk, in its order. -/
theorem transfers_touched : ∀ {n : ℕ} {cs : List Segment} {r : ℕ}, cs.length = n → Steps cs r →
    (∀ c ∈ cs.tail, pageSize ∣ c.addr) →
    ∃ ts, transfers (cs.map Segment.addr) r = .ok ts ∧ touched ts = touched cs := by
  intro n
  induction n using Nat.strong_induction_on with
  | _ n ih =>
    intro cs r hn hsteps halign
    cases cs with
    | nil =>
      have hr : r = 0 := hsteps
      exact ⟨[], by rw [List.map_nil, transfers, if_pos hr], rfl⟩
    | cons c cs =>
      obtain ⟨hr, hlen, hrest⟩ := hsteps
      rw [List.tail_cons] at halign
      rw [List.map_cons, transfers, if_neg hr.ne']
      by_cases hal : pageSize ∣ c.addr
      · obtain ⟨pre, post, hcs, hfollow, htouched, hpost⟩ := follow_steps (a := c.addr) hrest halign
        rw [ioSize_aligned hal] at hlen
        have hlenpost : post.length < n := by
          rw [← hn, hcs, List.length_cons, List.length_append]
          omega
        have hleft : r - c.len - pre.length * pageSize =
            r - min r (pageSize + pre.length * pageSize) := by
          rw [hlen]
          omega
        obtain ⟨ts, hts, hsame⟩ := ih _ hlenpost rfl hpost
          (fun x hx => halign x (hcs ▸ List.mem_append_right _ (List.mem_of_mem_tail hx)))
        have hsize : min r (min r pageSize + pre.length * pageSize) =
            min r (pageSize + pre.length * pageSize) := by omega
        rw [hleft] at hts
        refine ⟨⟨c.addr, min r (pageSize + pre.length * pageSize)⟩ :: ts, ?_, ?_⟩
        · rw [hfollow, ioSize_aligned hal]
          dsimp only
          rw [hsize, hts]
          rfl
        · rw [hlen] at htouched
          rw [touched_cons, touched_cons, hsame, hcs, hlen, touched_append, htouched,
            ← List.append_assoc, range'_page]
      · -- no page is next to one that is not aligned
        have hfollow : follow c.addr (cs.map Segment.addr) = (0, cs.map Segment.addr) := by
          cases cs with
          | nil => rfl
          | cons c' cs =>
            rw [List.map_cons, follow, if_neg]
            intro heq
            have hdvd := halign c' List.mem_cons_self
            rw [heq] at hdvd
            exact hal ((Nat.dvd_add_right (dvd_refl _)).mp (Nat.add_comm _ _ ▸ hdvd))
        have hsize : min r (ioSize c.addr r + 0 * pageSize) = c.len := by
          rw [hlen, ioSize_eq]
          omega
        obtain ⟨ts, hts, hsame⟩ := ih cs.length (by rw [← hn, List.length_cons]; omega) rfl hrest
          (fun x hx => halign x (List.mem_of_mem_tail hx))
        refine ⟨⟨c.addr, c.len⟩ :: ts, ?_, ?_⟩
        · rw [hfollow]
          dsimp only
          rw [hsize, hts]
          rfl
        · rw [touched_cons, touched_cons, hsame]

/-! ### The lists of the driver -/

variable {alloc : Allocator} {h₀ h : Host} {s : Segment} {sg : List Segment} {iod₀ iod : Iod}

@[simp]
theorem length_pageRuns (pages : List ℕ) (n : ℕ) : (pageRuns pages n).length = pages.length := by
  induction pages generalizing n with
  | nil => rfl
  | cons page pages ih => rw [pageRuns, List.length_cons, List.length_cons, ih]

theorem addr_mem_of_mem_pageRuns {pages : List ℕ} {n : ℕ} {c : Segment} (h : c ∈ pageRuns pages n) :
    c.addr ∈ pages := by
  induction pages generalizing n with
  | nil => cases h
  | cons page pages ih =>
    rcases List.mem_cons.mp h with rfl | h
    · exact List.mem_cons_self
    · exact List.mem_cons_of_mem _ (ih h)

/-- The walk goes on in a list, whatever its words are. -/
theorem copies_list_ok (words : ℕ → ℕ) (d : DataPtr) (list r k : ℕ) :
    ∃ cs, copies words d ⟨k + 2, k + 1, some list⟩ r = .ok cs := by
  induction r using Nat.strong_induction_on generalizing k with
  | _ r ih =>
    rcases Nat.eq_zero_or_pos r with rfl | hr
    · exact ⟨[], copies_zero _⟩
    · have hpos : 0 < ioSize (words (list + 8 * (k + 1))) r := ioSize_pos _ hr.ne'
      obtain ⟨cs, hcs⟩ := ih (r - ioSize (words (list + 8 * (k + 1))) r) (by omega) (k + 1)
      rw [copies_next hr (Walk.next_list words d k r list), hcs]
      exact ⟨_, rfl⟩

/-- From 512 pages behind the first on, the device finds more pages than its array holds. -/
theorem Mapped.copies_long (hl : Lawful alloc) (hmapped : Mapped s sg)
    (hlisted : Listed alloc h₀ (entryOf s sg) (pagesFor ((touched (s :: sg)).length - s.first)) h iod)
    (hlong : 511 < pagesFor ((touched (s :: sg)).length - s.first)) :
    ∃ cs, copies h.words ⟨s.addr, iod.firstDma⟩ .init (touched (s :: sg)).length = .ok cs ∧
      512 < cs.length := by
  generalize hr : (touched (s :: sg)).length - s.first = r at hlisted hlong
  have hrlong : 2093056 < r := by
    change 511 < (r + 4096 - 1) / 4096 at hlong
    omega
  have halign : ∀ j ≤ 511, pageSize ∣ h.words (iod.firstDma + 8 * (0 + j)) := by
    intro j hj
    rw [Nat.zero_add]
    by_cases hentry : pagesFor r ≤ 512 ∨ j < 511
    · rw [hlisted.words_entry (by omega) (by omega) hentry]
      apply hmapped.dvd_entryOf
      change s.first + 4096 * j < _
      omega
    · -- the address of the next list, which is a page
      obtain rfl : j = 511 := by omega
      obtain ⟨live, ha⟩ := hlisted.exists_alloc_last (by omega)
      exact hl.aligned ha
  have hwalk := copies_list (d := ⟨s.addr, iod.firstDma⟩) h.words iod.firstDma (K := 511) (k := 0)
    (Walk.next_prp2 (show 4096 < r by omega)) hlong halign
  obtain ⟨rest, hrest⟩ := copies_list_ok h.words ⟨s.addr, iod.firstDma⟩ iod.firstDma
    (r - pageSize * (511 + 1)) 511
  rw [Nat.zero_add, hrest] at hwalk
  have hpos : 0 < (touched (s :: sg)).length := by omega
  rw [copies_first hpos rfl, hr, hwalk]
  refine ⟨_, rfl, ?_⟩
  rw [List.length_cons, List.length_append, length_pageRuns, List.length_map, List.length_range]
  omega

/-- The DMA engine touches the bytes of a buffer in order exactly if the buffer has at most 512
pages; with more, the device writes behind its array. -/
theorem dmaCopies_iff (hl : Lawful alloc) (hmapped : Mapped s sg) (hnp : iod₀.npages = -1)
    (hset : setupPrps alloc h₀ iod₀ (s :: sg) (touched (s :: sg)).length = .ok (.ok, h, iod)) :
    ((dmaCopies h.words ⟨s.addr, iod.firstDma⟩ (touched (s :: sg)).length).map touched =
        .ok (touched (s :: sg)) ↔
      pagesFor ((touched (s :: sg)).length - s.first) ≤ 511) ∧
    (511 < pagesFor ((touched (s :: sg)).length - s.first) →
      dmaCopies h.words ⟨s.addr, iod.firstDma⟩ (touched (s :: sg)).length = .error .badAccess) := by
  have hlisted : Listed alloc h₀ (entryOf s sg)
      (pagesFor ((touched (s :: sg)).length - s.first)) h iod := by
    rcases setupPrps_listed h₀ iod₀ hl hmapped hnp rfl with ⟨_, _, hset', -⟩ | ⟨_, _, hset', hlisted⟩
    · rw [hset] at hset'
      cases hset'
    · rw [hset] at hset'
      cases hset'
      exact hlisted
  have hlong : 511 < pagesFor ((touched (s :: sg)).length - s.first) →
      dmaCopies h.words ⟨s.addr, iod.firstDma⟩ (touched (s :: sg)).length = .error .badAccess := by
    intro hlong
    obtain ⟨cs, hcs, hlen⟩ := hmapped.copies_long hl hlisted hlong
    rw [dmaCopies, hcs]
    exact if_neg (by change ¬ cs.length < 513; omega)
  refine ⟨⟨fun heq => ?_, fun hshort => ?_⟩, hlong⟩
  · by_contra hgt
    rw [hlong (Nat.lt_of_not_le hgt)] at heq
    cases heq
  · have hpos : 0 < (touched (s :: sg)).length := by
      rw [touched_cons, List.length_append, List.length_range']
      exact Nat.add_pos_left hmapped.1 _
    have hcs := hmapped.copies_eq hlisted rfl hpos le_rfl (by unfold Agrees; omega)
    obtain ⟨ts, hts, htouched⟩ := transfers_touched rfl (copies_steps hcs) (fun c hc => by
      obtain ⟨k, hk, hck⟩ := List.mem_map.mp (addr_mem_of_mem_pageRuns hc)
      rw [← hck]
      apply hmapped.dvd_entryOf
      have hlt := List.mem_range.mp hk
      change k < ((touched (s :: sg)).length - s.first + 4096 - 1) / 4096 at hlt
      change s.first + 4096 * k < _
      omega)
    have hfew : ((⟨s.addr, min (touched (s :: sg)).length s.first⟩ ::
        pageRuns ((List.range (pagesFor ((touched (s :: sg)).length - s.first))).map (entryOf s sg))
          ((touched (s :: sg)).length - s.first)) : List Segment).length < paddrListSz := by
      rw [List.length_cons, length_pageRuns, List.length_map, List.length_range]
      exact Nat.lt_succ_of_le (Nat.succ_le_succ hshort)
    have hrun : dmaCopies h.words ⟨s.addr, iod.firstDma⟩ (touched (s :: sg)).length = .ok ts := by
      rw [dmaCopies, hcs]
      exact (if_pos hfew).trans hts
    rw [hrun]
    change Except.ok (touched ts) = _
    rw [htouched, ← hmapped.take_eq le_rfl, List.take_length]

/-- Three pages behind the first, of which two follow each other: the entries are in a list. -/
theorem dmaCopies_iff_fourPages : ∃ h iod,
    setupPrps (bump 16) ⟨fun _ => 0, []⟩ ⟨0, -1, fun _ => 0⟩
      [⟨20580, 3996⟩, ⟨36864, 8192⟩, ⟨28672, 908⟩] 13096 = .ok (.ok, h, iod) ∧
    (dmaCopies h.words ⟨20580, iod.firstDma⟩ 13096).map touched =
      .ok (touched [⟨20580, 3996⟩, ⟨36864, 8192⟩, ⟨28672, 908⟩]) := by
  have hmapped : Mapped ⟨20580, 3996⟩ [⟨36864, 8192⟩, ⟨28672, 908⟩] :=
    ⟨by decide, fun _ => by decide, by decide, by decide, fun _ => by decide, by decide, by decide,
      fun h => absurd rfl h, trivial⟩
  have hlen : (touched [⟨20580, 3996⟩, ⟨36864, 8192⟩, ⟨28672, 908⟩]).length = 13096 := by
    simp only [length_touched_cons, touched_nil, List.length_nil]
  rcases setupPrps_listed ⟨fun _ => 0, []⟩ ⟨0, -1, fun _ => 0⟩ (lawful_bump 16) hmapped rfl hlen with
    ⟨_, _, _, -, _, _, hnone⟩ | ⟨h, iod, hset, -⟩
  · exact absurd hnone (Option.some_ne_none _)
  · rw [← hlen] at hset
    have hdma := (dmaCopies_iff (lawful_bump 16) hmapped rfl hset).1.mpr (by rw [hlen]; decide)
    rw [hlen] at hset hdma
    exact ⟨h, iod, hset, hdma⟩

end Virtkv.Prp
