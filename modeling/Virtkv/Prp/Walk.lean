import Virtkv.Prp.Setup

/-!
# The device walks the pages

The device looks at its own length to tell a second page from a list, and it takes every entry
of a list for a page. So it finds the buffer only if its length and the length of the buffer
agree on what `prp2` is, and as long as it does not come to an entry that leads to another list.
The pages of a KV command are few enough for one list.

## Main results

- `copies_list` — the walk over a list
- `kvMapData_copies_iff` — when the device touches the bytes of the buffer
-/

namespace Virtkv.Prp

open Chunked

/-- The device, which moves `n` bytes, takes the entries of a buffer of `m` bytes for what they
are: they lie in the first page; there is one page behind the first for both; or there are more
for both, and the device does not come to the end of a full list that goes on. -/
def Agrees (first n m : ℕ) : Prop :=
  pagesFor (n - first) = 0 ∨
  (pagesFor (n - first) = 1 ∧ pagesFor (m - first) = 1) ∨
  (2 ≤ pagesFor (n - first) ∧ (pagesFor (m - first) ≤ 512 ∨ pagesFor (n - first) ≤ 511))

variable {words : ℕ → ℕ} {d : DataPtr} {cs : List Segment}

theorem ioSize_eq (paddr remaining : ℕ) :
    ioSize paddr remaining = min remaining (pageSize - paddr % pageSize) := by
  have hmod := Nat.mod_lt paddr (by decide : 0 < pageSize)
  unfold ioSize
  dsimp only
  split <;> omega

theorem ioSize_aligned {paddr remaining : ℕ} (h : pageSize ∣ paddr) :
    ioSize paddr remaining = min remaining pageSize := by
  rw [ioSize_eq, Nat.mod_eq_zero_of_dvd h, Nat.sub_zero]

@[simp]
theorem copies_zero (w : Walk) : copies words d w 0 = .ok [] := by
  rw [copies, dif_pos rfl]

/-- A page, and what is behind it. -/
theorem copies_next {w w' : Walk} {a r : ℕ} (hr : 0 < r) (hnext : w.next words d r = .ok (a, w')) :
    copies words d w r = (copies words d w' (r - ioSize a r)).map (⟨a, ioSize a r⟩ :: ·) := by
  rw [copies, dif_neg hr.ne', hnext]
  rfl

theorem Walk.next_list (words : ℕ → ℕ) (d : DataPtr) (k r list : ℕ) :
    Walk.next words d ⟨k + 2, k + 1, some list⟩ r =
      .ok (words (list + 8 * (k + 1)), ⟨k + 1 + 2, k + 1 + 1, some list⟩) := by
  rw [Walk.next, if_neg (by simp), if_neg (by simp)]

theorem Walk.next_prp2 {r : ℕ} (hr : pageSize < r) : Walk.next words d ⟨1, 0, none⟩ r =
    .ok (words (d.prp2 + 8 * 0), ⟨0 + 2, 0 + 1, some d.prp2⟩) := by
  rw [Walk.next, if_neg (by simp), if_pos (by simp), if_pos hr]

/-- The entries from `k` to `k + K` of a list are walked, if they are pages. -/
theorem copies_list (words : ℕ → ℕ) (list : ℕ) : ∀ {K k r : ℕ} {w : Walk},
    w.next words d r = .ok (words (list + 8 * k), ⟨k + 2, k + 1, some list⟩) →
    K < pagesFor r → (∀ j ≤ K, pageSize ∣ words (list + 8 * (k + j))) →
    copies words d w r =
      (copies words d ⟨k + K + 2, k + K + 1, some list⟩ (r - pageSize * (K + 1))).map
        (pageRuns ((List.range (K + 1)).map fun j => words (list + 8 * (k + j))) r ++ ·) := by
  intro K
  induction K with
  | zero =>
    intro k r w hnext hK halign
    have hr : 0 < r := by
      change 0 < (r + 4096 - 1) / 4096 at hK
      omega
    have hsize : r - min r pageSize = r - pageSize * (0 + 1) := by omega
    have h0 : pageSize ∣ words (list + 8 * k) := halign 0 le_rfl
    rw [copies_next hr hnext, ioSize_aligned h0, hsize]
    rfl
  | succ K ih =>
    intro k r w hnext hK halign
    have hr : pageSize < r := by
      change K + 1 < (r + 4096 - 1) / 4096 at hK
      change 4096 < r
      omega
    have hK' : K < pagesFor (r - pageSize) := by
      have := pagesFor_sub hr
      omega
    have hsize : r - min r pageSize = r - pageSize := by omega
    have hshift : ∀ j, k + 1 + j = k + (j + 1) := fun j => by omega
    have hrest := ih (Walk.next_list words d k (r - pageSize) list) hK' (fun j hj => by
      rw [hshift]
      exact halign (j + 1) (by omega))
    have hruns : pageRuns ((List.range (K + 1 + 1)).map fun j => words (list + 8 * (k + j))) r =
        ⟨words (list + 8 * k), min r pageSize⟩ ::
          pageRuns ((List.range (K + 1)).map fun j => words (list + 8 * (k + 1 + j)))
            (r - pageSize) := by
      rw [List.range_succ_eq_map, List.map_cons, List.map_map, pageRuns]
      simp only [hshift]
      rfl
    have hleft : r - pageSize - pageSize * (K + 1) = r - pageSize * (K + 1 + 1) := by
      rw [Nat.mul_succ pageSize (K + 1)]
      omega
    have h0 : pageSize ∣ words (list + 8 * k) := halign 0 (Nat.zero_le _)
    rw [copies_next (by omega) hnext, ioSize_aligned h0, hsize, hrest, hruns, hleft, hshift K]
    cases copies words d ⟨k + (K + 1) + 2, k + (K + 1) + 1, some list⟩
      (r - pageSize * (K + 1 + 1)) <;> rfl

/-! ### The lists of the driver -/

variable {alloc : Allocator} {h₀ h : Host} {entry : ℕ → ℕ} {s : Segment} {sg : List Segment}
  {iod : Iod} {e : ℕ}

namespace Listed

/-- The first list holds the first pages behind the first: 512 if they fit, else 511. -/
theorem words_entry (hl : Listed alloc h₀ entry e h iod) (htwo : 2 ≤ e) {j : ℕ} (hj : j < e)
    (hfirst : e ≤ 512 ∨ j < 511) : h.words (iod.firstDma + 8 * j) = entry j := by
  cases hl with
  | none _ => omega
  | one _ _ => omega
  | @lists kind m f hf hgrown _ =>
    have hfits := hf.fits.trans (by cases kind <;> decide : kind.size / 8 ≤ 512)
    rw [hf.first]
    rcases Nat.eq_zero_or_pos m with rfl | hm
    · rw [Nat.mul_zero, Nat.zero_add] at hj
      have hpart := hf.part j hj
      rwa [Nat.mul_zero, Nat.zero_add] at hpart
    · have hi := hgrown hm
      have hfull := hf.full 0 hm j (by omega)
      rwa [Nat.mul_zero, Nat.zero_add] at hfull

/-- With lists, `prp2` is a block of a pool. -/
theorem exists_alloc (hl : Listed alloc h₀ entry e h iod) (htwo : 2 ≤ e) :
    ∃ live kind, alloc live kind = some iod.firstDma := by
  cases hl with
  | none _ => omega
  | one _ _ => omega
  | @lists kind m f hf _ _ =>
    obtain ⟨live, ha⟩ := hf.got 0 (Nat.zero_le m)
    exact ⟨live, kind, by rw [ha, hf.first]⟩

/-- With more than one list, the last word of the first is a block of a pool. -/
theorem exists_alloc_last (hl : Listed alloc h₀ entry e h iod) (hmany : 512 < e) :
    ∃ live, alloc live .page = some (h.words (iod.firstDma + 8 * 511)) := by
  cases hl with
  | none _ => omega
  | one _ _ => omega
  | @lists kind m f hf _ _ =>
    have hfits := hf.fits.trans (by cases kind <;> decide : kind.size / 8 ≤ 512)
    have hm : 0 < m := by omega
    obtain rfl := hf.page_of_pos hm
    obtain ⟨live, ha⟩ := hf.got 1 hm
    exact ⟨live, by rw [ha, hf.first, hf.link 0 hm]⟩

theorem firstDma_one (hl : Listed alloc h₀ entry 1 h iod) : iod.firstDma = entry 0 := by
  generalize he : 1 = e at hl
  cases hl with
  | none _ => cases he
  | one _ ha => exact ha
  | lists _ _ htwo => omega

end Listed

/-! ### The walk over a buffer -/

/-- A buffer that was mapped fits behind `iod->sg`. -/
theorem pages_le_of_kvMapData {u : UserBuffer} {n : ℕ} {metaOk : Bool}
    {r : BlkStatus × Host × Iod × DataPtr}
    (hmap : kvMapData alloc h₀ (getAioUserCtx u) n metaOk = .ok r) : u.pages.length ≤ iodSgSz := by
  by_contra hmany
  rw [kvMapData, length_getAioUserCtx, if_pos (Nat.lt_of_not_le hmany)] at hmap
  cases hmap

/-- What a command that was mapped refers to. -/
theorem kvMapData_listed (hl : Lawful alloc) {u : UserBuffer} (hu : u.Pinned) {metaOk : Bool}
    (hmap : kvMapData alloc h₀ (getAioUserCtx u) u.len metaOk = .ok (.ok, h, iod, d)) :
    ∃ s sg, getAioUserCtx u = s :: sg ∧ Mapped s sg ∧ (touched (s :: sg)).length = u.len ∧
      s.first = pageSize - u.offset ∧ d = ⟨s.addr, iod.firstDma⟩ ∧
      Listed alloc h₀ (entryOf s sg) (pagesFor (u.len - s.first)) h iod := by
  obtain ⟨s, sg, hctx, hmapped, hlen, hfirst⟩ := hu.mapped
  refine ⟨s, sg, hctx, hmapped, hlen, hfirst, ?_⟩
  rw [kvMapData_of_le ((length_getAioUserCtx u).trans_le (pages_le_of_kvMapData hmap)), hctx] at hmap
  rcases setupPrps_listed h₀ ⟨0, -1, fun _ => 0⟩ hl hmapped rfl hlen with
    ⟨h', iod', hset, -⟩ | ⟨h', iod', hset, hlisted⟩
  · rw [hset] at hmap
    cases hmap
  · rw [hset] at hmap
    cases metaOk with
    | false => cases hmap
    | true =>
      cases hmap
      exact ⟨rfl, hlisted⟩

/-- The first page, and the rest of the walk. -/
theorem copies_first {n : ℕ} (hn : 0 < n) (hd : d.prp1 = s.addr) :
    copies words d .init n =
      (copies words d ⟨1, 0, none⟩ (n - s.first)).map (⟨s.addr, min n s.first⟩ :: ·) := by
  have hnext : Walk.init.next words d n = .ok (s.addr, ⟨1, 0, none⟩) := by
    rw [← hd]
    rfl
  have hsize : ioSize s.addr n = min n s.first := ioSize_eq _ _
  rw [copies_next hn hnext, hsize, show n - min n s.first = n - s.first by omega]

/-- The device finds the pages of the buffer. -/
theorem Mapped.copies_eq (hmapped : Mapped s sg)
    (hl : Listed alloc h₀ (entryOf s sg) (pagesFor ((touched (s :: sg)).length - s.first)) h iod)
    (hd : d = ⟨s.addr, iod.firstDma⟩) {n : ℕ} (hpos : 0 < n) (hn : n ≤ (touched (s :: sg)).length)
    (hcond : Agrees s.first n (touched (s :: sg)).length) :
    copies h.words d .init n = .ok (⟨s.addr, min n s.first⟩ ::
      pageRuns ((List.range (pagesFor (n - s.first))).map (entryOf s sg)) (n - s.first)) := by
  have hmono : pagesFor (n - s.first) ≤ pagesFor ((touched (s :: sg)).length - s.first) :=
    Nat.div_le_div_right (by omega)
  have halign : ∀ j < pagesFor (n - s.first), pageSize ∣ entryOf s sg j := by
    intro j hj
    apply hmapped.dvd_entryOf
    change j < (n - s.first + 4096 - 1) / 4096 at hj
    change s.first + 4096 * j < _
    omega
  rw [copies_first hpos (congrArg DataPtr.prp1 hd)]
  unfold Agrees at hcond
  generalize hr : n - s.first = r at hcond hmono halign
  rcases hcond with h0 | ⟨h1, h1'⟩ | ⟨h2, hlists⟩
  · have hr0 : r = 0 := by
      by_contra hne
      exact (pagesFor_pos (Nat.pos_of_ne_zero hne)).ne' h0
    rw [hr0, copies_zero]
    rfl
  · -- one page behind the first
    rw [h1'] at hl
    have hrpos : 0 < r := by
      by_contra hr0
      rw [Nat.eq_zero_of_not_pos hr0] at h1
      exact absurd h1 (by decide)
    have hle : r ≤ pageSize := pagesFor_le_one.mp h1.le
    have hprp2 : d.prp2 = entryOf s sg 0 := by rw [hd, hl.firstDma_one]
    have hnext : Walk.next h.words d ⟨1, 0, none⟩ r = .ok (entryOf s sg 0, ⟨2, 0, none⟩) := by
      rw [Walk.next, if_neg (by simp), if_pos (by simp), if_neg (by omega), hprp2]
    rw [copies_next hrpos hnext, ioSize_aligned (halign 0 (by omega)),
      show r - min r pageSize = 0 by omega, copies_zero, h1]
    rfl
  · -- a list
    obtain ⟨K, hK⟩ := Nat.exists_eq_add_of_le' (show 1 ≤ pagesFor r by omega)
    have hlt : pageSize < r := by
      by_contra hge
      have := pagesFor_le_one.mpr (Nat.le_of_not_lt hge)
      omega
    have hwords : ∀ j ≤ K, h.words (d.prp2 + 8 * (0 + j)) = entryOf s sg j := by
      intro j hj
      rw [Nat.zero_add, hd]
      apply hl.words_entry (by omega) (by omega)
      omega
    have hdone : r - pageSize * (K + 1) = 0 := by
      change (r + 4096 - 1) / 4096 = K + 1 at hK
      change r - 4096 * (K + 1) = 0
      omega
    have hwalk := copies_list h.words d.prp2 (K := K) (k := 0)
      (Walk.next_prp2 hlt) (by omega) (fun j hj => by
        rw [hwords j hj]
        exact halign j (by omega))
    rw [hwalk, hdone, copies_zero, hK]
    have hmap : ((List.range (K + 1)).map fun j => h.words (d.prp2 + 8 * (0 + j))) =
        (List.range (K + 1)).map (entryOf s sg) :=
      List.map_congr_left fun j hj => hwords j (Nat.lt_succ_iff.mp (List.mem_range.mp hj))
    rw [hmap]
    change Except.ok (_ :: (_ ++ [])) = _
    rw [List.append_nil]

theorem mem_touched {a n : ℕ} (h : ⟨a, n⟩ ∈ cs) (hn : 0 < n) : a ∈ touched cs :=
  List.mem_flatMap.mpr ⟨_, h, List.mem_range'_1.mpr ⟨le_rfl, Nat.lt_add_of_pos_right hn⟩⟩

/-- A list that is taken for a page: the walk touches a block of a pool. -/
theorem Mapped.exists_alloc
    (hlisted : Listed alloc h₀ (entryOf s sg) (pagesFor ((touched (s :: sg)).length - s.first)) h iod)
    (hd : d = ⟨s.addr, iod.firstDma⟩) {n : ℕ} (hpos : 0 < n) (hone : pagesFor (n - s.first) = 1)
    (htwo : 2 ≤ pagesFor ((touched (s :: sg)).length - s.first))
    (hcs : copies h.words d .init n = .ok cs) :
    ∃ live kind a, alloc live kind = some a ∧ a ∈ touched cs := by
  rw [copies_first hpos (congrArg DataPtr.prp1 hd)] at hcs
  generalize hr : n - s.first = r at hcs hone
  obtain ⟨live, kind, ha⟩ := hlisted.exists_alloc htwo
  have hrpos : 0 < r := by
    by_contra hr0
    rw [Nat.eq_zero_of_not_pos hr0] at hone
    exact absurd hone (by decide)
  have hle : r ≤ pageSize := pagesFor_le_one.mp hone.le
  have hnext : Walk.next h.words d ⟨1, 0, none⟩ r = .ok (iod.firstDma, ⟨2, 0, none⟩) := by
    rw [Walk.next, if_neg (by simp), if_pos (by simp), if_neg (by omega), hd]
  rw [copies_next hrpos hnext] at hcs
  refine ⟨live, kind, _, ha, ?_⟩
  cases hrest : copies h.words d ⟨2, 0, none⟩ (r - ioSize iod.firstDma r) with
  | error _ => rw [hrest] at hcs; cases hcs
  | ok rest =>
    rw [hrest] at hcs
    cases hcs
    exact mem_touched (List.mem_cons_of_mem _ List.mem_cons_self) (ioSize_pos _ hrpos.ne')

/-- Behind the first page of a buffer that was mapped there are at most 127 pages. -/
theorem UserBuffer.Pinned.pagesFor_lt {u : UserBuffer} (hu : u.Pinned)
    (hfew : u.pages.length ≤ iodSgSz) :
    pagesFor (u.len - (pageSize - u.offset)) < iodSgSz := by
  obtain ⟨hoffset, hlen, hpages⟩ := hu
  rw [hpages] at hfew
  change u.offset < 4096 at hoffset
  change (u.offset + u.len + 4096 - 1) / 4096 ≤ 128 at hfew
  change (u.len - (4096 - u.offset) + 4096 - 1) / 4096 < 128
  omega

/-- All pages behind the first fit into one list, so there is no list to run out of. -/
theorem agrees_iff {first n m : ℕ} (hn : n ≤ m) (hfew : pagesFor (m - first) ≤ 512) :
    Agrees first n m ↔ (pagesFor (n - first) = 1 → pagesFor (m - first) = 1) := by
  have hmono : pagesFor (n - first) ≤ pagesFor (m - first) := Nat.div_le_div_right (by omega)
  unfold Agrees
  omega

/-- The device finds the buffer. -/
theorem kvMapData_copies (hl : Lawful alloc) {u : UserBuffer} (hu : u.Pinned) {metaOk : Bool}
    (hmap : kvMapData alloc h₀ (getAioUserCtx u) u.len metaOk = .ok (.ok, h, iod, d)) {n : ℕ}
    (hn : n ≤ u.len)
    (hcond : pagesFor (n - (pageSize - u.offset)) = 1 → pagesFor (u.len - (pageSize - u.offset)) = 1) :
    ∃ cs, copies h.words d .init n = .ok cs ∧ touched cs = (touched (getAioUserCtx u)).take n := by
  have hfew := (hu.pagesFor_lt (pages_le_of_kvMapData hmap)).le.trans (by decide : iodSgSz ≤ 512)
  obtain ⟨s, sg, hctx, hmapped, hlen, hfirst, hd, hlisted⟩ := kvMapData_listed hl hu hmap
  rcases Nat.eq_zero_or_pos n with rfl | hpos
  · exact ⟨[], copies_zero _, rfl⟩
  · have hagrees := (agrees_iff hn hfew).mpr hcond
    rw [← hfirst, ← hlen] at hagrees
    rw [← hlen] at hlisted hn
    rw [hctx]
    exact ⟨_, hmapped.copies_eq hlisted hd hpos hn hagrees, (hmapped.take_eq hn).symm⟩

/-- The device touches the first `n` bytes of the buffer that a command describes, in order and
nothing else, unless it needs one page behind the first and the buffer has more. -/
theorem kvMapData_copies_iff (hl : Lawful alloc) {u : UserBuffer} (hu : u.Pinned)
    (hapart : ∀ {live kind a}, alloc live kind = some a → a ∉ touched (getAioUserCtx u))
    {metaOk : Bool}
    (hmap : kvMapData alloc h₀ (getAioUserCtx u) u.len metaOk = .ok (.ok, h, iod, d)) {n : ℕ}
    (hn : n ≤ u.len) :
    (copies h.words d .init n).map touched = .ok ((touched (getAioUserCtx u)).take n) ↔
      (pagesFor (n - (pageSize - u.offset)) = 1 → pagesFor (u.len - (pageSize - u.offset)) = 1) := by
  constructor
  · intro heq hone
    by_contra hmany
    obtain ⟨s, sg, hctx, hmapped, hlen, hfirst, hd, hlisted⟩ := kvMapData_listed hl hu hmap
    rw [hctx] at hapart heq
    rw [← hfirst] at hone hmany
    rw [← hlen] at hlisted hn hmany
    have hmono : pagesFor (n - s.first) ≤ pagesFor ((touched (s :: sg)).length - s.first) :=
      Nat.div_le_div_right (by omega)
    have hpos : 0 < n := by
      by_contra h0
      rw [Nat.eq_zero_of_not_pos h0, Nat.zero_sub] at hone
      exact absurd hone (by decide)
    cases hcs : copies h.words d .init n with
    | error e =>
      rw [hcs] at heq
      cases heq
    | ok cs =>
      rw [hcs] at heq
      obtain ⟨live, kind, a, ha, hmem⟩ :=
        Mapped.exists_alloc hlisted hd hpos hone (by omega) hcs
      rw [Except.ok.inj heq] at hmem
      exact hapart ha (List.mem_of_mem_take hmem)
  · intro hcond
    obtain ⟨cs, hcs, htouched⟩ := kvMapData_copies hl hu hmap hn hcond
    rw [hcs, ← htouched]
    rfl

theorem apart_threePages {live : List Block} {kind : PoolKind} {a : ℕ}
    (ha : bump 16 live kind = some a) : a ∉ touched (getAioUserCtx threePages) := by
  obtain ⟨n, hn, rfl⟩ : ∃ n, 16 ≤ n ∧ a = 4096 * n :=
    ⟨_, le_foldr_max live 16, (Option.some.inj ha).symm⟩
  have hctx : getAioUserCtx threePages = [⟨20580, 3996⟩, ⟨36864, 4096⟩, ⟨28672, 908⟩] := by
    simp [getAioUserCtx, threePages, sgSetPages, pageSize]
  simp only [hctx, touched_cons, touched_nil, List.append_nil, List.mem_append, List.mem_range'_1]
  omega

theorem kvMapData_copies_iff_threePages : ∃ h iod d,
    kvMapData (bump 16) ⟨fun _ => 0, []⟩ (getAioUserCtx threePages) 9000 true = .ok (.ok, h, iod, d) ∧
    (copies h.words d .init 8500).map touched =
      .ok ((touched (getAioUserCtx threePages)).take 8500) ∧
    (copies h.words d .init 8000).map touched ≠
      .ok ((touched (getAioUserCtx threePages)).take 8000) := by
  obtain ⟨h, iod, d, hmap⟩ := kvMapData_ok ⟨fun _ => 0, []⟩ (lawful_bump 16)
    (fun _ _ => Option.some_ne_none _) pinned_threePages (by decide)
  refine ⟨h, iod, d, hmap, ?_, fun heq => ?_⟩
  · exact (kvMapData_copies_iff (lawful_bump 16) pinned_threePages apart_threePages hmap
      (by decide)).mpr (by decide)
  · have hcond := (kvMapData_copies_iff (lawful_bump 16) pinned_threePages apart_threePages hmap
      (by decide)).mp heq
    exact absurd hcond (by decide)

end Virtkv.Prp
