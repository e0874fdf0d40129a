import Virtkv.Oob.Store

/-!
# The words in every run

## Main results

- `Runs.words_name_pairs` — in every state a run reaches, the words of a pair, its memory and
  the slot that points to it agree
-/

namespace Virtkv

open Outcome

/-! ### A fresh device -/

namespace Flash

variable {d : Device} {f : Flash}

/-- Page 0 of a fresh device is given up. -/
theorem status_init (h : init d = .ok f) : f.status 0 ≠ .free := by
  simp only [init, bind_eq_ok, ensure_eq_ok] at h
  obtain ⟨f1, -, f2, -, f3, -, f4, -, ⟨p, pgidx, f5⟩, htake, -, h0, h⟩ := h
  obtain ⟨-, hhands⟩ := hands_takePage htake
  dsimp only at h0
  rw [h0] at hhands
  have hu : Uses .user f5 f := uses_discardFrom h
  exact hu.taken _ hhands.taken

end Flash

namespace Shard

open Flash

variable {d : Device} {L : Grains} {s s' : Shard} {op : Op}

/-- Nothing has a holder on a fresh device. -/
theorem settled_init (hw : d.geo.Wf) (h2 : 2 ≤ d.geo.pgsPerLine) (h : Shard.init d = .ok s) :
    s.Settled d ⟨∅, fun _ => none⟩ := by
  have hmem := (sane_init h).tableOk.memOk
  simp only [Shard.init, bind_eq_ok] at h
  obtain ⟨f, hf, h⟩ := h
  have hwp := init_wp hw h2 hf
  have hst := status_init hf
  have hpage : d.geo.pageAt 0 0 = { ch := 0, lun := 0, blk := 0, pg := 0 } :=
    Geometry.pageAt_zero _ _
  have hno : d.geo.pgNo { ch := 0, lun := 0, blk := 0, pg := 0 } = 0 := by
    simp [Geometry.pgNo]
  cases h
  refine
    { named :=
        { placed := fun _ hg => absurd rfl hg
          writer := ⟨0, 0, 0, hw.blks_pos, hw.pgsPerLine_pos, d.build_gpp_pos, hpage.symm,
            ⟨fun _ => hwp, fun hc => absurd hc (by omega)⟩, .inl ⟨rfl, rfl⟩⟩
          user := ⟨?_, fun _ _ _ => rfl⟩
          pairs := fun _ hm => absurd rfl hm.1
          secs := fun _ hi => absurd rfl hi
          log := fun _ he => absurd he List.not_mem_nil }
      status := hst
      memOk := hmem }
  show f.status (d.geo.pgNo _) ≠ .free
  rw [hno]
  exact hst

/-- Every command keeps the words. -/
theorem Settled.run (hg : d.geo.Wide) (hfit : d.Fits) (hidx : d.Indexed) (hb : s.Bare d)
    (hs : s.Settled d L) (hop : op.Fair) (hsize : op.Sized) (h : op.run d s = .ok s') :
    ∃ L', s'.Settled d L' := by
  cases op with
  | store key value junk => exact hs.store hg hfit hb.sane.tableOk hsize.2 h
  | retrieve key vlen rOffset =>
    simp only [Op.run, retrieve, hb.getAppendBuf_eq_none hop.1, bind_eq_ok] at h
    obtain ⟨⟨r, s1⟩, ⟨-, -, -, -, h1⟩, h⟩ := h
    cases h
    exact hs.read hfit.pagesFit h1
  | delete key vlen rOffset =>
    simp only [Op.run, retrieve, hb.getAppendBuf_eq_none hop.1, bind_eq_ok] at h
    obtain ⟨⟨r, s1⟩, ⟨-, -, -, -, h1⟩, h⟩ := h
    cases h
    exact hs.delete hfit hidx hb.sane h1
  | evict =>
    simp only [Op.run, bind_eq_ok] at h
    obtain ⟨⟨n, s1⟩, h1, h⟩ := h
    cases h
    exact hs.evictOne hfit.pagesFit h1
  | append key data junk => exact hop.elim
  | gc => exact hop.elim

end Shard

/-! ### Runs -/

section

variable {d : Device} {s t : Shard} {L : Grains}

/-- Pairs of two indices share no grain. -/
theorem Flash.PairAt.disjoint {f : Flash} {i j l l' x x' n n' : ℕ} (h : f.PairAt d L i l x n)
    (h' : f.PairAt d L j l' x' n') (hne : i ≠ j) :
    Disjoint (d.extent l x n) (d.extent l' x' n') := by
  rw [Finset.disjoint_left]
  intro g hg hg'
  have heq := (h.owner g hg).symm.trans (h'.owner g hg')
  cases heq
  exact hne rfl

/-- What the words say about the pair in a slot. -/
theorem Shard.Named.of_full (hn : s.Named d L) (hok : s.TableOk d) {lpa : ℕ} {key : Bytes}
    {p : Pair} (h : s.cell d lpa = .full key p) : ∃ l x,
      (s.cache.hidxToGrain d lpa).1 = d.grainAt l x ∧
      s.flash.PairAt d L lpa l x (d.grainsOf (PairMem.metaSz key.length + p.value.length)) ∧
      ∃ mem, s.pairMem lpa = some mem ∧
        d.grainsOf (PairMem.metaSz key.length + p.value.length) * d.gu ≤ mem.length := by
  obtain ⟨hm, hmem, hk, hv⟩ := hok.mapped_of_full h
  obtain ⟨l, x, n, mem, hgrain, hpair, hmem', hfor⟩ := hn.pairs lpa hm
  rw [hmem] at hmem'
  cases hmem'
  obtain ⟨rfl, hle⟩ := hfor.grains hk hv
  exact ⟨l, x, hgrain, hpair, _, hmem, hle⟩

theorem Runs.settled (hg : d.geo.Wide) (hfit : d.Fits) (hidx : d.Indexed)
    (hinit : Shard.init d = .ok s) (hr : Runs d (fun _ op => op.Fair ∧ op.Sized) s t) :
    t.Bare d ∧ ∃ L, t.Settled d L := by
  refine hr.invariant (P := fun t => t.Bare d ∧ ∃ L, t.Settled d L) ?_ ?_
  · exact ⟨Shard.bare_init hinit, _, Shard.settled_init hg.wf hg.two_le hinit⟩
  · rintro u v op ⟨hb, L, hs⟩ ⟨hop, hsize⟩ h
    exact ⟨(hb.run hfit hidx hop h).1, hs.run hg hfit hidx hb hop hsize h⟩

end

/-- In every state a run of stores, reads, deletes and evictions can reach, the out-of-band
words name what is on flash. A slot with a pair points to the first of the grains the pair
takes. They lie on one line, the first word has their number and the index, the pages the
pair spills to begin with their markers, and the memory of the pair has room for the grains.
No two slots share a grain. -/
theorem Runs.words_name_pairs (d : Device) (hg : d.geo.Wide) (hfit : d.Fits) (hidx : d.Indexed)
    (s₀ s : Shard) (hinit : Shard.init d = .ok s₀)
    (hr : Runs d (fun _ op => op.Fair ∧ op.Sized) s₀ s) :
    ∃ L : Grains, s.Named d L ∧ ∃ line pos : ℕ → ℕ,
      (∀ lpa key p, s.cell d lpa = .full key p →
        (s.cache.hidxToGrain d lpa).1 = d.grainAt (line lpa) (pos lpa) ∧
        s.flash.PairAt d L lpa (line lpa) (pos lpa)
          (d.grainsOf (PairMem.metaSz key.length + p.value.length)) ∧
        ∃ mem, s.pairMem lpa = some mem ∧
          d.grainsOf (PairMem.metaSz key.length + p.value.length) * d.gu ≤ mem.length) ∧
      ∀ i j key key' p q, s.cell d i = .full key p → s.cell d j = .full key' q → i ≠ j →
        Disjoint
          (d.extent (line i) (pos i) (d.grainsOf (PairMem.metaSz key.length + p.value.length)))
          (d.extent (line j) (pos j)
            (d.grainsOf (PairMem.metaSz key'.length + q.value.length))) := by
  obtain ⟨hb, L, hs⟩ := hr.settled hg hfit hidx hinit
  have hplace : ∀ lpa, ∃ l x, ∀ key p, s.cell d lpa = .full key p →
      (s.cache.hidxToGrain d lpa).1 = d.grainAt l x ∧
      s.flash.PairAt d L lpa l x (d.grainsOf (PairMem.metaSz key.length + p.value.length)) ∧
      ∃ mem, s.pairMem lpa = some mem ∧
        d.grainsOf (PairMem.metaSz key.length + p.value.length) * d.gu ≤ mem.length := by
    intro lpa
    by_cases hfull : ∃ key p, s.cell d lpa = .full key p
    · obtain ⟨key, p, hcell⟩ := hfull
      obtain ⟨l, x, hpl⟩ := hs.named.of_full hb.sane.tableOk hcell
      refine ⟨l, x, fun key' p' hcell' => ?_⟩
      rw [hcell] at hcell'
      cases hcell'
      exact hpl
    · exact ⟨0, 0, fun key p hcell => absurd ⟨key, p, hcell⟩ hfull⟩
  choose line pos hplace using hplace
  refine ⟨L, hs.named, line, pos, hplace, fun i j key key' p q hi hj hne => ?_⟩
  exact (hplace i key p hi).2.1.disjoint (hplace j key' q hj).2.1 hne

/-- Six lines of two stripes in the Plus build. Keys of one length have one hash, and keys of
different lengths are in different sections. -/
def spillingDevice : Device where
  build := .plus
  geo :=
    { nchs := 1, lunsPerCh := 2, blksPerPl := 6, oneshotpgsPerBlk := 1, pgsPerOneshotpg := 64 }
  maxCached := 72
  hash := fun k => 480 * k.length

theorem wide_spillingDevice : spillingDevice.geo.Wide where
  wf := by constructor <;> decide
  luns := by decide
  stripe := by decide
  stripe_le := by decide

theorem fits_spillingDevice : spillingDevice.Fits := ⟨by decide, by decide⟩

theorem indexed_spillingDevice : spillingDevice.Indexed := by
  intro hash c _
  have hlt := Nat.mod_lt ((hash + c + c * c) % 2 ^ 32) (show 0 < 49215 by decide)
  have hprobe : spillingDevice.probe hash c = (hash + c + c * c) % 2 ^ 32 % 49215 + 1 := rfl
  have hidx : spillingDevice.idx (spillingDevice.probe hash c) =
      spillingDevice.probe hash c / 480 := rfl
  have hpages : spillingDevice.nrValidTpages = 103 := rfl
  rw [hidx, hpages, hprobe]
  omega

/-- Pairs in eleven sections, two of them in one section, until the first sections are evicted.
Then the first pair, which takes two pages, is overwritten; another pair is deleted, and a part
of the first. -/
def spillingOps : List Op :=
  [.store [1] (List.replicate 5000 7) fun _ => 0, .store [2] [9] fun _ => 0] ++
    (List.range 10).map (fun n => .store (List.replicate (n + 2) 3) [4] fun _ => 0) ++
    [.evict, .store [1] (List.replicate 6000 8) fun _ => 0, .delete [3, 3] 0 0,
      .delete [1] 512 64]

theorem fair_spillingOps (op : Op) (hop : op ∈ spillingOps) : op.Fair ∧ op.Sized := by
  simp only [spillingOps, List.mem_append, List.mem_cons, List.mem_map, List.mem_range,
    List.not_mem_nil, or_false] at hop
  rcases hop with ((rfl | rfl) | ⟨n, hn, rfl⟩) | rfl | rfl | rfl | rfl
  case inl.inr => exact ⟨⟨by simp, by simp [maxKlen]; omega, by simp⟩, by simp, by
    simp [PairMem.metaSz, klenMarkerSz, vlenMarkerSz, pageSize]; omega⟩
  all_goals
    simp [-List.reduceReplicate, Op.Fair, Op.Sized, maxKlen, PairMem.metaSz, klenMarkerSz,
      vlenMarkerSz, pageSize]

theorem Runs.words_name_pairs_spilling :
    ∃ s₀ s L k k' p q l l' x x', Shard.init spillingDevice = .ok s₀ ∧
      Virtkv.runOps spillingDevice spillingOps s₀ = .ok s ∧ s.Named spillingDevice L ∧
      s.cell spillingDevice 481 = .full k p ∧ s.cell spillingDevice 483 = .full k' q ∧
      Disjoint
        (spillingDevice.extent l x
          (spillingDevice.grainsOf (PairMem.metaSz k.length + p.value.length)))
        (spillingDevice.extent l' x'
          (spillingDevice.grainsOf (PairMem.metaSz k'.length + q.value.length))) := by
  obtain ⟨s₀, s, hinit, hrun, hp⟩ := exists_of_endsWith spillingDevice spillingOps
    (fun t => decide (((t.sec 1).tPpa ≠ uintMax ∧
      (t.cache.hidxToGrain spillingDevice 481).1 ≠ uintMax) ∧
      (t.cache.hidxToGrain spillingDevice 483).1 ≠ uintMax)) (by decide +kernel)
  have hr : Runs spillingDevice (fun _ op => op.Fair ∧ op.Sized) s₀ s :=
    Runs.start.runOps (fun op hop _ => fair_spillingOps op hop) hrun
  obtain ⟨⟨hsec, hone⟩, htwo⟩ := of_decide_eq_true hp
  have hok := (hr.bare fits_spillingDevice indexed_spillingDevice (fun _ _ h => h.1)
    hinit).sane.tableOk
  have hm : s.Mapped spillingDevice 481 := ⟨hsec, hone⟩
  have hm' : s.Mapped spillingDevice 483 := ⟨hsec, htwo⟩
  obtain ⟨k, p, hcell, -⟩ := hok.cell_full hm
  obtain ⟨k', q, hcell', -⟩ := hok.cell_full hm'
  obtain ⟨L, hnamed, line, pos, -, hdisj⟩ := Runs.words_name_pairs spillingDevice
    wide_spillingDevice fits_spillingDevice indexed_spillingDevice s₀ s hinit hr
  exact ⟨s₀, s, L, k, k', p, q, _, _, _, _, hinit, hrun, hnamed, hcell, hcell',
    hdisj 481 483 k k' p q hcell hcell' (by decide)⟩

end Virtkv
