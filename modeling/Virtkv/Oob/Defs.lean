import Virtkv.Flash.Span
import Virtkv.Command.Insert

/-!
# What the out-of-band words say

The collector knows what is on a line from the out-of-band words of its pages alone: the
first grain of a pair carries its length and index, a page that a pair spills to begins
with a marker, the first grain of a section carries its length and first index, and a page
of the invalid-mapping log names its line. Here a ledger says which grain is whose, and
`Shard.Named` that the words, the tables and the pair memory agree with it.

As the ledger gives every grain one holder, pairs, sections and log pages never share one.
-/

namespace Virtkv

open Outcome

namespace Flash

variable {d : Device} {f f' f'' : Flash} {L L' L'' : Grains}

/-! ### Holders keep their grains -/

/-- Grains with a holder are on pages that were handed out. -/
def Placed (d : Device) (f : Flash) (L : Grains) : Prop :=
  ∀ g, L.owner g ≠ none → f.status (d.gIdx g) ≠ .free

/-- No page came back, and what has a holder keeps it with its word. -/
structure Carries (d : Device) (f f' : Flash) (L L' : Grains) : Prop where
  taken : ∀ q, f.status q ≠ .free → f'.status q ≠ .free
  word : ∀ g, L.owner g ≠ none → f'.oob g = f.oob g
  owner : ∀ g, L.owner g ≠ none → L'.owner g = L.owner g
  placed : f.Placed d L → f'.Placed d L'

/-- The writers other than the user's were at work: new holders are on pages that were
free. -/
structure CarriesAside (d : Device) (f f' : Flash) (L L' : Grains) : Prop where
  carries : Carries d f f' L L'
  fresh : ∀ g, L'.owner g ≠ L.owner g → f.status (d.gIdx g) = .free
  wp : f'.wp .user = f.wp .user

theorem Carries.refl (f : Flash) (L : Grains) : Carries d f f L L :=
  ⟨fun _ => id, fun _ _ => rfl, fun _ _ => rfl, id⟩

theorem Carries.trans (h : Carries d f f' L L') (h' : Carries d f' f'' L' L'') :
    Carries d f f'' L L'' where
  taken q hq := h'.taken q (h.taken q hq)
  word g hg := by
    have hg' : L'.owner g ≠ none := by rwa [h.owner g hg]
    rw [h'.word g hg', h.word g hg]
  owner g hg := by
    have hg' : L'.owner g ≠ none := by rwa [h.owner g hg]
    rw [h'.owner g hg', h.owner g hg]
  placed hp := h'.placed (h.placed hp)

/-- A page that is free afterwards was free before. -/
theorem Carries.was_free (h : Carries d f f' L L') {q : ℕ} (hq : f'.status q = .free) :
    f.status q = .free := by
  by_contra hc
  exact h.taken q hc hq

theorem Carries.owner_of_some (h : Carries d f f' L L') {g : ℕ} {o : Owner}
    (hg : L.owner g = some o) : L'.owner g = some o := by
  rw [h.owner g (by rw [hg]; exact Option.some_ne_none o), hg]

/-- The word of a grain with a holder. -/
theorem Carries.word_of_some (h : Carries d f f' L L') {g : ℕ} {o : Owner}
    (hg : L.owner g = some o) : f'.oob g = f.oob g :=
  h.word g (by rw [hg]; exact Option.some_ne_none o)

/-- Nothing is on a free page. -/
theorem Placed.vacant (h : f.Placed d L) {g : ℕ} (hg : f.status (d.gIdx g) = .free) :
    L.owner g = none := by
  by_contra hc
  exact h g hc hg

/-- Grains on pages that were handed out get a holder. -/
theorem Placed.add {R : Finset ℕ} (h : f.Placed d L) (htaken : ∀ q, f.status q ≠ .free →
    f'.status q ≠ .free) (hR : ∀ g ∈ R, f'.status (d.gIdx g) ≠ .free) (o : Owner) :
    f'.Placed d (L.add R o) := by
  intro g hg
  by_cases hgR : g ∈ R
  · exact hR g hgR
  · rw [Ledger.owner_add, if_neg hgR] at hg
    exact htaken _ (h g hg)

theorem CarriesAside.refl (f : Flash) (L : Grains) : CarriesAside d f f L L :=
  ⟨.refl f L, fun _ hg => absurd rfl hg, rfl⟩

theorem CarriesAside.trans (h : CarriesAside d f f' L L') (h' : CarriesAside d f' f'' L' L'') :
    CarriesAside d f f'' L L'' where
  carries := h.carries.trans h'.carries
  fresh g hg := by
    by_cases hc : L'.owner g = L.owner g
    · rw [← hc] at hg
      exact h.carries.was_free (h'.fresh g hg)
    · exact h.fresh g hc
  wp := h'.wp.trans h.wp

/-! ### Pairs, sections and log pages on flash -/

/-- `n` grains from position `x` of line `l` on hold the pair of an index, and their words say
so. -/
structure PairAt (d : Device) (f : Flash) (L : Grains) (lpa l x n : ℕ) : Prop where
  line_lt : l < d.geo.ttLines
  pos : 0 < n
  inLine : x + n ≤ d.grainsPerLine
  owner : ∀ g ∈ d.extent l x n, L.owner g = some (.pair lpa)
  head : f.oob (d.grainAt l x) = n * 2 ^ 32 + lpa
  spill : ∀ y, x < y → y < x + n → y % d.gpp = 0 → SpillWord d f l y (x + n)

/-- `len` grains of page `ppa` from offset `off` on hold a section, and the first word says
so. -/
structure SecAt (d : Device) (f : Flash) (L : Grains) (i ppa off len : ℕ) : Prop where
  page_lt : ppa < d.geo.ttPgs
  pos : 0 < len
  inPage : off + len ≤ d.gpp
  owner : ∀ g ∈ Device.span (d.ppaToPga ppa off) len, L.owner g = some (.sec i)
  head : f.oob (d.ppaToPga ppa off) = len * 2 ^ 32 + i * d.epp

/-- Page `ppa` holds records of a line, and its first words say so. -/
structure LogAt (d : Device) (f : Flash) (L : Grains) (line ppa : ℕ) : Prop where
  page_lt : ppa < d.geo.ttPgs
  owner : ∀ j < d.gpp, L.owner (d.ppaToPga ppa j) = some (.log ppa)
  marker : f.oob (d.ppaToPga ppa 0) = uintMax - 5
  line : f.oob (d.ppaToPga ppa 1) = line
  number : f.oob (d.ppaToPga ppa 2) = ppa

theorem PairAt.carries {lpa l x n : ℕ} (hp : f.PairAt d L lpa l x n) (h : Carries d f f' L L') :
    f'.PairAt d L' lpa l x n where
  line_lt := hp.line_lt
  pos := hp.pos
  inLine := hp.inLine
  owner g hg := h.owner_of_some (hp.owner g hg)
  head := by
    have hpos := hp.pos
    have hmem : d.grainAt l x ∈ d.extent l x n :=
      Device.mem_extent.mpr ⟨x, le_rfl, by omega, rfl⟩
    rw [h.word_of_some (hp.owner _ hmem), hp.head]
  spill y hy hlt hmod := by
    have hword : ∀ z, x ≤ z → z < x + n → f'.oob (d.grainAt l z) = f.oob (d.grainAt l z) :=
      fun z hz hz' => h.word_of_some (hp.owner _ (Device.mem_extent.mpr ⟨z, hz, hz', rfl⟩))
    rcases hp.spill y hy hlt hmod with ⟨hend, hone⟩ | ⟨hmore, htwo, hlen⟩
    · refine .inl ⟨hend, ?_⟩
      rw [hword y hy.le hlt, hone]
    · refine .inr ⟨hmore, ?_, ?_⟩
      · rw [hword y hy.le hlt, htwo]
      · rw [hword (y + 1) (by omega) hmore, hlen]

theorem SecAt.carries {i ppa off len : ℕ} (hs : f.SecAt d L i ppa off len)
    (h : Carries d f f' L L') : f'.SecAt d L' i ppa off len where
  page_lt := hs.page_lt
  pos := hs.pos
  inPage := hs.inPage
  owner g hg := h.owner_of_some (hs.owner g hg)
  head := by
    have hpos := hs.pos
    have hmem : d.ppaToPga ppa off ∈ Device.span (d.ppaToPga ppa off) len :=
      Device.mem_span.mpr ⟨le_rfl, by omega⟩
    rw [h.word_of_some (hs.owner _ hmem), hs.head]

theorem three_le_gpp (d : Device) : 3 ≤ d.gpp := by
  unfold Device.gpp
  cases d.build <;> decide

theorem LogAt.carries {line ppa : ℕ} (hl : f.LogAt d L line ppa) (h : Carries d f f' L L') :
    f'.LogAt d L' line ppa where
  page_lt := hl.page_lt
  owner j hj := h.owner_of_some (hl.owner j hj)
  marker := by
    have h3 := three_le_gpp d
    rw [h.word_of_some (hl.owner 0 (by omega)), hl.marker]
  line := by
    have h3 := three_le_gpp d
    rw [h.word_of_some (hl.owner 1 (by omega)), hl.line]
  number := by
    have h3 := three_le_gpp d
    rw [h.word_of_some (hl.owner 2 (by omega)), hl.number]

/-! ### The page the user's writer is filling -/

/-- The page under the user's position was handed out, and nothing on it from there on has a
holder. -/
structure Open (d : Device) (f : Flash) (u : UserPos) (L : Grains) : Prop where
  taken : f.status (d.geo.pgNo u.curPage) ≠ .free
  vacant : ∀ j, d.gOffset (u.offset / d.gu) ≤ j → j < d.gpp →
    L.owner (d.ppaToPga (d.geo.pgNo u.curPage) j) = none

/-- The other writers stay away from it. -/
theorem Open.aside {u : UserPos} (ho : f.Open d u L) (h : CarriesAside d f f' L L') :
    f'.Open d u L' where
  taken := h.carries.taken _ ho.taken
  vacant j hj hlt := by
    have hold := ho.vacant j hj hlt
    by_contra hc
    have hfree := h.fresh (d.ppaToPga (d.geo.pgNo u.curPage) j) (by rwa [hold])
    rw [Device.gIdx_ppaToPga hlt] at hfree
    exact ho.taken hfree

end Flash

/-! ### The places of sections -/

namespace Cache

variable {d : Device} {c c' : Cache}

/-- The sections are at the same places. -/
structure SamePlaces (c c' : Cache) : Prop where
  tPpa : ∀ i, (c'.secs i).tPpa = (c.secs i).tPpa
  gOff : ∀ i, (c'.secs i).gOff = (c.secs i).gOff
  lenOnDisk : ∀ i, (c'.secs i).lenOnDisk = (c.secs i).lenOnDisk

theorem SamePlaces.refl (c : Cache) : SamePlaces c c := ⟨fun _ => rfl, fun _ => rfl, fun _ => rfl⟩

theorem SamePlaces.trans {c'' : Cache} (h : SamePlaces c c') (h' : SamePlaces c' c'') :
    SamePlaces c c'' where
  tPpa i := (h'.tPpa i).trans (h.tPpa i)
  gOff i := (h'.gOff i).trans (h.gOff i)
  lenOnDisk i := (h'.lenOnDisk i).trans (h.lenOnDisk i)

/-- Only the sections matter. -/
theorem SamePlaces.of_eq (h : c'.secs = c.secs) : SamePlaces c c' := by
  constructor <;> intro i <;> rw [h]

/-- An update of one section that keeps its place. -/
theorem SamePlaces.setSec {i : ℕ} {x : Section} (hp : x.tPpa = (c.secs i).tPpa)
    (hg : x.gOff = (c.secs i).gOff) (hl : x.lenOnDisk = (c.secs i).lenOnDisk) :
    SamePlaces c (c.setSec i x) := by
  constructor <;> intro j <;> by_cases hj : j = i
  · rw [hj, setSec_secs, Function.update_self, hp]
  · rw [setSec_secs, Function.update_of_ne hj]
  · rw [hj, setSec_secs, Function.update_self, hg]
  · rw [setSec_secs, Function.update_of_ne hj]
  · rw [hj, setSec_secs, Function.update_self, hl]
  · rw [setSec_secs, Function.update_of_ne hj]

theorem samePlaces_lock {i : ℕ} (h : c.lock d i = .ok c') : SamePlaces c c' := by
  simp only [lock, bind_eq_ok, ensure_eq_ok] at h
  obtain ⟨-, -, -, -, h⟩ := h
  cases h
  exact .setSec rfl rfl rfl

theorem samePlaces_unlock (c : Cache) (i : ℕ) : SamePlaces c (c.unlock i) := .setSec rfl rfl rfl

theorem samePlaces_enqueue (c : Cache) (i : ℕ) : SamePlaces c (c.enqueue i) := by
  rw [enqueue]
  split
  · exact .refl c
  · exact .of_eq rfl

theorem samePlaces_takeVictim {i : ℕ} (h : c.takeVictim d i = .ok c') : SamePlaces c c' := by
  simp only [takeVictim, bind_eq_ok, ensure_eq_ok] at h
  obtain ⟨c1, h1, -, -, h⟩ := h
  cases h
  have hmark : SamePlaces c1 (c1.markCandidate i) := .setSec rfl rfl rfl
  have hpush : SamePlaces (c1.markCandidate i) ((c1.markCandidate i).pushRing d i) := .of_eq rfl
  exact (((samePlaces_lock h1).trans hmark).trans hpush).trans (samePlaces_unlock _ i)

theorem samePlaces_collectLoop {is : List ℕ} (h : collectLoop d is c = .ok c') :
    SamePlaces c c' := by
  induction is generalizing c with
  | nil =>
    cases h
    exact .of_eq rfl
  | cons i is ih =>
    simp only [collectLoop, bind_eq_ok] at h
    obtain ⟨c1, h1, h⟩ := h
    split at h
    · cases h
      exact (samePlaces_takeVictim h1).trans (.of_eq rfl)
    · exact (samePlaces_takeVictim h1).trans (ih h)

theorem samePlaces_collectVictims (h : c.collectVictims d = .ok c') : SamePlaces c c' := by
  rw [collectVictims] at h
  split at h
  · cases h
    exact .refl c
  split at h
  · exact samePlaces_collectLoop h
  split at h
  · cases h
    exact .of_eq rfl
  · have hstart : SamePlaces c { c with candidates := 0, collecting := true } := .of_eq rfl
    exact hstart.trans (samePlaces_collectLoop h)

end Cache

/-! ### The whole shard -/

namespace Shard

/-- Memory of `n` grains at least, with a pair in it that takes `n` grains on flash. -/
def MemFor (d : Device) (n : ℕ) (mem : List UInt8) : Prop :=
  ∃ key p, mem = PairMem.bytes key p ∧ key.length ≤ maxKlen ∧ p.value.length < 2 ^ 32 ∧
    n = d.grainsOf (PairMem.metaSz key.length + p.value.length) ∧ n * d.gu ≤ mem.length

/-- Every mapped index has its pair at the grain of its slot and in its memory. -/
def PairsAt (d : Device) (s : Shard) (L : Grains) : Prop :=
  ∀ lpa, s.Mapped d lpa → ∃ l x n mem, (s.cache.hidxToGrain d lpa).1 = d.grainAt l x ∧
    s.flash.PairAt d L lpa l x n ∧ s.pairMem lpa = some mem ∧ MemFor d n mem

/-- Every section that exists is where its fields say. -/
def SecsAt (d : Device) (s : Shard) (L : Grains) : Prop :=
  ∀ i, (s.sec i).tPpa ≠ uintMax →
    s.flash.SecAt d L i (s.sec i).tPpa (s.sec i).gOff (s.sec i).lenOnDisk

/-- Every page listed in `inv_mapping_xa` is a log page of its line. -/
def LogsAt (d : Device) (s : Shard) (L : Grains) : Prop :=
  ∀ e ∈ s.log.xa, ∃ line ppa, e.1 = xaIdx line ppa ∧ s.flash.LogAt d L line ppa

/-- The out-of-band words name the holders of the ledger, and the tables point to them. -/
structure Named (d : Device) (s : Shard) (L : Grains) : Prop where
  placed : s.flash.Placed d L
  writer : ∃ l r off, Flash.Writer.At d ⟨s.flash, s.user⟩ l r off
  user : s.flash.Open d s.user L
  pairs : s.PairsAt d L
  secs : s.SecsAt d L
  log : s.LogsAt d L

variable {d : Device} {s s' : Shard} {L L' : Grains}

/-- The tables and the pairs are the same, and what they point to was kept. -/
theorem PairsAt.carries (hp : s.PairsAt d L) (h : Flash.Carries d s.flash s'.flash L L')
    (hs : SameTable s s') : s'.PairsAt d L' := by
  intro lpa hm
  obtain ⟨l, x, n, mem, hg, hpair, hmem, hfor⟩ := hp lpa ((hs.mapped_iff lpa).mp hm)
  refine ⟨l, x, n, mem, ?_, hpair.carries h, ?_, hfor⟩
  · rw [hs.hidxToGrain, hg]
  · rw [hs.pairMem, hmem]

theorem LogsAt.carries (hl : s.LogsAt d L) (h : Flash.Carries d s.flash s'.flash L L')
    (hlog : s'.log = s.log) : s'.LogsAt d L' := by
  intro e he
  rw [hlog] at he
  obtain ⟨line, ppa, hidx, hat⟩ := hl e he
  exact ⟨line, ppa, hidx, hat.carries h⟩

theorem SecsAt.carries (hp : s.SecsAt d L) (h : Flash.Carries d s.flash s'.flash L L')
    (hs : Cache.SamePlaces s.cache s'.cache) : s'.SecsAt d L' := by
  intro i hi
  have hppa : (s'.sec i).tPpa = (s.sec i).tPpa := hs.tPpa i
  have hoff : (s'.sec i).gOff = (s.sec i).gOff := hs.gOff i
  have hlen : (s'.sec i).lenOnDisk = (s.sec i).lenOnDisk := hs.lenOnDisk i
  rw [hppa] at hi
  rw [hppa, hoff, hlen]
  exact (hp i hi).carries h

/-- The writers of mapping pages were at work. -/
theorem Named.of_aside (hn : s.Named d L) (h : Flash.CarriesAside d s.flash s'.flash L L')
    (hu : s'.user = s.user) (hpairs : s'.PairsAt d L') (hsecs : s'.SecsAt d L')
    (hlog : s'.LogsAt d L') : s'.Named d L' where
  placed := h.carries.placed hn.placed
  writer := by
    obtain ⟨l, r, off, hat⟩ := hn.writer
    rw [hu]
    exact ⟨l, r, off, hat.of_wp h.wp⟩
  user := by
    rw [hu]
    exact hn.user.aside h
  pairs := hpairs
  secs := hsecs
  log := hlog

/-- The tables are the same: only the sections and the log are to be looked at. -/
theorem Named.aside (hn : s.Named d L) (h : Flash.CarriesAside d s.flash s'.flash L L')
    (hs : SameTable s s') (hu : s'.user = s.user) (hsecs : s'.SecsAt d L')
    (hlog : s'.LogsAt d L') : s'.Named d L' :=
  hn.of_aside h hu (hn.pairs.carries h.carries hs) hsecs hlog

/-- Nothing but the bookkeeping of the cache changed. -/
theorem Named.of_same (hn : s.Named d L) (hs : SameTable s s')
    (hp : Cache.SamePlaces s.cache s'.cache) (hf : s'.flash = s.flash) (hu : s'.user = s.user)
    (hl : s'.log = s.log) : s'.Named d L := by
  have hm : Flash.CarriesAside d s.flash s'.flash L L := by
    rw [hf]
    exact .refl _ L
  exact hn.aside hm hs hu (hn.secs.carries hm.carries hp) (hn.log.carries hm.carries hl)

end Shard

end Virtkv
