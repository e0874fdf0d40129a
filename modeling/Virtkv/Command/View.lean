import Virtkv.Command.Defs
import Virtkv.Cache.Frame
import Virtkv.Lib.OpenAddressing
import Virtkv.TwoLevel.Refinement
import Mathlib.Data.Int.ModEq
import Mathlib.Order.Interval.Finset.Nat
import Mathlib.Tactic.Ring
import Mathlib.Tactic.Push

/-!
# The hash table a shard shows

`Shard.tab` reads the mapping tables and the pair memory of a shard as an open-addressed
table: a slot is missing when its section has no page, empty when it is not mapped, and
holds the key and the pair in its memory otherwise. `TableOk` is what makes this reading
exact; commands that only move mapping pages do not change it.
-/

namespace Virtkv

open Outcome OpenAddressing

/-- Keys and values are byte strings. -/
abbrev Bytes := List UInt8

/-- What a pair's memory holds behind the key: the value, and the rest of the last grain. -/
structure Pair where
  value : Bytes
  rest : Bytes
  deriving DecidableEq

namespace PairMem

/-- The memory of a pair. -/
def bytes (k : Bytes) (p : Pair) : Bytes := header k p.value.length ++ (p.value ++ p.rest)

/-- The key, and the bytes from the value length on. -/
def keyOf (mem : Bytes) : Bytes := (mem.drop klenMarkerSz).take (mem.getD 0 0).toNat
def behindKey (mem : Bytes) : Bytes := mem.drop (klenMarkerSz + (mem.getD 0 0).toNat)

/-- Read pair memory. -/
def parse (mem : Bytes) : Bytes × Pair :=
  let body := (behindKey mem).drop vlenMarkerSz
  let vlen := ofLe32 (behindKey mem)
  (keyOf mem, { value := body.take vlen, rest := body.drop vlen })

theorem length_le32 (n : ℕ) : (le32 n).length = vlenMarkerSz := rfl

theorem ofLe32_le32_append {n : ℕ} (hn : n < 2 ^ 32) (bs : Bytes) : ofLe32 (le32 n ++ bs) = n := by
  simp only [ofLe32, le32, List.cons_append, List.getD_cons_zero, List.getD_cons_succ,
    UInt8.toNat_ofNat']
  omega

theorem length_header (k : Bytes) (vlen : ℕ) : (header k vlen).length = metaSz k.length := by
  simp [header, metaSz, length_le32, klenMarkerSz, vlenMarkerSz]
  omega

section

variable {k : Bytes} {p : Pair}

theorem getD_bytes_zero (hk : k.length ≤ maxKlen) :
    ((bytes k p).getD 0 0).toNat = k.length := by
  have h16 : maxKlen = 16 := rfl
  simp only [bytes, header, List.cons_append, List.getD_cons_zero, UInt8.toNat_ofNat']
  omega

theorem keyOf_bytes (hk : k.length ≤ maxKlen) : keyOf (bytes k p) = k := by
  rw [keyOf, getD_bytes_zero hk]
  simp [bytes, header, klenMarkerSz]

theorem behindKey_bytes (hk : k.length ≤ maxKlen) :
    behindKey (bytes k p) = le32 p.value.length ++ (p.value ++ p.rest) := by
  rw [behindKey, getD_bytes_zero hk, bytes, header, klenMarkerSz, Nat.add_comm]
  simp

/-- Reading the memory of a pair gives its key and the pair. -/
theorem parse_bytes (hk : k.length ≤ maxKlen) (hv : p.value.length < 2 ^ 32) :
    parse (bytes k p) = (k, p) := by
  have hdrop : (le32 p.value.length ++ (p.value ++ p.rest)).drop vlenMarkerSz =
      p.value ++ p.rest := List.drop_left' (length_le32 _)
  simp only [parse, keyOf_bytes hk, behindKey_bytes hk, ofLe32_le32_append hv, hdrop]
  simp

end

end PairMem

/-! ### The probe sequence -/

namespace Device

/-- Where keys are looked for. -/
def scheme (d : Device) : Scheme Bytes where
  slot k c := d.probe (d.hash32 k) c
  usable k c := c < 2 ^ 32 ∧ d.epp < d.probe (d.hash32 k) c

/-- The table has at least four sections, and `nr_valid_tentries` is an `int`. -/
structure Fits (d : Device) : Prop where
  room : 4 * d.epp ≤ d.nrValidTentries
  lt : d.nrValidTentries < 2 ^ 31

variable {d : Device}

theorem gpp_pos (d : Device) : 0 < d.gpp := by
  unfold gpp
  cases d.build <;> decide

theorem epp_cases (d : Device) : d.epp = 1024 ∨ d.epp = 480 := by
  unfold epp
  cases d.build
  · exact .inl rfl
  · exact .inr rfl

theorem Fits.ttPgs_mul (h : d.Fits) : d.geo.ttPgs * d.gpp < 2 ^ 31 := by
  have hlt := h.lt
  unfold nrValidTentries at hlt
  split at hlt <;> omega

theorem Fits.pagesFit (h : d.Fits) : d.PagesFit := by
  have hmul := h.ttPgs_mul
  have hle : d.geo.ttPgs ≤ d.geo.ttPgs * d.gpp := Nat.le_mul_of_pos_right _ d.gpp_pos
  have hmax : uintMax = 2 ^ 32 - 1 := rfl
  unfold PagesFit
  omega

/-- The second half of the counts probes the same slots as the first half. -/
theorem probe_symm (d : Device) (hash : ℕ) {c i : ℕ} (h : c + i + 1 = 2 ^ 32) :
    d.probe hash i = d.probe hash c := by
  have hmod : hash + c + c * c ≡ hash + i + i * i [MOD 2 ^ 32] := by
    refine Nat.modEq_iff_dvd.mpr ⟨(i : ℤ) - c, ?_⟩
    rw [← h]
    push_cast
    ring
  rw [probe, probe, hmod.symm]

/-- From an unusable slot, a jump over the first section lands in a usable one. -/
theorem usable_of_jump {a b m e : ℕ} (hm : a % m < e) (hb : e ≤ b) (hlt : e + b ≤ m) :
    e ≤ (a + b) % m := by
  have hmod : (a + b) % m = a % m + b := by
    rw [Nat.add_mod, Nat.mod_eq_of_lt (show b < m by omega),
      Nat.mod_eq_of_lt (show a % m + b < m by omega)]
  omega

/-- `get_hash_idx` finds an index for every hash. -/
theorem Fits.exists_usable (h : d.Fits) {hash : ℕ} (hh : hash < 2 ^ 32) :
    ∃ c < 2 ^ 31, d.epp < d.probe hash c := by
  have hroom := h.room
  have hepp := d.epp_cases
  by_contra hno
  push Not at hno
  have h0 := hno 0 (by omega)
  have h32 := hno 32 (by omega)
  have h46 := hno 46 (by omega)
  unfold probe at h0 h32 h46
  by_cases hwrap : hash + 1056 < 2 ^ 32
  · rw [show hash + 0 + 0 * 0 = hash by omega, Nat.mod_eq_of_lt hh] at h0
    have hj := @usable_of_jump hash 1056 (d.nrValidTentries - 1) d.epp
      (by omega) (by omega) (by omega)
    rw [show hash + 32 + 32 * 32 = hash + 1056 by omega, Nat.mod_eq_of_lt hwrap] at h32
    omega
  · have h32' : (hash + 32 + 32 * 32) % 2 ^ 32 = hash + 1056 - 2 ^ 32 := by omega
    have h46' : (hash + 46 + 46 * 46) % 2 ^ 32 = hash + 1056 - 2 ^ 32 + 1106 := by omega
    rw [h32'] at h32
    rw [h46'] at h46
    have hj := @usable_of_jump (hash + 1056 - 2 ^ 32) 1106 (d.nrValidTentries - 1) d.epp
      (by omega) (by omega) (by omega)
    omega

end Device

/-! ### Slots of a shard -/

namespace Device

/-- The indices of a section. -/
def secIndices (d : Device) (i : ℕ) : Finset ℕ :=
  (Finset.Ico (i * d.epp) ((i + 1) * d.epp)).filter (· < uintMax)

theorem epp_pos (d : Device) : 0 < d.epp := by
  have := d.epp_cases
  omega

theorem mem_secIndices {d : Device} {i lpa : ℕ} :
    lpa ∈ d.secIndices i ↔ d.idx lpa = i ∧ lpa < uintMax := by
  rw [secIndices, Finset.mem_filter, Finset.mem_Ico, idx]
  refine and_congr_left' ?_
  constructor
  · rintro ⟨hlo, hhi⟩
    exact Nat.div_eq_of_lt_le hlo hhi
  · rintro rfl
    exact ⟨Nat.div_mul_le_self _ _, Nat.lt_mul_of_div_lt (Nat.lt_succ_self _) d.epp_pos⟩

theorem card_secIndices_le (d : Device) (i : ℕ) : (d.secIndices i).card ≤ d.epp := by
  refine (Finset.card_filter_le _ _).trans ?_
  rw [Nat.card_Ico, Nat.add_mul, Nat.one_mul, Nat.add_sub_cancel_left]

end Device

namespace Shard

variable (d : Device)

/-- What a slot shows. -/
def cell (s : Shard) (lpa : ℕ) : Cell Bytes Pair :=
  if (s.sec (d.idx lpa)).tPpa = uintMax then .missing
  else if (s.cache.hidxToGrain d lpa).1 = uintMax then .empty
  else
    match s.pairMem lpa with
    | none => .missing
    | some mem => .full (PairMem.parse mem).1 (PairMem.parse mem).2

/-- The hash table of the shard. -/
def tab (s : Shard) : Tab Bytes Pair := { cell := s.cell d, maxTry := s.maxTry }

/-- A slot is mapped. -/
def Mapped (s : Shard) (lpa : ℕ) : Prop :=
  (s.sec (d.idx lpa)).tPpa ≠ uintMax ∧ (s.cache.hidxToGrain d lpa).1 ≠ uintMax

/-- Mapped slots have the memory of a pair, and two-level tables are finite maps. -/
structure TableOk (s : Shard) : Prop where
  memOk : s.MemOk
  pair : ∀ lpa, s.Mapped d lpa →
    ∃ k p, s.pairMem lpa = some (PairMem.bytes k p) ∧ k.length ≤ maxKlen ∧
      p.value.length < 2 ^ 32
  refines : d.build = .plus → ∀ i, (s.sec i).tPpa ≠ uintMax →
    ∃ f, TwoLevel.Refines (s.sec i).table f ∧ ∀ h, f h ≠ none → h ∈ d.secIndices i

variable {d} {s s' : Shard}

theorem SameTable.hidxToGrain (h : SameTable s s') (lpa : ℕ) :
    s'.cache.hidxToGrain d lpa = s.cache.hidxToGrain d lpa := by
  unfold Cache.hidxToGrain
  rw [h.secs.table]

theorem SameTable.cell_eq (h : SameTable s s') (lpa : ℕ) : s'.cell d lpa = s.cell d lpa := by
  unfold cell
  rw [h.hidxToGrain, h.pairMem]
  exact if_congr (h.secs.missing _) rfl rfl

/-- Moving mapping pages around does not change the hash table. -/
theorem SameTable.tab_eq (h : SameTable s s') : s'.tab d = s.tab d := by
  unfold tab
  rw [h.maxTry]
  congr 1
  funext lpa
  exact h.cell_eq lpa

theorem SameTable.mapped_iff (h : SameTable s s') (lpa : ℕ) :
    s'.Mapped d lpa ↔ s.Mapped d lpa := by
  unfold Mapped
  rw [h.hidxToGrain]
  exact and_congr_left' (not_congr (h.secs.missing _))

theorem SameTable.tableOk (h : SameTable s s') (hok : s.TableOk d) : s'.TableOk d where
  memOk := h.memOk hok.memOk
  pair lpa hm := by
    rw [h.pairMem]
    exact hok.pair lpa ((h.mapped_iff lpa).mp hm)
  refines hb i hi := by
    have ht : (s'.sec i).table = (s.sec i).table := h.secs.table i
    rw [ht]
    exact hok.refines hb i fun hc => hi ((h.secs.missing i).mpr hc)

namespace TableOk

/-- A mapped slot shows the key and the pair in its memory. -/
theorem cell_full (hok : s.TableOk d) {lpa : ℕ} (hm : s.Mapped d lpa) :
    ∃ k p, s.cell d lpa = .full k p ∧ s.pairMem lpa = some (PairMem.bytes k p) ∧
      k.length ≤ maxKlen ∧ p.value.length < 2 ^ 32 := by
  obtain ⟨k, p, hmem, hk, hv⟩ := hok.pair lpa hm
  refine ⟨k, p, ?_, hmem, hk, hv⟩
  unfold cell
  rw [if_neg hm.1, if_neg hm.2, hmem]
  simp only [PairMem.parse_bytes hk hv]

theorem mapped_of_full (hok : s.TableOk d) {lpa : ℕ} {k : Bytes} {p : Pair}
    (h : s.cell d lpa = .full k p) :
    s.Mapped d lpa ∧ s.pairMem lpa = some (PairMem.bytes k p) ∧ k.length ≤ maxKlen ∧
      p.value.length < 2 ^ 32 := by
  have hm : s.Mapped d lpa := by
    unfold cell at h
    split at h
    · cases h
    split at h
    · cases h
    · exact ⟨‹_›, ‹_›⟩
  obtain ⟨k', p', hcell, hmem, hk, hv⟩ := hok.cell_full hm
  rw [hcell] at h
  cases h
  exact ⟨hm, hmem, hk, hv⟩

end TableOk

theorem cell_missing {lpa : ℕ} (h : (s.sec (d.idx lpa)).tPpa = uintMax) : s.cell d lpa = .missing :=
  if_pos h

theorem cell_empty {lpa : ℕ} (h : (s.sec (d.idx lpa)).tPpa ≠ uintMax)
    (hg : (s.cache.hidxToGrain d lpa).1 = uintMax) : s.cell d lpa = .empty := by
  rw [cell, if_neg h, if_pos hg]

end Shard

end Virtkv
