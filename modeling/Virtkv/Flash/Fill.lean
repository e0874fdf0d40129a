import Virtkv.Flash.Cursor
import Virtkv.Flash.Extent

/-!
# Writing a pair

The loops of `__store` and `__copy_valid_pair` mark the grains of a pair valid, from the
page being filled on. A page that gets full is followed by the next one at once. The pair
is an extent of its line, and the bitmap of ORIGINAL marks its first grain on every page.
-/

namespace Virtkv

open Outcome

namespace Flash

variable {d : Device} {io : IoType} {f f' : Flash} {L L' : Grains} {home home' : ℕ → Place}
  {l r off n : ℕ} {o : Owner}

/-- The grains of an extent that begin a page, and its first one. -/
def Begins (d : Device) (l x n g : ℕ) : Prop :=
  ∃ y, x ≤ y ∧ y < x + n ∧ (y = x ∨ y % d.gpp = 0) ∧ d.grainAt l y = g

/-- `n` grains were written from the cursor on. -/
structure Fills (d : Device) (io : IoType) (f f' : Flash) (L : Grains) (home home' : ℕ → Place)
    (l r off n : ℕ) (o : Owner) : Prop where
  inv : FlashInv d f' (L.add (d.extent l (r * d.gpp + off) n) o) home'
  evolves : Evolves d io f f' home home'
  oob : f'.oob = f.oob
  bits : ∀ g, f'.grainBitmap g = true ↔
    f.grainBitmap g = true ∨ d.build = .original ∧ Begins d l (r * d.gpp + off) n g
  unused : Disjoint L.used (d.extent l (r * d.gpp + off) n)

/-- The cursor behind `n` grains. -/
def Behind (d : Device) (io : IoType) (f' : Flash) (L : Grains) (home' : ℕ → Place)
    (l r off n : ℕ) (o : Owner) (r' off' : ℕ) : Prop :=
  r' * d.gpp + off' = r * d.gpp + off + n ∧
    Cursor d io f' (L.add (d.extent l (r * d.gpp + off) n) o) home' l r' off'

theorem grainAt_cursor (d : Device) (l r : ℕ) (h : off < d.gpp) :
    d.grainAt l (r * d.gpp + off) = d.ppaToPga (d.geo.pgNo (d.geo.pageAt l r)) off := by
  rw [Device.grainAt, Nat.add_comm, Nat.add_mul_div_right _ _ d.build_gpp_pos,
    Nat.div_eq_of_lt h, Nat.zero_add, Nat.add_mul_mod_self_right, Nat.mod_eq_of_lt h]

theorem extent_cursor (d : Device) (l r : ℕ) (h : off < d.gpp) (hn : off + n ≤ d.gpp) :
    d.extent l (r * d.gpp + off) n =
      Device.span (d.ppaToPga (d.geo.pgNo (d.geo.pageAt l r)) off) n := by
  rw [← grainAt_cursor d l r h, Device.extent_eq_span]
  rwa [Nat.mul_add_mod_self_right, Nat.mod_eq_of_lt h]

/-- In one page only the first grain begins. -/
theorem begins_cursor (hpos : 0 < n) (hn : off + n ≤ d.gpp) (g : ℕ) :
    Begins d l (r * d.gpp + off) n g ↔ g = d.grainAt l (r * d.gpp + off) := by
  constructor
  · rintro ⟨y, hy, hlt, hor, rfl⟩
    rcases hor with rfl | h0
    · rfl
    · obtain ⟨i, rfl⟩ := Nat.exists_eq_add_of_le hy
      rw [show r * d.gpp + off + i = off + i + r * d.gpp by omega, Nat.add_mul_mod_self_right,
        Nat.mod_eq_of_lt (by omega)] at h0
      rw [show i = 0 by omega, Nat.add_zero]
  · rintro rfl
    exact ⟨_, le_rfl, by omega, .inl rfl, rfl⟩

/-- The first grains of two consecutive extents, when the second one begins a page. -/
theorem begins_append {x m k : ℕ} (hm : 0 < m) (hx : (x + m) % d.gpp = 0) (g : ℕ) :
    Begins d l x (m + k) g ↔ Begins d l x m g ∨ Begins d l (x + m) k g := by
  constructor
  · rintro ⟨y, hy, hlt, hor, rfl⟩
    by_cases hc : y < x + m
    · exact .inl ⟨y, hy, hc, hor, rfl⟩
    · refine .inr ⟨y, by omega, by omega, ?_, rfl⟩
      rcases hor with rfl | h0
      · omega
      · exact .inr h0
  · rintro (⟨y, hy, hlt, hor, rfl⟩ | ⟨y, hy, hlt, hor, rfl⟩)
    · exact ⟨y, hy, by omega, hor, rfl⟩
    · refine ⟨y, by omega, by omega, .inr ?_, rfl⟩
      rcases hor with rfl | h0
      · exact hx
      · exact h0

/-! ### One page -/

/-- Grains that fit on the page are marked valid. -/
theorem Cursor.mark (hc : Cursor d io f L home l r off) (hg : d.geo.Wide)
    (hinv : FlashInv d f L home) (hn : 0 < n) (hle : off + n ≤ d.gpp) (o : Owner) :
    ∃ f', f.markGrainValid d (d.ppaToPga (d.geo.pgNo (d.geo.pageAt l r)) off) n = .ok f' ∧
      Fills d io f f' L home home l r off n o ∧ f'.wp = f.wp ∧
      (∀ q, f'.status q = f.status q) ∧ (f'.lines l).map = (f.lines l).map ∧
      (f'.lines l).igc = (f.lines l).igc := by
  have hw := hg.wf
  have hoff := hc.off_lt
  set q := d.geo.pgNo (d.geo.pageAt l r) with hq
  have hpage : d.gIdx (d.ppaToPga q off) = q := Device.gIdx_ppaToPga hoff
  have hun : Disjoint L.used (Device.span (d.ppaToPga q off) n) := by
    rw [Finset.disjoint_right]
    intro g hg'
    rw [Device.mem_span, Device.ppaToPga] at hg'
    have hge : g = d.ppaToPga q (g - q * d.gpp) := by
      rw [Device.ppaToPga]
      omega
    rw [hge]
    exact hc.unused _ (by omega) (by omega)
  have hf : f.Fresh d L (d.ppaToPga q off) n :=
    ⟨hn, by rwa [Device.gOffset_ppaToPga hoff], by rw [hpage]; exact (hc.page_valid hw).pgNo_lt,
      by rw [hpage]; exact hc.valid hw hinv, hun⟩
  obtain ⟨hst, hoob, hwp, -⟩ := marked_frame (d := d) f (d.ppaToPga q off) n
  have htouch := touches_marked d f (d.ppaToPga q off) hn
  have hinv1 := hinv.marked hf o
  have higc : ∀ z < d.geo.ttLines,
      ((f.marked d (d.ppaToPga q off) n).lines z).igc = (f.lines z).igc := by
    intro z hz
    rw [hinv1.counts.igc z hz, hinv.counts.igc z hz, Ledger.dead_add hun]
  have hext := extent_cursor d l r hoff hle
  refine ⟨_, hinv.markGrainValid_eq hw hf, ⟨?_, ?_, hoob, fun g => ?_, ?_⟩, hwp,
    fun z => by rw [hst], htouch.map l, higc l hc.line_lt⟩
  · rw [hext]
    exact hinv1
  · exact evolves_of_touches (l := 0) (w := false) htouch (by rintro ⟨⟩) fun z hz => (higc z hz).ge
  · rw [bitmap_marked, begins_cursor hn hle, grainAt_cursor d l r hoff]
    by_cases hb : d.build = .original ∧ g = d.ppaToPga q off
    · rw [if_pos hb]
      exact ⟨fun _ => .inr hb, fun _ => rfl⟩
    · rw [if_neg hb]
      exact ⟨.inl, fun h => h.resolve_right hb⟩
  · rw [hext]
    exact hun

/-- If the page is not full yet, the cursor is behind the grains. -/
theorem Cursor.stay (hc : Cursor d io f L home l r off) (hlt : off + n < d.gpp) (hwp : f'.wp = f.wp)
    (hst : ∀ q, f'.status q = f.status q) (hmap : (f'.lines l).map = (f.lines l).map)
    (higc : (f'.lines l).igc = (f.lines l).igc) :
    Behind d io f' L home l r off n o r (off + n) := by
  refine ⟨(Nat.add_assoc _ _ _).symm, hc.line_lt, hc.page_lt, hlt, hc.nonzero, ?_,
    fun j hj hj' => ?_, fun hr => ?_, fun hr => ?_, hmap.trans hc.kind, hc.kept, fun hr => ?_⟩
  · rw [hst]
    exact hc.taken
  · rw [Ledger.used_add, Finset.mem_union, not_or]
    refine ⟨hc.unused j (by omega) hj', ?_⟩
    rw [extent_cursor d l r hc.off_lt (by omega), Device.mem_span, Device.ppaToPga, Device.ppaToPga]
    omega
  · rw [hwp]
    exact hc.next hr
  · rw [hwp]
    exact hc.wrap hr
  · rw [higc]
    exact hc.behind hr

/-- The page under a write pointer, if it is not page 0. -/
theorem newPage_next (hinv : FlashInv d f L home) (hw : d.geo.Wf) (hr : Pointer d f io r)
    (hne : d.geo.pgNo (d.geo.pageAt (f.wp io).blk r) ≠ 0) :
    Yields (f.newPage d io) (· = .noFreeLine)
      (fun (p, pgidx, f') => p = d.geo.pageAt (f.wp io).blk r ∧ pgidx = d.geo.pgNo p ∧
        ∃ home', Takes d f f' home home' io r pgidx) := by
  rw [newPage, takePageLoop]
  refine (takePage_yields hinv hw hr).bind ?_
  rintro ⟨p, pgidx, f1⟩ ⟨rfl, home1, h1⟩
  have hpg := h1.page
  dsimp only
  rw [if_neg (by rw [hpg]; exact hne)]
  exact ⟨rfl, hpg, home1, h1⟩

/-- If the page is full, the next one is taken. -/
theorem Cursor.turn (hc : Cursor d io f L home l r off) (hg : d.geo.Wide) (heq : off + n = d.gpp)
    (hr : r + 1 < d.geo.pgsPerLine) (hfill : Fills d io f f' L home home l r off n o)
    (hwp : f'.wp = f.wp) (hbehind : d.geo.stripe ≤ r + 1 → 0 < (f'.lines l).igc) :
    Yields (f'.newPage d io) (· = .noFreeLine)
      (fun (p, pgidx, f'') => ∃ home', p = d.geo.pageAt l (r + 1) ∧ pgidx = d.geo.pgNo p ∧
        Fills d io f f'' L home home' l r off n o ∧ Behind d io f'' L home' l r off n o (r + 1) 0 ∧
        (f''.lines l).igc = (f'.lines l).igc) := by
  have hw := hg.wf
  have hblk : (f'.wp io).blk = l := by rw [hwp, hc.next hr, Geometry.pageAt_blk]
  have hptr : Pointer d f' io (r + 1) := by
    obtain ⟨r', hr'⟩ := hfill.inv.places.pointer io
    have hpage := hr'.page
    rw [hblk, hwp, hc.next hr] at hpage
    obtain ⟨-, he⟩ := Geometry.pageAt_inj hw hpage
    exact he ▸ hr'
  have hnz : d.geo.pgNo (d.geo.pageAt l (r + 1)) ≠ 0 :=
    Geometry.pgNo_ne_zero hw hc.line_lt hr (.inr (Nat.succ_ne_zero r))
  refine (newPage_next hfill.inv hw hptr (by rw [hblk]; exact hnz)).post ?_
  rintro ⟨p, pgidx, f2⟩ ⟨rfl, rfl, home2, h2⟩
  rw [hblk] at h2 ⊢
  have hdirty : Dirty d io f' (r + 1) := fun _ hlast => by
    rw [hblk]
    refine hbehind ?_
    have hs := hg.two_stripes
    have h64 := hg.stripe
    omega
  have hop := h2.opens hw hfill.inv hdirty hnz
  rw [hblk] at hop
  refine ⟨home2, rfl, rfl,
    ⟨h2.inv hw hfill.inv, hfill.evolves.trans (h2.evolves hfill.inv.places hdirty),
      h2.oob.trans hfill.oob, fun g => ?_, hfill.unused⟩, ⟨?_, ?_⟩, h2.igc l⟩
  · rw [h2.bitmap]
    exact hfill.bits g
  · rw [Nat.succ_mul]
    omega
  · exact hop.cursor fun hs => by
      rw [h2.igc]
      exact hbehind hs

/-- Writing goes on behind what was written. -/
theorem Fills.append {f'' : Flash} {home'' : ℕ → Place} {m : ℕ}
    (h : Fills d io f f' L home home' l r off n o) (heq : off + n = d.gpp)
    (hn : 0 < n)
    (h' : Fills d io f' f'' (L.add (d.extent l (r * d.gpp + off) n) o) home' home'' l (r + 1) 0 m o) :
    Fills d io f f'' L home home'' l r off (n + m) o := by
  have hx : (r + 1) * d.gpp + 0 = r * d.gpp + off + n := by
    rw [Nat.succ_mul]
    omega
  have hx0 : (r * d.gpp + off + n) % d.gpp = 0 := by rw [← hx, Nat.add_zero, Nat.mul_mod_left]
  have hext := Device.extent_append d l (r * d.gpp + off) n m
  obtain ⟨hinv', hev', hoob', hbits', hun'⟩ := h'
  rw [hx] at hinv' hbits' hun'
  rw [Ledger.add_add, ← hext] at hinv'
  refine ⟨hinv', h.evolves.trans hev', hoob'.trans h.oob, fun g => ?_, ?_⟩
  · rw [hbits' g, h.bits g, begins_append hn hx0]
    tauto
  · rw [hext, Finset.disjoint_union_right]
    refine ⟨h.unused, ?_⟩
    rw [Ledger.used_add, Finset.disjoint_union_left] at hun'
    exact hun'.1

end Flash

/-! ### Bytes and grains -/

namespace Device

variable (d : Device)

theorem gu_pos : 0 < d.gu := by
  unfold gu
  cases d.build <;> decide

theorem gpp_mul_gu : d.gpp * d.gu = pageSize := by
  unfold gpp gu
  cases d.build <;> rfl

/-- The position of `__store` at an offset of a page. -/
def userAt (l r off : ℕ) : UserPos where
  offset := d.geo.pgNo (d.geo.pageAt l r) * pageSize + off * d.gu
  curPage := d.geo.pageAt l r

variable {d} {l r off : ℕ}

theorem userAt_div (l r : ℕ) :
    (d.userAt l r off).offset / d.gu = d.ppaToPga (d.geo.pgNo (d.geo.pageAt l r)) off := by
  show (_ * pageSize + off * d.gu) / d.gu = _
  rw [← d.gpp_mul_gu, ← Nat.mul_assoc, ← Nat.add_mul, Nat.mul_div_cancel _ d.gu_pos]
  rfl

theorem userAt_mod (l r : ℕ) (h : off < d.gpp) :
    (d.userAt l r off).offset % pageSize = off * d.gu := by
  show (_ * pageSize + off * d.gu) % pageSize = _
  rw [Nat.mul_add_mod_self_right, Nat.mod_eq_of_lt]
  rw [← d.gpp_mul_gu]
  exact Nat.mul_lt_mul_of_pos_right h d.gu_pos

theorem grainsOf_mul (k : ℕ) : d.grainsOf (k * d.gu) = k := by
  have := d.gu_pos
  rw [grainsOf, Nat.add_sub_assoc this, Nat.add_comm, Nat.add_mul_div_right _ _ this,
    Nat.div_eq_of_lt (by omega), Nat.zero_add]

theorem grainsOf_pos {rem : ℕ} (h : 0 < rem) : 0 < d.grainsOf rem :=
  Nat.div_pos (by omega) d.gu_pos

theorem grainsOf_le {rem k : ℕ} (h : rem ≤ k * d.gu) : d.grainsOf rem ≤ k := by
  have := d.gu_pos
  rw [grainsOf, Nat.div_le_iff_le_mul_add_pred this, Nat.mul_comm]
  omega

theorem grainsOf_sub {rem k : ℕ} (h : k * d.gu < rem) :
    d.grainsOf rem = k + d.grainsOf (rem - k * d.gu) := by
  have := d.gu_pos
  rw [grainsOf, grainsOf, Nat.add_comm k, ← Nat.add_mul_div_right _ _ this]
  congr 1
  omega

end Device

namespace Flash

variable {d : Device} {f : Flash} {L : Grains} {home : ℕ → Place} {l r off : ℕ}

/-- The loop of `__store`: `rem` bytes are `grainsOf rem` grains. -/
theorem writeLoop_yields (hg : d.geo.Wide) (fuel : ℕ) {rem : ℕ} (o : Owner)
    (hinv : FlashInv d f L home) (hc : Cursor d .user f L home l r off) (hrem : 0 < rem)
    (hfuel : rem < fuel) (hpages : r + d.pagesOf off (d.grainsOf rem) < d.geo.pgsPerLine)
    (hbehind : d.geo.stripe ≤ r + d.pagesOf off (d.grainsOf rem) → 0 < (f.lines l).igc) :
    Yields (writeLoop d fuel f (d.userAt l r off) rem) (· = .noFreeLine)
      (fun (u, f') => ∃ home' r' off', u = d.userAt l r' off' ∧
        Fills d .user f f' L home home' l r off (d.grainsOf rem) o ∧
        Behind d .user f' L home' l r off (d.grainsOf rem) o r' off') := by
  induction fuel generalizing f L home r off rem with
  | zero => omega
  | succ fuel ih =>
    have hw := hg.wf
    have hoff := hc.off_lt
    have hgu := d.gu_pos
    have hroom : pageSize - (d.userAt l r off).offset % pageSize = (d.gpp - off) * d.gu := by
      rw [Device.userAt_mod l r hoff, ← d.gpp_mul_gu, ← Nat.sub_mul]
    have hnpos := Device.grainsOf_pos (d := d) hrem
    rw [writeLoop]
    dsimp only
    rw [hroom, Device.userAt_div]
    set sz := min rem ((d.gpp - off) * d.gu) with hsz
    set k := d.grainsOf sz with hk
    have hroompos : d.gu ≤ (d.gpp - off) * d.gu := Nat.le_mul_of_pos_left _ (by omega)
    have hkpos : 0 < k := Device.grainsOf_pos (by omega)
    have hkle : k ≤ d.gpp - off := Device.grainsOf_le (Nat.min_le_right _ _)
    obtain ⟨f1, hmark, hfill, hwp1, hst1, hmap1, higc1⟩ :=
      hc.mark hg hinv hkpos (by omega) o
    rw [hmark, ok_bind]
    by_cases hlt : k < d.gpp - off
    · -- the pair ends on this page
      have hle : rem ≤ (d.gpp - off) * d.gu := by
        by_contra hc'
        have : sz = (d.gpp - off) * d.gu := by omega
        rw [hk, this, Device.grainsOf_mul] at hlt
        omega
      have hszrem : sz = rem := by omega
      have hkn : k = d.grainsOf rem := by rw [hk, hszrem]
      have hu : ({ d.userAt l r off with offset := (d.userAt l r off).offset + k * d.gu } : UserPos) =
          d.userAt l r (off + k) := by
        simp only [Device.userAt, Nat.add_mul, Nat.add_assoc]
      have hmod : ((d.userAt l r off).offset + k * d.gu) % pageSize ≠ 0 := by
        have hoffset : (d.userAt l r off).offset + k * d.gu = (d.userAt l r (off + k)).offset :=
          congrArg UserPos.offset hu
        rw [hoffset, Device.userAt_mod l r (by omega)]
        exact Nat.ne_of_gt (Nat.mul_pos (by omega) hgu)
      rw [if_pos ⟨by omega, hmod⟩]
      have hbeh := hc.stay (n := k) (o := o) (by omega) hwp1 hst1 hmap1 higc1
      rw [hkn] at hfill hbeh
      exact ⟨home, r, off + d.grainsOf rem, hkn ▸ hu, hfill, hbeh⟩
    · -- the page is full
      have hkeq : k = d.gpp - off := by omega
      have hmod : ((d.userAt l r off).offset + k * d.gu) % pageSize = 0 := by
        show (_ * pageSize + off * d.gu + k * d.gu) % pageSize = 0
        rw [Nat.add_assoc, ← Nat.add_mul, hkeq, Nat.add_sub_cancel' hoff.le, d.gpp_mul_gu,
          ← Nat.succ_mul, Nat.mul_mod_left]
      have hone : 1 ≤ d.pagesOf off (d.grainsOf rem) := by
        by_cases hle : off + d.grainsOf rem ≤ d.gpp
        · exact (Device.pagesOf_one hnpos hle).ge
        · rw [Device.pagesOf_succ hoff (by omega)]
          omega
      rw [if_neg (fun h => h.2 hmod), ensure_of hmod, ok_bind, newUserPage]
      have hturn := hc.turn (o := o) hg (by omega) (by omega) hfill hwp1 fun hs => by
        rw [higc1]
        exact hbehind (by omega)
      simp only [bind_assoc]
      refine hturn.bind ?_
      rintro ⟨p, pgidx, f2⟩ ⟨home2, rfl, rfl, hfill2, hbeh2, higc2⟩
      have hu : ({ offset := d.geo.pgNo (d.geo.pageAt l (r + 1)) * pageSize
                   curPage := d.geo.pageAt l (r + 1) } : UserPos) = d.userAt l (r + 1) 0 := by
        simp only [Device.userAt, Nat.zero_mul, Nat.add_zero]
      simp only [pure_bind, hu]
      by_cases hend : rem ≤ (d.gpp - off) * d.gu
      · have hkn : k = d.grainsOf rem := by rw [hk, show sz = rem by omega]
        rw [if_pos (by omega)]
        exact ⟨home2, r + 1, 0, rfl, hkn ▸ hfill2, hkn ▸ hbeh2⟩
      · have hszroom : sz = (d.gpp - off) * d.gu := by omega
        have hsub := Device.grainsOf_sub (show (d.gpp - off) * d.gu < rem by omega)
        rw [← hszroom] at hsub
        have hpos' := Device.grainsOf_pos (d := d) (show 0 < rem - sz by omega)
        have hps := Device.pagesOf_succ hoff (show d.gpp < off + d.grainsOf rem by omega)
        have hrest : d.grainsOf rem - (d.gpp - off) = d.grainsOf (rem - sz) := by omega
        rw [hrest] at hps
        rw [if_neg (by omega)]
        refine (ih hfill2.inv hbeh2.2 (by omega) (by omega) (by omega) fun hs => ?_).post ?_
        · rw [higc2, higc1]
          exact hbehind (by omega)
        · rintro ⟨u, f3⟩ ⟨home3, r3, off3, rfl, hfill3, hbeh3⟩
          have hn : d.grainsOf rem = k + d.grainsOf (rem - sz) := by omega
          have hx : (r + 1) * d.gpp + 0 = r * d.gpp + off + k := by
            rw [Nat.succ_mul]
            omega
          refine ⟨home3, r3, off3, rfl, ?_, ?_⟩
          · rw [hn]
            exact hfill2.append (by omega) hkpos hfill3
          · obtain ⟨h1, h2⟩ := hbeh3
            rw [Ledger.add_add, hx, ← Device.extent_append, ← hn] at h2
            exact ⟨by omega, h2⟩

/-! ### Out-of-band words of a pair -/

/-- The words at the start of a page that a pair, ending before position `e`, spills to. -/
def SpillWord (d : Device) (f : Flash) (l y e : ℕ) : Prop :=
  (e = y + 1 ∧ f.oob (d.grainAt l y) = uintMax - 11) ∨
    (y + 1 < e ∧ f.oob (d.grainAt l y) = uintMax - 10 ∧
      f.oob (d.grainAt l (y + 1)) = min d.gpp (e - y))

/-- The pages of an extent that begins a page carry spill words, the other words of the
extent are lengths or as before. -/
structure Spilled (d : Device) (f f' : Flash) (l a m : ℕ) : Prop where
  same : f' = { f with oob := f'.oob }
  spill : ∀ y, a ≤ y → y < a + m → y % d.gpp = 0 → SpillWord d f' l y (a + m)
  inner : ∀ y, a ≤ y → y < a + m → y % d.gpp ≠ 0 →
    f'.oob (d.grainAt l y) = f.oob (d.grainAt l y) ∨ f'.oob (d.grainAt l y) ≤ d.gpp
  other : ∀ g, g ∉ d.extent l a m → f'.oob g = f.oob g

theorem two_le_gpp (d : Device) : 2 ≤ d.gpp := by
  unfold Device.gpp
  cases d.build <;> decide

theorem grainAt_page (d : Device) (l r : ℕ) (h : off < d.gpp) :
    d.ppaToPga (d.geo.pgNo (d.geo.pageAt l r)) off = d.grainAt l (r * d.gpp + off) :=
  (grainAt_cursor d l r h).symm

/-- One page of a spilling pair. -/
theorem tagSpill_spilled (hw : d.geo.Wf) (f : Flash) {k : ℕ} (hl : l < d.geo.ttLines)
    (hr : r < d.geo.pgsPerLine) (hk : 0 < k) (hle : k ≤ d.gpp) :
    Spilled d f (f.tagSpill d (d.geo.pgNo (d.geo.pageAt l r)) k) l (r * d.gpp) k := by
  have h2 := two_le_gpp d
  have hend : (r + 1) * d.gpp ≤ d.grainsPerLine := Nat.mul_le_mul_right _ hr
  rw [Nat.succ_mul] at hend
  have hinj : ∀ {y z : ℕ}, y < d.grainsPerLine → z < d.grainsPerLine →
      d.grainAt l y = d.grainAt l z → y = z :=
    fun hy hz h => (Device.grainAt_inj hw hl hl hy hz h).2
  have h0 := grainAt_page d l r d.build_gpp_pos
  have h1 := grainAt_page d l r (show 1 < d.gpp by omega)
  rw [Nat.add_zero] at h0
  -- the page has only one first grain
  have hfirst : ∀ y, r * d.gpp ≤ y → y < r * d.gpp + k → y % d.gpp = 0 → y = r * d.gpp := by
    intro y hy hlt hmod
    obtain ⟨i, rfl⟩ := Nat.exists_eq_add_of_le hy
    rw [Nat.mul_add_mod_self_right, Nat.mod_eq_of_lt (by omega)] at hmod
    omega
  unfold tagSpill
  split
  · rename_i hone
    subst hone
    refine ⟨rfl, fun y hy hlt hmod => ?_, fun y hy hlt hmod => ?_, fun g hg => ?_⟩
    · rw [hfirst y hy hlt hmod]
      refine .inl ⟨rfl, ?_⟩
      show Function.update f.oob _ _ _ = _
      rw [h0, Function.update_self]
    · exact absurd (show y = r * d.gpp by omega) fun h => hmod (by rw [h, Nat.mul_mod_left])
    · show Function.update f.oob _ _ _ = _
      rw [Function.update_of_ne]
      rintro rfl
      exact hg (Device.mem_extent.mpr ⟨_, le_rfl, by omega, h0.symm⟩)
  · rename_i hmany
    have hne : d.grainAt l (r * d.gpp) ≠ d.grainAt l (r * d.gpp + 1) := by
      intro h
      have := hinj (by omega) (by omega) h
      omega
    refine ⟨rfl, fun y hy hlt hmod => ?_, fun y hy hlt hmod => ?_, fun g hg => ?_⟩
    · rw [hfirst y hy hlt hmod]
      refine .inr ⟨by omega, ?_, ?_⟩
      · show Function.update (Function.update f.oob _ _) _ _ _ = _
        rw [h0, h1, Function.update_of_ne hne, Function.update_self]
      · show Function.update (Function.update f.oob _ _) _ _ _ = _
        rw [h1, Function.update_self]
        omega
    · show Function.update (Function.update f.oob _ _) _ _ _ = _ ∨
        Function.update (Function.update f.oob _ _) _ _ _ ≤ _
      rw [h0, h1]
      by_cases hy1 : y = r * d.gpp + 1
      · right
        rw [hy1, Function.update_self]
        exact hle
      · left
        have hy0 : y ≠ r * d.gpp := fun h => hmod (by rw [h, Nat.mul_mod_left])
        rw [Function.update_of_ne fun h => hy1 (hinj (by omega) (by omega) h),
          Function.update_of_ne fun h => hy0 (hinj (by omega) (by omega) h)]
    · show Function.update (Function.update f.oob _ _) _ _ _ = _
      rw [h0, h1, Function.update_of_ne, Function.update_of_ne]
      · rintro rfl
        exact hg (Device.mem_extent.mpr ⟨_, le_rfl, by omega, rfl⟩)
      · rintro rfl
        exact hg (Device.mem_extent.mpr ⟨_, by omega, by omega, rfl⟩)

/-- A page that is spilled over completely, and the pages behind it. -/
theorem Spilled.append {f f1 f2 : Flash} (hw : d.geo.Wf) {a m k : ℕ} (hl : l < d.geo.ttLines)
    (hin : a + (m + k) ≤ d.grainsPerLine) (hm : m = d.gpp) (ha : a % d.gpp = 0)
    (hk : 0 < k) (h : Spilled d f f1 l a m) (h' : Spilled d f1 f2 l (a + m) k) :
    Spilled d f f2 l a (m + k) := by
  have h2 := two_le_gpp d
  have hnot : ∀ y, a ≤ y → y < a + m → d.grainAt l y ∉ d.extent l (a + m) k := by
    intro y hy hlt hc
    obtain ⟨z, hz, hzlt, heq⟩ := Device.mem_extent.mp hc
    have := (Device.grainAt_inj hw hl hl (by omega) (by omega) heq).2
    omega
  have hext := Device.extent_append d l a m k
  refine ⟨?_, fun y hy hlt hmod => ?_, fun y hy hlt hmod => ?_, fun g hg => ?_⟩
  · rw [h'.same, h.same]
  · by_cases hc : y < a + m
    · -- only the first grain of the page
      have hya : y = a := by
        obtain ⟨i, rfl⟩ := Nat.exists_eq_add_of_le hy
        rw [Nat.add_mod, ha, Nat.zero_add, Nat.mod_mod, Nat.mod_eq_of_lt (by omega)] at hmod
        omega
      subst hya
      rcases h.spill y le_rfl hc ha with ⟨he, -⟩ | ⟨he, hw0, hw1⟩
      · omega
      · refine .inr ⟨by omega, ?_, ?_⟩
        · rw [h'.other _ (hnot y le_rfl hc), hw0]
        · rw [h'.other _ (hnot (y + 1) (by omega) (by omega)), hw1]
          omega
    · have hs := h'.spill y (by omega) (by omega) hmod
      rwa [Nat.add_assoc] at hs
  · by_cases hc : y < a + m
    · rw [h'.other _ (hnot y hy hc)]
      exact h.inner y hy hc hmod
    · have hout : d.grainAt l y ∉ d.extent l a m := by
        intro hc'
        obtain ⟨z, hz, hzlt, heq⟩ := Device.mem_extent.mp hc'
        have := (Device.grainAt_inj hw hl hl (by omega) (by omega) heq).2
        omega
      have hi := h'.inner y (by omega) (by omega) hmod
      rwa [h.other _ hout] at hi
  · rw [hext, Finset.mem_union, not_or] at hg
    rw [h'.other g hg.2, h.other g hg.1]

/-- The loop of `__store` over the pages behind the first one. -/
theorem spillLoop_spilled (hw : d.geo.Wf) (fuel : ℕ) {f : Flash} {rem : ℕ}
    (hl : l < d.geo.ttLines) (hrem : 0 < rem) (hfuel : rem < fuel)
    (hin : (r + 1) * d.gpp + rem ≤ d.grainsPerLine) :
    ∃ f', spillLoop d l fuel f (d.geo.pageAt l r) rem = .ok f' ∧
      Spilled d f f' l ((r + 1) * d.gpp) rem := by
  induction fuel generalizing f r rem with
  | zero => omega
  | succ fuel ih =>
    have hpos := d.build_gpp_pos
    have hr : r + 1 < d.geo.pgsPerLine := by
      by_contra hc
      have : d.grainsPerLine ≤ (r + 1) * d.gpp := Nat.mul_le_mul_right _ (by omega)
      omega
    rw [spillLoop, Geometry.peekNextPage_pageAt hw hr, ok_bind,
      ensure_of (Geometry.pageAt_blk d.geo l _), ok_bind,
      (Geometry.pageAt_valid hw hl hr).ppa2pgidx_eq, ok_bind]
    dsimp only
    by_cases hle : rem ≤ d.gpp
    · rw [Nat.min_eq_left hle, if_pos (Nat.sub_self _)]
      exact ⟨_, rfl, tagSpill_spilled hw f hl hr hrem hle⟩
    · rw [Nat.min_eq_right (by omega), if_neg (by omega)]
      have hhead := tagSpill_spilled hw f (l := l) hl hr hpos le_rfl
      have hin' : (r + 1 + 1) * d.gpp + (rem - d.gpp) ≤ d.grainsPerLine := by
        rw [Nat.succ_mul]
        omega
      obtain ⟨f', hrun, htail⟩ :=
        ih (f := f.tagSpill d (d.geo.pgNo (d.geo.pageAt l (r + 1))) d.gpp) (by omega) (by omega) hin'
      refine ⟨f', hrun, ?_⟩
      rw [Nat.succ_mul (r + 1)] at htail
      have := hhead.append hw hl (by omega) rfl (Nat.mul_mod_left _ _) (by omega) htail
      rwa [show d.gpp + (rem - d.gpp) = rem by omega] at this

/-- The out-of-band words of a pair of `n` grains from position `x` of a line on. -/
structure Tagged (d : Device) (f f' : Flash) (l x n lpa : ℕ) : Prop where
  same : f' = { f with oob := f'.oob }
  head : f'.oob (d.grainAt l x) = n * 2 ^ 32 + lpa
  spill : ∀ y, x < y → y < x + n → y % d.gpp = 0 → SpillWord d f' l y (x + n)
  inner : ∀ y, x < y → y < x + n → y % d.gpp ≠ 0 →
    f'.oob (d.grainAt l y) = f.oob (d.grainAt l y) ∨ f'.oob (d.grainAt l y) ≤ d.gpp
  other : ∀ g, g ∉ d.extent l x n → f'.oob g = f.oob g

theorem tagPair_tagged (hw : d.geo.Wf) (f : Flash) (lpa : ℕ) {n : ℕ} (hl : l < d.geo.ttLines)
    (hoff : off < d.gpp) (hn : 0 < n) (hin : r * d.gpp + off + n ≤ d.grainsPerLine) :
    ∃ f', f.tagPair d (d.ppaToPga (d.geo.pgNo (d.geo.pageAt l r)) off) lpa n = .ok f' ∧
      Tagged d f f' l (r * d.gpp + off) n lpa := by
  have hr : r < d.geo.pgsPerLine := by
    by_contra hc
    have : d.grainsPerLine ≤ r * d.gpp := Nat.mul_le_mul_right _ (by omega)
    omega
  have hv := Geometry.pageAt_valid hw hl hr
  set x := r * d.gpp + off with hx
  have hgx := grainAt_page d l r hoff
  rw [← hx] at hgx
  have hpage : d.ppaToPga (d.geo.pgNo (d.geo.pageAt l r)) off = d.grainAt l x := hgx
  set f1 := f.setOob d (d.geo.pgNo (d.geo.pageAt l r)) off (n * 2 ^ 32 + lpa) with hf1
  have hoob1 : ∀ g, f1.oob g = if g = d.grainAt l x then n * 2 ^ 32 + lpa else f.oob g := by
    intro g
    show Function.update f.oob _ _ g = _
    rw [hpage, Function.update_apply]
  have hinj : ∀ {y z : ℕ}, y < d.grainsPerLine → z < d.grainsPerLine →
      d.grainAt l y = d.grainAt l z → y = z :=
    fun hy hz h => (Device.grainAt_inj hw hl hl hy hz h).2
  have hne : ∀ y, x < y → y < x + n → d.grainAt l y ≠ d.grainAt l x := by
    intro y hy hlt h
    have := hinj (by omega) (by omega) h
    omega
  -- no other page begins before the end of the first one
  have hfirst : ∀ y, x < y → y < x + (d.gpp - off) → y % d.gpp ≠ 0 := by
    intro y hy hlt
    obtain ⟨i, rfl⟩ := Nat.exists_eq_add_of_le (show r * d.gpp ≤ y by omega)
    rw [Nat.mul_add_mod_self_right, Nat.mod_eq_of_lt (by omega)]
    omega
  rw [tagPair]
  simp only [Device.gIdx_ppaToPga hoff, Device.gOffset_ppaToPga hoff, ← hf1]
  split
  · rename_i hlong
    rw [hv.ppaToStruct_pgNo hw, ok_bind]
    have hend : x + (d.gpp - off) = (r + 1) * d.gpp := by
      rw [Nat.succ_mul]
      omega
    obtain ⟨f', hrun, hs⟩ := spillLoop_spilled hw (n + 1) (f := f1) (r := r) hl
      (show 0 < n - (d.gpp - off) by omega) (by omega) (by omega)
    rw [← hend] at hs
    have hsum : x + (d.gpp - off) + (n - (d.gpp - off)) = x + n := by omega
    have hout : ∀ y, y < x + (d.gpp - off) →
        d.grainAt l y ∉ d.extent l (x + (d.gpp - off)) (n - (d.gpp - off)) := by
      intro y hy hc
      obtain ⟨z, hz, hzlt, heq⟩ := Device.mem_extent.mp hc
      have := hinj (by omega) (by omega) heq
      omega
    refine ⟨f', hrun, ?_, ?_, fun y hy hlt hmod => ?_, fun y hy hlt hmod => ?_, fun g hg => ?_⟩
    · rw [hs.same]
      rfl
    · rw [hs.other _ (hout x (by omega)), hoob1, if_pos rfl]
    · have hge : x + (d.gpp - off) ≤ y := by
        by_contra hc
        exact hfirst y hy (by omega) hmod
      have := hs.spill y hge (by omega) hmod
      rwa [hsum] at this
    · by_cases hge : x + (d.gpp - off) ≤ y
      · have := hs.inner y hge (by omega) hmod
        rwa [hoob1, if_neg (hne y hy (by omega))] at this
      · rw [hs.other _ (hout y (by omega)), hoob1, if_neg (hne y hy (by omega))]
        exact .inl rfl
    · rw [hs.other g, hoob1, if_neg]
      · rintro rfl
        exact hg (Device.mem_extent.mpr ⟨x, le_rfl, by omega, rfl⟩)
      · intro hc
        obtain ⟨z, hz, hzlt, heq⟩ := Device.mem_extent.mp hc
        exact hg (Device.mem_extent.mpr ⟨z, by omega, by omega, heq⟩)
  · refine ⟨f1, rfl, rfl, ?_, fun y hy hlt hmod => ?_, fun y hy hlt hmod => ?_, fun g hg => ?_⟩
    · rw [hoob1, if_pos rfl]
    · exact absurd hmod (hfirst y hy (by omega))
    · rw [hoob1, if_neg (hne y hy (by omega))]
      exact .inl rfl
    · rw [hoob1, if_neg]
      rintro rfl
      exact hg (Device.mem_extent.mpr ⟨x, le_rfl, by omega, rfl⟩)

end Flash

end Virtkv
