import Virtkv.Oob.Pages

/-!
# What is put on flash names itself

A pair goes behind the user's position, a section and the records of a line go to a page
that was just handed out. Each of them gets its grains for its own, and the words of the
grains name it.
-/

namespace Virtkv

open Outcome

namespace Geometry

variable {g : Geometry} {r : ℕ}

/-- Behind a stripe there is another whole one, or the line ends. -/
theorem stripeEnd_add_le (hw : g.Wf) (h : g.stripeEnd r < g.pgsPerLine) :
    g.stripeEnd r + g.stripe ≤ g.pgsPerLine := by
  rw [pgsPerLine_stripes, stripeEnd] at h ⊢
  have hlt : r / g.stripe + 1 < g.oneshotpgsPerBlk * g.lunsPerCh :=
    (Nat.mul_lt_mul_right hw.stripe_pos).mp h
  rw [← Nat.succ_mul]
  exact Nat.mul_le_mul_right _ hlt

end Geometry

namespace Flash

variable {d : Device} {f f' : Flash} {L : Grains} {l r off : ℕ}

/-! ### Pairs -/

theorem pagesOf_le {n : ℕ} (h : d.grainsOf n ≤ 63 * d.gpp) : d.pagesOf 0 (d.grainsOf n) ≤ 63 := by
  have hpos := d.build_gpp_pos
  rw [Device.pagesOf, Nat.zero_add]
  refine Nat.lt_succ_iff.mp ((Nat.div_lt_iff_lt_mul hpos).mpr ?_)
  omega

/-- With stripes of 64 pages a pair of 63 pages always has room. -/
theorem Writer.room_of_wide (hg : d.geo.Wide) (s : Writer) {bytes : ℕ}
    (hb : bytes ≤ 63 * pageSize) : s.Room d (d.grainsOf bytes) := by
  intro l r _ hr
  have hle : d.grainsOf bytes ≤ 63 * d.gpp := by
    apply Device.grainsOf_le
    rw [Nat.mul_assoc, d.gpp_mul_gu]
    exact hb
  have hpages := pagesOf_le hle
  have hs := hg.stripe
  refine .inr ?_
  rw [restart]
  split
  · rename_i hlt
    have := Geometry.stripeEnd_add_le hg.wf hlt
    omega
  · have h2 := hg.two_stripes
    have huse : Geometry.usable (lineBehind d .user s.flash r) 0 ≤ 1 := by
      rw [Geometry.usable]
      split <;> omega
    omega

/-- What a store does to flash: the pair gets grains that had no holder. -/
structure PlacesPair (d : Device) (f f' : Flash) (L : Grains) (u' : UserPos)
    (lpa l x n : ℕ) : Prop where
  carries : Carries d f f' L (L.add (d.extent l x n) (.pair lpa))
  placed : f'.Placed d (L.add (d.extent l x n) (.pair lpa))
  opened : f'.Open d u' (L.add (d.extent l x n) (.pair lpa))
  writer : ∃ l r off, Writer.At d ⟨f', u'⟩ l r off
  pair : f'.PairAt d (L.add (d.extent l x n) (.pair lpa)) lpa l x n

theorem placePair_places (hg : d.geo.Wide) {u u' : UserPos} {lpa bytes grain credits : ℕ}
    (hat : Writer.At d ⟨f, u⟩ l r off) (hp : f.Placed d L) (ho : f.Open d u L) (hpos : 0 < bytes)
    (hle : bytes ≤ 63 * pageSize)
    (h : f.placePair d u lpa bytes = .ok (grain, credits, u', f')) :
    ∃ l' x, grain = d.grainAt l' x ∧ PlacesPair d f f' L u' lpa l' x (d.grainsOf bytes) := by
  have hw := hg.wf
  have h2 := hg.two_le
  have hn := d.grainsOf_pos hpos
  have hroom : Writer.Room d ⟨f, u⟩ (d.grainsOf bytes) := Writer.room_of_wide hg _ hle
  have hplace := placePair_eq_placePages (d := d) ⟨f, u⟩ lpa bytes
  dsimp only at hplace
  rw [hplace] at h
  simp only [bind_eq_ok] at h
  obtain ⟨x, hx, f4, htag, h⟩ := h
  cases h
  obtain ⟨-, l3, r3, off3, hnext⟩ := hat.placePages hg.striped h2 hpos hroom hx
  simp only [Writer.placePages, bind_eq_ok] at hx
  obtain ⟨⟨c, u1, f1⟩, hskip, ⟨u2, f2⟩, hfirst, ⟨ps, u3, f3⟩, hwrite, hx⟩ := hx
  cases hx
  obtain ⟨l', r', off', hfill, hin⟩ := start_at hg.striped h2 hat hn hroom hskip hfirst
  obtain ⟨hc1, ho1⟩ := open_skipUnlessFits hp ho hskip
  obtain ⟨hc2, ho2⟩ := open_firstUserPage (hc1.placed hp) ho1 hfirst
  have hc := hc1.trans hc2
  have hwr := writePages_writes hg.striped _ hfill hpos hin (hc.placed hp) ho2 (.pair lpa) hwrite
  -- the line does not end before the last grain
  have hgrains : r' * d.gpp + off' + d.grainsOf bytes ≤ d.grainsPerLine := by
    have hmul := d.le_pagesOf_mul off' (d.grainsOf bytes)
    calc r' * d.gpp + off' + d.grainsOf bytes
        ≤ r' * d.gpp + d.pagesOf off' (d.grainsOf bytes) * d.gpp := by omega
      _ = (r' + d.pagesOf off' (d.grainsOf bytes)) * d.gpp := (Nat.add_mul ..).symm
      _ ≤ d.geo.pgsPerLine * d.gpp := Nat.mul_le_mul_right _ hin
  obtain ⟨f5, htag', hall⟩ :=
    tagPair_tagged hw f3 lpa hfill.line_lt hfill.off_lt hn hgrains
  have hu2 : u2 = d.userAt l' r' off' := hfill.pos
  have hgrain : u2.offset / d.gu = d.ppaToPga (d.geo.pgNo (d.geo.pageAt l' r')) off' := by
    rw [hu2, Device.userAt_div]
  dsimp only at htag
  rw [hgrain, htag'] at htag
  cases htag
  -- the words of the pair are written last, on its own grains
  have hst : f'.status = f3.status := by rw [hall.same]
  refine ⟨l', r' * d.gpp + off', ?_, ⟨?_, ?_, ?_, ?_, ?_⟩⟩
  · dsimp only
    rw [hgrain, grainAt_page d l' r' hfill.off_lt]
  · refine ⟨fun q hq => ?_, fun g hg' => ?_, fun g hg' => ?_, fun _ => ?_⟩
    · rw [hst]
      exact hwr.taken q (hc.taken q hq)
    · have hnot : g ∉ d.extent l' (r' * d.gpp + off') (d.grainsOf bytes) :=
        fun hm => hg' (hwr.vacant g hm)
      rw [hall.other g hnot, hwr.oob]
      exact hc.word g hg'
    · have hnot : g ∉ d.extent l' (r' * d.gpp + off') (d.grainsOf bytes) :=
        fun hm => hg' (hwr.vacant g hm)
      rw [Ledger.owner_add, if_neg hnot]
    · intro g hg'
      rw [hst]
      exact hwr.placed g hg'
  · intro g hg'
    rw [hst]
    exact hwr.placed g hg'
  · exact ⟨by rw [hst]; exact hwr.opened.taken, hwr.opened.vacant⟩
  · exact ⟨l3, r3, off3, (hnext.of_wp (f := f') (by rw [hall.same])).at⟩
  · refine ⟨hfill.line_lt, hn, hgrains, fun g hg' => ?_, hall.head, hall.spill⟩
    rw [Ledger.owner_add, if_pos hg']

/-! ### Pages of one holder -/

/-- A page that the writer got is given to a holder, in part or as a whole. -/
theorem Hands.aside {io : IoType} {pgidx len : ℕ} (h : Hands d io f f' pgidx)
    (hne : IoType.user ≠ io) (hp : f.Placed d L) (hlen : len ≤ d.gpp) (o : Owner) :
    CarriesAside d f f' L (L.add (Device.span (d.ppaToPga pgidx 0) len) o) := by
  have hpage : ∀ g ∈ Device.span (d.ppaToPga pgidx 0) len, d.gIdx g = pgidx := by
    intro g hg
    have h0 := d.gIdx_ppaToPga (q := pgidx) d.build_gpp_pos
    rw [Device.gIdx_of_mem_span _ hg, h0]
    rw [Device.gOffset_ppaToPga d.build_gpp_pos]
    omega
  refine (h.uses.aside hne L).add hp (fun g hg => ?_) (fun g hg => ?_) o
  · rw [hpage g hg]
    exact h.was_free
  · rw [hpage g hg]
    exact h.taken

end Flash

/-! ### Sections -/

namespace Shard

open Flash

variable {d : Device} {f f' : Flash} {L : Grains} {i : ℕ}

theorem hands_mapPageLoop {fuel ppa : ℕ} (h : mapPageLoop d fuel f = .ok (ppa, f')) :
    Hands d .map f f' ppa := by
  induction fuel generalizing f with
  | zero => cases h
  | succ fuel ih =>
    simp only [mapPageLoop, bind_eq_ok] at h
    obtain ⟨⟨p, k, f1⟩, h1, f2, h2, h⟩ := h
    have hhands := (hands_takePage h1).2.then (uses_markGrainValid h2)
    split at h
    · simp only [bind_eq_ok] at h
      obtain ⟨f3, h3, h⟩ := h
      exact (ih h).after (hhands.uses.trans (uses_markGrainInvalid h3))
    · cases h
      exact hhands

/-- The page of a section: its first word carries its length and index. -/
theorem tagMapPage_spec {ppa len start : ℕ} (hstart : 0 < start)
    (h : tagMapPage d f ppa i len start = .ok f') :
    (∀ q, f.status q ≠ .free → f'.status q ≠ .free) ∧ f'.wp = f.wp ∧
      f'.oob (d.ppaToPga ppa 0) = len * 2 ^ 32 + i * d.epp ∧
      ∀ g, d.gIdx g ≠ ppa → f'.oob g = f.oob g := by
  set f1 := (f.setOob d ppa 0 (len * 2 ^ 32 + i * d.epp)).fillOob d ppa start uintMax with hf1
  have hhead : f1.oob (d.ppaToPga ppa 0) = len * 2 ^ 32 + i * d.epp := by
    rw [hf1, oob_fillOob_of_lt hstart]
    exact Function.update_self ..
  have hother : ∀ g, d.gIdx g ≠ ppa → f1.oob g = f.oob g := by
    intro g hg
    rw [hf1, oob_fillOob_of_ne hg, oob_setOob_of_ne d.build_gpp_pos hg]
  rw [tagMapPage, ← hf1] at h
  split at h
  · have hk := keepsPages_markGrainInvalid h
    have hwp := (KeepsPointers.markGrainInvalid h).wp
    refine ⟨fun q hq hc => hq ((hk.free_iff q).mp hc), hwp, ?_, fun g hg => ?_⟩
    · rw [hk.oob_eq, hhead]
    · rw [hk.oob_eq, hother g hg]
  · rw [← Except.ok.inj h]
    exact ⟨fun _ => id, rfl, hhead, hother⟩

/-- A section gets a page. -/
theorem mapPage_secAt {fuel ppa len start : ℕ} {f1 : Flash} (hp : f.Placed d L)
    (hpos : 0 < len) (hlen : len ≤ d.gpp) (hstart : 0 < start)
    (h1 : mapPageLoop d fuel f = .ok (ppa, f1)) (h2 : tagMapPage d f1 ppa i len start = .ok f') :
    CarriesAside d f f' L (L.add (Device.span (d.ppaToPga ppa 0) len) (.sec i)) ∧
      f'.SecAt d (L.add (Device.span (d.ppaToPga ppa 0) len) (.sec i)) i ppa 0 len := by
  have hhands := hands_mapPageLoop h1
  obtain ⟨htaken, hwp, hhead, hother⟩ := tagMapPage_spec hstart h2
  have haside := hhands.aside user_ne_map hp hlen (.sec i)
  refine ⟨⟨⟨fun q hq => htaken q (haside.carries.taken q hq), fun g hg => ?_,
    haside.carries.owner, fun hp' g hg => htaken _ (haside.carries.placed hp' g hg)⟩,
    haside.fresh, by rw [hwp]; exact haside.wp⟩, hhands.lt, hpos, by omega, fun g hg => ?_, hhead⟩
  · -- nothing on the page had a holder
    rw [hother g (hhands.gIdx_ne hp hg)]
    exact haside.carries.word g hg
  · rw [Ledger.owner_add, if_pos hg]

end Shard

/-! ### The log -/

namespace InvLog

open Flash

variable {d : Device} {f f' : Flash} {L : Grains} {log log' : InvLog} {line : ℕ}

theorem hands_flushPageLoop {fuel pgidx : ℕ} (h : flushPageLoop d fuel f = .ok (pgidx, f')) :
    Hands d .map f f' pgidx := by
  induction fuel generalizing f with
  | zero => cases h
  | succ fuel ih =>
    simp only [flushPageLoop, bind_eq_ok] at h
    obtain ⟨-, -, -, -, ⟨p, k, f1⟩, h1, f2, h2, h⟩ := h
    have hhands := (hands_takePage h1).2.then (uses_markGrainValid h2)
    split at h
    · simp only [bind_eq_ok] at h
      obtain ⟨f3, h3, h⟩ := h
      exact (ih h).after (hhands.uses.trans (uses_markGrainInvalid h3))
    · cases h
      exact hhands

theorem mem_xaStore {idx : ℕ} {page : LogWords} {xa : List (ℕ × LogWords)} {e : ℕ × LogWords}
    (h : e ∈ xaStore idx page xa) : e.1 = idx ∨ e ∈ xa := by
  induction xa with
  | nil =>
    rw [xaStore, List.mem_singleton] at h
    exact .inl (by rw [h])
  | cons a xa ih =>
    rw [xaStore] at h
    split at h
    · rcases List.mem_cons.mp h with rfl | h
      · exact .inl rfl
      · exact .inr h
    split at h
    · rcases List.mem_cons.mp h with rfl | h
      · exact .inl rfl
      · exact .inr (List.mem_cons_of_mem _ h)
    · rcases List.mem_cons.mp h with rfl | h
      · exact .inr (List.mem_cons_self ..)
      · exact (ih h).imp_right (List.mem_cons_of_mem _)

/-- The words of a log page. -/
theorem tagLogPage_logAt {pgidx : ℕ} (hlt : pgidx < d.geo.ttPgs)
    (ho : ∀ j < d.gpp, L.owner (d.ppaToPga pgidx j) = some (.log pgidx)) :
    (tagLogPage d f pgidx line).LogAt d L line pgidx := by
  have h3 := three_le_gpp d
  have hfill : ∀ j < 3, (tagLogPage d f pgidx line).oob (d.ppaToPga pgidx j) =
      (((f.setOob d pgidx 0 (uintMax - 5)).setOob d pgidx 1 line).setOob d pgidx 2 pgidx).oob
        (d.ppaToPga pgidx j) := by
    intro j hj
    exact oob_fillOob_of_lt hj
  have hne : ∀ {a b : ℕ}, a ≠ b → d.ppaToPga pgidx a ≠ d.ppaToPga pgidx b := by
    intro a b hab hc
    rw [Device.ppaToPga, Device.ppaToPga] at hc
    omega
  refine ⟨hlt, ho, ?_, ?_, ?_⟩
  · rw [hfill 0 (by omega)]
    show Function.update (Function.update (Function.update f.oob _ _) _ _) _ _ _ = _
    rw [Function.update_of_ne (hne (by omega)), Function.update_of_ne (hne (by omega)),
      Function.update_self]
  · rw [hfill 1 (by omega)]
    show Function.update (Function.update (Function.update f.oob _ _) _ _) _ _ _ = _
    rw [Function.update_of_ne (hne (by omega)), Function.update_self]
  · rw [hfill 2 (by omega)]
    show Function.update (Function.update (Function.update f.oob _ _) _ _) _ _ _ = _
    rw [Function.update_self]

theorem oob_tagLogPage {pgidx g : ℕ} (h : d.gIdx g ≠ pgidx) :
    (tagLogPage d f pgidx line).oob g = f.oob g := by
  have h3 := three_le_gpp d
  rw [tagLogPage, oob_fillOob_of_ne h, oob_setOob_of_ne (by omega) h,
    oob_setOob_of_ne (by omega) h, oob_setOob_of_ne (by omega) h]

/-- A buffer of records is flushed to a page that names its line. -/
theorem flush_logAt (hp : f.Placed d L) (h : flush d f log line = .ok (f', log')) :
    ∃ L' ppa, CarriesAside d f f' L L' ∧ f'.LogAt d L' line ppa ∧
      ∀ e ∈ log'.xa, e.1 = xaIdx line ppa ∨ e ∈ log.xa := by
  simp only [flush, bind_eq_ok] at h
  obtain ⟨⟨ppa, f1⟩, h1, h⟩ := h
  cases h
  have hhands := hands_flushPageLoop h1
  have haside := hhands.aside user_ne_map hp le_rfl (.log ppa)
  refine ⟨L.add (Device.span (d.ppaToPga ppa 0) d.gpp) (.log ppa), ppa,
    ⟨⟨haside.carries.taken, fun g hg => ?_, haside.carries.owner, haside.carries.placed⟩,
      haside.fresh, haside.wp⟩, tagLogPage_logAt hhands.lt fun j hj => ?_, fun e he => ?_⟩
  · rw [oob_tagLogPage (hhands.gIdx_ne hp hg)]
    exact haside.carries.word g hg
  · have hmem : d.ppaToPga ppa j ∈ Device.span (d.ppaToPga ppa 0) d.gpp := by
      rw [Device.mem_span, Device.ppaToPga, Device.ppaToPga]
      omega
    exact if_pos hmem
  · exact mem_xaStore he

/-- The pages listed after a record: those listed before, and the new one if the buffer was
flushed. -/
def ListsPages (d : Device) (f' : Flash) (L' : Grains) (xa xa' : List (ℕ × LogWords)) : Prop :=
  ∀ e ∈ xa', (∃ line ppa, e.1 = xaIdx line ppa ∧ f'.LogAt d L' line ppa) ∨ e ∈ xa

theorem makeRoom_aside {need credits : ℕ} (hp : f.Placed d L)
    (h : makeRoom d f log line need = .ok (credits, f', log')) :
    ∃ L', CarriesAside d f f' L L' ∧ ListsPages d f' L' log.xa log'.xa := by
  rw [makeRoom] at h
  split at h
  · simp only [bind_eq_ok] at h
    obtain ⟨⟨f1, log1⟩, h1, h⟩ := h
    cases h
    obtain ⟨L', ppa, haside, hat, hmem⟩ := flush_logAt hp h1
    refine ⟨L', haside, fun e he => ?_⟩
    rcases hmem e he with hidx | hold
    · exact .inl ⟨line, ppa, hidx, hat⟩
    · exact .inr hold
  · cases h
    exact ⟨L, .refl _ L, fun e he => .inr he⟩

/-- A record takes a page for the buffer of its line, or none. -/
theorem recordInvMapping_aside {lpa ppa off len credits : ℕ} (hp : f.Placed d L)
    (h : recordInvMapping d f log lpa ppa off len = .ok (credits, f', log')) :
    ∃ L', CarriesAside d f f' L L' ∧ ListsPages d f' L' log.xa log'.xa := by
  simp only [recordInvMapping, recordAt, bind_eq_ok] at h
  obtain ⟨line, -, ⟨k, f1, log1⟩, h1, h⟩ := h
  cases h
  have hxa : (log1.append line lpa ppa off len).xa = log1.xa := by
    rw [append]
    split <;> rfl
  rw [hxa]
  exact makeRoom_aside hp h1

end InvLog

end Virtkv
