import Virtkv.Flash.Defs

/-!
# What the flash operations leave alone

`KeepsPages f f'` says that no page was handed out or erased between two flash
states and no out-of-band word was written. Only `mark_page_valid` takes a page;
it takes a free one.
-/

namespace Virtkv

open Outcome

namespace Flash

variable {d : Device} {f f' : Flash}

/-- The same pages are free and the out-of-band words are the same. -/
structure KeepsPages (f f' : Flash) : Prop where
  free_iff : ∀ q, f'.status q = .free ↔ f.status q = .free
  oob_eq : f'.oob = f.oob

theorem KeepsPages.refl (f : Flash) : KeepsPages f f := ⟨fun _ => Iff.rfl, rfl⟩

theorem KeepsPages.trans {f'' : Flash} (h : KeepsPages f f') (h' : KeepsPages f' f'') :
    KeepsPages f f'' :=
  ⟨fun q => (h'.free_iff q).trans (h.free_iff q), h'.oob_eq.trans h.oob_eq⟩

theorem keepsPages_of_eq (hs : f'.status = f.status) (ho : f'.oob = f.oob) : KeepsPages f f' :=
  ⟨fun q => by rw [hs], ho⟩

theorem keepsPages_addVictim {l : ℕ} (h : f.addVictim d l = .ok f') : KeepsPages f f' := by
  simp only [addVictim, pqInsert, bind_eq_ok, ensure_eq_ok] at h
  obtain ⟨f1, ⟨-, -, h1⟩, h⟩ := h
  cases h1
  cases h
  exact keepsPages_of_eq rfl rfl

theorem keepsPages_getNextFreeLine {l : ℕ} (h : f.getNextFreeLine = .ok (l, f')) :
    KeepsPages f f' := by
  unfold getNextFreeLine at h
  split at h
  · cases h
  · cases h
    exact keepsPages_of_eq rfl rfl

theorem keepsPages_retireLine {l : ℕ} (h : f.retireLine d l = .ok f') : KeepsPages f f' := by
  unfold retireLine at h
  split at h
  · cases h
    exact keepsPages_of_eq rfl rfl
  · simp only [bind_eq_ok, ensure_eq_ok] at h
    obtain ⟨-, -, h⟩ := h
    exact keepsPages_addVictim h

theorem keepsPages_nextLine {io : IoType} (h : f.nextLine d io = .ok f') : KeepsPages f f' := by
  simp only [nextLine, bind_eq_ok, ensure_eq_ok] at h
  obtain ⟨f1, h1, -, -, ⟨l, f2⟩, h2, -, -, h⟩ := h
  cases h
  exact ((keepsPages_retireLine h1).trans (keepsPages_getNextFreeLine h2)).trans
    (keepsPages_of_eq rfl rfl)

theorem keepsPages_advanceWritePointer {io : IoType} (h : f.advanceWritePointer d io = .ok f') :
    KeepsPages f f' := by
  simp only [advanceWritePointer, bind_eq_ok, ensure_eq_ok] at h
  obtain ⟨-, -, h⟩ := h
  split at h
  · cases h
    exact keepsPages_of_eq rfl rfl
  simp only [bind_eq_ok, ensure_eq_ok] at h
  obtain ⟨-, -, h⟩ := h
  split at h
  · cases h
    exact keepsPages_of_eq rfl rfl
  simp only [bind_eq_ok, ensure_eq_ok] at h
  obtain ⟨-, -, h⟩ := h
  split at h
  · cases h
    exact keepsPages_of_eq rfl rfl
  split at h
  · cases h
    exact keepsPages_of_eq rfl rfl
  · exact keepsPages_nextLine h

theorem keepsPages_bitmapSet {grain : ℕ} (h : f.bitmapSet d grain = .ok f') :
    KeepsPages f f' := by
  unfold bitmapSet at h
  split at h
  · simp only [bind_eq_ok, ensure_eq_ok] at h
    obtain ⟨-, -, h⟩ := h
    cases h
    exact keepsPages_of_eq rfl rfl
  · cases h
    exact KeepsPages.refl f

theorem keepsPages_markGrainValid {grain len : ℕ} (h : f.markGrainValid d grain len = .ok f') :
    KeepsPages f f' := by
  simp only [markGrainValid, bind_eq_ok, ensure_eq_ok] at h
  obtain ⟨p, -, -, -, -, -, -, -, h⟩ := h
  have hk := keepsPages_bitmapSet h
  exact ⟨hk.free_iff, hk.oob_eq⟩

theorem keepsPages_lowerVgc (f : Flash) (l len : ℕ) : KeepsPages f (f.lowerVgc l len) := by
  unfold lowerVgc
  dsimp only
  split <;> exact keepsPages_of_eq rfl rfl

theorem keepsPages_markPageInvalid {pgidx : ℕ} (h : f.markPageInvalid d pgidx = .ok f') :
    KeepsPages f f' := by
  simp only [markPageInvalid, bind_eq_ok, ensure_eq_ok] at h
  obtain ⟨-, hs, -, -, h⟩ := h
  cases h
  refine ⟨fun q => ?_, rfl⟩
  by_cases hq : q = pgidx
  · subst hq
    simp [setStatus, hs]
  · simp [setStatus, Function.update_of_ne hq]

theorem keepsPages_killGrain {grain page len : ℕ} (h : f.killGrain d grain page len = .ok f') :
    KeepsPages f f' := by
  unfold killGrain at h
  split at h
  · simp only [bind_eq_ok, ensure_eq_ok] at h
    obtain ⟨-, -, h⟩ := h
    cases h
    exact keepsPages_of_eq rfl rfl
  · simp only [bind_eq_ok, ensure_eq_ok] at h
    obtain ⟨-, -, h⟩ := h
    split at h
    · have hk := keepsPages_markPageInvalid h
      exact ⟨hk.free_iff, hk.oob_eq⟩
    · cases h
      exact keepsPages_of_eq rfl rfl

theorem keepsPages_demote {l : ℕ} {wasFull : Bool} (h : f.demote d l wasFull = .ok f') :
    KeepsPages f f' := by
  unfold demote at h
  split at h
  · have hk := keepsPages_addVictim h
    exact ⟨hk.free_iff, hk.oob_eq⟩
  · cases h
    exact KeepsPages.refl _

theorem keepsPages_markGrainInvalidPage {l grain page len : ℕ} {wasFull wasFull' : Bool}
    (h : f.markGrainInvalidPage d l grain page len wasFull = .ok (wasFull', f')) :
    KeepsPages f f' := by
  simp only [markGrainInvalidPage, bind_eq_ok, ensure_eq_ok] at h
  obtain ⟨-, -, -, -, -, -, -, -, -, -, -, -, -, -, f1, h1, -, -, f2, h2, h⟩ := h
  cases h
  have hlow : KeepsPages f ((f.addBlkIgc (blkOf d page) len).lowerVgc l len) :=
    (keepsPages_of_eq rfl rfl : KeepsPages f (f.addBlkIgc _ len)).trans (keepsPages_lowerVgc ..)
  exact (hlow.trans (keepsPages_demote h1)).trans (keepsPages_killGrain h2)

theorem keepsPages_markGrainInvalidLoop {fuel : ℕ} {p : Ppa} {grain page rem : ℕ}
    {wasFull : Bool}
    (h : markGrainInvalidLoop d fuel f p grain page rem wasFull = .ok f') : KeepsPages f f' := by
  induction fuel generalizing f p grain page rem wasFull with
  | zero => cases h
  | succ fuel ih =>
    simp only [markGrainInvalidLoop, bind_eq_ok] at h
    obtain ⟨⟨w, f1⟩, h1, h⟩ := h
    split at h
    · cases h
      exact keepsPages_markGrainInvalidPage h1
    · simp only [bind_eq_ok] at h
      obtain ⟨q, -, -, -, pg, -, h⟩ := h
      exact (keepsPages_markGrainInvalidPage h1).trans (ih h)

theorem keepsPages_markGrainInvalid {grain len : ℕ} (h : f.markGrainInvalid d grain len = .ok f') :
    KeepsPages f f' := by
  simp only [markGrainInvalid, bind_eq_ok] at h
  obtain ⟨p, -, -, -, h⟩ := h
  exact keepsPages_markGrainInvalidLoop h

/-- `mark_page_valid` takes a free page. -/
theorem markPageValid_eq_ok {p : Ppa} (h : f.markPageValid d p = .ok f') :
    ∃ pgidx, d.geo.ppa2pgidx p = .ok pgidx ∧ f.status pgidx = .free ∧
      f' = f.setStatus pgidx .valid := by
  simp only [markPageValid, bind_eq_ok, ensure_eq_ok] at h
  obtain ⟨pgidx, hp, -, hs, h⟩ := h
  cases h
  exact ⟨pgidx, hp, hs, rfl⟩

/-- Between the states a page was handed out: it was free, it is not any more, and no
page that was in use became free. -/
structure TakesPage (f f' : Flash) (pgidx : ℕ) : Prop where
  was_free : f.status pgidx = .free
  taken : f'.status pgidx ≠ .free
  in_use : ∀ q, f.status q ≠ .free → f'.status q ≠ .free

theorem TakesPage.keeps {pgidx : ℕ} {f'' : Flash} (h : TakesPage f f' pgidx)
    (hk : KeepsPages f' f'') : TakesPage f f'' pgidx where
  was_free := h.was_free
  taken := fun hs => h.taken ((hk.free_iff _).mp hs)
  in_use := fun q hq hs => h.in_use q hq ((hk.free_iff _).mp hs)

theorem takePage_takesPage {io : IoType} {p : Ppa} {pgidx : ℕ}
    (h : f.takePage d io = .ok (p, pgidx, f')) :
    TakesPage f f' pgidx ∧ pgidx < d.geo.ttPgs := by
  simp only [takePage, bind_eq_ok] at h
  obtain ⟨q, hq, f1, h1, f2, h2, h⟩ := h
  cases h
  obtain ⟨q', hq', hs, rfl⟩ := markPageValid_eq_ok h2
  rw [hq] at hq'
  cases hq'
  have hk := keepsPages_advanceWritePointer h1
  refine ⟨⟨(hk.free_iff _).mp hs, by simp [setStatus], fun r hr => ?_⟩, ?_⟩
  · by_cases hrq : r = pgidx
    · subst hrq
      simp [setStatus]
    · simp only [setStatus, Function.update_of_ne hrq]
      exact fun hf => hr ((hk.free_iff r).mp hf)
  · simp only [Geometry.ppa2pgidx, bind_eq_ok, ensure_eq_ok] at hq
    obtain ⟨-, hlt, hq⟩ := hq
    cases hq
    exact hlt

end Flash

end Virtkv
