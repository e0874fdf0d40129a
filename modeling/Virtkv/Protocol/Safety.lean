import Mathlib.Data.List.Perm.Basic
import Mathlib.Data.List.Nodup
import Mathlib.Data.Finset.Card
import Virtkv.Protocol.Rings

/-!
# Commands and completions over a queue pair

In every interleaving of the driver and the device, the device takes the commands in the order
in which they were submitted, each once and unchanged, and the driver handles the completions
in the order in which the device posted them, each once, each with the request of the command
it completes. The room in both rings comes from the tags: a command keeps its tag until its
completion is handled, and there is one tag less than slots in a ring.

## Main results

- `Inv.step` — a step keeps the invariant
- `Reaches.delivers` — commands and completions in every run
-/

namespace Virtkv.Protocol

variable {κ : Type} {c : Config} {s t : State κ}

/-! ### Tags -/

/-- The tags in use are those of the commands `U`, and each leads to its command. -/
structure Tagged (tags : ℕ → Option (Command κ)) (limit : ℕ) (U : List (Command κ)) : Prop where
  nodup : (U.map Command.commandId).Nodup
  owner : ∀ i cmd, tags i = some cmd ↔ cmd ∈ U ∧ cmd.commandId = i
  lt : ∀ cmd ∈ U, cmd.commandId < limit

namespace Tagged

variable {tags : ℕ → Option (Command κ)} {limit : ℕ} {U V : List (Command κ)} {cmd : Command κ}

theorem perm (h : Tagged tags limit U) (hp : U.Perm V) : Tagged tags limit V where
  nodup := (hp.map _).nodup_iff.mp h.nodup
  owner i cmd := by rw [h.owner, hp.mem_iff]
  lt cmd hm := h.lt cmd (hp.mem_iff.mpr hm)

/-- There are no more commands than tags. -/
theorem length_le (h : Tagged tags limit U) : U.length ≤ limit := by
  have hcard : (U.map Command.commandId).toFinset ⊆ Finset.range limit := by
    intro i hi
    obtain ⟨cmd, hm, rfl⟩ := List.mem_map.mp (List.mem_toFinset.mp hi)
    exact Finset.mem_range.mpr (h.lt cmd hm)
  have hle := Finset.card_le_card hcard
  rwa [List.toFinset_card_of_nodup h.nodup, List.length_map, Finset.card_range] at hle

/-- A tag that is not in use is given to a command. -/
theorem cons (h : Tagged tags limit U) (hfree : tags cmd.commandId = none)
    (hlt : cmd.commandId < limit) :
    Tagged (Function.update tags cmd.commandId (some cmd)) limit (cmd :: U) where
  nodup := by
    rw [List.map_cons, List.nodup_cons]
    refine ⟨fun hm => ?_, h.nodup⟩
    obtain ⟨other, ho, he⟩ := List.mem_map.mp hm
    rw [(h.owner _ other).mpr ⟨ho, he⟩] at hfree
    cases hfree
  owner i other := by
    by_cases hi : i = cmd.commandId
    · subst hi
      rw [Function.update_self, Option.some_inj, List.mem_cons]
      constructor
      · rintro rfl
        exact ⟨.inl rfl, rfl⟩
      · rintro ⟨rfl | ho, he⟩
        · rfl
        · rw [(h.owner _ other).mpr ⟨ho, he⟩] at hfree
          cases hfree
    · rw [Function.update_of_ne hi, h.owner, List.mem_cons]
      constructor
      · rintro ⟨ho, he⟩
        exact ⟨.inr ho, he⟩
      · rintro ⟨rfl | ho, he⟩
        · exact absurd he.symm hi
        · exact ⟨ho, he⟩
  lt other hm := by
    rcases List.mem_cons.mp hm with rfl | hm
    · exact hlt
    · exact h.lt other hm

/-- A command gives its tag back. -/
theorem tail (h : Tagged tags limit (cmd :: U)) :
    Tagged (Function.update tags cmd.commandId none) limit U := by
  have hnodup := h.nodup
  rw [List.map_cons, List.nodup_cons] at hnodup
  refine ⟨hnodup.2, fun i other => ?_, fun other hm => h.lt other (List.mem_cons_of_mem _ hm)⟩
  by_cases hi : i = cmd.commandId
  · subst hi
    rw [Function.update_self]
    constructor
    · rintro ⟨⟩
    · rintro ⟨ho, he⟩
      exact absurd (List.mem_map.mpr ⟨other, ho, he⟩) hnodup.1
  · rw [Function.update_of_ne hi, h.owner, List.mem_cons]
    constructor
    · rintro ⟨rfl | ho, he⟩
      · exact absurd he.symm hi
      · exact ⟨ho, he⟩
    · rintro ⟨ho, he⟩
      exact ⟨.inr ho, he⟩

end Tagged

/-! ### The invariant -/

/-- The commands whose completion is not begun: in flight, or dropped. -/
def State.waiting (s : State κ) : List (Work κ) := s.inFlight ++ s.dropped

/-- The commands whose completion the driver has not handled yet: posted, being written,
waiting, or not taken by the device. -/
def State.outstanding (s : State κ) : List (Command κ) :=
  (s.posted.drop s.reaped.length).map (fun p => p.1.command) ++
    (s.opened.map Work.command ++ s.waiting.map Work.command ++
      s.submitted.drop s.consumed.length)

/-- The driver has handled a completion of the device: it ended the request of the command,
with the status of the device, and with its results unless it came too early. -/
structure Delivered (r : Reaped κ) (p : Work κ × Cqe) : Prop where
  request : r.request = some p.1.command
  status : r.cqe.status = p.2.status
  results : r.early = false → r.cqe = p.2

/-- The invariant of a queue pair. -/
structure Inv (c : Config) (s : State κ) : Prop where
  sq : SqInv c s
  cq : CqInv c s
  works : s.consumed.Perm (s.posted.map Prod.fst ++ s.opened ++ s.waiting)
  tagged : Tagged s.tags (c.qDepth - 1) s.outstanding
  delivered : List.Forall₂ Delivered s.reaped (s.posted.take s.reaped.length)

namespace Inv

theorem init (c : Config) (junk : ℕ → Command κ) : Inv c (State.init junk) where
  sq := SqInv.init c junk
  cq := CqInv.init c junk
  works := List.Perm.nil
  tagged := by
    refine ⟨List.nodup_nil, fun i cmd => ⟨fun h => ?_, fun h => ?_⟩, fun cmd h => ?_⟩
    · cases h
    · cases h.1
    · cases h
  delivered := List.Forall₂.nil

/-- The outstanding commands, counted. -/
theorem length_outstanding (s : State κ) : s.outstanding.length =
    (s.posted.length - s.reaped.length) + (s.opened.length + s.waiting.length +
      (s.submitted.length - s.consumed.length)) := by
  simp only [State.outstanding, List.length_append, List.length_map, List.length_drop]

/-- A step that leaves the logs and what the device has in its hands. -/
theorem outstanding_congr (hsub : t.submitted = s.submitted) (hcon : t.consumed = s.consumed)
    (hpost : t.posted = s.posted) (hreap : t.reaped = s.reaped) (hopen : t.opened = s.opened)
    (hwait : t.waiting = s.waiting) : t.outstanding = s.outstanding := by
  unfold State.outstanding
  rw [hsub, hcon, hpost, hreap, hopen, hwait]

theorem submitCmd (h : Inv c s) {cmd : Command κ} {writeSq : Bool}
    (hs : s.submitCmd c cmd writeSq = some t) : Inv c t := by
  have hsubmit := hs
  unfold State.submitCmd at hs
  split at hs
  · rename_i hc
    have htagged := h.tagged.cons (Option.isNone_iff_eq_none.mp hc.2.2) hc.2.1
    -- with the new command there are still fewer commands than slots
    have hlen := htagged.length_le
    rw [List.length_cons, length_outstanding] at hlen
    have htwo := c.two_le
    have hsq := h.sq.submitCmd (by omega) hsubmit
    cases hs
    refine ⟨hsq, { h.cq with }, h.works, htagged.perm ?_, h.delivered⟩
    have hdrop : (s.submitted ++ [cmd]).drop s.consumed.length =
        s.submitted.drop s.consumed.length ++ [cmd] :=
      List.drop_append_of_le_length h.sq.ring.taken_le
    have hout : s.outstanding ++ [cmd] =
        (s.posted.drop s.reaped.length).map (fun p => p.1.command) ++
          (s.opened.map Work.command ++ s.waiting.map Work.command ++
            (s.submitted ++ [cmd]).drop s.consumed.length) := by
      rw [hdrop, State.outstanding]
      simp only [List.append_assoc]
    have hperm := (List.perm_append_singleton cmd s.outstanding).symm
    rwa [hout] at hperm
  · cases hs

theorem writeSqDb (h : Inv c s) (writeSq : Bool) : Inv c (s.writeSqDb c writeSq) := by
  have hsq := h.sq.writeSqDb writeSq
  rcases s.writeSqDb_cases c writeSq with he | he
  · rw [he]
    exact h
  · rw [he] at hsq ⊢
    exact ⟨hsq, { h.cq with }, h.works, h.tagged, h.delivered⟩

theorem ringSqDb (h : Inv c s) (hs : s.ringSqDb c = some t) : Inv c t := by
  unfold State.ringSqDb at hs
  split at hs
  · cases hs
  · rename_i writeSq _
    have hw := h.writeSqDb writeSq
    cases hs
    exact ⟨{ hw.sq with }, { hw.cq with }, hw.works, hw.tagged, hw.delivered⟩

theorem commitRqs (h : Inv c s) (hs : s.commitRqs c = some t) : Inv c t := by
  unfold State.commitRqs at hs
  split at hs
  · cases hs
    split
    · exact h
    · exact h.writeSqDb true
  · cases hs

theorem processCq (h : Inv c s) (hs : s.processCq = some t) : Inv c t := by
  unfold State.processCq at hs
  split at hs
  · cases hs
    exact ⟨{ h.sq with }, { h.cq with handling := by rintro ⟨⟩ }, h.works, h.tagged, h.delivered⟩
  · cases hs

theorem testCqe (h : Inv c s) (hs : s.testCqe = some t) : Inv c t := by
  have hcq := h.cq.testCqe hs
  unfold State.testCqe at hs
  split at hs
  · split at hs
    · cases hs
      exact ⟨{ h.sq with }, hcq, h.works, h.tagged, h.delivered⟩
    · split at hs
      · cases hs
        exact ⟨{ h.sq with }, hcq, h.works, h.tagged, h.delivered⟩
      · cases hs
        exact ⟨{ h.sq with }, hcq, h.works, h.tagged, h.delivered⟩
  · cases hs

/-- The driver ends the request of the oldest completion. -/
theorem handleCqe (h : Inv c s) (hs : s.handleCqe c = some t) : Inv c t := by
  have hcq := h.cq.handleCqe hs
  unfold State.handleCqe at hs
  split at hs
  · rename_i hreap
    have hlt := h.cq.handling hreap
    obtain ⟨hid, hstatus, hresults⟩ := h.cq.read hlt
    set p := s.posted[s.reaped.length] with hp
    have hdrop : s.posted.drop s.reaped.length = p :: s.posted.drop (s.reaped.length + 1) :=
      List.drop_eq_getElem_cons hlt
    have htagged := h.tagged
    rw [State.outstanding, hdrop, List.map_cons, List.cons_append] at htagged
    have hreq : s.tags (s.cq s.queue.cqHead).commandId = some p.1.command :=
      (htagged.owner _ _).mpr ⟨List.mem_cons_self, hid.symm⟩
    cases hs
    rw [State.updateCqHead_eq] at hcq ⊢
    refine ⟨{ h.sq with }, hcq, h.works, ?_, ?_⟩
    · have htail := htagged.tail
      rw [← hid] at htail
      show Tagged _ _ ((s.posted.drop (s.reaped ++ [_]).length).map _ ++ _)
      rw [List.length_append, List.length_singleton]
      exact htail
    · show List.Forall₂ Delivered (s.reaped ++ [_]) (s.posted.take (s.reaped ++ [_]).length)
      rw [List.length_append, List.length_singleton, List.take_succ_eq_append_getElem hlt]
      exact List.rel_append h.delivered (.cons ⟨hreq, hstatus, hresults⟩ .nil)
  · cases hs

theorem procDbs (h : Inv c s) (hs : s.procDbs c = some t) : Inv c t := by
  have hsq := h.sq.procDbs hs
  unfold State.procDbs at hs
  split at hs
  · dsimp only at hs
    split at hs
    · cases hs
      exact h
    · cases hs
      exact ⟨hsq, { h.cq with }, h.works, h.tagged, h.delivered⟩
  · cases hs

/-- The device takes the oldest command that it has not taken, into flight or for nothing. -/
theorem procIoSq (h : Inv c s) {accept entry : Bool} (hs : s.procIoSq c accept entry = some t) :
    Inv c t := by
  have hsq := h.sq.procIoSq hs
  unfold State.procIoSq at hs
  split at hs
  · rename_i oldDb numProc seq sqEntry hin
    split at hs
    · rename_i hcond
      obtain ⟨rung, -, hrs, -, hwithin⟩ := h.sq.bell
      rw [State.Within, hin] at hwithin
      obtain ⟨start, -, hlen, hle⟩ := hwithin
      have hlt : s.consumed.length < s.submitted.length := by omega
      have hat : s.sq sqEntry = s.submitted[s.consumed.length] := by
        have hring := h.sq.ring
        rw [State.nextSlot, hin] at hring
        exact hring.at_tail hlt
      set w : Work κ := { sqEntry := sqEntry, command := s.sq sqEntry } with hw
      have hwait : t.waiting.Perm (s.waiting ++ [w]) := by
        cases hs
        cases entry with
        | true =>
          show (s.inFlight ++ [w] ++ s.dropped).Perm (s.inFlight ++ s.dropped ++ [w])
          rw [List.append_assoc, List.append_assoc]
          exact List.perm_append_comm.append_left _
        | false =>
          show (s.inFlight ++ (s.dropped ++ [w])).Perm (s.inFlight ++ s.dropped ++ [w])
          rw [List.append_assoc]
      have hout : t.outstanding.Perm s.outstanding := by
        have hdrop : s.submitted.drop s.consumed.length =
            w.command :: s.submitted.drop (s.consumed.length + 1) := by
          rw [List.drop_eq_getElem_cons hlt, ← hat]
        have hcon : t.consumed = s.consumed ++ [w] := by
          cases hs
          rfl
        have heq : s.outstanding = (s.posted.drop s.reaped.length).map (fun p => p.1.command) ++
            (s.opened.map Work.command ++ (s.waiting ++ [w]).map Work.command ++
              s.submitted.drop t.consumed.length) := by
          rw [State.outstanding, hdrop, hcon, List.length_append, List.length_singleton]
          simp only [List.map_append, List.map_cons, List.map_nil, List.append_assoc,
            List.cons_append, List.nil_append]
        rw [heq]
        cases hs
        exact List.Perm.append_left _ (((hwait.map _).append_left _).append_right _)
      have htagged := h.tagged.perm hout.symm
      have hworks : (s.consumed ++ [w]).Perm (s.posted.map Prod.fst ++ s.opened ++ t.waiting) := by
        refine (h.works.append_right [w]).trans ?_
        rw [List.append_assoc]
        exact hwait.symm.append_left _
      cases hs
      exact ⟨hsq, { h.cq with }, hworks, htagged, h.delivered⟩
    · cases hs
      exact ⟨hsq, { h.cq with }, h.works, h.tagged, h.delivered⟩
  · cases hs

/-- A worker takes a command out of flight. -/
theorem beginFill (h : Inv c s) {i status result0 result1 : ℕ}
    (hs : s.beginFill c i status result0 result1 = some t) : Inv c t := by
  have hcq := h.cq.beginFill hs
  unfold State.beginFill at hs
  split at hs
  · rename_i w hfill hw
    have hopen : s.opened = [] := by rw [State.opened, hfill]
    obtain ⟨hi, rfl⟩ := List.getElem?_eq_some_iff.mp hw
    have hperm : (s.inFlight[i] :: s.inFlight.eraseIdx i).Perm s.inFlight :=
      List.getElem_cons_eraseIdx_perm hi
    have hwait : (s.inFlight[i] :: (s.inFlight.eraseIdx i ++ s.dropped)).Perm s.waiting :=
      hperm.append_right s.dropped
    have hworks := h.works
    have htagged := h.tagged
    rw [State.outstanding, hopen] at htagged
    rw [hopen, List.append_nil] at hworks
    cases hs
    refine ⟨{ h.sq with }, hcq, ?_, htagged.perm ?_, h.delivered⟩
    · show s.consumed.Perm (s.posted.map Prod.fst ++ [s.inFlight[i]] ++
        (s.inFlight.eraseIdx i ++ s.dropped))
      rw [List.append_assoc]
      exact hworks.trans (hwait.symm.append_left _)
    · refine List.Perm.append_left _ (List.Perm.append_right _ ?_)
      show (s.waiting.map Work.command).Perm
        ([s.inFlight[i]].map Work.command ++ (s.inFlight.eraseIdx i ++ s.dropped).map Work.command)
      rw [← List.map_append]
      exact (hwait.map Work.command).symm
  · cases hs

/-- A store of the device, or the end of a completion. -/
theorem fillStep (h : Inv c s) (hs : s.fillStep c = some t) : Inv c t := by
  unfold State.fillStep at hs
  split at hs
  · cases hs
  · rename_i w x f fs hfill
    by_cases hf : f = .status
    · subst hf
      have hopen : s.opened = [w] := by
        rw [State.opened, hfill]
        exact if_pos List.mem_cons_self
      -- the completion that is posted now is one of the outstanding ones
      have hlen := h.tagged.length_le
      rw [length_outstanding, hopen, List.length_singleton] at hlen
      have htwo := c.two_le
      have hcq := h.cq.post hfill (by omega)
      have hnot : .status ∉ fs := Field.status_notMem (h.cq.filling _ hfill).rest
      have htagged := h.tagged
      have hworks := h.works
      rw [if_pos rfl] at hs
      cases hs
      set t : State κ := { s with
        cq := Function.update s.cq s.cqHead ((s.cq s.cqHead).store x .status)
        fill := some ⟨w, x, fs⟩
        posted := s.posted ++ [(w, x)] }
      have hopen' : t.opened = [] := if_neg hnot
      refine ⟨{ h.sq with }, hcq, ?_, ?_, ?_⟩
      · rw [hopen]  at hworks
        rw [hopen', List.append_nil]
        show s.consumed.Perm ((s.posted ++ [(w, x)]).map Prod.fst ++ s.waiting)
        rw [List.map_append]
        exact hworks
      · have hout : t.outstanding = s.outstanding := by
          have hdrop : (s.posted ++ [(w, x)]).drop s.reaped.length =
              s.posted.drop s.reaped.length ++ [(w, x)] :=
            List.drop_append_of_le_length h.cq.bits.read_le
          show ((s.posted ++ [(w, x)]).drop s.reaped.length).map _ ++ (t.opened.map _ ++ _ ++ _) = _
          rw [hdrop, hopen', State.outstanding, hopen]
          simp only [List.map_append, List.map_cons, List.map_nil, List.append_assoc,
            List.cons_append, List.nil_append]
          rfl
        rw [hout]
        exact htagged
      · show List.Forall₂ Delivered s.reaped ((s.posted ++ [(w, x)]).take s.reaped.length)
        rw [List.take_append_of_le_length h.cq.bits.read_le]
        exact h.delivered
    · have hcq := h.cq.store hfill hf
      rw [if_neg hf] at hs
      cases hs
      set t : State κ := { s with
        cq := Function.update s.cq s.cqHead ((s.cq s.cqHead).store x f)
        fill := some ⟨w, x, fs⟩ }
      have hopen : t.opened = s.opened := by
        have hmem : .status ∈ f :: fs ↔ .status ∈ fs := by
          rw [List.mem_cons]
          exact or_iff_right (Ne.symm hf)
        have hs : s.opened = if .status ∈ f :: fs then [w] else [] := by
          rw [State.opened, hfill]
        rw [hs]
        exact (if_congr hmem rfl rfl).symm
      refine ⟨{ h.sq with }, hcq, ?_, ?_, h.delivered⟩
      · rw [hopen]
        exact h.works
      · rw [outstanding_congr (s := s) (t := t) rfl rfl rfl rfl hopen rfl]
        exact h.tagged
  · rename_i w x hfill
    have hopen : s.opened = [] := by
      rw [State.opened, hfill]
      exact if_neg List.not_mem_nil
    have hcq := h.cq.finish hfill
    have hworks := h.works
    have htagged := h.tagged
    rw [State.outstanding, hopen] at htagged
    rw [hopen] at hworks
    have ht : t = { s with
        fill := none
        cqHead := if s.cqHead + 1 = c.qDepth then 0 else s.cqHead + 1
        phase := if s.cqHead + 1 = c.qDepth then !s.phase else s.phase } := by
      split at hs
      · rename_i he
        cases hs
        simp only [if_pos he]
      · rename_i he
        cases hs
        simp only [if_neg he]
    rw [ht]
    exact ⟨{ h.sq with }, hcq, hworks, htagged, h.delivered⟩

/-- Every step keeps the invariant. -/
theorem step (h : Inv c s) {e : Event κ} (hs : Protocol.step c s e = some t) : Inv c t := by
  cases e with
  | submitCmd cmd writeSq => exact h.submitCmd hs
  | ringSqDb => exact h.ringSqDb hs
  | commitRqs => exact h.commitRqs hs
  | processCq => exact h.processCq hs
  | testCqe => exact h.testCqe hs
  | handleCqe => exact h.handleCqe hs
  | procDbs => exact h.procDbs hs
  | procIoSq accept entry => exact h.procIoSq hs
  | beginFill i status result0 result1 => exact h.beginFill hs
  | fillStep => exact h.fillStep hs

end Inv

theorem Reaches.inv (h : Reaches c s) : Inv c s := by
  induction h with
  | init junk => exact Inv.init c junk
  | step _ hs ih => exact ih.step hs

/-- In every run, the device takes the submitted commands in order and unchanged; each of them
is posted once, is being completed, is in flight, or was dropped for want of an entry of the
work queue; the driver's test finds a completion exactly if one was posted that it has not
handled; and the completions it handled are the first ones posted, each for the request of its
command. -/
theorem Reaches.delivers (h : Reaches c s) :
    s.consumed.map Work.command <+: s.submitted ∧
    s.consumed.Perm (s.posted.map Prod.fst ++ s.opened ++ (s.inFlight ++ s.dropped)) ∧
    (s.cqePending = true ↔ s.reaped.length < s.posted.length) ∧
    List.Forall₂ Delivered s.reaped (s.posted.take s.reaped.length) := by
  have hinv := h.inv
  refine ⟨?_, hinv.works, hinv.cq.cqePending_iff, hinv.delivered⟩
  rw [hinv.sq.taken]
  exact List.take_prefix _ _

/-! ### A run -/

theorem Reaches.run {es : List (Event κ)} (h : Reaches c s) (hs : run c s es = some t) :
    Reaches c t := by
  induction es generalizing s with
  | nil =>
    cases hs
    exact h
  | cons e es ih =>
    simp only [Protocol.run, Option.bind_eq_bind, Option.bind_eq_some_iff] at hs
    obtain ⟨u, hu, hs⟩ := hs
    exact ih (h.step hu) hs

/-- Rings of three slots: there are two tags. -/
def smallPair : Config where
  qid := 1
  qDepth := 3
  two_le := by decide

/-- A command is taken while the work queue is full. -/
def droppedCommand (body : ℕ) : List (Event ℕ) :=
  [.submitCmd ⟨1, body⟩ true, .ringSqDb, .procDbs, .procIoSq true false, .procIoSq true true]

/-- A command is submitted and completed with `result`; the driver looks at the completion when
`seen` stores were made and handles it after `handled` more. -/
def oneCommand (body result seen handled : ℕ) : List (Event ℕ) :=
  [.submitCmd ⟨0, body⟩ true, .ringSqDb, .procDbs, .procIoSq true true, .procIoSq true true,
    .beginFill 0 0 result result] ++
  List.replicate seen .fillStep ++ [.processCq, .testCqe] ++
  List.replicate handled .fillStep ++ [.handleCqe, .testCqe] ++
  List.replicate (7 - seen - handled) .fillStep

/-- A command that is dropped, and three over the end of the rings. -/
def fourCommands : List (Event ℕ) :=
  droppedCommand 4 ++ oneCommand 5 8 7 0 ++ oneCommand 6 9 4 3 ++ oneCommand 7 3 7 0

theorem delivers_fourCommands : ∃ s,
    run smallPair (State.init fun _ => ⟨0, 0⟩) fourCommands = some s ∧
    s.reaped.map (fun r => (r.request.map Command.body, r.cqe.result0)) =
      [(some 5, 8), (some 6, 9), (some 7, 3)] ∧
    s.dropped.map (fun w => w.command.body) = [4] ∧
    s.consumed.Perm (s.posted.map Prod.fst ++ s.opened ++ (s.inFlight ++ s.dropped)) ∧
    List.Forall₂ Delivered s.reaped (s.posted.take s.reaped.length) := by
  obtain ⟨s, hs, hr, hd⟩ : ∃ s, run smallPair (State.init fun _ => ⟨0, 0⟩) fourCommands = some s ∧
      s.reaped.map (fun r => (r.request.map Command.body, r.cqe.result0)) =
        [(some 5, 8), (some 6, 9), (some 7, 3)] ∧
      s.dropped.map (fun w => w.command.body) = [4] := ⟨_, rfl, rfl, rfl⟩
  obtain ⟨-, hworks, -, hreaped⟩ := Reaches.delivers ((Reaches.init _).run hs)
  exact ⟨s, hs, hr, hd, hworks, hreaped⟩

/-- The results are stored behind the status: a driver that is quick finds the old ones. -/
example : (run smallPair (State.init fun _ => ⟨0, 0⟩) (oneCommand 5 8 4 0)).map
    (fun s => s.reaped.map fun r => (r.cqe.status / 2, r.cqe.result0, r.early)) =
      some [(0, 0, true)] := by decide

end Virtkv.Protocol
