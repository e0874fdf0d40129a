import Mathlib.Algebra.BigOperators.Group.Finset.Basic
import Mathlib.Algebra.Order.BigOperators.Group.Finset
import Virtkv.Config
import Virtkv.Lib.Window

/-!
# The channel model

`channel_model.c`: the bandwidth of a channel is a ring of credits, one slot for every
interval of 4000 ns from the current time on. A transfer takes credits from the interval of
its start time on, and every call first moves the ring to the wall clock. The clock is read
by every call, so its value is an argument here.

The credits that are left in every interval, past and future, are the sequence the ring is a
window on. A call only lowers it, by what it takes.

## Main results

- `moveHead_inv` — moving the ring to the clock changes no interval
- `bookLoop_spec` — a booking takes its credits from a stretch of intervals
- `Runs.books` — no interval is booked twice over
-/

namespace Virtkv

open Outcome

/-- `NR_CREDIT_ENTRIES`, `UNIT_TIME_INTERVAL` and `UNIT_XFER_SIZE`. -/
def nrCreditEntries : ℕ := 1024 * 96 * 8
def unitTimeInterval : ℕ := 4000
def unitXferSize : ℕ := 128

/-- Subtraction of unsigned 64-bit numbers. -/
def sub64 (a b : ℕ) : ℕ := if b ≤ a then a - b else a + 2 ^ 64 - b

/-- The interval of a time. -/
def interval (time : ℕ) : ℕ := time / unitTimeInterval

/-- `struct channel_model`. -/
structure ChannelModel where
  curTime : ℕ
  head : ℕ
  validLen : ℕ
  maxCredits : ℕ
  commandCredits : ℕ
  xferLat : ℕ
  availCredits : ℕ → ℕ

/-- The variables of the loop of `chmodel_request`. -/
structure Booking where
  pos : ℕ
  remaining : ℕ
  delay : ℕ
  avail : ℕ → ℕ

namespace ChannelModel

/-- `chmodel_init`, for a bandwidth in MB/s. A slot has eight bits. -/
def chmodelInit (bandwidth : ℕ) : ChannelModel :=
  let bytes := bandwidth * 2 ^ 20 % 2 ^ 64
  let maxCredits := bytes * unitTimeInterval % 2 ^ 64 / 10 ^ 9 / unitXferSize % 2 ^ 32
  { curTime := 0, head := 0, validLen := 0, maxCredits := maxCredits, commandCredits := 0
    xferLat := unitXferSize * 10 ^ 9 / bytes % 2 ^ 32
    availCredits := fun _ => maxCredits % 2 ^ 8 }

/-- `MEMSET(&(ch->avail_credits[start]), ch->max_credits, len)`. -/
def refill (c : ChannelModel) (start len : ℕ) : ChannelModel :=
  { c with availCredits := fun p =>
      if start ≤ p ∧ p < start + len then c.maxCredits % 2 ^ 8 else c.availCredits p }

/-- The refill of the `offs` slots behind the head, in two parts where it wraps around. -/
def refillPassed (c : ChannelModel) (offs : ℕ) : ChannelModel :=
  if nrCreditEntries ≤ c.head + offs then
    (c.refill c.head (nrCreditEntries - c.head)).refill 0 (offs - (nrCreditEntries - c.head))
  else c.refill c.head offs

/-- The first part of `chmodel_request`: the head moves to the current time, but not behind
the slots in use. -/
def moveHead (c : ChannelModel) (curTime : ℕ) : ChannelModel :=
  let offs := min (sub64 (interval curTime) (interval c.curTime) % 2 ^ 32) c.validLen
  { c.refillPassed offs with
    head := (c.head + offs) % nrCreditEntries, curTime := curTime, validLen := c.validLen - offs }

/-- Take what a slot has. -/
def takeSlot (b : Booking) : Booking :=
  let consumed := min b.remaining (b.avail b.pos)
  { b with
    avail := Function.update b.avail b.pos (b.avail b.pos - consumed)
    remaining := b.remaining - consumed }

/-- The loop of `chmodel_request`. It ends with the credits, or at the slot before the
head. -/
def bookLoop (head : ℕ) : ℕ → Booking → Except Fault Booking
  | 0, _ => .error .hang
  | fuel + 1, b =>
    let b := takeSlot b
    if b.remaining = 0 then .ok b
    else
      let nextPos := (b.pos + 1) % nrCreditEntries
      if nextPos = head then .ok b
      else bookLoop head fuel { b with pos := nextPos, delay := b.delay + 1 }

/-- `units_to_xfer`, and the credits a transfer needs. -/
def unitsToXfer (length : ℕ) : ℕ := (length + unitXferSize - 1) % 2 ^ 64 / unitXferSize % 2 ^ 32
def need (c : ChannelModel) (length : ℕ) : ℕ := (unitsToXfer length + c.commandCredits) % 2 ^ 32

/-- The slots from the head up to `pos`. -/
def validLength (head pos : ℕ) : ℕ :=
  if head ≤ pos then pos - head + 1 else nrCreditEntries - (head - pos - 1)

/-- `request_time_offs`. -/
def requestTimeOffs (curTime requestTime : ℕ) : ℕ :=
  sub64 (interval requestTime) (interval curTime) % 2 ^ 32

/-- The slot of the request time, and the loop from there on. -/
def book (c : ChannelModel) (offs length : ℕ) : Except Fault Booking :=
  bookLoop c.head nrCreditEntries
    { pos := (c.head + offs) % nrCreditEntries, remaining := c.need length, delay := 0
      avail := c.availCredits }

/-- `chmodel_request` at the time `curTime`. Returns the end of the transfer. -/
def chmodelRequest (c : ChannelModel) (curTime requestTime length : ℕ) :
    Except Fault (ℕ × ChannelModel) := do
  let c := c.moveHead curTime
  if nrCreditEntries < c.validLen then return (requestTime, c)
  if requestTime < curTime then return (requestTime, c)
  let offs := requestTimeOffs curTime requestTime
  if nrCreditEntries ≤ offs then return (requestTime, c)
  ensure (c.maxCredits ≠ 0) .bug
  let b ← c.book offs length
  let delay := b.delay - c.need length / c.maxCredits
  let totalLatency := c.xferLat * unitsToXfer length % 2 ^ 32 + delay * unitTimeInterval
  return ((requestTime + totalLatency) % 2 ^ 64,
    { c with availCredits := b.avail, validLen := max c.validLen (validLength c.head b.pos) })

/-! ### Moving the ring -/

/-- The ring and the credits that are left in every interval. -/
structure Inv (c : ChannelModel) (free : ℕ → ℕ) : Prop where
  shows : Window.Shows nrCreditEntries c.availCredits c.head (interval c.curTime) free
  validLen_le : c.validLen ≤ nrCreditEntries
  idle : ∀ x, interval c.curTime + c.validLen ≤ x → free x = c.maxCredits
  le : ∀ x, free x ≤ c.maxCredits
  maxCredits_pos : 1 ≤ c.maxCredits
  maxCredits_le : c.maxCredits ≤ 255

/-- A call at `time` comes after the last one, and not too late. -/
def Follows (c : ChannelModel) (time : ℕ) : Prop :=
  c.curTime ≤ time ∧ (c.validLen = 0 ∨ interval time < interval c.curTime + 2 ^ 32)

variable {c : ChannelModel} {free : ℕ → ℕ} {time : ℕ}

theorem moveHead_head_lt (c : ChannelModel) (time : ℕ) :
    (c.moveHead time).head < nrCreditEntries :=
  Nat.mod_lt _ (by decide)

/-- The two parts of the refill are the slots left behind. -/
theorem refillPassed_slot {offs k : ℕ} (hhead : c.head < nrCreditEntries)
    (hk : k < nrCreditEntries) :
    (c.refillPassed offs).availCredits ((c.head + k) % nrCreditEntries) =
      if k < offs then c.maxCredits % 2 ^ 8
      else c.availCredits ((c.head + k) % nrCreditEntries) := by
  rcases Nat.lt_or_ge (c.head + k) nrCreditEntries with hlt | hge
  · rw [Nat.mod_eq_of_lt hlt, refillPassed]
    split
    · simp only [refill]
      split_ifs <;> first | rfl | omega
    · simp only [refill]
      split_ifs <;> first | rfl | omega
  · rw [Nat.mod_eq_sub_mod hge, Nat.mod_eq_of_lt (by omega), refillPassed]
    split
    · simp only [refill]
      split_ifs <;> first | rfl | omega
    · simp only [refill]
      split_ifs <;> first | rfl | omega

theorem refillPassed_maxCredits (c : ChannelModel) (offs : ℕ) :
    (c.refillPassed offs).maxCredits = c.maxCredits := by
  rw [refillPassed]
  split <;> rfl

theorem refillPassed_commandCredits (c : ChannelModel) (offs : ℕ) :
    (c.refillPassed offs).commandCredits = c.commandCredits := by
  rw [refillPassed]
  split <;> rfl

/-- The ring is moved to the clock, and the credits of no interval change. -/
theorem moveHead_inv (h : Inv c free) (ht : c.Follows time) :
    Inv (c.moveHead time) free := by
  have hmax : c.maxCredits % 2 ^ 8 = c.maxCredits :=
    Nat.mod_eq_of_lt (Nat.lt_succ_of_le h.maxCredits_le)
  have hle : interval c.curTime ≤ interval time := Nat.div_le_div_right ht.1
  have hlen := h.validLen_le
  set offs := min (sub64 (interval time) (interval c.curTime) % 2 ^ 32) c.validLen with hoffs
  have hslot : ∀ k < nrCreditEntries,
      (c.refillPassed offs).availCredits ((c.head + k) % nrCreditEntries) =
        if k < offs then c.maxCredits % 2 ^ 8
        else c.availCredits ((c.head + k) % nrCreditEntries) :=
    fun k hk => refillPassed_slot h.shows.head_lt hk
  rw [hmax] at hslot
  have hshows : Window.Shows nrCreditEntries (c.refillPassed offs).availCredits
      ((c.head + offs) % nrCreditEntries) (interval time) free ∧
      interval c.curTime + c.validLen ≤ interval time + (c.validLen - offs) := by
    rw [sub64, if_pos hle] at hoffs
    have hgap := ht.2
    by_cases hin : interval time < interval c.curTime + c.validLen
    · -- the clock is inside the slots in use
      have hexact : interval time = interval c.curTime + offs := by omega
      constructor
      · rw [hexact]
        apply h.shows.slide
        · intro k hk
          rw [hslot k (by omega), if_pos hk, h.idle _ (by omega)]
        · intro k hk hlt
          rw [hslot k hlt, if_neg (by omega)]
      · omega
    · -- all slots are new
      constructor
      · apply Window.shows_const (c := c.maxCredits) (Nat.mod_lt _ (by decide))
        · intro p hp
          obtain ⟨k, hk, rfl⟩ := Window.exists_slot h.shows.head_lt hp
          rw [hslot k hk]
          split
          · rfl
          · rw [h.shows.slot k hk, h.idle _ (by omega)]
        · intro x hx
          exact h.idle x (by omega)
      · omega
  have hcredits : (c.moveHead time).maxCredits = c.maxCredits := refillPassed_maxCredits c offs
  refine ⟨hshows.1, ?_, fun x hx => ?_, fun x => ?_, ?_, ?_⟩
  · exact (Nat.sub_le _ _).trans hlen
  · rw [hcredits]
    exact h.idle x (hshows.2.trans hx)
  · rw [hcredits]
    exact h.le x
  · rw [hcredits]
    exact h.maxCredits_pos
  · rw [hcredits]
    exact h.maxCredits_le

/-! ### Booking -/

/-- The credits in all slots. -/
def credits (avail : ℕ → ℕ) : ℕ := ∑ p ∈ Finset.range nrCreditEntries, avail p

theorem takeSlot_avail (b : Booking) : (takeSlot b).avail =
    Function.update b.avail b.pos (b.avail b.pos - min b.remaining (b.avail b.pos)) := rfl

theorem takeSlot_remaining (b : Booking) :
    (takeSlot b).remaining = b.remaining - min b.remaining (b.avail b.pos) := rfl

/-- A slot gives what it has, at most `remaining`. -/
theorem takeSlot_credits {b : Booking} (hpos : b.pos < nrCreditEntries) :
    credits (takeSlot b).avail + (b.remaining - (takeSlot b).remaining) = credits b.avail ∧
      (takeSlot b).remaining ≤ b.remaining := by
  have hmem : b.pos ∈ Finset.range nrCreditEntries := Finset.mem_range.mpr hpos
  have hrest : ∑ p ∈ (Finset.range nrCreditEntries).erase b.pos, (takeSlot b).avail p =
      ∑ p ∈ (Finset.range nrCreditEntries).erase b.pos, b.avail p := by
    refine Finset.sum_congr rfl fun p hp => ?_
    rw [takeSlot_avail, Function.update_of_ne (Finset.ne_of_mem_erase hp)]
  rw [credits, credits, ← Finset.add_sum_erase _ _ hmem, ← Finset.add_sum_erase _ b.avail hmem,
    hrest, takeSlot_avail, takeSlot_remaining, Function.update_self]
  omega

/-- A booking from slot `k` on: it ends at a slot `j`, and lowers the credits of the intervals
of the slots between. -/
structure Books (b b' : Booking) (head a k j : ℕ) (free free' : ℕ → ℕ) : Prop where
  le_last : k ≤ j
  last_lt : j < nrCreditEntries
  pos : b'.pos = (head + j) % nrCreditEntries
  delay : b'.delay = b.delay + (j - k)
  shows : Window.Shows nrCreditEntries b'.avail head a free'
  le : ∀ x, free' x ≤ free x
  same : ∀ x, x < a + k ∨ a + j < x → free' x = free x
  remaining_le : b'.remaining ≤ b.remaining
  taken : credits b'.avail + (b.remaining - b'.remaining) = credits b.avail
  stuck : b'.remaining ≠ 0 → (b'.pos + 1) % nrCreditEntries = head

theorem bookLoop_spec {head a k fuel : ℕ} {b : Booking}
    (hs : Window.Shows nrCreditEntries b.avail head a free) (hk : k < nrCreditEntries)
    (hpos : b.pos = (head + k) % nrCreditEntries) (hfuel : nrCreditEntries - k ≤ fuel) :
    ∃ b' j free', bookLoop head fuel b = .ok b' ∧ Books b b' head a k j free free' := by
  induction fuel generalizing b k free with
  | zero => omega
  | succ fuel ih =>
    have hhead := hs.head_lt
    have hposlt : b.pos < nrCreditEntries := by
      rw [hpos]
      exact Nat.mod_lt _ (by omega)
    obtain ⟨htaken, hrem⟩ := takeSlot_credits hposlt
    -- the interval of the slot is lowered
    set free1 := Function.update free (a + k) (free (a + k) - min b.remaining (free (a + k)))
      with hfree1
    have hshows1 : Window.Shows nrCreditEntries (takeSlot b).avail head a free1 := by
      rw [takeSlot_avail, hpos, hs.slot k hk]
      exact hs.write hk _
    have hle1 : ∀ x, free1 x ≤ free x := by
      intro x
      rw [hfree1, Function.update_apply]
      split
      · rename_i hx
        rw [hx]
        exact Nat.sub_le _ _
      · exact le_rfl
    have hsame1 : ∀ x, x ≠ a + k → free1 x = free x := fun x hx => Function.update_of_ne hx _ _
    have hnext : ((takeSlot b).pos + 1) % nrCreditEntries = (head + (k + 1)) % nrCreditEntries := by
      rw [show (takeSlot b).pos = b.pos from rfl, hpos, Nat.mod_add_mod, Nat.add_assoc]
    -- both exits of the loop leave the booking at this slot
    have hstop (hstuck : (takeSlot b).remaining ≠ 0 →
        ((takeSlot b).pos + 1) % nrCreditEntries = head) :
        Books b (takeSlot b) head a k k free free1 :=
      ⟨le_rfl, hk, hpos, by rw [Nat.sub_self]; rfl, hshows1, hle1,
        fun x hx => hsame1 x (by omega), hrem, htaken, hstuck⟩
    rw [bookLoop]
    dsimp only
    split
    · rename_i hzero
      exact ⟨_, k, free1, rfl, hstop (absurd hzero)⟩
    · split
      · rename_i hhd
        exact ⟨_, k, free1, rfl, hstop fun _ => hhd⟩
      · rename_i hhd
        rw [hnext] at hhd
        -- the next slot is not the head, so it is not beyond the ring
        have hk1 : k + 1 < nrCreditEntries := by
          by_contra hlast
          rw [show head + (k + 1) = head + nrCreditEntries by omega, Nat.add_mod_right,
            Nat.mod_eq_of_lt hhead] at hhd
          exact hhd rfl
        obtain ⟨b', j, free', hrun, hb⟩ := ih (b := { takeSlot b with
          pos := ((takeSlot b).pos + 1) % nrCreditEntries, delay := (takeSlot b).delay + 1 })
          hshows1 hk1 hnext (by omega)
        refine ⟨b', j, free', hrun, ?_, hb.last_lt, hb.pos, ?_, hb.shows,
          fun x => (hb.le x).trans (hle1 x), fun x hx => ?_, hb.remaining_le.trans hrem, ?_,
          hb.stuck⟩
        · have := hb.le_last
          omega
        · have hdelay := hb.delay
          have hlast := hb.le_last
          dsimp only at hdelay
          rw [show (takeSlot b).delay = b.delay from rfl] at hdelay
          omega
        · rw [hb.same x (by omega), hsame1 x (by have := hb.le_last; omega)]
        · have hrest := hb.taken
          have hrle := hb.remaining_le
          dsimp only at hrest hrle
          omega

/-! ### One call -/

theorem validLength_eq {head k : ℕ} (hhead : head < nrCreditEntries) (hk : k < nrCreditEntries) :
    validLength head ((head + k) % nrCreditEntries) = k + 1 := by
  rw [validLength]
  rcases Nat.lt_or_ge (head + k) nrCreditEntries with hlt | hge
  · rw [Nat.mod_eq_of_lt hlt]
    split <;> omega
  · rw [Nat.mod_eq_sub_mod hge, Nat.mod_eq_of_lt (by omega)]
    split <;> omega

/-- What a call does that books. -/
structure Serves (c : ChannelModel) (curTime requestTime length : ℕ) (b : Booking)
    (c' : ChannelModel) : Prop where
  offs_lt : requestTimeOffs curTime requestTime < nrCreditEntries
  run : (c.moveHead curTime).book (requestTimeOffs curTime requestTime) length = .ok b
  eq : c' = { c.moveHead curTime with
    availCredits := b.avail
    validLen := max (c.moveHead curTime).validLen (validLength (c.moveHead curTime).head b.pos) }

/-- A call returns the request time and a latency of less than 2^33 ns, modulo 2^64. -/
theorem chmodelRequest_returns (c : ChannelModel) (hcredits : c.maxCredits ≠ 0)
    (curTime : ℕ) {requestTime : ℕ} (length : ℕ) (ht : requestTime < 2 ^ 64) :
    ∃ ret c' lat, c.chmodelRequest curTime requestTime length = .ok (ret, c') ∧
      ret = (requestTime + lat) % 2 ^ 64 ∧ lat < 2 ^ 33 ∧ c'.maxCredits = c.maxCredits ∧
      ((c.moveHead curTime).validLen ≤ nrCreditEntries →
        c' = c.moveHead curTime ∧ (requestTime < curTime ∨
          nrCreditEntries ≤ requestTimeOffs curTime requestTime) ∨
        ∃ b, Serves c curTime requestTime length b c') := by
  have hm : (c.moveHead curTime).maxCredits = c.maxCredits := refillPassed_maxCredits c _
  have hsame : requestTime = (requestTime + 0) % 2 ^ 64 := by
    rw [Nat.add_zero, Nat.mod_eq_of_lt ht]
  rw [chmodelRequest]
  dsimp only
  by_cases hlen : nrCreditEntries < (c.moveHead curTime).validLen
  · rw [if_pos hlen]
    exact ⟨_, _, 0, rfl, hsame, by decide, hm, fun hle => by omega⟩
  rw [if_neg hlen]
  by_cases hpast : requestTime < curTime
  · rw [if_pos hpast]
    exact ⟨_, _, 0, rfl, hsame, by decide, hm, fun _ => .inl ⟨rfl, .inl hpast⟩⟩
  rw [if_neg hpast]
  by_cases hfar : nrCreditEntries ≤ requestTimeOffs curTime requestTime
  · rw [if_pos hfar]
    exact ⟨_, _, 0, rfl, hsame, by decide, hm, fun _ => .inl ⟨rfl, .inr hfar⟩⟩
  rw [if_neg hfar, ensure_of (by rw [hm]; exact hcredits), ok_bind]
  -- the fuel of the loop is one slot for each entry of the ring
  set offs := requestTimeOffs curTime requestTime with hoffs
  obtain ⟨b, j, free', hrun, hb⟩ := bookLoop_spec (b :=
    { pos := ((c.moveHead curTime).head + offs) % nrCreditEntries
      remaining := (c.moveHead curTime).need length, delay := 0
      avail := (c.moveHead curTime).availCredits })
    (Window.shows_self (moveHead_head_lt c curTime) _) (k := offs) (by omega) rfl (Nat.sub_le _ _)
  replace hrun : (c.moveHead curTime).book offs length = .ok b := hrun
  have hdelay := hb.delay
  have hlast := hb.last_lt
  rw [hrun, ok_bind]
  refine ⟨_, _, _, rfl, rfl, ?_, hm, fun _ => .inr ⟨b, by omega, hrun, rfl⟩⟩
  have hxfer := Nat.mod_lt ((c.moveHead curTime).xferLat * unitsToXfer length)
    (show 0 < 2 ^ 32 by decide)
  -- the wait is counted in slots, of which the ring has less than 2^20
  have hrounds : b.delay - (c.moveHead curTime).need length / (c.moveHead curTime).maxCredits ≤
      nrCreditEntries :=
    calc b.delay - _ ≤ b.delay := Nat.sub_le _ _
      _ = j - offs := hdelay.trans (Nat.zero_add _)
      _ ≤ nrCreditEntries := by omega
  have hwait := Nat.mul_le_mul_right unitTimeInterval hrounds
  calc _ < 2 ^ 32 + nrCreditEntries * unitTimeInterval := Nat.add_lt_add_of_lt_of_le hxfer hwait
    _ < 2 ^ 33 := by decide

/-- A call that books lowers intervals from the current one on. -/
theorem Serves.lowers {curTime requestTime length : ℕ} {b : Booking} {c' : ChannelModel}
    (hs : Serves c curTime requestTime length b c') (h : Inv (c.moveHead curTime) free) :
    ∃ free', Inv c' free' ∧ (∀ x, free' x ≤ free x) ∧
      (∀ x, x < interval curTime ∨ interval curTime + nrCreditEntries ≤ x → free' x = free x) ∧
      (b.remaining ≠ 0 → (b.pos + 1) % nrCreditEntries = c'.head) ∧
      credits c'.availCredits + ((c.moveHead curTime).need length - b.remaining) =
        credits (c.moveHead curTime).availCredits := by
  obtain ⟨b', j, free', hrun, hb⟩ := bookLoop_spec (b :=
    { pos := ((c.moveHead curTime).head + requestTimeOffs curTime requestTime) % nrCreditEntries
      remaining := (c.moveHead curTime).need length, delay := 0
      avail := (c.moveHead curTime).availCredits }) h.shows hs.offs_lt rfl (Nat.sub_le _ _)
  -- the loop of the call is this one
  cases Except.ok.inj (hs.run.symm.trans hrun)
  have hlast := hb.last_lt
  have hvalid := h.validLen_le
  have hslots : validLength (c.moveHead curTime).head b.pos = j + 1 := by
    rw [hb.pos]
    exact validLength_eq (moveHead_head_lt c curTime) hlast
  have ha : interval (c.moveHead curTime).curTime = interval curTime := rfl
  refine ⟨free', ?_, hb.le, fun x hx => hb.same x (by omega), ?_, ?_⟩
  · rw [hs.eq, hslots]
    refine ⟨hb.shows, ?_, fun x hx => ?_, fun x => (hb.le x).trans (h.le x), h.maxCredits_pos,
      h.maxCredits_le⟩
    · dsimp only
      omega
    · dsimp only at hx ⊢
      rw [hb.same x (by omega)]
      exact h.idle x (by omega)
  · rw [hs.eq]
    exact hb.stuck
  · rw [hs.eq]
    exact hb.taken

/-! ### Runs -/

/-- The credits that a call takes from the interval `x`: what is missing in its slot
afterwards. -/
def takenIn (c c' : ChannelModel) (curTime x : ℕ) : ℕ :=
  if interval curTime ≤ x ∧ x < interval curTime + nrCreditEntries then
    let slot := ((c.moveHead curTime).head + (x - interval curTime)) % nrCreditEntries
    (c.moveHead curTime).availCredits slot - c'.availCredits slot
  else 0

theorem takenIn_eq {c' : ChannelModel} {free' : ℕ → ℕ} (h : Inv (c.moveHead time) free)
    (h' : Inv c' free') (hhead : c'.head = (c.moveHead time).head) (htime : c'.curTime = time)
    (hsame : ∀ x, x < interval time ∨ interval time + nrCreditEntries ≤ x → free' x = free x)
    (x : ℕ) : takenIn c c' time x = free x - free' x := by
  rw [takenIn]
  dsimp only
  split
  · rename_i hx
    obtain ⟨k, rfl⟩ := Nat.exists_eq_add_of_le hx.1
    have hbefore := h.shows.slot k (by omega)
    have hafter := h'.shows.slot k (by omega)
    rw [hhead, htime] at hafter
    rw [Nat.add_sub_cancel_left, hbefore, hafter]
    rfl
  · rw [hsame x (by omega), Nat.sub_self]

/-- What a caller keeps to: the clock does not run backwards, and times are 64-bit numbers less
than 2^32 intervals apart. -/
structure Permitted (last : Option ℕ) (curTime requestTime : ℕ) : Prop where
  clock : ∀ w ∈ last, w ≤ curTime ∧ interval curTime < interval w + 2 ^ 32
  request : interval requestTime < interval curTime + 2 ^ 32
  curTime_lt : curTime < 2 ^ 64
  requestTime_lt : requestTime < 2 ^ 64

/-- The states of a channel after calls, with the time of the last one and the credits taken
from every interval so far. -/
inductive Runs (bandwidth : ℕ) : Option ℕ → ChannelModel → (ℕ → ℕ) → Prop where
  | init : Runs bandwidth none (chmodelInit bandwidth) fun _ => 0
  | call {last : Option ℕ} {c c' : ChannelModel} {taken : ℕ → ℕ}
    {curTime requestTime length ret : ℕ} :
    Runs bandwidth last c taken → Permitted last curTime requestTime →
    c.chmodelRequest curTime requestTime length = .ok (ret, c') →
    Runs bandwidth (some curTime) c' fun x => taken x + takenIn c c' curTime x

/-- The ring is in order: a slot that is not in use has all its credits. -/
structure RingOk (c : ChannelModel) : Prop where
  head_lt : c.head < nrCreditEntries
  validLen_le : c.validLen ≤ nrCreditEntries
  unused : ∀ k, c.validLen ≤ k → k < nrCreditEntries →
    c.availCredits ((c.head + k) % nrCreditEntries) = c.maxCredits
  le : ∀ p < nrCreditEntries, c.availCredits p ≤ c.maxCredits

theorem Inv.ringOk (h : Inv c free) : RingOk c where
  head_lt := h.shows.head_lt
  validLen_le := h.validLen_le
  unused k hk hlt := by rw [h.shows.slot k hlt, h.idle _ (Nat.add_le_add_left hk _)]
  le p hp := by
    obtain ⟨k, hk, rfl⟩ := Window.exists_slot h.shows.head_lt hp
    rw [h.shows.slot k hk]
    exact h.le _

/-- A run and the credits that are left. -/
structure Kept (bandwidth : ℕ) (last : Option ℕ) (c : ChannelModel) (taken free : ℕ → ℕ) :
    Prop where
  inv : Inv c free
  sum : ∀ x, taken x + free x = c.maxCredits
  maxCredits : c.maxCredits = (chmodelInit bandwidth).maxCredits
  commandCredits : c.commandCredits = 0
  first : last = none → c.curTime = 0 ∧ c.validLen = 0
  later : ∀ w ∈ last, c.curTime = w

theorem Kept.follows {bandwidth requestTime : ℕ} {last : Option ℕ} {taken : ℕ → ℕ}
    (h : Kept bandwidth last c taken free) (hp : Permitted last time requestTime) :
    c.Follows time := by
  cases last with
  | none =>
    obtain ⟨hzero, hvalid⟩ := h.first rfl
    exact ⟨by omega, .inl hvalid⟩
  | some w =>
    obtain ⟨hle, hgap⟩ := hp.clock w rfl
    have hw := h.later w rfl
    rw [← hw] at hle hgap
    exact ⟨hle, .inr hgap⟩

/-- One call. -/
theorem Kept.call {bandwidth requestTime length ret : ℕ} {last : Option ℕ} {taken : ℕ → ℕ}
    {c' : ChannelModel} (h : Kept bandwidth last c taken free)
    (hp : Permitted last time requestTime)
    (hrun : c.chmodelRequest time requestTime length = .ok (ret, c')) :
    ∃ free', Kept bandwidth (some time) c' (fun x => taken x + takenIn c c' time x) free' := by
  have hinv := moveHead_inv h.inv (h.follows hp)
  have hpos := h.inv.maxCredits_pos
  obtain ⟨ret', c'', lat, hrun', -, -, hmax, hcases⟩ :=
    chmodelRequest_returns c (by omega) time length hp.requestTime_lt
  cases hrun.symm.trans hrun'
  have hcommand : (c.moveHead time).commandCredits = 0 :=
    (refillPassed_commandCredits c _).trans h.commandCredits
  rcases hcases hinv.validLen_le with ⟨rfl, -⟩ | ⟨b, hs⟩
  · -- a call that declines only moves the ring
    refine ⟨free, hinv, fun x => ?_, hmax.trans h.maxCredits, hcommand, (fun h => by cases h), ?_⟩
    · rw [takenIn_eq hinv hinv rfl rfl (fun _ _ => rfl), Nat.sub_self, hmax]
      exact h.sum x
    · rintro w ⟨⟩
      rfl
  · obtain ⟨free', hinv', hle, hsame, -, -⟩ := hs.lowers hinv
    have heq := hs.eq
    have htime : c'.curTime = time := by
      rw [heq]
      rfl
    have hhead : c'.head = (c.moveHead time).head := by rw [heq]
    refine ⟨free', hinv', fun x => ?_, hmax.trans h.maxCredits, ?_,
      (fun h => by cases h), ?_⟩
    · rw [takenIn_eq hinv hinv' hhead htime hsame, hmax]
      have hsum := h.sum x
      have hlow := hle x
      omega
    · rw [heq]
      exact hcommand
    · rintro w ⟨⟩
      exact htime

theorem Runs.kept {bandwidth : ℕ} (hmin : 1 ≤ (chmodelInit bandwidth).maxCredits)
    (hmax : (chmodelInit bandwidth).maxCredits ≤ 255) {last : Option ℕ} {taken : ℕ → ℕ}
    (hr : Runs bandwidth last c taken) : ∃ free, Kept bandwidth last c taken free := by
  induction hr with
  | init =>
    have hfull : ∀ p, (chmodelInit bandwidth).availCredits p = (chmodelInit bandwidth).maxCredits :=
      fun _ => Nat.mod_eq_of_lt (Nat.lt_succ_of_le hmax)
    refine ⟨fun _ => (chmodelInit bandwidth).maxCredits, ⟨?_, Nat.zero_le _, fun _ _ => rfl,
      fun _ => le_rfl, hmin, hmax⟩, fun _ => Nat.zero_add _, rfl, rfl, fun _ => ⟨rfl, rfl⟩,
      (fun _ h => by cases h)⟩
    have hpos : 0 < nrCreditEntries := by decide
    exact Window.shows_const hpos (fun p _ => hfull p) fun _ _ => rfl
  | call _ hp hrun ih =>
    obtain ⟨free, hk⟩ := ih
    exact hk.call hp hrun

/-- Without booking: the request is in the past, or beyond the ring. -/
def Declined (curTime requestTime : ℕ) : Prop :=
  requestTime < curTime ∨ nrCreditEntries ≤ interval requestTime - interval curTime

theorem requestTimeOffs_eq {last : Option ℕ} {curTime requestTime : ℕ}
    (hp : Permitted last curTime requestTime) (hle : curTime ≤ requestTime) :
    requestTimeOffs curTime requestTime = interval requestTime - interval curTime := by
  have hgap := hp.request
  have hint : interval curTime ≤ interval requestTime := Nat.div_le_div_right hle
  rw [requestTimeOffs, sub64, if_pos hint, Nat.mod_eq_of_lt (by omega)]

/-- After any calls the ring is in order and no interval has given more than `max_credits`.
The next call ends, and returns the request time plus a latency of less than 2^33 ns modulo
2^64. Unless it is declined or stops at the slot before the head, it takes the credits of the
transfer and of the command. -/
theorem Runs.books (bandwidth : ℕ) (hmin : 1 ≤ (chmodelInit bandwidth).maxCredits)
    (hmax : (chmodelInit bandwidth).maxCredits ≤ 255) (last : Option ℕ) (c : ChannelModel)
    (taken : ℕ → ℕ) (hr : Runs bandwidth last c taken) :
    c.RingOk ∧ (∀ x, taken x ≤ (chmodelInit bandwidth).maxCredits) ∧
      c.maxCredits = (chmodelInit bandwidth).maxCredits ∧
      ∀ curTime requestTime length, Permitted last curTime requestTime →
        ∃ ret c', c.chmodelRequest curTime requestTime length = .ok (ret, c') ∧
          (∃ lat < 2 ^ 33, ret = (requestTime + lat) % 2 ^ 64) ∧
          (¬Declined curTime requestTime → ∃ b, Serves c curTime requestTime length b c' ∧
            (b.remaining ≠ 0 → (b.pos + 1) % nrCreditEntries = c'.head) ∧
            (b.remaining = 0 → credits (c.moveHead curTime).availCredits =
              credits c'.availCredits + (unitsToXfer length + c.commandCredits))) := by
  obtain ⟨free, hk⟩ := hr.kept hmin hmax
  refine ⟨hk.inv.ringOk, fun x => ?_, hk.maxCredits, fun curTime requestTime length hp => ?_⟩
  · have hsum := hk.sum x
    rw [← hk.maxCredits]
    omega
  have hinv := moveHead_inv hk.inv (hk.follows hp)
  have hpos := hk.inv.maxCredits_pos
  obtain ⟨ret, c', lat, hrun, hret, hlat, -, hcases⟩ :=
    chmodelRequest_returns c (by omega) curTime length hp.requestTime_lt
  refine ⟨ret, c', hrun, ⟨lat, hlat, hret⟩, fun hserved => ?_⟩
  rcases hcases hinv.validLen_le with ⟨-, hdecl⟩ | ⟨b, hs⟩
  · rcases hdecl with hpast | hfar
    · exact absurd (.inl hpast) hserved
    · rcases Nat.lt_or_ge requestTime curTime with hpast | hle
      · exact absurd (.inl hpast) hserved
      · rw [requestTimeOffs_eq hp hle] at hfar
        exact absurd (.inr hfar) hserved
  · obtain ⟨free', -, -, -, hstuck, htaken⟩ := hs.lowers hinv
    refine ⟨b, hs, hstuck, fun hdone => ?_⟩
    have hcommand : (c.moveHead curTime).commandCredits = c.commandCredits :=
      refillPassed_commandCredits c _
    have hunits : unitsToXfer length < 2 ^ 32 := Nat.mod_lt _ (by decide)
    rw [hdone, Nat.sub_zero, need, hcommand, hk.commandCredits, Nat.add_zero,
      Nat.mod_eq_of_lt hunits] at htaken
    rw [hk.commandCredits, Nat.add_zero]
    exact htaken.symm

instance (last : Option ℕ) (curTime requestTime : ℕ) :
    Decidable (Permitted last curTime requestTime) :=
  decidable_of_iff ((∀ w ∈ last, w ≤ curTime ∧ interval curTime < interval w + 2 ^ 32) ∧
    interval requestTime < interval curTime + 2 ^ 32 ∧ curTime < 2 ^ 64 ∧ requestTime < 2 ^ 64)
    ⟨fun ⟨hclock, hreq, hcur, hlt⟩ => ⟨hclock, hreq, hcur, hlt⟩,
      fun h => ⟨h.clock, h.request, h.curTime_lt, h.requestTime_lt⟩⟩

/-- Calls of `chmodel_request`, one after the other. -/
def chmodelRequests : ChannelModel → List (ℕ × ℕ × ℕ) → Except Fault (List ℕ × ChannelModel)
  | c, [] => .ok ([], c)
  | c, (curTime, requestTime, length) :: calls => do
    let (ret, c) ← c.chmodelRequest curTime requestTime length
    let (rets, c) ← chmodelRequests c calls
    return (ret :: rets, c)

/-- Calls that their caller may make, after one at the time `last`. -/
def AllPermitted : Option ℕ → List (ℕ × ℕ × ℕ) → Prop
  | _, [] => True
  | last, (curTime, requestTime, _) :: calls =>
    Permitted last curTime requestTime ∧ AllPermitted (some curTime) calls

theorem Runs.requests {bandwidth : ℕ} {last : Option ℕ} {c c' : ChannelModel} {taken : ℕ → ℕ}
    {calls : List (ℕ × ℕ × ℕ)} {rets : List ℕ} (hr : Runs bandwidth last c taken)
    (hp : AllPermitted last calls) (h : c.chmodelRequests calls = .ok (rets, c')) :
    ∃ last' taken', Runs bandwidth last' c' taken' := by
  induction calls generalizing last c taken rets with
  | nil =>
    cases h
    exact ⟨last, taken, hr⟩
  | cons call calls ih =>
    obtain ⟨curTime, requestTime, length⟩ := call
    rw [chmodelRequests] at h
    obtain ⟨⟨ret, c1⟩, hcall, h⟩ := bind_eq_ok.mp h
    obtain ⟨⟨rets', c2⟩, hcalls, h⟩ := bind_eq_ok.mp h
    cases h
    exact ih (hr.call hp.1 hcall) hp.2 hcalls

/-- Four transfers of a page. -/
def fourPages : List (ℕ × ℕ × ℕ) :=
  [(8000, 9000, 4096), (8000, 9000, 4096), (13000, 13000, 4096), (13000, 13000, 4096)]

/-- A channel of 800 MB/s is not fast enough for them: each ends later than the one before, and
the clock moves the ring on meanwhile. -/
theorem Runs.books_fourPages :
    ∃ c last taken, (chmodelInit 800).chmodelRequests fourPages =
        .ok ([13864, 17864, 21864, 25864], c) ∧
      Runs 800 last c taken ∧ c.RingOk ∧ ∀ x, taken x ≤ 26 := by
  have hrets : (((chmodelInit 800).chmodelRequests fourPages).map Prod.fst).toOption =
      some [13864, 17864, 21864, 25864] := by decide +kernel
  have hp : AllPermitted none fourPages :=
    ⟨by decide, by decide, by decide, by decide, trivial⟩
  cases hrun : (chmodelInit 800).chmodelRequests fourPages with
  | error e =>
    rw [hrun] at hrets
    cases hrets
  | ok r =>
    rw [hrun] at hrets
    obtain ⟨rets, c⟩ := r
    cases hrets
    obtain ⟨last, taken, hr⟩ := Runs.init.requests hp hrun
    obtain ⟨hring, htaken, -⟩ := Runs.books 800 (by decide) (by decide) last c taken hr
    exact ⟨c, last, taken, rfl, hr, hring, htaken⟩

/-- At the end of the 64-bit time the sum of request time and latency wraps around, and the
transfer ends in the past. -/
theorem not_returns_later :
    ¬ ∀ bandwidth, 1 ≤ (chmodelInit bandwidth).maxCredits →
      (chmodelInit bandwidth).maxCredits ≤ 255 → ∀ last c taken, Runs bandwidth last c taken →
        ∀ curTime requestTime length, Permitted last curTime requestTime →
          ∃ ret c', c.chmodelRequest curTime requestTime length = .ok (ret, c') ∧
            requestTime ≤ ret := by
  intro hall
  obtain ⟨ret, c', hrun, hle⟩ := hall 800 (by decide) (by decide) none _ _ Runs.init
    (2 ^ 64 - 1) (2 ^ 64 - 1) 128
    ⟨(fun _ h => by cases h), by decide, by decide, by decide⟩
  have hret : (((chmodelInit 800).chmodelRequest (2 ^ 64 - 1) (2 ^ 64 - 1) 128).map
      Prod.fst).toOption = some 151 := by decide +kernel
  rw [hrun] at hret
  cases hret
  exact absurd hle (by decide)

end ChannelModel

end Virtkv
