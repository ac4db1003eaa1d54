import Hatrack.Queue.Step

/-! The `len` counter: it always equals the returned enqueues less the dequeues that returned an
item, and so it goes below zero while a dequeue is ahead of the enqueue whose item it took. -/

namespace Hatrack

variable {α : Type}

/-- An enqueue that has returned. -/
def CallStatus.isEnqueued : CallStatus α → Bool
  | .enqueued .. => true
  | _ => false

/-- A dequeue that has returned an item. -/
def CallStatus.isFound : CallStatus α → Bool
  | .found .. => true
  | _ => false

/-- A `queue_enqueue` call, in flight or returned. -/
def CallStatus.isEnqueue : CallStatus α → Bool
  | .enqueuing _ | .enqueued .. => true
  | _ => false

/-- The number of calls numbered below `n` whose status passes `p`. -/
def countCalls (p : CallStatus α → Bool) (calls : Nat → Option (Call α)) : Nat → Nat
  | 0 => 0
  | n + 1 => countCalls p calls n + ((calls n).map fun c => if p c.status then 1 else 0).getD 0

/-- What a call has added to `len` is its count as a returned enqueue less its count as a
dequeue that returned an item. -/
theorem lenWeight_eq (s : CallStatus α) :
    s.lenWeight = ((if s.isEnqueued then 1 else 0 : Nat) : Int) - (if s.isFound then 1 else 0 : Nat) := by
  cases s <;> rfl

/-- A call in flight counts neither as returned enqueue nor as returned item. -/
theorem CallStatus.not_isEnqueued_of_inFlight {s : CallStatus α} (flight : s.inFlight = true) :
    s.isEnqueued = false ∧ s.isFound = false := by
  cases s <;> simp_all [CallStatus.inFlight, CallStatus.isEnqueued, CallStatus.isFound]

section Counting

variable {p : CallStatus α → Bool} {calls : Nat → Option (Call α)} {k : Nat}
  {v : Option (Call α)}

/-- The count of one call slot. -/
def slotCount (p : CallStatus α → Bool) (slot : Option (Call α)) : Nat :=
  (slot.map fun c => if p c.status then 1 else 0).getD 0

/-- Writing a call slot at or past `n` leaves the count below `n` alone. -/
theorem countCalls_writeAt_of_le {n : Nat} (past : n ≤ k) :
    countCalls p (writeAt calls k v) n = countCalls p calls n := by
  induction n with
  | zero => rfl
  | succ n ih => simp only [countCalls, ih (by omega), writeAt_ne (by omega : n ≠ k)]

/-- Writing a call slot below `n` trades that slot's count for the count of what is written. -/
theorem countCalls_writeAt {n : Nat} (below : k < n) :
    countCalls p (writeAt calls k v) n + slotCount p (calls k) =
      countCalls p calls n + slotCount p v := by
  induction n with
  | zero => omega
  | succ n ih =>
    simp only [countCalls]
    rcases Nat.lt_succ_iff_lt_or_eq.mp below with lower | rfl
    · -- The slot written lies below `n`: the last term is unchanged.
      rw [writeAt_ne (by omega : n ≠ k)]
      have := ih lower
      omega
    · -- The slot written is the last one counted.
      rw [countCalls_writeAt_of_le (Nat.le_refl _), writeAt_same]
      simp only [slotCount]
      omega

end Counting

namespace World

/-- Returned enqueues. -/
def enqueuedCount (w : World α) : Nat := countCalls CallStatus.isEnqueued w.calls w.started

/-- Dequeues that returned an item. -/
def foundCount (w : World α) : Nat := countCalls CallStatus.isFound w.calls w.started

/-- Enqueue calls invoked so far. -/
def enqueueCount (w : World α) : Nat := countCalls CallStatus.isEnqueue w.calls w.started

end World

/-- A new call adds its own status to every count. -/
theorem countCalls_invoke (p : CallStatus α → Bool) (w : World α) (s : CallStatus α) :
    countCalls p (w.invoke s).calls (w.invoke s).started =
      countCalls p w.calls w.started + if p s then 1 else 0 := by
  simp only [World.invoke, countCalls, countCalls_writeAt_of_le (Nat.le_refl _), writeAt_same]
  rfl

/-- A call's step trades its old status for its new one in every count. -/
theorem countCalls_runCall {cfg : QueueConfig} {w w' : World α} {id : Nat}
    (reach : QueueReachable cfg w) (moved : w.runCall cfg id = some w') :
    ∃ c s, w.calls id = some c ∧ c.status.inFlight = true ∧
      (∀ p : CallStatus α → Bool, countCalls p w'.calls w'.started + (if p c.status then 1 else 0) =
        countCalls p w.calls w.started + (if p s then 1 else 0)) ∧
      w'.queue.len = w.queue.len + s.lenWeight := by
  obtain ⟨⟨c, call, flight⟩, s, calls, started, -, len⟩ := runCall_frame moved
  -- The call that moved has a number below `started`.
  have below : id < w.started :=
    Nat.lt_of_not_le fun fresh => by simp [calls_eq_none_of_reachable reach id fresh] at call
  refine ⟨c, s, call, flight, fun p => ?_, len⟩
  have traded := @countCalls_writeAt α p w.calls id (some { c with status := s }) w.started below
  simp only [call, slotCount, Option.map_some', Option.getD_some] at traded
  rw [calls, started, call]
  exact traded

/-- The `len` counter is the returned enqueues less the dequeues that returned an item. -/
def LenInv (w : World α) : Prop :=
  w.queue.len = (w.enqueuedCount : Int) - w.foundCount

/-- A queue just set up has no calls and a zero counter. -/
theorem lenInv_init {cfg : QueueConfig} {sizeLog : Nat} {w : World α}
    (init : queueInitSize cfg sizeLog = some w) : LenInv w := by
  unfold queueInitSize at init
  split at init
  · cases init
  · cases init
    rfl

/-- Every step keeps the counter equal to the returned enqueues less the returned items. -/
theorem lenInv_step {cfg : QueueConfig} {w w' : World α} (reach : QueueReachable cfg w)
    (inv : LenInv w) (step : QueueStep cfg w w') : LenInv w' := by
  unfold LenInv World.enqueuedCount World.foundCount at *
  cases step with
  | enqueue item =>
    -- A new call is in flight, so it counts in neither.
    rw [countCalls_invoke, countCalls_invoke]
    simpa [CallStatus.isEnqueued, CallStatus.isFound, World.invoke] using inv
  | dequeue =>
    rw [countCalls_invoke, countCalls_invoke]
    simpa [CallStatus.isEnqueued, CallStatus.isFound, World.invoke] using inv
  | run id moved =>
    -- The call was in flight; its new status moves the counts as it moves `len`.
    obtain ⟨c, s, -, flight, traded, len⟩ := countCalls_runCall reach moved
    have enq := traded CallStatus.isEnqueued
    have fnd := traded CallStatus.isFound
    obtain ⟨notEnq, notFnd⟩ := CallStatus.not_isEnqueued_of_inFlight flight
    simp only [notEnq, notFnd, Bool.false_eq_true, ↓reduceIte, Nat.add_zero] at enq fnd
    rw [len, lenWeight_eq, inv]
    omega

/-- The counter invariant holds in every reachable state. -/
theorem lenInv_of_reachable {cfg : QueueConfig} {w : World α} (reach : QueueReachable cfg w) :
    LenInv w := by
  induction reach with
  | init _ init => exact lenInv_init init
  | step reach step inv => exact lenInv_step reach inv step

/-- A count under a weaker test is no smaller. -/
theorem countCalls_mono {p q : CallStatus α → Bool} (weaker : ∀ s, p s = true → q s = true)
    (calls : Nat → Option (Call α)) (n : Nat) : countCalls p calls n ≤ countCalls q calls n := by
  induction n with
  | zero => exact Nat.le_refl _
  | succ n ih =>
    simp only [countCalls]
    cases calls n with
    | none => simpa using ih
    | some c =>
      -- A call counted under `p` is counted under `q`.
      simp only [Option.map_some', Option.getD_some]
      by_cases counted : p c.status = true
      · rw [if_pos counted, if_pos (weaker _ counted)]
        omega
      · rw [if_neg counted]
        split <;> omega

/-- In every reachable state `len` is exactly the returned enqueues less the dequeues that returned
an item, and so at most the enqueues invoked less those dequeues. -/
theorem len_eq_enqueued_sub_found {cfg : QueueConfig} {w : World α}
    (reach : QueueReachable cfg w) :
    w.queue.len = (w.enqueuedCount : Int) - w.foundCount ∧
      w.queue.len ≤ (w.enqueueCount : Int) - w.foundCount := by
  have returned : w.enqueuedCount ≤ w.enqueueCount :=
    countCalls_mono (fun s => by cases s <;> simp [CallStatus.isEnqueued, CallStatus.isEnqueue])
      w.calls w.started
  have inv := lenInv_of_reachable reach
  exact ⟨inv, by unfold LenInv at inv; omega⟩

/-- An enqueue writes its cell and stops before bumping `len` (line 173); a dequeue then takes
the item and decrements `len` (line 297). -/
def earlyTakeSchedule : List (QueueAction Nat) :=
  [.enqueue 7, .run 0, .run 0, .run 0] ++ dequeueRun 1

/-- The state the early-take schedule ends in. -/
def earlyTakeRun : Option (World Nat) :=
  (queueInitSize smallConfig 0).bind fun w => w.exec smallConfig earlyTakeSchedule

/-- After the early take, `len` is below zero. -/
theorem earlyTakeRun_len_negative :
    ∃ w, earlyTakeRun = some w ∧ QueueReachable smallConfig w ∧ w.queue.len < 0 :=
  ⟨_, rfl, reachable_of_exec 0 earlyTakeSchedule rfl, by decide⟩

/-- The early take is accounted for: no enqueue has returned and one dequeue has found an item. -/
theorem earlyTakeRun_len_accounting :
    ∃ w, earlyTakeRun = some w ∧ w.queue.len = (w.enqueuedCount : Int) - w.foundCount ∧
      w.queue.len ≤ (w.enqueueCount : Int) - w.foundCount :=
  ⟨_, rfl, len_eq_enqueued_sub_found (@reachable_of_exec _ smallConfig 0 _ earlyTakeSchedule rfl)⟩

end Hatrack
