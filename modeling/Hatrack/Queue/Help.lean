import Hatrack.Queue.Len

/-! The `help_needed` counter: it always counts the enqueue calls in flight that hold a help
request, added at line 182 and given back at line 169 or 239, so it is never below zero and is
zero whenever no enqueue is in flight. -/

namespace Hatrack

variable {α : Type}

/-- An enqueuer holds a help request once `need_help` is set and the add of line 182 has run,
until the subtraction of line 169 or 239, after which only the `len` bump is left. -/
def EnqueueFrame.holdsHelp (f : EnqueueFrame α) : Bool :=
  match f.pc with
  | .addHelp | .addLen => false
  | _ => f.needHelp

/-- A call holding a help request. -/
def CallStatus.holdsHelp : CallStatus α → Bool
  | .enqueuing f => f.holdsHelp
  | _ => false

/-- An enqueuer about to run line 182, or line 169 or 239, has `need_help` set. -/
def CallStatus.HelpOk : CallStatus α → Prop
  | .enqueuing f => f.pc = .addHelp ∨ f.pc = .subHelp → f.needHelp = true
  | _ => True

section Exits

variable (cfg : QueueConfig) (f : EnqueueFrame α)

/-- The loop test after a fetch-add sets `need_help` only on the way to line 182. -/
theorem holdsHelp_afterFetch : (f.afterFetch cfg).holdsHelp = f.needHelp := by
  simp only [EnqueueFrame.afterFetch, EnqueueFrame.holdsHelp]
  by_cases lt : f.curIx < f.endSize
  · simp [lt, Nat.not_le.mpr lt]
  · cases f.needHelp <;> by_cases ask : cfg.queueHelpValue ≤ f.step <;> simp [lt, ask]

/-- An enqueuer sent to line 182 has just set `need_help`. -/
theorem helpOk_afterFetch : (CallStatus.enqueuing (f.afterFetch cfg)).HelpOk := by
  simp only [EnqueueFrame.afterFetch, CallStatus.HelpOk]
  split <;> (try split) <;> simp_all

/-- After the cell CAS the request is still held, to be given back at line 169. -/
theorem holdsHelp_afterWrite : f.afterWrite.holdsHelp = f.needHelp := by
  cases h : f.needHelp <;> simp [EnqueueFrame.holdsHelp, h]

/-- Only an enqueuer with `need_help` set is sent to line 169. -/
theorem helpOk_afterWrite : (CallStatus.enqueuing f.afterWrite).HelpOk := by
  cases h : f.needHelp <;> simp [CallStatus.HelpOk, h]

/-- After the pointer CAS loop the request is still held, to be given back at line 239. -/
theorem holdsHelp_afterLink : f.afterLink.holdsHelp = f.needHelp := by
  cases h : f.needHelp <;> cases t : f.needToEnqueue <;> simp [EnqueueFrame.holdsHelp, h, t]

/-- Only an enqueuer with `need_help` set is sent to line 239. -/
theorem helpOk_afterLink : (CallStatus.enqueuing f.afterLink).HelpOk := by
  cases h : f.needHelp <;> cases t : f.needToEnqueue <;> simp [CallStatus.HelpOk, h, t]

end Exits

/-- A step of `queue_enqueue` moves `help_needed` by exactly the change in its own request: up at
line 182, down at lines 169 and 239. -/
theorem queueEnqueueStep_help {cfg : QueueConfig} {w w' : World α} {id : Nat} {f : EnqueueFrame α}
    (ok : (CallStatus.enqueuing f).HelpOk) (step : queueEnqueueStep cfg w id f = some w') :
    ∃ s, w'.calls = writeAt w.calls id ((w.calls id).map fun c => { c with status := s }) ∧
      w'.started = w.started ∧ s.HelpOk ∧
      w'.queue.helpNeeded + (if f.holdsHelp then 1 else 0 : Nat) =
        w.queue.helpNeeded + (if s.holdsHelp then 1 else 0 : Nat) := by
  simp only [CallStatus.HelpOk] at ok
  -- Each line sets the call's status; the exits of the loops carry `need_help` over unchanged.
  cases pc : f.pc <;> simp only [queueEnqueueStep, pc] at step <;> (repeat' split at step) <;>
    cases step <;> refine ⟨_, rfl, rfl, ?_, ?_⟩ <;>
    first
    | exact helpOk_afterFetch _ _ | exact helpOk_afterWrite _ | exact helpOk_afterLink _
    | (try simp only [CallStatus.holdsHelp, holdsHelp_afterFetch, holdsHelp_afterWrite,
        holdsHelp_afterLink])
      simp_all [CallStatus.HelpOk, EnqueueFrame.holdsHelp]

/-- A step of `queue_dequeue` leaves `help_needed` alone and gives its call no request. -/
theorem queueDequeueStep_help {w w' : World α} {id : Nat} {f : DequeueFrame α}
    (step : queueDequeueStep w id f = some w') :
    ∃ s, w'.calls = writeAt w.calls id ((w.calls id).map fun c => { c with status := s }) ∧
      w'.started = w.started ∧ s.HelpOk ∧ s.holdsHelp = false ∧
      w'.queue.helpNeeded = w.queue.helpNeeded := by
  cases pc : f.pc <;> simp only [queueDequeueStep, pc] at step <;> (repeat' split at step) <;>
    cases step <;> exact ⟨_, rfl, rfl, trivial, rfl, rfl⟩

/-- The number of calls holding a help request. -/
def World.helpRequests (w : World α) : Nat := countCalls CallStatus.holdsHelp w.calls w.started

/-- `help_needed` counts the help requests held, and the enqueuers about to add or give back one
have `need_help` set. -/
structure HelpInv (w : World α) : Prop where
  counts : w.queue.helpNeeded = w.helpRequests
  calls_ok : ∀ id c, w.calls id = some c → c.status.HelpOk

section Invariant

variable {cfg : QueueConfig} {w w' : World α}

/-- A call's step trades its old request for its new one, in `help_needed` as in the table. -/
theorem runCall_help (inv : HelpInv w) {id : Nat} (moved : w.runCall cfg id = some w') :
    ∃ c s, w.calls id = some c ∧ s.HelpOk ∧
      w'.calls = writeAt w.calls id (some { c with status := s }) ∧ w'.started = w.started ∧
      w'.queue.helpNeeded + (if c.status.holdsHelp then 1 else 0 : Nat) =
        w.queue.helpNeeded + (if s.holdsHelp then 1 else 0 : Nat) := by
  unfold World.runCall at moved
  split at moved
  · rename_i t f call
    obtain ⟨w'', step, rfl⟩ := Option.map_eq_some'.mp moved
    obtain ⟨s, calls, started, ok, help⟩ := queueEnqueueStep_help (inv.calls_ok _ _ call) step
    exact ⟨_, s, call, ok, by simp [calls, call], started, help⟩
  · rename_i t f call
    obtain ⟨w'', step, rfl⟩ := Option.map_eq_some'.mp moved
    obtain ⟨s, calls, started, ok, none, help⟩ := queueDequeueStep_help step
    refine ⟨_, s, call, ok, by simp [calls, call], started, ?_⟩
    simp only [World.tick, help, none]
    rfl
  · cases moved

/-- A queue just set up has no calls and asks for no help. -/
theorem helpInv_init {sizeLog : Nat} (init : queueInitSize cfg sizeLog = some w) : HelpInv w := by
  unfold queueInitSize at init
  split at init
  · cases init
  · cases init
    exact ⟨rfl, nofun⟩

/-- Every step keeps `help_needed` equal to the requests held. -/
theorem helpInv_step (reach : QueueReachable cfg w) (inv : HelpInv w) (step : QueueStep cfg w w') :
    HelpInv w' := by
  -- A new call enters at line 156, holding no request.
  have invoked : ∀ s : CallStatus α, s.HelpOk → s.holdsHelp = false → HelpInv (w.invoke s) := by
    intro s ok none
    refine ⟨?_, fun id c call => ?_⟩
    · simp only [World.helpRequests, countCalls_invoke, none]
      exact inv.counts
    · simp only [World.invoke, writeAt_apply] at call
      split at call
      · cases call
        exact ok
      · exact inv.calls_ok id c call
  cases step with
  | enqueue item => exact invoked _ (by simp [CallStatus.HelpOk, enqueueEntry]) rfl
  | dequeue => exact invoked _ trivial rfl
  | run id moved =>
    obtain ⟨c, s, call, ok, calls, started, help⟩ := runCall_help inv moved
    -- The call that moved has a number below `started`.
    have below : id < w.started :=
      Nat.lt_of_not_le fun fresh => by simp [calls_eq_none_of_reachable reach id fresh] at call
    have traded := @countCalls_writeAt α CallStatus.holdsHelp w.calls id
      (some { c with status := s }) w.started below
    simp only [call, slotCount, Option.map_some', Option.getD_some] at traded
    refine ⟨?_, fun k ck found => ?_⟩
    · have counts := inv.counts
      simp only [World.helpRequests] at counts ⊢
      rw [calls, started]
      omega
    · rw [calls, writeAt_apply] at found
      split at found
      · cases found
        exact ok
      · exact inv.calls_ok k ck found

/-- The help invariant holds in every reachable state. -/
theorem helpInv_of_reachable (reach : QueueReachable cfg w) : HelpInv w := by
  induction reach with
  | init _ init => exact helpInv_init init
  | step reach step inv => exact helpInv_step reach inv step

end Invariant

/-- A count over calls none of which passes the test is zero. -/
theorem countCalls_eq_zero {p : CallStatus α → Bool} {calls : Nat → Option (Call α)}
    (none : ∀ id c, calls id = some c → p c.status = false) (n : Nat) : countCalls p calls n = 0 := by
  induction n with
  | zero => rfl
  | succ n ih =>
    simp only [countCalls, ih]
    cases slot : calls n with
    | none => rfl
    | some c => simp [none n c slot]

/-- In every reachable state `help_needed` is the number of enqueue calls holding a help request,
so it is never below zero, and it is zero whenever no `queue_enqueue` call is in flight. -/
theorem helpNeeded_counts_requests {cfg : QueueConfig} {w : World α}
    (reach : QueueReachable cfg w) :
    w.queue.helpNeeded = w.helpRequests ∧ 0 ≤ w.queue.helpNeeded ∧
      ((∀ id c f, w.calls id = some c → c.status ≠ .enqueuing f) → w.queue.helpNeeded = 0) := by
  have counts := (helpInv_of_reachable reach).counts
  refine ⟨counts, by omega, fun idle => ?_⟩
  -- Only an enqueuer in flight can hold a request.
  have none : ∀ id c, w.calls id = some c → c.status.holdsHelp = false := by
    intro id c call
    cases status : c.status with
    | enqueuing f => exact absurd status (idle id c f call)
    | _ => rfl
  rw [counts, World.helpRequests, countCalls_eq_zero none]
  rfl

/-- Two enqueues fill the first segment; a third finds it full, asks for help at line 182 and
stops there. -/
def helpSchedule : List (QueueAction Nat) :=
  enqueueRun 0 0 ++ enqueueRun 1 1 ++ [.enqueue 2, .run 2, .run 2, .run 2]

/-- The state the help schedule ends in. -/
def helpRun : Option (World Nat) :=
  (queueInitSize smallConfig 0).bind fun w => w.exec smallConfig helpSchedule

/-- With one request held, `help_needed` is one. -/
theorem helpRun_counts_requests :
    ∃ w, helpRun = some w ∧ w.queue.helpNeeded = 1 ∧ (w.queue.helpNeeded = w.helpRequests ∧
      0 ≤ w.queue.helpNeeded ∧
      ((∀ id c f, w.calls id = some c → c.status ≠ .enqueuing f) → w.queue.helpNeeded = 0)) :=
  ⟨_, rfl, by decide, helpNeeded_counts_requests (@reachable_of_exec _ smallConfig 0 _ helpSchedule rfl)⟩

end Hatrack
