import Hatrack.Mmm.Epoch

/-! Progress of the epoch functions: a call of `mmm_commit_write`, `mmm_help_commit` or
`mmm_start_linearized_op` run alone returns within four of its own steps, but the retry loop of
`mmm_start_linearized_op` (lines 378 to 382) can be kept going for as many steps as one likes by
commits that move the epoch between its reservation and its re-read. -/

namespace Hatrack

/-- Whether a call of the epoch functions is still running. -/
def EpochStatus.inFlight : EpochStatus → Bool
  | .committed .. | .linearized .. => false
  | _ => true

/-- A schedule run step by step: the first action, then the rest. -/
theorem EpochWorld.exec_run_cons {w : EpochWorld} {id : Nat} {rest : List EpochAction} :
    w.exec (.run id :: rest) = (w.runCall id).bind fun w' => w'.exec rest := rfl

/-- The CAS of `write_epoch` leaves the calls alone. -/
@[simp] theorem EpochWorld.casWriteEpoch_calls {w : EpochWorld} {p cur : Nat} :
    (w.casWriteEpoch p cur).calls = w.calls := by
  unfold EpochWorld.casWriteEpoch; split <;> rfl

/-- The CAS of `write_epoch` as a record update: it touches `write_epoch` only. -/
theorem EpochWorld.casWriteEpoch_eq {w : EpochWorld} {p cur : Nat} :
    w.casWriteEpoch p cur = { w with
      writeEpoch := if w.writeEpoch p = 0 then writeAt w.writeEpoch p cur else w.writeEpoch } := by
  unfold EpochWorld.casWriteEpoch; split <;> rfl

section Alone

variable {w : EpochWorld} {id : Nat} {c : EpochCall}

/-- The steps a call with status `s` still takes when call `id` runs alone in `w`: the help call
commits only a record not yet stamped, and the loop of `mmm_start_linearized_op` goes round once
more only if the epoch read differs from the reservation. -/
def EpochWorld.soloSteps (w : EpochWorld) (id : Nat) : EpochStatus → Nat
  | .fetchEpoch _ => 2
  | .casWriteEpoch .. | .helpRead none => 1
  | .helpRead (some p) => if w.writeEpoch p = 0 then 3 else 1
  | .linearizeLoad => 3
  | .linearizeReserve r => if w.epoch = r then 2 else 4
  | .linearizeReload => if w.epoch = w.reservations id then 1 else 3
  | .committed .. | .linearized .. => 0

/-- A call alone never needs more than four steps. -/
theorem EpochWorld.soloSteps_le_four (s : EpochStatus) : w.soloSteps id s ≤ 4 := by
  unfold EpochWorld.soloSteps; split <;> (try split) <;> decide

/-- A call with no steps left has returned. -/
theorem EpochWorld.inFlight_of_soloSteps {s : EpochStatus} (none_left : w.soloSteps id s = 0) :
    s.inFlight = false := by
  unfold EpochWorld.soloSteps at none_left
  split at none_left <;> (try split at none_left) <;> first | rfl | cases none_left

/-- One step of a call run alone: it moves and has one step fewer left. -/
theorem EpochWorld.solo_step {n : Nat} (call : w.calls id = some c)
    (left : w.soloSteps id c.status = n + 1) :
    ∃ w' c', w.runCall id = some w' ∧ w'.calls id = some c' ∧ w'.soloSteps id c'.status = n := by
  obtain ⟨t, ie, s⟩ := c
  -- The step is the one `epochStep` takes at the call's line; its guard decides the count left.
  rcases s with _ | _ | (_ | p) | _ | _ | r | _ | _ <;>
    simp only [EpochWorld.soloSteps] at left <;> (try split_ifs at left with guard) <;>
    cases left <;>
    simp only [EpochWorld.runCall, epochStep, EpochWorld.setStatus, EpochWorld.fetchAdd,
      EpochWorld.casWriteEpoch_epoch, EpochWorld.casWriteEpoch_calls, writeAt_same,
      Option.some_bind, Option.map_some', Option.some.injEq, exists_and_left, exists_eq_left',
      eq_self_iff_true, ne_eq, not_true_eq_false, not_false_eq_true, ite_true, ite_false, *] <;>
    simp only [EpochWorld.soloSteps, writeAt_same, eq_self_iff_true, ite_true, ite_false, *]

/-- A call run alone takes exactly the steps it has left and then has returned. -/
theorem EpochWorld.solo_run (n : Nat) (call : w.calls id = some c)
    (left : w.soloSteps id c.status = n) :
    ∃ w' c', w.exec (List.replicate n (.run id)) = some w' ∧ w'.calls id = some c' ∧
      c'.status.inFlight = false := by
  induction n generalizing w c with
  | zero => exact ⟨w, c, rfl, call, EpochWorld.inFlight_of_soloSteps left⟩
  | succ n ih =>
    -- One step, then the rest from the world it leaves.
    obtain ⟨w', c', moved, call', left'⟩ := EpochWorld.solo_step call left
    obtain ⟨w'', c'', ran, returned, done⟩ := ih call' left'
    exact ⟨w'', c'', by rw [List.replicate_succ, EpochWorld.exec_run_cons, moved]; exact ran,
      returned, done⟩

/-- From any state, a call of the epoch functions run alone returns within four of its own
steps: a commit needs its fetch-add and its CAS, a help call first reads `write_epoch`, and the
loop of `mmm_start_linearized_op` ends on its second re-read at the latest once nothing moves the
epoch. -/
theorem epochCall_returns_alone (call : w.calls id = some c) :
    ∃ n w' c', n ≤ 4 ∧ w.exec (List.replicate n (.run id)) = some w' ∧ w'.calls id = some c' ∧
      c'.status.inFlight = false := by
  -- Alone the call takes exactly the steps it has left, at most four.
  obtain ⟨w', c', ran, returned, done⟩ := EpochWorld.solo_run _ call rfl
  exact ⟨_, w', c', EpochWorld.soloSteps_le_four c.status, ran, returned, done⟩

/-- A linearized call whose load a commit has overtaken goes round its loop once more, and still
returns within four steps once alone. -/
theorem overtakenLinearize_returns :
    ∃ w, (EpochWorld.init 5).exec [.startLinearizedOp, .run 0, .alloc, .commitWrite 0, .run 1] =
        some w ∧ w.calls 0 = some ⟨0, 5, .linearizeReserve 5⟩ ∧
      ∃ n w' c', n ≤ 4 ∧ w.exec (List.replicate n (.run 0)) = some w' ∧ w'.calls 0 = some c' ∧
        c'.status.inFlight = false :=
  ⟨_, rfl, rfl, epochCall_returns_alone rfl⟩

end Alone

/-- Two schedules one after the other. -/
theorem EpochWorld.exec_append :
    ∀ {w : EpochWorld} (acts acts' : List EpochAction),
      w.exec (acts ++ acts') = (w.exec acts).bind fun w' => w'.exec acts'
  | _, [], _ => rfl
  | _, .alloc :: acts, acts' => EpochWorld.exec_append acts acts'
  | w, .commitWrite p :: acts, acts' => by
    -- The record is allocated or the whole schedule fails.
    by_cases named : p < w.allocated <;>
      simp only [List.cons_append, EpochWorld.exec, named, ↓reduceIte, Option.none_bind]
    exact EpochWorld.exec_append acts acts'
  | w, .helpCommit ptr :: acts, acts' => by
    cases named : ptr.all (· < w.allocated) <;>
      simp only [List.cons_append, EpochWorld.exec, named, Bool.false_eq_true, ↓reduceIte,
        Option.none_bind]
    exact EpochWorld.exec_append acts acts'
  | _, .startLinearizedOp :: acts, acts' => EpochWorld.exec_append acts acts'
  | w, .run id :: acts, acts' => by
    -- The call moves or the whole schedule fails.
    cases moved : w.runCall id with
    | none => simp only [List.cons_append, EpochWorld.exec_run_cons, moved, Option.none_bind]
    | some w' =>
      simp only [List.cons_append, EpochWorld.exec_run_cons, moved, Option.some_bind]
      exact EpochWorld.exec_append acts acts'

/-- The epoch moves on every fetch-add: `(e + 1) mod 2^64` is never `e`. -/
theorem epochSucc_ne (e : Nat) : epochSucc e ≠ e := by
  unfold epochSucc wordSize; omega

section Starve

/-- One round that keeps `mmm_start_linearized_op` looping: call 0 stores its reservation, then a
writer allocates record `r` and commits it, call `r + 1` running to its return, and its fetch-add
moves the epoch before call 0's re-read. -/
def starveRound (r : Nat) : List EpochAction :=
  [.run 0, .alloc, .commitWrite r, .run (r + 1), .run (r + 1), .run 0]

/-- `n` rounds, the first with record `r`. -/
def starveRounds (r : Nat) : Nat → List EpochAction
  | 0 => []
  | n + 1 => starveRound r ++ starveRounds (r + 1) n

/-- Start call 0 and let it load the epoch, then `n` rounds committing records 0 to `n - 1`. -/
def starveSchedule (n : Nat) : List EpochAction :=
  [.startLinearizedOp, .run 0] ++ starveRounds 0 n

/-- Every call but call 0 has returned: the commits were made one after the other, as a single
writer thread makes them. -/
def WritersReturned (w : EpochWorld) : Prop :=
  ∀ j c, j ≠ 0 → w.calls j = some c → c.status.inFlight = false

variable {w : EpochWorld} {t ie r : Nat}

/-- A round takes call 0 from line 379 with the current epoch back to line 379 with the next
epoch, and leaves the commit it starts returned. -/
theorem starveRound_run (call : w.calls 0 = some ⟨t, ie, .linearizeReserve w.epoch⟩)
    (fresh : w.started = r + 1) (records : w.allocated = r) (writers : WritersReturned w) :
    ∃ w', w.exec (starveRound r) = some w' ∧
      w'.calls 0 = some ⟨t, ie, .linearizeReserve w'.epoch⟩ ∧ w'.started = r + 2 ∧
      w'.allocated = r + 1 ∧ WritersReturned w' := by
  -- Run the six moves one after the other; the re-read differs from the reservation.
  have other : (0 : Nat) ≠ r + 1 := (Nat.succ_ne_zero r).symm
  simp only [starveRound, EpochWorld.exec, EpochWorld.runCall, EpochWorld.mmmAlloc,
    EpochWorld.casWriteEpoch_eq, call, epochStep, EpochWorld.setStatus, EpochWorld.fetchAdd,
    EpochWorld.invoke, fresh, records, writeAt_same, writeAt_ne other, Option.map_some',
    Option.some_bind, Nat.lt_succ_self, ↓reduceIte, ne_eq, epochSucc_ne, not_false_eq_true,
    Option.some.injEq, exists_eq_left', true_and]
  -- The writer's call is the only other one that moved, and it returned.
  intro j c notZero found
  simp only [writeAt_apply, if_neg notZero] at found
  split at found
  · cases found
    rfl
  · exact writers j c notZero found

/-- `n` rounds keep call 0 at line 379 with the current epoch, and every commit returned. -/
theorem starveRounds_run (n : Nat) (call : w.calls 0 = some ⟨t, ie, .linearizeReserve w.epoch⟩)
    (fresh : w.started = r + 1) (records : w.allocated = r) (writers : WritersReturned w) :
    ∃ w', w.exec (starveRounds r n) = some w' ∧
      w'.calls 0 = some ⟨t, ie, .linearizeReserve w'.epoch⟩ ∧ WritersReturned w' := by
  induction n generalizing w r with
  | zero => exact ⟨w, rfl, call, writers⟩
  | succ n ih =>
    -- One round, then the rest from the world it leaves.
    obtain ⟨w', ran, call', fresh', records', writers'⟩ :=
      starveRound_run call fresh records writers
    obtain ⟨w'', rest, looping⟩ := ih call' fresh' records' writers'
    exact ⟨w'', by rw [starveRounds, EpochWorld.exec_append, ran]; exact rest, looping⟩

/-- Each round gives call 0 two steps. -/
theorem starveRounds_count (r n : Nat) : (starveRounds r n).count (.run 0) = 2 * n := by
  induction n generalizing r with
  | zero => rfl
  | succ n ih =>
    rw [starveRounds, List.count_append, ih]
    -- Of a round's six moves, two are call 0's.
    have other : EpochAction.run 0 ≠ .run (r + 1) := fun same => by cases same
    have alloc : EpochAction.run 0 ≠ .alloc := fun same => by cases same
    have commit : EpochAction.run 0 ≠ .commitWrite r := fun same => by cases same
    simp only [starveRound, List.count_cons_self, List.count_cons_of_ne other,
      List.count_cons_of_ne alloc, List.count_cons_of_ne commit, List.count_nil]
    omega

end Starve

/-- `mmm_start_linearized_op` is not wait-free, even against a single writer: from any starting
epoch and for every `n`, a schedule gives its call `2n + 1` steps of its own and leaves it still in
flight, back at line 379 with the epoch it just re-read, while every `mmm_commit_write` of the
schedule has returned, because in each round one commit's fetch-add moves the epoch between the
call's reservation and its re-read (lines 378 to 382). -/
theorem linearizedOp_not_wait_free (e0 n : Nat) :
    ∃ w, (EpochWorld.init e0).exec (starveSchedule n) = some w ∧
      (starveSchedule n).count (.run 0) = 2 * n + 1 ∧
      (∃ t ie, w.calls 0 = some ⟨t, ie, .linearizeReserve w.epoch⟩) ∧ WritersReturned w := by
  -- The prefix brings call 0 to line 379 with the current epoch; the rounds keep it there.
  obtain ⟨w0, start, call⟩ : ∃ w0,
      (EpochWorld.init e0).exec [.startLinearizedOp, .run 0] = some w0 ∧
        w0.calls 0 = some ⟨0, e0, .linearizeReserve w0.epoch⟩ :=
    ⟨_, rfl, rfl⟩
  have writers : WritersReturned w0 := fun j c notZero found => by
    cases start
    simp [EpochWorld.init, EpochWorld.invoke, writeAt_apply, notZero] at found
  obtain ⟨w, rounds, looping, returned⟩ :=
    starveRounds_run n call (by cases start; rfl) (by cases start; rfl) writers
  refine ⟨w, by rw [starveSchedule, EpochWorld.exec_append, start]; exact rounds, ?_,
    ⟨_, _, looping⟩, returned⟩
  rw [starveSchedule, List.count_append, starveRounds_count, Nat.add_comm]
  rfl

section Interference

variable {w w' : EpochWorld} {id k : Nat}

/-- What one step of call `k` can change: its own status, keeping the record it works on, its
own reservation, the epoch by a fetch-add, and a `write_epoch` from 0 by its CAS. -/
structure CallMove (w w' : EpochWorld) (k : Nat) : Prop where
  allocated : w'.allocated = w.allocated
  started : w'.started = w.started
  calls_ne : ∀ j, j ≠ k → w'.calls j = w.calls j
  target : ∀ c', w'.calls k = some c' → ∃ c, w.calls k = some c ∧ c'.status.target = c.status.target
  reservations_ne : ∀ j, j ≠ k → w'.reservations j = w.reservations j
  epoch : (w'.epoch = w.epoch ∧ w'.increments = w.increments) ∨ w'.increments = w.increments + 1
  stamp : ∀ p, w'.writeEpoch p = 0 → w.writeEpoch p = 0

/-- The CAS writes `write_epoch` only where it was 0. -/
theorem EpochWorld.casWriteEpoch_zero {p cur q : Nat}
    (zero : (w.casWriteEpoch p cur).writeEpoch q = 0) : w.writeEpoch q = 0 := by
  rw [EpochWorld.casWriteEpoch_eq] at zero
  dsimp only at zero
  split at zero
  · rw [writeAt_apply] at zero
    split at zero
    · subst q; assumption
    · exact zero
  · exact zero

/-- A call that writes shared memory as `W` does and then moves to a status on the same record
makes such a move. -/
theorem CallMove.of_memory {W : EpochWorld} {c : EpochCall} {s : EpochStatus}
    (call : w.calls k = some c) (target : s.target = c.status.target) (calls : W.calls = w.calls)
    (allocated : W.allocated = w.allocated) (started : W.started = w.started)
    (reserved : ∀ j, j ≠ k → W.reservations j = w.reservations j)
    (epoch : (W.epoch = w.epoch ∧ W.increments = w.increments) ∨ W.increments = w.increments + 1)
    (stamp : ∀ p, W.writeEpoch p = 0 → w.writeEpoch p = 0) :
    CallMove w { W.setStatus k s with clock := W.clock + 1 } k := by
  refine ⟨allocated, started, fun j other => ?_, fun c' found => ⟨c, call, ?_⟩, reserved, epoch,
    stamp⟩
  · simp only [EpochWorld.setStatus, writeAt_ne other, calls]
  · simp only [EpochWorld.setStatus, writeAt_same, calls, call, Option.map_some',
      Option.some.injEq] at found
    subst found
    exact target

/-- Every step of a call is such a move. -/
theorem EpochWorld.runCall_move (moved : w.runCall k = some w') : CallMove w w' k := by
  obtain ⟨c, call, stepped⟩ := Option.bind_eq_some.mp moved
  obtain ⟨w'', step, rfl⟩ := Option.map_eq_some'.mp stepped
  -- The CAS writes only `write_epoch`, from 0.
  have cas : ∀ p cur, (w.casWriteEpoch p cur).calls = w.calls ∧
      (w.casWriteEpoch p cur).allocated = w.allocated ∧
      (w.casWriteEpoch p cur).started = w.started ∧
      (w.casWriteEpoch p cur).reservations = w.reservations := fun p cur => by
    simp only [EpochWorld.casWriteEpoch_eq, and_self]
  -- One case per line a call can be at; each keeps its record and touches only what it names.
  rcases status : c.status with p | ⟨p, cur⟩ | (_ | p) | _ | _ | r | _ | _ <;>
    rw [status] at step <;> simp only [epochStep] at step <;> (try split at step) <;>
    cases step
  case fetchEpoch.refl =>
    exact .of_memory call (by rw [status]; rfl) rfl rfl rfl (fun _ _ => rfl) (.inr rfl)
      fun _ zero => zero
  case casWriteEpoch.refl =>
    obtain ⟨calls, allocated, started, reserved⟩ := cas p cur
    exact .of_memory call (by rw [status]; rfl) calls allocated started
      (fun j _ => by rw [reserved])
      (.inl ⟨EpochWorld.casWriteEpoch_epoch, EpochWorld.casWriteEpoch_increments⟩)
      fun _ zero => EpochWorld.casWriteEpoch_zero zero
  case linearizeReserve.refl =>
    exact .of_memory call (by rw [status]; rfl) rfl rfl rfl (fun j other => writeAt_ne other)
      (.inl ⟨rfl, rfl⟩) fun _ zero => zero
  all_goals
    exact .of_memory call (by rw [status]; rfl) rfl rfl rfl (fun _ _ => rfl) (.inl ⟨rfl, rfl⟩)
      fun _ zero => zero

/-- A call's steps left grow by at most two for each fetch-add, and not at all otherwise: only
the epoch, its own reservation and the stamp of its record decide them. -/
theorem EpochWorld.soloSteps_frame {s : EpochStatus}
    (reserved : w'.reservations id = w.reservations id)
    (epoch : (w'.epoch = w.epoch ∧ w'.increments = w.increments) ∨
      w'.increments = w.increments + 1)
    (stamp : ∀ p, s.target = some p → w'.writeEpoch p = 0 → w.writeEpoch p = 0) :
    w'.soloSteps id s + 2 * w.increments ≤ w.soloSteps id s + 2 * w'.increments := by
  rcases s with p | ⟨p, cur⟩ | (_ | p) | _ | _ | r | _ | _ <;>
    simp only [EpochWorld.soloSteps, reserved]
  case helpRead.some =>
    -- A record once stamped stays stamped, so the help call has no more to do.
    have kept := stamp p rfl
    rcases epoch with ⟨-, same⟩ | more <;> split_ifs <;> omega
  -- The epoch moves only with a fetch-add, and the loop then has at most one more round.
  all_goals
    rcases epoch with ⟨same, same'⟩ | more <;> (try simp only [same]) <;> (try split_ifs) <;> omega

/-- What every reachable state keeps, whether or not the epoch has wrapped: no calls past those
started, and every record a call works on allocated. -/
structure CallsAllocated (w : EpochWorld) : Prop where
  fresh : ∀ k, w.started ≤ k → w.calls k = none
  target_lt : ∀ k c p, w.calls k = some c → c.status.target = some p → p < w.allocated

namespace CallsAllocated

/-- A call in the table has a number below `started`. -/
theorem lt_started (inv : CallsAllocated w) {c : EpochCall} (call : w.calls k = some c) :
    k < w.started :=
  Nat.lt_of_not_le fun past => by simp [inv.fresh k past] at call

/-- A new call on an allocated record keeps the invariant. -/
theorem invoke (inv : CallsAllocated w) {s : EpochStatus}
    (ok : ∀ p, s.target = some p → p < w.allocated) : CallsAllocated (w.invoke s) := by
  refine ⟨fun j past => ?_, fun j c p found tgt => ?_⟩
  · simp only [EpochWorld.invoke] at past ⊢
    rw [writeAt_ne (by omega)]
    exact inv.fresh j (by omega)
  · simp only [EpochWorld.invoke, writeAt_apply] at found ⊢
    split at found
    · cases found; exact ok p tgt
    · exact inv.target_lt j c p found tgt

/-- Every step keeps the invariant. -/
theorem step (inv : CallsAllocated w) (step : EpochStep w w') : CallsAllocated w' := by
  cases step with
  | alloc =>
    exact ⟨inv.fresh, fun j c p call tgt => Nat.lt_succ_of_lt (inv.target_lt j c p call tgt)⟩
  | commitWrite p named => exact inv.invoke fun q same => by cases same; exact named
  | helpCommit ptr named => exact inv.invoke named
  | startLinearizedOp => exact inv.invoke fun q none => by cases none
  | run k moved =>
    -- The mover is a started call, and its record stays the one it had.
    have move := EpochWorld.runCall_move moved
    obtain ⟨c, call, -⟩ := Option.bind_eq_some.mp moved
    have mover := inv.lt_started call
    have started := move.started
    refine ⟨fun j past => ?_, fun j c' p found tgt => ?_⟩
    · rw [move.calls_ne j (by omega)]
      exact inv.fresh j (by omega)
    · rw [move.allocated]
      by_cases same : j = k
      · subst same
        obtain ⟨c₀, call₀, target⟩ := move.target c' found
        exact inv.target_lt j c₀ p call₀ (target ▸ tgt)
      · exact inv.target_lt j c' p (move.calls_ne j same ▸ found) tgt

end CallsAllocated

/-- Every reachable state keeps the invariant. -/
theorem callsAllocated_of_reachable (reach : EpochReachable w) : CallsAllocated w := by
  induction reach with
  | init => exact ⟨fun _ _ => rfl, fun _ _ _ none => by cases none⟩
  | step _ step ih => exact ih.step step

/-- A call that can still move has steps left. -/
theorem EpochWorld.soloSteps_pos {c : EpochCall} (call : w.calls id = some c)
    (moved : w.runCall id = some w') : 0 < w.soloSteps id c.status := by
  refine Nat.pos_of_ne_zero fun none_left => ?_
  have done := EpochWorld.inFlight_of_soloSteps none_left
  obtain ⟨t, ie, s⟩ := c
  simp only [EpochWorld.runCall, call, Option.some_bind] at moved
  -- A returned call has no step to take.
  cases s <;> simp_all [EpochStatus.inFlight, epochStep]

/-- Along every schedule from a reachable state, a call of the epoch functions takes no more
steps than it has left alone plus two for each fetch-add of `mmm_epoch` in the schedule: a commit
or help call takes at most three in all, and the loop of `mmm_start_linearized_op` goes round
again only when a fetch-add has moved the epoch since its reservation, so the system as a whole
moves on while it loops. -/
theorem epochCall_steps_bounded {c : EpochCall} (reach : EpochReachable w)
    (call : w.calls id = some c) {acts : List EpochAction} (ran : w.exec acts = some w') :
    acts.count (.run id) + 2 * w.increments ≤ w.soloSteps id c.status + 2 * w'.increments := by
  induction acts generalizing w c with
  | nil => cases ran; simp
  | cons act rest ih =>
    have inv := callsAllocated_of_reachable reach
    -- A new call leaves this one, the epoch and the stamps alone.
    have invoked : ∀ s, (w.invoke s).calls id = some c ∧
        (w.invoke s).soloSteps id c.status = w.soloSteps id c.status ∧
        (w.invoke s).increments = w.increments := fun s =>
      ⟨by simp only [EpochWorld.invoke, writeAt_ne (Nat.ne_of_lt (inv.lt_started call)), call],
        rfl, rfl⟩
    cases act with
    | alloc =>
      -- `calloc` zeroes only the new record's header.
      have kept : w.mmmAlloc.soloSteps id c.status + 2 * w.increments ≤
          w.soloSteps id c.status + 2 * w.mmmAlloc.increments :=
        EpochWorld.soloSteps_frame rfl (.inl ⟨rfl, rfl⟩) fun p tgt zero => by
          simpa [EpochWorld.mmmAlloc, writeAt_ne (Nat.ne_of_lt (inv.target_lt id c p call tgt))]
            using zero
      have later := ih (reach.step (.alloc w)) call ran
      have same : w.mmmAlloc.increments = w.increments := rfl
      rw [List.count_cons_of_ne (fun same => by cases same)]
      omega
    | commitWrite p =>
      simp only [EpochWorld.exec] at ran
      split at ran
      · obtain ⟨call', same, more⟩ := invoked (.fetchEpoch p)
        have later := ih (reach.step (.commitWrite w p ‹_›)) call' ran
        rw [List.count_cons_of_ne (fun same => by cases same)]
        omega
      · cases ran
    | helpCommit ptr =>
      simp only [EpochWorld.exec] at ran
      split at ran
      · rename_i guard
        obtain ⟨call', same, more⟩ := invoked (.helpRead ptr)
        have later := ih (reach.step (.helpCommit w ptr fun p named => by
          subst named; simpa using guard)) call' ran
        rw [List.count_cons_of_ne (fun same => by cases same)]
        omega
      · cases ran
    | startLinearizedOp =>
      obtain ⟨call', same, more⟩ := invoked .linearizeLoad
      have later := ih (reach.step (.startLinearizedOp w)) call' ran
      rw [List.count_cons_of_ne (fun same => by cases same)]
      omega
    | run k =>
      obtain ⟨w₁, moved, ran'⟩ := Option.bind_eq_some.mp ran
      have move := EpochWorld.runCall_move moved
      have grown : w.increments ≤ w₁.increments := by
        rcases move.epoch with ⟨-, same⟩ | more <;> omega
      by_cases own : k = id
      · -- The call's own step: one step fewer left.
        subst own
        obtain ⟨n, left⟩ : ∃ n, w.soloSteps k c.status = n + 1 :=
          ⟨_, (Nat.succ_pred_eq_of_pos (EpochWorld.soloSteps_pos call moved)).symm⟩
        obtain ⟨w₂, c', moved', call', left'⟩ := EpochWorld.solo_step call left
        rw [moved'] at moved
        cases moved
        have later := ih (reach.step (.run k moved')) call' ran'
        rw [List.count_cons_self]
        omega
      · -- Another call's step: at most two more steps left for each fetch-add it made.
        have kept : w₁.soloSteps id c.status + 2 * w.increments ≤
            w.soloSteps id c.status + 2 * w₁.increments :=
          EpochWorld.soloSteps_frame (move.reservations_ne id (Ne.symm own)) move.epoch
            fun p _ => move.stamp p
        have later := ih (reach.step (.run k moved))
          (by rw [move.calls_ne id (Ne.symm own)]; exact call) ran'
        rw [List.count_cons_of_ne (fun same => own (by cases same; rfl))]
        omega

/-- A call of `mmm_start_linearized_op` just started, from epoch 5. -/
def freshLinearize : EpochWorld :=
  (EpochWorld.init 5).invoke .linearizeLoad

/-- The call loads the epoch, a commit moves it, and the call goes round its loop once more. -/
def overtakingSchedule : List EpochAction :=
  [.run 0, .alloc, .commitWrite 0, .run 1, .run 0, .run 0, .run 0]

/-- Four steps of the linearized call against one fetch-add: within `3 + 2 * 1`. -/
theorem overtaking_steps_bounded :
    ∃ w', freshLinearize.exec overtakingSchedule = some w' ∧
      (EpochReachable freshLinearize ∧ freshLinearize.calls 0 = some ⟨0, 5, .linearizeLoad⟩) ∧
      overtakingSchedule.count (.run 0) + 2 * freshLinearize.increments ≤
        freshLinearize.soloSteps 0 .linearizeLoad + 2 * w'.increments :=
  ⟨_, rfl, ⟨.step (.init 5 (by decide)) (.startLinearizedOp _), rfl⟩,
    epochCall_steps_bounded (.step (.init 5 (by decide)) (.startLinearizedOp _))
      (show freshLinearize.calls 0 = some ⟨0, 5, .linearizeLoad⟩ from rfl) rfl⟩

end Interference

end Hatrack
