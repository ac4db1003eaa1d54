import Hatrack.Queue.Order
import Hatrack.Queue.Written

/-! Progress of `queue_dequeue`: the dequeue segment only moves forward, no dequeuer is ahead of
it, and a dequeue call that runs alone returns. -/

namespace Hatrack

variable {α : Type}

/-- A dequeue call past its first read (line 267) works in the dequeue segment or in one before
it. -/
def DequeuersBehind (w : World α) : Prop :=
  ∀ id t f, w.calls id = some ⟨t, .dequeuing f⟩ → f.pc ≠ .readSegments →
    f.segment ≤ w.queue.segments.dequeueSegment

section Behind

variable {cfg : QueueConfig} {w w' : World α} {id : Nat}

/-- After a step that gives call `id` the status `s`, a call holds the status it held before, or
is call `id` with `s`. -/
theorem calls_restatus {s st : CallStatus α} {k t : Nat}
    (calls : w'.calls = writeAt w.calls id ((w.calls id).map fun c => { c with status := s }))
    (found : w'.calls k = some ⟨t, st⟩) : st = s ∨ w.calls k = some ⟨t, st⟩ := by
  -- Only slot `id` of the call table is written, with the old stamp and the new status.
  rw [calls, writeAt_apply] at found
  split at found
  · obtain ⟨c, -, moved⟩ := Option.map_eq_some'.mp found
    exact .inl (Call.mk.inj moved).2.symm
  · exact .inr found

/-- A step that moves the dequeue segment forward, and leaves its own call at or behind it,
keeps every dequeuer behind it. -/
theorem DequeuersBehind.update (behind : DequeuersBehind w) {s : CallStatus α}
    (calls : w'.calls = writeAt w.calls id ((w.calls id).map fun c => { c with status := s }))
    (grows : w.queue.segments.dequeueSegment ≤ w'.queue.segments.dequeueSegment)
    (own : ∀ f, s = .dequeuing f → f.pc ≠ .readSegments →
      f.segment ≤ w'.queue.segments.dequeueSegment) :
    DequeuersBehind w' := by
  -- The moved call is covered by `own`, every other by the invariant before the step.
  intro k t f found notRead
  rcases calls_restatus calls found with moved | old
  · exact own f moved.symm notRead
  · exact Nat.le_trans (behind k t f old notRead) grows

/-- A step of `queue_enqueue` leaves the dequeue segment alone (its pointer CAS of line 230 keeps
the dequeue half it read) and gives its call an enqueue status. -/
theorem queueEnqueueStep_dequeueSegment {f : EnqueueFrame α}
    (step : queueEnqueueStep cfg w id f = some w') :
    w'.queue.segments.dequeueSegment = w.queue.segments.dequeueSegment ∧ ∃ s : CallStatus α,
      w'.calls = writeAt w.calls id ((w.calls id).map fun c => { c with status := s }) ∧
      ∀ g, s ≠ .dequeuing g := by
  -- Only the winning pointer CAS writes the segment pointers, with the dequeue half unchanged.
  cases pc : f.pc <;> simp only [queueEnqueueStep, pc] at step <;> (repeat' split at step) <;>
    cases step <;> refine ⟨?_, _, rfl, fun _ moved => nomatch moved⟩ <;>
    dsimp only [World.setStatus, World.setSeg]
  case casSegments.isTrue same => rw [same]

/-- A step of `queue_enqueue` moves the enqueue segment only by its pointer CAS (line 230), from
the segment it linked its successor to onto that successor. -/
theorem queueEnqueueStep_enqueueSegment_le {f : EnqueueFrame α} (chain : ChainInv w)
    (order : CallOrder w id (.enqueuing f)) (ok : SegCallOk w id (.enqueuing f))
    (step : queueEnqueueStep cfg w id f = some w') :
    w.queue.segments.enqueueSegment ≤ w'.queue.segments.enqueueSegment := by
  -- Every other line leaves the segment pointers as they were.
  cases pc : f.pc <;> simp only [queueEnqueueStep, pc] at step <;> (repeat' split at step) <;>
    cases step <;> dsimp only [World.setStatus, World.setSeg] <;> try exact Nat.le_refl _
  case casSegments.isTrue same =>
    rw [same, order.2.2.1 (by rw [pc]; rfl)]
    exact (chain.next_lt _ _ (ok.2.2.2 pc)).1.le

/-- A step of `queue_dequeue` keeps the enqueue segment (its pointer CAS of line 316 writes back the
enqueue half it read) and moves the dequeue segment only by that CAS, onto the successor of the
call's own segment. -/
theorem queueDequeueStep_segments {f : DequeueFrame α} (chain : ChainInv w)
    (ok : SegCallOk w id (.dequeuing f)) (step : queueDequeueStep w id f = some w') :
    w'.queue.segments.enqueueSegment = w.queue.segments.enqueueSegment ∧
      w.queue.segments.dequeueSegment ≤ w'.queue.segments.dequeueSegment := by
  -- Every other line leaves the segment pointers as they were.
  cases pc : f.pc <;> simp only [queueDequeueStep, pc] at step <;> (repeat' split at step) <;>
    cases step <;> dsimp only [World.setStatus, World.setSeg] <;> try exact ⟨rfl, Nat.le_refl _⟩
  case casSegments.isTrue same =>
    rw [same, (ok.1 (by rw [pc]; nofun)).2]
    exact ⟨rfl, (chain.next_lt _ _ (ok.2 pc)).1.le⟩

/-- A step of `queue_dequeue` keeps every dequeuer behind the dequeue segment: the winner of the
pointer CAS (line 316) follows the dequeue segment to its new place, and a loser either jumps to
the segment that won (line 322) or stays where it was. -/
theorem queueDequeueStep_behind {t : Nat} {f : DequeueFrame α} (behind : DequeuersBehind w)
    (chain : ChainInv w) (ok : SegCallOk w id (.dequeuing f))
    (call : w.calls id = some ⟨t, .dequeuing f⟩) (step : queueDequeueStep w id f = some w') :
    DequeuersBehind w' := by
  -- Away from line 316 the dequeue segment and the call's own segment stay as they were.
  have stays : f.pc ≠ .readSegments → f.segment ≤ w.queue.segments.dequeueSegment :=
    behind id t f call
  have grows := (queueDequeueStep_segments chain ok step).2
  cases pc : f.pc <;> simp only [queueDequeueStep, pc] at step <;> (repeat' split at step) <;>
    cases step <;> refine behind.update rfl grows ?_ <;>
    simp only [World.setStatus, World.setSeg, CallStatus.dequeuing.injEq, forall_eq',
      reduceCtorEq, false_implies, implies_true]
  -- The call stays in its segment, or takes the dequeue segment as its own.
  all_goals first
    | exact Nat.le_refl _ | exact fun _ => stays (by rw [pc]; nofun) | exact fun _ => Nat.le_refl _

/-- A new call starts at line 156 or 267, so it is not yet bound to any segment. -/
theorem DequeuersBehind.invoke (behind : DequeuersBehind w) {s : CallStatus α}
    (fresh : ∀ f, s = .dequeuing f → f.pc = .readSegments) : DequeuersBehind (w.invoke s) := by
  -- The new call takes the first free number; every other slot is as it was.
  intro k t f found notRead
  simp only [World.invoke, writeAt_apply] at found
  split at found
  · simp only [Option.some.injEq, Call.mk.injEq] at found
    exact absurd (fresh f found.2) notRead
  · exact behind k t f found notRead

/-- In every reachable state, every dequeue call past its first read works in the dequeue segment
or in one before it. -/
theorem dequeuersBehind_of_reachable (reach : QueueReachable cfg w) : DequeuersBehind w := by
  induction reach with
  | init _ init =>
    -- A queue just set up has no calls.
    unfold queueInitSize at init
    split at init
    · cases init
    · cases init
      intro _ _ _ found
      cases found
  | step reach step behind =>
    cases step with
    | enqueue x => exact behind.invoke nofun
    | dequeue => exact behind.invoke fun _ same => by cases same; rfl
    | run id moved =>
      unfold World.runCall at moved
      split at moved
      · -- An enqueue step leaves the dequeue segment and every dequeuer alone.
        obtain ⟨w'', step, rfl⟩ := Option.map_eq_some'.mp moved
        obtain ⟨same, s, calls, notDequeuing⟩ := queueEnqueueStep_dequeueSegment step
        have moved : DequeuersBehind w'' :=
          behind.update calls same.ge fun f moved => absurd moved (notDequeuing f)
        exact moved
      · obtain ⟨w'', step, rfl⟩ := Option.map_eq_some'.mp moved
        have moved : DequeuersBehind w'' := queueDequeueStep_behind behind
          (chainInv_of_reachable reach) ((segInv_of_reachable reach).calls_ok id _ ‹_›) ‹_› step
        exact moved
      · cases moved

/-- A step from a reachable state moves each segment pointer forward or leaves it where it was. -/
theorem QueueStep.segments_le (reach : QueueReachable cfg w) (step : QueueStep cfg w w') :
    w.queue.segments.enqueueSegment ≤ w'.queue.segments.enqueueSegment ∧
      w.queue.segments.dequeueSegment ≤ w'.queue.segments.dequeueSegment := by
  -- A new call writes no pointer; each call's step is covered by the lemma for its function.
  have chain := chainInv_of_reachable reach
  have ok := (segInv_of_reachable reach).calls_ok
  cases step with
  | enqueue x => exact ⟨Nat.le_refl _, Nat.le_refl _⟩
  | dequeue => exact ⟨Nat.le_refl _, Nat.le_refl _⟩
  | run id moved =>
    unfold World.runCall at moved
    split at moved
    · obtain ⟨w'', step, rfl⟩ := Option.map_eq_some'.mp moved
      have moved := queueEnqueueStep_enqueueSegment_le chain
        ((orderInv_of_reachable reach).calls_order id _ ‹_›) (ok id _ ‹_›) step
      exact ⟨moved, (queueEnqueueStep_dequeueSegment step).1.ge⟩
    · obtain ⟨w'', step, rfl⟩ := Option.map_eq_some'.mp moved
      have moved := queueDequeueStep_segments chain (ok id _ ‹_›) step
      exact ⟨moved.1.ge, moved.2⟩
    · cases moved

/-- Along every run from a reachable state the enqueue and dequeue segments only move forward
along the chain, and every dequeue call past its first read (line 267) works in the dequeue
segment or in one before it. -/
theorem segment_pointers_advance {w' : World α} (reach : QueueReachable cfg w)
    (run : QueueRun cfg w w') :
    w.queue.segments.enqueueSegment ≤ w'.queue.segments.enqueueSegment ∧
      w.queue.segments.dequeueSegment ≤ w'.queue.segments.dequeueSegment ∧
      DequeuersBehind w' := by
  -- Each step moves the pointers forward; the dequeuers' invariant holds in every reachable state.
  induction run with
  | refl => exact ⟨Nat.le_refl _, Nat.le_refl _, dequeuersBehind_of_reachable reach⟩
  | tail run step ih =>
    have reach' := QueueRun.reachable run reach
    have moved := step.segments_le reach'
    exact ⟨ih.1.trans moved.1, ih.2.1.trans moved.2,
      dequeuersBehind_of_reachable (reach'.step step)⟩

/-- Over the stale-bound schedule, which links two successors and drains the first segment, both
pointers move forward and no dequeuer is left ahead of the dequeue segment. -/
theorem staleBoundRun_pointers_advance :
    ∃ w w' : World Nat, queueInitSize smallConfig 0 = some w ∧
      w.exec smallConfig staleBoundSchedule = some w' ∧
      w.queue.segments.enqueueSegment ≤ w'.queue.segments.enqueueSegment ∧
      w.queue.segments.dequeueSegment ≤ w'.queue.segments.dequeueSegment ∧
      DequeuersBehind w' :=
  ⟨_, _, rfl, rfl, segment_pointers_advance (.init 0 rfl) (World.exec_run staleBoundSchedule rfl)⟩

end Behind

/-- The segment a dequeue call works in: before its first read (line 267), the dequeue segment it
is about to read. -/
def World.dequeueTarget (w : World α) (f : DequeueFrame α) : Nat :=
  if f.pc = .readSegments then w.queue.segments.dequeueSegment else f.segment

/-- The lines a dequeue call has left before its next fetch-add of line 284 or before it leaves
its segment: the loop runs lines 273, 274 and 284, then the cell CAS of line 291 goes round; the
pointer CAS of line 316 is retried at most once against pointers read back unchanged. -/
def dequeueRank (w : World α) (f : DequeueFrame α) : Nat :=
  match f.pc with
  | .readSegments => 7
  | .casCell => 6
  | .loadDequeueIndex => 5
  | .loadEnqueueIndex => 4
  | .fetchIndex => 3
  | .readNext => 2
  | .casSegments => if w.queue.segments = f.segments then 0 else 1
  | .subLen => 0

/-- The segments a dequeue call may still move to, along `next` or by a jump to the dequeue
segment (line 322). -/
def World.segmentsAhead (w : World α) (f : DequeueFrame α) : Nat :=
  w.allocated - w.dequeueTarget f

/-- The work left in the call's segment: four lines for each index below its size that the
fetch-add of line 284 may still hand out, and the lines left before the next one. -/
def World.passLeft (w : World α) (f : DequeueFrame α) : Nat :=
  let seg := w.segs (w.dequeueTarget f)
  4 * (seg.size - seg.dequeueIndex) + dequeueRank w f

section Alone

variable {cfg : QueueConfig} {w : World α} {d t : Nat} {f : DequeueFrame α}

/-- After a step, the moved call holds the status the step gave it. -/
theorem World.calls_setStatus_tick_self {W : World α} {s₀ s : CallStatus α}
    (call : w.calls d = some ⟨t, s₀⟩) (same : W.calls = w.calls) :
    ((W.setStatus d s).tick).calls d = some ⟨t, s⟩ := by
  simp [same, call]

/-- Running a call `n + 1` times is one step of it, then `n` more. -/
theorem World.exec_replicate_run {w' : World α} {n : Nat} (moved : w.runCall cfg d = some w') :
    w.exec cfg (List.replicate (n + 1) (.run d)) = w'.exec cfg (List.replicate n (.run d)) := by
  simp only [List.replicate, World.exec, moved, Option.some_bind]

/-- A step of a dequeue call in a reachable state can always be taken, and it either returns or
lowers the work left: the segments ahead, or else the work left in its segment. -/
theorem dequeueStep_progress (reach : QueueReachable cfg w)
    (call : w.calls d = some ⟨t, .dequeuing f⟩) :
    ∃ w', w.runCall cfg d = some w' ∧
      ((∃ s, w'.calls d = some ⟨t, s⟩ ∧ s.inFlight = false) ∨
        ∃ f', w'.calls d = some ⟨t, .dequeuing f'⟩ ∧
          (w'.segmentsAhead f' < w.segmentsAhead f ∨
            w'.segmentsAhead f' = w.segmentsAhead f ∧ w'.passLeft f' < w.passLeft f)) := by
  have chain := chainInv_of_reachable reach
  have ok : SegCallOk w d (.dequeuing f) := (segInv_of_reachable reach).calls_ok d _ call
  have behind := dequeuersBehind_of_reachable reach d t f call
  -- Each line either returns, stays in its segment a line nearer the next fetch-add, hands out
  -- one more index there, or moves on to a segment further down the chain.
  simp only [World.runCall, call]
  cases pc : f.pc <;> simp only [queueDequeueStep, pc, Option.map_some'] <;> (repeat' split) <;>
    refine ⟨_, rfl, ?_⟩
  all_goals first
    | exact .inl ⟨_, World.calls_setStatus_tick_self call rfl, rfl⟩
    | refine .inr ⟨_, World.calls_setStatus_tick_self call rfl, ?_⟩
  all_goals simp only [World.segmentsAhead, World.passLeft, World.dequeueTarget, dequeueRank, pc,
    World.tick, World.setStatus, World.setSeg, writeAt_same, reduceCtorEq, ite_false, ite_true,
    if_false, true_and, lt_self_iff_false, false_or]
  all_goals try omega
  case readNext.h_2 => split <;> omega
  case casSegments.isTrue =>
    -- The winner moves on to the successor of its segment, further down the chain.
    have := chain.next_lt _ _ (ok.2 pc)
    omega
  case casSegments.isFalse.isTrue _ jumped =>
    -- A loser behind the dequeue segment jumps forward to it.
    have := behind (by rw [pc]; nofun)
    have := chain.dequeue_lt
    omega
  case casSegments.isFalse.isFalse moved _ =>
    -- A loser in the dequeue segment retries once, against the pointers it read back.
    rw [if_neg moved]
    omega

/-- From any reachable state, a `queue_dequeue` call in flight that runs alone returns: after
finitely many steps of its own it has returned, with an item or with `found = false`. Each pass of
its loop hands out one more index of its segment (line 284), and it leaves a segment only for one
further down the chain, so the segments allocated bound its work. -/
theorem dequeue_returns_alone (reach : QueueReachable cfg w)
    (call : w.calls d = some ⟨t, .dequeuing f⟩) :
    ∃ n w' s, w.exec cfg (List.replicate n (.run d)) = some w' ∧ w'.calls d = some ⟨t, s⟩ ∧
      s.inFlight = false := by
  -- Induction on the segments ahead, and within one count of them on the work left there.
  generalize ahead : w.segmentsAhead f = a
  induction a using Nat.strong_induction_on generalizing w f with
  | _ a outer =>
  generalize left : w.passLeft f = p
  induction p using Nat.strong_induction_on generalizing w f with
  | _ p inner =>
  obtain ⟨w', moved, ⟨s, call', done⟩ | ⟨f', call', lower⟩⟩ := dequeueStep_progress reach call
  · exact ⟨1, w', s, World.exec_replicate_run moved, call', done⟩
  · have reach' := reach.step (.run d moved)
    rcases lower with fewer | ⟨same, less⟩
    · obtain ⟨n, w'', s, ran, ended⟩ := outer _ (ahead ▸ fewer) reach' call' rfl
      exact ⟨n + 1, w'', s, (World.exec_replicate_run moved).trans ran, ended⟩
    · obtain ⟨n, w'', s, ran, ended⟩ := inner _ (left ▸ less) reach' call' (same.trans ahead) rfl
      exact ⟨n + 1, w'', s, (World.exec_replicate_run moved).trans ran, ended⟩

/-- One enqueue returns, then a dequeue starts. -/
def aloneDequeueSchedule : List (QueueAction Nat) := enqueueRun 0 7 ++ [.dequeue]

/-- The state in which that dequeue starts. -/
def aloneDequeueStart : Option (World Nat) :=
  (queueInitSize smallConfig 0).bind fun w => w.exec smallConfig aloneDequeueSchedule

/-- That dequeue, run alone, returns. -/
theorem aloneDequeue_returns :
    ∃ w, aloneDequeueStart = some w ∧ ∃ n w' s,
      w.exec smallConfig (List.replicate n (.run 1)) = some w' ∧ w'.calls 1 = some ⟨5, s⟩ ∧
        s.inFlight = false :=
  ⟨_, rfl, dequeue_returns_alone
    (@reachable_of_exec _ smallConfig 0 _ aloneDequeueSchedule rfl) rfl⟩

end Alone


end Hatrack
