import Hatrack.Queue.State

/-! The atomic steps of `queue_enqueue` and `queue_dequeue`, and the interleavings of queue calls. -/

namespace Hatrack

variable {α : Type}

/-- The locals of `queue_enqueue` on entry: `step = 1` (line 151), `need_help = false` (line 155). -/
def enqueueEntry (item : α) : EnqueueFrame α :=
  { item, pc := .readSegments, segments := ⟨0, 0⟩, segment := 0, endSize := 0, curIx := 0,
    step := 1, needHelp := false, newSize := 0, newSegment := 0, needToEnqueue := false,
    placed := ⟨0, 0⟩ }

/-- The locals of `queue_dequeue` on entry. -/
def dequeueEntry : DequeueFrame α :=
  { pc := .readSegments, segments := ⟨0, 0⟩, segment := 0, curIx := 0, newSegment := 0,
    cellContents := .empty }

namespace EnqueueFrame

/-- After a fetch-add: the loop test of line 164 against `end_size`, then the test of line 180,
which sets `need_help` on the way into the help branch. -/
@[simp] def afterFetch (cfg : QueueConfig) (f : EnqueueFrame α) : EnqueueFrame α :=
  { f with
    pc := if f.curIx < f.endSize then .casCell
      else if cfg.queueHelpValue ≤ f.step ∧ f.needHelp = false then .addHelp else .reread
    needHelp := f.needHelp || decide (f.endSize ≤ f.curIx ∧ cfg.queueHelpValue ≤ f.step) }

/-- Once the item is written: lines 168 and 238 give back a help request before `len` is bumped. -/
@[simp] def afterWrite (f : EnqueueFrame α) : EnqueueFrame α :=
  { f with pc := if f.needHelp then .subHelp else .addLen }

/-- After the pointer CAS loop (line 237): return if the new segment's first cell holds our item,
otherwise enqueue again in the segment that won (lines 247 and 248). -/
@[simp] def afterLink (f : EnqueueFrame α) : EnqueueFrame α :=
  { f with
    segment := if f.needToEnqueue then f.newSegment else f.segment
    pc := if f.needToEnqueue then .fetchIndex else if f.needHelp then .subHelp else .addLen }

end EnqueueFrame

/-- The segment `queue_enqueue` allocates at lines 211 to 215: `new_size` cells, the candidate
already in cell 0 and `enqueue_index = 1`, private until the CAS of line 218 links it. -/
def enqueueSuccessor (f : EnqueueFrame α) (id : Nat) : QueueSegment α :=
  { (queueNewSegment f.newSize : QueueSegment α) with
    enqueueIndex := 1, cells := writeAt (fun _ => .empty) 0 (.used f.item id) }

/-- One atomic step of the `queue_enqueue` call `id`, at the line its frame names. A CAS on a cell
past the end of the segment's array writes outside the allocation; the model stops there. -/
def queueEnqueueStep (cfg : QueueConfig) (w : World α) (id : Nat) (f : EnqueueFrame α) :
    Option (World α) :=
  match f.pc with
  | .readSegments =>
    -- Lines 156 to 158: the loop bound is the size of the first segment the call sees.
    let segments := w.queue.segments
    some (w.setStatus id (.enqueuing { f with
      pc := .fetchIndex, segments := segments, segment := segments.enqueueSegment
      endSize := (w.segs segments.enqueueSegment).size }))
  | .fetchIndex =>
    let seg := w.segs f.segment
    some ((w.setSeg f.segment { seg with enqueueIndex := seg.enqueueIndex + f.step }).setStatus id
      (.enqueuing ({ f with curIx := seg.enqueueIndex }.afterFetch cfg)))
  | .casCell =>
    let seg := w.segs f.segment
    if f.curIx < seg.size then
      match seg.cells f.curIx with
      | .empty =>
        let written := writeAt seg.cells f.curIx (.used f.item id)
        some ((w.setSeg f.segment { seg with cells := written }).setStatus id
          (.enqueuing { f with placed := ⟨f.segment, f.curIx⟩ }.afterWrite))
      -- Line 176: a lost cell doubles the step.
      | _ => some (w.setStatus id (.enqueuing { f with step := 2 * f.step, pc := .fetchIndex }))
    else none
  | .addHelp =>
    some ({ w with queue := { w.queue with helpNeeded := w.queue.helpNeeded + 1 } }.setStatus id
      (.enqueuing { f with pc := .rereadHelped }))
  | .rereadHelped =>
    -- Lines 184 to 192: follow a newer enqueue segment, or plan a successor of twice the size.
    let segments := w.queue.segments
    if segments.enqueueSegment ≠ f.segment then
      some (w.setStatus id (.enqueuing { f with
        segments := segments, segment := segments.enqueueSegment, pc := .fetchIndex }))
    else
      some (w.setStatus id (.enqueuing { f with
        segments := segments, newSize := 2 * (w.segs f.segment).size, pc := .allocSegment }))
  | .reread =>
    -- Lines 195 to 201.
    let segments := w.queue.segments
    if segments.enqueueSegment ≠ f.segment then
      some (w.setStatus id (.enqueuing { f with
        segments := segments, segment := segments.enqueueSegment, pc := .fetchIndex }))
    else some (w.setStatus id (.enqueuing { f with segments := segments, pc := .readHelp }))
  | .readHelp =>
    -- Lines 203 to 208: double while anyone asks for help, otherwise use the default size.
    let newSize :=
      if w.queue.helpNeeded ≠ 0 then 2 * (w.segs f.segment).size else w.queue.defaultSegmentSize
    some (w.setStatus id (.enqueuing { f with newSize := newSize, pc := .allocSegment }))
  | .allocSegment =>
    some ({ w with
      segs := writeAt w.segs w.allocated (enqueueSuccessor f id)
      allocated := w.allocated + 1 }.setStatus id
      (.enqueuing { f with newSegment := w.allocated, pc := .casNext }))
  | .casNext =>
    -- Lines 218 to 225: a loser frees its segment and adopts the winner.
    let seg := w.segs f.segment
    match seg.next with
    | none =>
      some ((w.setSeg f.segment { seg with next := some f.newSegment }).setStatus id
        (.enqueuing { f with
          needToEnqueue := false, placed := ⟨f.newSegment, 0⟩, pc := .casSegments }))
    | some winner =>
      some ({ w with freed := w.freed ++ [f.newSegment] }.setStatus id
        (.enqueuing { f with newSegment := winner, needToEnqueue := true, pc := .casSegments }))
  | .casSegments =>
    -- Lines 230 to 235: retry while only the dequeue segment moved.
    if w.queue.segments = f.segments then
      some ({ w with queue := { w.queue with
        segments := ⟨f.newSegment, f.segments.dequeueSegment⟩ } }.setStatus id
        (.enqueuing f.afterLink))
    else
      let segments := w.queue.segments
      if segments.enqueueSegment ≠ f.segment then
        some (w.setStatus id (.enqueuing { f with segments := segments }.afterLink))
      else some (w.setStatus id (.enqueuing { f with segments := segments }))
  | .subHelp =>
    some ({ w with queue := { w.queue with helpNeeded := w.queue.helpNeeded - 1 } }.setStatus id
      (.enqueuing { f with pc := .addLen }))
  | .addLen =>
    some ({ w with queue := { w.queue with len := w.queue.len + 1 } }.setStatus id
      (.enqueued f.item f.placed w.clock))

/-- One atomic step of the `queue_dequeue` call `id`, at the line its frame names. -/
def queueDequeueStep (w : World α) (id : Nat) (f : DequeueFrame α) : Option (World α) :=
  match f.pc with
  | .readSegments =>
    let segments := w.queue.segments
    some (w.setStatus id (.dequeuing { f with
      segments := segments, segment := segments.dequeueSegment, pc := .loadDequeueIndex }))
  | .loadDequeueIndex =>
    some (w.setStatus id (.dequeuing { f with
      curIx := (w.segs f.segment).dequeueIndex, pc := .loadEnqueueIndex }))
  | .loadEnqueueIndex =>
    -- Lines 274 to 282: past the end move on; at or past `head_ix` the queue is empty.
    let seg := w.segs f.segment
    if seg.size ≤ f.curIx then some (w.setStatus id (.dequeuing { f with pc := .readNext }))
    else if seg.enqueueIndex ≤ f.curIx then some (w.setStatus id (.notFound w.clock))
    else some (w.setStatus id (.dequeuing { f with pc := .fetchIndex }))
  | .fetchIndex =>
    let seg := w.segs f.segment
    let w' := w.setSeg f.segment { seg with dequeueIndex := seg.dequeueIndex + 1 }
    if seg.size ≤ seg.dequeueIndex then
      some (w'.setStatus id (.dequeuing { f with curIx := seg.dequeueIndex, pc := .readNext }))
    else
      let claim : Claim := ⟨id, ⟨f.segment, seg.dequeueIndex⟩, w.clock⟩
      some ({ w' with claims := w.claims ++ [claim] }.setStatus id
        (.dequeuing { f with curIx := seg.dequeueIndex, pc := .casCell }))
  | .casCell =>
    -- Lines 289 to 295: mark an empty cell too slow and go on, otherwise take what the cell holds.
    let seg := w.segs f.segment
    match seg.cells f.curIx with
    | .empty =>
      let marked := writeAt seg.cells f.curIx .tooSlow
      some ((w.setSeg f.segment { seg with cells := marked }).setStatus id
        (.dequeuing { f with pc := .loadDequeueIndex }))
    | contents => some (w.setStatus id (.dequeuing { f with cellContents := contents, pc := .subLen }))
  | .subLen =>
    some ({ w with queue := { w.queue with len := w.queue.len - 1 } }.setStatus id
      (.found f.cellContents ⟨f.segment, f.curIx⟩ w.clock))
  | .readNext =>
    -- Lines 302 to 311: with no successor yet the queue is empty.
    match (w.segs f.segment).next with
    | none => some (w.setStatus id (.notFound w.clock))
    | some n => some (w.setStatus id (.dequeuing { f with newSegment := n, pc := .casSegments }))
  | .casSegments =>
    -- Lines 313 to 337: the candidate is `(segments.enqueue_segment, new_segment)`.
    if w.queue.segments = f.segments then
      let candidate : QueueSegPtrs := ⟨f.segments.enqueueSegment, f.newSegment⟩
      some ({ w with
        queue := { w.queue with segments := candidate }
        retired := w.retired ++ [f.segment] }.setStatus id
        (.dequeuing { f with
          segments := candidate, segment := f.newSegment, pc := .loadDequeueIndex }))
    else
      let segments := w.queue.segments
      if segments.dequeueSegment ≠ f.segment then
        some (w.setStatus id (.dequeuing { f with
          segments := segments, segment := segments.dequeueSegment, pc := .loadDequeueIndex }))
      else some (w.setStatus id (.dequeuing { f with segments := segments }))

/-- What a call has added to `len`: one once an enqueue returned (lines 173 and 243), minus one
once a dequeue returned an item (line 297). -/
def CallStatus.lenWeight : CallStatus α → Int
  | .enqueued .. => 1
  | .found .. => -1
  | _ => 0

/-- A step of `queue_enqueue` changes the status of its own call and no other, takes no time of
its own, and moves `len` only as its call returns. -/
theorem queueEnqueueStep_frame {cfg : QueueConfig} {w w' : World α} {id : Nat}
    {f : EnqueueFrame α} (step : queueEnqueueStep cfg w id f = some w') :
    ∃ s, w'.calls = writeAt w.calls id ((w.calls id).map fun c => { c with status := s }) ∧
      w'.started = w.started ∧ w'.clock = w.clock ∧ w'.queue.len = w.queue.len + s.lenWeight := by
  -- Every line ends by setting the call's status in a world with the same calls.
  cases pc : f.pc <;> simp only [queueEnqueueStep, pc] at step <;> (repeat' split at step) <;>
    cases step <;> exact ⟨_, rfl, rfl, rfl, by simp [CallStatus.lenWeight]⟩

/-- A step of `queue_dequeue` changes the status of its own call and no other, takes no time of
its own, and moves `len` only as its call returns. -/
theorem queueDequeueStep_frame {w w' : World α} {id : Nat} {f : DequeueFrame α}
    (step : queueDequeueStep w id f = some w') :
    ∃ s, w'.calls = writeAt w.calls id ((w.calls id).map fun c => { c with status := s }) ∧
      w'.started = w.started ∧ w'.clock = w.clock ∧ w'.queue.len = w.queue.len + s.lenWeight := by
  -- Every line ends by setting the call's status in a world with the same calls.
  cases pc : f.pc <;> simp only [queueDequeueStep, pc] at step <;> (repeat' split at step) <;>
    cases step <;> exact ⟨_, rfl, rfl, rfl, by simp [CallStatus.lenWeight] <;> omega⟩

namespace World

/-- Call `id` takes its next atomic step, if it is in flight and can. -/
def runCall (cfg : QueueConfig) (w : World α) (id : Nat) : Option (World α) :=
  match w.calls id with
  | some ⟨_, .enqueuing f⟩ => (queueEnqueueStep cfg w id f).map tick
  | some ⟨_, .dequeuing f⟩ => (queueDequeueStep w id f).map tick
  | _ => none

/-- A new call enters with the next call number, stamped with the current step. -/
def invoke (w : World α) (status : CallStatus α) : World α :=
  { w with
    calls := writeAt w.calls w.started (some ⟨w.clock, status⟩)
    started := w.started + 1, clock := w.clock + 1 }

end World

/-- One step of the system: a new `queue_enqueue` or `queue_dequeue` call starts, or a call in
flight takes its next atomic step. -/
inductive QueueStep (cfg : QueueConfig) : World α → World α → Prop where
  /-- Some thread calls `queue_enqueue(self, item)`. -/
  | enqueue (w : World α) (item : α) : QueueStep cfg w (w.invoke (.enqueuing (enqueueEntry item)))
  /-- Some thread calls `queue_dequeue(self, &found)`. -/
  | dequeue (w : World α) : QueueStep cfg w (w.invoke (.dequeuing dequeueEntry))
  /-- Call `id` takes one atomic step. -/
  | run {w w' : World α} (id : Nat) : w.runCall cfg id = some w' → QueueStep cfg w w'

/-- The states some interleaving reaches from a queue set up by `queue_init_size`. -/
inductive QueueReachable (cfg : QueueConfig) : World α → Prop where
  /-- A queue just set up. -/
  | init {w : World α} (sizeLog : Nat) : queueInitSize cfg sizeLog = some w → QueueReachable cfg w
  /-- One more step of any thread. -/
  | step {w w' : World α} : QueueReachable cfg w → QueueStep cfg w w' → QueueReachable cfg w'

/-- A thread's move in a schedule: invoke a call, or let call `id` run one step. -/
inductive QueueAction (α : Type) where
  | enqueue (item : α)
  | dequeue
  | run (id : Nat)
  deriving Repr, DecidableEq

/-- Run a schedule; it fails if some listed call cannot move. -/
def World.exec (cfg : QueueConfig) : World α → List (QueueAction α) → Option (World α)
  | w, [] => some w
  | w, .enqueue x :: rest => (w.invoke (.enqueuing (enqueueEntry x))).exec cfg rest
  | w, .dequeue :: rest => (w.invoke (.dequeuing dequeueEntry)).exec cfg rest
  | w, .run id :: rest => (w.runCall cfg id).bind fun w' => w'.exec cfg rest

/-- Whether a call is still running. -/
def CallStatus.inFlight : CallStatus α → Bool
  | .enqueuing _ | .dequeuing _ => true
  | _ => false

/-- No call is in flight. -/
def Quiescent (w : World α) : Prop :=
  ∀ id c, w.calls id = some c → c.status.inFlight = false

/-- Every call handed a number so far has returned. -/
def World.allReturned (w : World α) : Bool :=
  (List.range w.started).all fun id => ((w.calls id).map fun c => !c.status.inFlight).getD true

/-- A call that takes a step is in flight, changes its own status only, and moves `len` only as
it returns. -/
theorem runCall_frame {cfg : QueueConfig} {w w' : World α} {id : Nat}
    (moved : w.runCall cfg id = some w') :
    (∃ c, w.calls id = some c ∧ c.status.inFlight = true) ∧ ∃ s,
      w'.calls = writeAt w.calls id ((w.calls id).map fun c => { c with status := s }) ∧
      w'.started = w.started ∧ w'.clock = w.clock + 1 ∧ w'.queue.len = w.queue.len + s.lenWeight := by
  unfold World.runCall at moved
  split at moved
  · obtain ⟨w'', step, rfl⟩ := Option.map_eq_some'.mp moved
    obtain ⟨s, calls, started, clock, len⟩ := queueEnqueueStep_frame step
    refine ⟨⟨_, ‹_›, ?_⟩, s, calls, started, by simp [clock], len⟩
    rfl
  · obtain ⟨w'', step, rfl⟩ := Option.map_eq_some'.mp moved
    obtain ⟨s, calls, started, clock, len⟩ := queueDequeueStep_frame step
    refine ⟨⟨_, ‹_›, ?_⟩, s, calls, started, by simp [clock], len⟩
    rfl
  · cases moved

/-- Call numbers not yet handed out name no call. -/
theorem calls_eq_none_of_reachable {cfg : QueueConfig} {w : World α}
    (reach : QueueReachable cfg w) : ∀ id, w.started ≤ id → w.calls id = none := by
  induction reach with
  | init _ init =>
    unfold queueInitSize at init
    split at init <;> cases init
    exact fun _ _ => rfl
  | step _ step ih =>
    intro id fresh
    cases step with
    | enqueue _ | dequeue =>
      simp only [World.invoke] at fresh ⊢
      rw [writeAt_ne (by omega), ih id (by omega)]
    | run k moved =>
      obtain ⟨⟨c, present, -⟩, s, calls, started, -⟩ := runCall_frame moved
      have : id ≠ k := fun same => by
        subst same
        rw [ih id (by omega)] at present
        cases present
      rw [calls, writeAt_ne this, ih id (by omega)]

/-- A reachable state in which every numbered call has returned is quiescent. -/
theorem quiescent_of_allReturned {cfg : QueueConfig} {w : World α} (reach : QueueReachable cfg w)
    (returned : w.allReturned = true) : Quiescent w := by
  intro id c call
  -- A number not yet handed out names no call, so `id` is one of those checked.
  have used : id < w.started :=
    Nat.lt_of_not_le fun fresh => by simp [calls_eq_none_of_reachable reach id fresh] at call
  have checked := List.all_eq_true.mp returned id (List.mem_range.mpr used)
  simpa [call] using checked

/-- A schedule that runs from a reachable state ends in a reachable state. -/
theorem exec_reachable {cfg : QueueConfig} :
    ∀ {w w' : World α} (acts : List (QueueAction α)), QueueReachable cfg w →
      w.exec cfg acts = some w' → QueueReachable cfg w'
  | _, _, [], reach, ran => by cases ran; exact reach
  | w, _, .enqueue x :: rest, reach, ran => exec_reachable rest (reach.step (.enqueue w x)) ran
  | w, _, .dequeue :: rest, reach, ran => exec_reachable rest (reach.step (.dequeue w)) ran
  | w, _, .run id :: rest, reach, ran => by
    -- The listed call moved, and the rest of the schedule runs from where it got to.
    simp only [World.exec, Option.bind_eq_some] at ran
    obtain ⟨w'', moved, rest_ran⟩ := ran
    exact exec_reachable rest (reach.step (.run id moved)) rest_ran

/-- A run of a schedule from a queue just set up reaches a reachable state. -/
theorem reachable_of_exec {cfg : QueueConfig} (sizeLog : Nat) {w : World α}
    (acts : List (QueueAction α))
    (ran : (queueInitSize cfg sizeLog).bind (fun w => w.exec cfg acts) = some w) :
    QueueReachable cfg w := by
  obtain ⟨w₀, init, ran⟩ := Option.bind_eq_some.mp ran
  exact exec_reachable acts (.init sizeLog init) ran

/-- Two-cell segments, with help asked for from the first segment found full. The constants of
`queue.h` are not in the sources; the concrete runs of this development need only small ones. -/
def smallConfig : QueueConfig :=
  { qsizeLogDefault := 1, qsizeLogMin := 1, qsizeLogMax := 4, queueHelpValue := 1 }

/-- An enqueue of `x`, numbered `id`, that writes an empty cell of the enqueue segment and returns. -/
def enqueueRun (id x : Nat) : List (QueueAction Nat) :=
  .enqueue x :: List.replicate 4 (.run id)

/-- A dequeue, numbered `id`, that takes the next cell of the dequeue segment and returns. -/
def dequeueRun (id : Nat) : List (QueueAction Nat) :=
  .dequeue :: List.replicate 6 (.run id)

end Hatrack
