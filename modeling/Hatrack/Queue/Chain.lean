import Hatrack.Queue.Step
import Mathlib.Tactic.SplitIfs

/-! The segment chain: every pointer names an allocated segment and `next` pointers only lead to
later allocations, so following them from any segment ends. -/

namespace Hatrack

variable {α : Type}

/-- Segment `b` is reached from segment `a` by following `next` pointers. -/
inductive Reaches (segs : Nat → QueueSegment α) : Nat → Nat → Prop where
  /-- Every segment reaches itself. -/
  | refl (a : Nat) : Reaches segs a a
  /-- One more `next` pointer. -/
  | next {a b c : Nat} : Reaches segs a b → (segs b).next = some c → Reaches segs a c

/-- A segment of the chain that starts at the first segment `queue_init_size` allocated. -/
def OnChain (w : World α) (n : Nat) : Prop :=
  Reaches w.segs 0 n

/-- Every segment number a call holds names an allocated segment, and the segment an enqueuer is
about to link comes after the one it links it to. -/
def CallInBounds (allocated : Nat) : CallStatus α → Prop
  | .enqueuing f =>
    f.segment < allocated ∧ f.newSegment < allocated ∧ f.segments.enqueueSegment < allocated ∧
      f.segments.dequeueSegment < allocated ∧ (f.pc = .casNext → f.segment < f.newSegment)
  | .dequeuing f =>
    f.segment < allocated ∧ f.newSegment < allocated ∧ f.segments.enqueueSegment < allocated ∧
      f.segments.dequeueSegment < allocated
  | _ => True

/-- The pointer invariant of the queue. -/
structure ChainInv (w : World α) : Prop where
  next_lt : ∀ n j, (w.segs n).next = some j → n < j ∧ j < w.allocated
  enqueue_lt : w.queue.segments.enqueueSegment < w.allocated
  dequeue_lt : w.queue.segments.dequeueSegment < w.allocated
  calls_lt : ∀ id c, w.calls id = some c → CallInBounds w.allocated c.status

/-- Bounds on segment numbers survive further allocation. -/
theorem CallInBounds.mono {m n : Nat} {s : CallStatus α} (bounds : CallInBounds m s)
    (grown : m ≤ n) : CallInBounds n s := by
  -- Each bound is a strict inequality against the allocation count.
  cases s with
  | enqueuing f =>
    obtain ⟨h1, h2, h3, h4, h5⟩ := bounds
    exact ⟨by omega, by omega, by omega, by omega, h5⟩
  | dequeuing f =>
    obtain ⟨h1, h2, h3, h4⟩ := bounds
    exact ⟨by omega, by omega, by omega, by omega⟩
  | _ => trivial

namespace ChainInv

variable {w : World α}

/-- Giving a call a status within bounds keeps the invariant. -/
theorem setStatus (inv : ChainInv w) {id : Nat} {s : CallStatus α}
    (bounds : CallInBounds w.allocated s) : ChainInv (w.setStatus id s) := by
  refine ⟨inv.next_lt, inv.enqueue_lt, inv.dequeue_lt, fun k c found => ?_⟩
  -- Only call `id` changes, and its new status is in bounds.
  simp only [World.setStatus, writeAt_apply] at found
  split at found
  · obtain ⟨c', -, rfl⟩ := Option.map_eq_some'.mp found
    exact bounds
  · exact inv.calls_lt k c found

/-- Rewriting a segment without touching its `next` pointer keeps the invariant. -/
theorem setSeg (inv : ChainInv w) {n : Nat} {seg : QueueSegment α}
    (same : seg.next = (w.segs n).next) : ChainInv (w.setSeg n seg) := by
  refine ⟨fun k j linked => ?_, inv.enqueue_lt, inv.dequeue_lt, inv.calls_lt⟩
  simp only [World.setSeg, writeAt_apply] at linked
  split at linked
  · subst k
    exact inv.next_lt n j (same ▸ linked)
  · exact inv.next_lt k j linked

/-- The clock plays no part in the invariant. -/
theorem tick (inv : ChainInv w) : ChainInv w.tick :=
  ⟨inv.next_lt, inv.enqueue_lt, inv.dequeue_lt, inv.calls_lt⟩

/-- The bounds of the call `id` in flight. -/
theorem bounds_of (inv : ChainInv w) {id : Nat} {c : Call α} (call : w.calls id = some c) :
    CallInBounds w.allocated c.status :=
  inv.calls_lt id c call

end ChainInv

/-- The invariant holds of a queue just set up. -/
theorem chainInv_init {cfg : QueueConfig} {sizeLog : Nat} {w : World α}
    (init : queueInitSize cfg sizeLog = some w) : ChainInv w := by
  -- One segment, no links and no calls.
  unfold queueInitSize at init
  split at init
  · cases init
  · cases init
    refine ⟨fun n j linked => ?_, by simp, by simp, fun _ _ found => by simp at found⟩
    by_cases zero : n = 0 <;> simp [zero, queueNewSegment] at linked

/-- Every step of `queue_enqueue` keeps the pointer invariant. -/
theorem chainInv_enqueueStep {cfg : QueueConfig} {w w' : World α} {id : Nat} {f : EnqueueFrame α}
    (inv : ChainInv w) (bounds : CallInBounds w.allocated (.enqueuing f))
    (step : queueEnqueueStep cfg w id f = some w') : ChainInv w' := by
  obtain ⟨seg_lt, new_lt, enq_lt, deq_lt, link_lt⟩ := bounds
  have queued : ∀ q : Queue, q.segments = w.queue.segments → ChainInv { w with queue := q } :=
    fun q same => ⟨inv.next_lt, same ▸ inv.enqueue_lt, same ▸ inv.dequeue_lt, inv.calls_lt⟩
  cases pc : f.pc <;> simp only [queueEnqueueStep, pc] at step
  case readSegments =>
    cases step
    exact inv.setStatus ⟨inv.enqueue_lt, new_lt, inv.enqueue_lt, inv.dequeue_lt, nofun⟩
  case fetchIndex =>
    cases step
    refine ChainInv.setStatus (inv.setSeg ?_) ?_
    · rfl
    · refine ⟨seg_lt, new_lt, enq_lt, deq_lt, ?_⟩
      simp only [EnqueueFrame.afterFetch]
      split_ifs <;> simp
  case casCell =>
    split at step
    · split at step <;> cases step
      · refine ChainInv.setStatus (inv.setSeg ?_) ?_
        · rfl
        · refine ⟨seg_lt, new_lt, enq_lt, deq_lt, ?_⟩
          simp only [EnqueueFrame.afterWrite]
          split <;> simp
      · exact inv.setStatus ⟨seg_lt, new_lt, enq_lt, deq_lt, nofun⟩
    · cases step
  case addHelp | subHelp =>
    cases step
    refine ChainInv.setStatus (queued _ ?_) ?_
    · rfl
    · exact ⟨seg_lt, new_lt, enq_lt, deq_lt, nofun⟩
  case rereadHelped | reread =>
    split at step <;> cases step <;> refine ChainInv.setStatus inv ?_ <;>
      exact ⟨by first | exact inv.enqueue_lt | exact seg_lt, new_lt, inv.enqueue_lt,
        inv.dequeue_lt, nofun⟩
  case readHelp =>
    cases step
    exact inv.setStatus ⟨seg_lt, new_lt, enq_lt, deq_lt, nofun⟩
  case allocSegment =>
    -- The fresh segment has no successor, and everything else was allocated before it.
    cases step
    have grown : ChainInv { w with
        segs := writeAt w.segs w.allocated (enqueueSuccessor f id)
        allocated := w.allocated + 1 } := by
      refine ⟨fun n j linked => ?_, Nat.lt_succ_of_lt inv.enqueue_lt,
        Nat.lt_succ_of_lt inv.dequeue_lt, fun k c found => (inv.calls_lt k c found).mono (by simp)⟩
      simp only [writeAt_apply] at linked
      split at linked
      · simp [enqueueSuccessor, queueNewSegment] at linked
      · have := inv.next_lt n j linked
        simp only
        omega
    exact grown.setStatus ⟨by simp only; omega, by simp, by simp only; omega, by simp only; omega,
      fun _ => seg_lt⟩
  case casNext =>
    split at step <;> cases step
    · -- The winner links its own segment, allocated after the one it extends.
      have linked : ChainInv
          (w.setSeg f.segment { w.segs f.segment with next := some f.newSegment }) := by
        refine ⟨fun n j linked => ?_, inv.enqueue_lt, inv.dequeue_lt, inv.calls_lt⟩
        simp only [World.setSeg, writeAt_apply] at linked
        split at linked
        · cases linked
          subst n
          exact ⟨link_lt pc, new_lt⟩
        · exact inv.next_lt n j linked
      exact linked.setStatus ⟨seg_lt, new_lt, enq_lt, deq_lt, nofun⟩
    · rename_i winner found
      refine ChainInv.setStatus ?_ ?_
      · exact ⟨inv.next_lt, inv.enqueue_lt, inv.dequeue_lt, inv.calls_lt⟩
      · exact ⟨seg_lt, (inv.next_lt _ _ found).2, enq_lt, deq_lt, nofun⟩
  case casSegments =>
    -- Whichever way the CAS goes, the pointers written or read back are allocated ones.
    have linked : CallInBounds w.allocated (.enqueuing f.afterLink) := by
      simp only [EnqueueFrame.afterLink]
      exact ⟨by split <;> assumption, new_lt, enq_lt, deq_lt, by split_ifs <;> simp⟩
    split at step
    · cases step
      refine ChainInv.setStatus ?_ linked
      exact ⟨inv.next_lt, new_lt, deq_lt, inv.calls_lt⟩
    · split at step <;> cases step
      · exact inv.setStatus ⟨linked.1, new_lt, inv.enqueue_lt, inv.dequeue_lt, linked.2.2.2.2⟩
      · exact inv.setStatus ⟨seg_lt, new_lt, inv.enqueue_lt, inv.dequeue_lt, by simp [pc]⟩
  case addLen =>
    cases step
    refine ChainInv.setStatus (queued _ ?_) trivial
    rfl

/-- Every step of `queue_dequeue` keeps the pointer invariant. -/
theorem chainInv_dequeueStep {w w' : World α} {id : Nat} {f : DequeueFrame α}
    (inv : ChainInv w) (bounds : CallInBounds w.allocated (.dequeuing f))
    (step : queueDequeueStep w id f = some w') : ChainInv w' := by
  obtain ⟨seg_lt, new_lt, enq_lt, deq_lt⟩ := bounds
  have same : ∀ g : DequeueFrame α, g.segment = f.segment → g.newSegment = f.newSegment →
      g.segments = f.segments → CallInBounds w.allocated (.dequeuing g) :=
    fun g h1 h2 h3 => ⟨h1 ▸ seg_lt, h2 ▸ new_lt, h3 ▸ enq_lt, h3 ▸ deq_lt⟩
  cases pc : f.pc <;> simp only [queueDequeueStep, pc] at step
  case readSegments =>
    cases step
    exact inv.setStatus ⟨inv.dequeue_lt, new_lt, inv.enqueue_lt, inv.dequeue_lt⟩
  case loadDequeueIndex =>
    cases step
    exact ChainInv.setStatus inv (same _ rfl rfl rfl)
  case loadEnqueueIndex =>
    split at step
    · cases step
      exact ChainInv.setStatus inv (same _ rfl rfl rfl)
    · split at step <;> cases step
      · exact ChainInv.setStatus inv trivial
      · exact ChainInv.setStatus inv (same _ rfl rfl rfl)
  case fetchIndex =>
    -- Only the dequeue index moves, and the claim log is ghost data.
    have moved : ChainInv (w.setSeg f.segment
        { w.segs f.segment with dequeueIndex := (w.segs f.segment).dequeueIndex + 1 }) :=
      inv.setSeg rfl
    split at step <;> cases step
    · exact ChainInv.setStatus moved (same _ rfl rfl rfl)
    · refine ChainInv.setStatus ?_ (same _ rfl rfl rfl)
      exact ⟨moved.next_lt, moved.enqueue_lt, moved.dequeue_lt, moved.calls_lt⟩
  case casCell =>
    split at step <;> cases step
    · refine ChainInv.setStatus (inv.setSeg ?_) (same _ rfl rfl rfl)
      rfl
    · exact ChainInv.setStatus inv (same _ rfl rfl rfl)
  case subLen =>
    cases step
    refine ChainInv.setStatus ?_ trivial
    exact ⟨inv.next_lt, inv.enqueue_lt, inv.dequeue_lt, inv.calls_lt⟩
  case readNext =>
    split at step <;> cases step
    · exact ChainInv.setStatus inv trivial
    · rename_i n found
      exact inv.setStatus ⟨seg_lt, (inv.next_lt _ _ found).2, enq_lt, deq_lt⟩
  case casSegments =>
    split at step
    · -- The dequeue segment moves to the successor read before; the old one is retired.
      cases step
      refine ChainInv.setStatus ?_ ?_
      · exact ⟨inv.next_lt, enq_lt, new_lt, inv.calls_lt⟩
      · exact ⟨new_lt, new_lt, enq_lt, new_lt⟩
    · split at step <;> cases step
      · exact inv.setStatus ⟨inv.dequeue_lt, new_lt, inv.enqueue_lt, inv.dequeue_lt⟩
      · exact inv.setStatus ⟨seg_lt, new_lt, inv.enqueue_lt, inv.dequeue_lt⟩

/-- Every step of the system keeps the pointer invariant. -/
theorem chainInv_step {cfg : QueueConfig} {w w' : World α} (inv : ChainInv w)
    (step : QueueStep cfg w w') : ChainInv w' := by
  -- A new call starts with segment numbers 0, and segment 0 is allocated.
  have zero : 0 < w.allocated := by have := inv.enqueue_lt; omega
  have invoked : ∀ s : CallStatus α, CallInBounds w.allocated s → ChainInv (w.invoke s) := by
    intro s bounds
    refine ⟨inv.next_lt, inv.enqueue_lt, inv.dequeue_lt, fun k c found => ?_⟩
    simp only [World.invoke, writeAt_apply] at found
    split at found
    · cases found
      exact bounds
    · exact inv.calls_lt k c found
  cases step with
  | enqueue item => exact invoked _ ⟨zero, zero, zero, zero, nofun⟩
  | dequeue => exact invoked _ ⟨zero, zero, zero, zero⟩
  | run id moved =>
    unfold World.runCall at moved
    split at moved
    · obtain ⟨w'', step, rfl⟩ := Option.map_eq_some'.mp moved
      exact (chainInv_enqueueStep inv (inv.bounds_of ‹_›) step).tick
    · obtain ⟨w'', step, rfl⟩ := Option.map_eq_some'.mp moved
      exact (chainInv_dequeueStep inv (inv.bounds_of ‹_›) step).tick
    · cases moved

/-- The pointer invariant holds in every reachable state. -/
theorem chainInv_of_reachable {cfg : QueueConfig} {w : World α} (reach : QueueReachable cfg w) :
    ChainInv w := by
  induction reach with
  | init _ init => exact chainInv_init init
  | step _ step inv => exact chainInv_step inv step

/-- Following `next` pointers only leads to later allocations. -/
theorem Reaches.le {w : World α} (inv : ChainInv w) {a b : Nat} (reach : Reaches w.segs a b) :
    a ≤ b := by
  induction reach with
  | refl => exact Nat.le_refl _
  | next _ linked ih => have := (inv.next_lt _ _ linked).1; omega

/-- The dequeue segment is never further down the chain than the enqueue segment, so a segment a
dequeuer retires (line 333) is never still the published enqueue segment. -/
def DequeueSegmentBehind (w : World α) : Prop :=
  Reaches w.segs w.queue.segments.dequeueSegment w.queue.segments.enqueueSegment ∧
    ∀ n ∈ w.retired, n ≠ w.queue.segments.enqueueSegment

/-- Two enqueues fill the first segment; a third links a successor (line 218) and stops before
its pointer CAS (line 230); two dequeues drain the first segment and a third moves the dequeue
segment past it and retires it. -/
def windowSchedule : List (QueueAction Nat) :=
  enqueueRun 0 0 ++ enqueueRun 1 1 ++ .enqueue 2 :: List.replicate 6 (.run 2) ++
    dequeueRun 3 ++ dequeueRun 4 ++ .dequeue :: List.replicate 5 (.run 5)

/-- The state the window schedule ends in. -/
def windowRun : Option (World Nat) :=
  (queueInitSize smallConfig 0).bind fun w => w.exec smallConfig windowSchedule

/-- The window schedule retires the first segment while it is still the enqueue segment. -/
theorem windowRun_retires_enqueue_segment :
    ∃ w, windowRun = some w ∧ QueueReachable smallConfig w ∧ ¬ DequeueSegmentBehind w := by
  refine ⟨_, rfl, reachable_of_exec 0 windowSchedule rfl, fun behind => ?_⟩
  exact behind.2 0 (List.mem_singleton_self 0) rfl

/-- A segment of the chain gets a successor only once enqueuers have been handed all its cells. -/
def SuccessorAfterFull (w : World α) : Prop :=
  ∀ n, OnChain w n → (w.segs n).next ≠ none → (w.segs n).size ≤ (w.segs n).enqueueIndex

/-- A dequeue returns `found = false` only once the item of every enqueue that returned before it
was invoked has been claimed by a dequeue invoked before it returned. -/
def EmptyIsJustified (w : World α) : Prop :=
  ∀ d e di dr ei x cell er, w.calls d = some ⟨di, .notFound dr⟩ →
    w.calls e = some ⟨ei, .enqueued x cell er⟩ → er < di →
    ∃ claim ∈ w.claims, claim.cell = cell ∧
      ∃ c, w.calls claim.dequeuer = some c ∧ c.invokedAt < dr

/-- The stale loop bound. Call 0 reads the two-cell first segment, whose size becomes its
`end_size`. Calls 1 and 2 fill that segment, and call 3, finding it full, asks for help and links
a four-cell successor holding its item. Call 0 finds the first segment used up, asks for help,
and moves to the successor with its bound still 2; once call 4 has taken cell 1 there, call 0 gets
index 2, takes it as past its bound and links an eight-cell segment holding its item although the
four-cell one still has free cells. Four dequeues then take the four other items, and a fifth,
invoked after call 0 returned, finds the four-cell segment's enqueue index reached and reports
the queue empty, with call 0's item unclaimed in the eight-cell segment. -/
def staleBoundSchedule : List (QueueAction Nat) :=
  [.enqueue 100, .run 0] ++ enqueueRun 1 101 ++ enqueueRun 2 102 ++
    .enqueue 103 :: List.replicate 9 (.run 3) ++ List.replicate 3 (.run 0) ++ enqueueRun 4 104 ++
    List.replicate 8 (.run 0) ++ dequeueRun 5 ++ dequeueRun 6 ++
    .dequeue :: List.replicate 10 (.run 7) ++ dequeueRun 8 ++ .dequeue :: List.replicate 7 (.run 9)

/-- The state the stale-bound schedule ends in. -/
def staleBoundRun : Option (World Nat) :=
  (queueInitSize smallConfig 0).bind fun w => w.exec smallConfig staleBoundSchedule

/-- The four-cell segment has a successor after only three of its cells were handed out. -/
theorem staleBoundRun_links_unfilled_segment :
    ∃ w, staleBoundRun = some w ∧ QueueReachable smallConfig w ∧ ¬ SuccessorAfterFull w := by
  refine ⟨_, rfl, reachable_of_exec 0 staleBoundSchedule rfl, fun full => ?_⟩
  exact absurd (full 1 (.next (.refl 0) rfl) (by decide)) (by decide)

/-- With no call in flight, a dequeue has returned `found = false` although call 0 returned
before it started and no dequeue ever claimed call 0's cell. -/
theorem staleBoundRun_strands_item :
    ∃ w, staleBoundRun = some w ∧ QueueReachable smallConfig w ∧ Quiescent w ∧
      ¬ EmptyIsJustified w := by
  refine ⟨_, rfl, ?reach, quiescent_of_allReturned ?reach rfl, fun justified => ?_⟩
  case reach => exact reachable_of_exec 0 staleBoundSchedule rfl
  obtain ⟨claim, mem, cell, -⟩ :=
    justified 9 0 70 77 0 100 ⟨2, 0⟩ 37 (by decide) (by decide) (by decide)
  -- The claim log of the final state names no cell of the eight-cell segment.
  revert claim
  decide

end Hatrack
