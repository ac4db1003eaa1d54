import Hatrack.Queue.Progress
import Mathlib.Data.Finset.Card

/-! A `queue_enqueue` call that runs alone: it returns, unless its stale loop bound (line 158) takes
it to the cell CAS of line 166 with an index past the cells of its segment. -/

namespace Hatrack

variable {α : Type}

/-- An enqueue call stands at the cell CAS of line 166 only with an index below its loop bound
`end_size`: the loop test of line 164 is the only way there. -/
def CasBelowBound (w : World α) : Prop :=
  ∀ id t f, w.calls id = some ⟨t, .enqueuing f⟩ → f.pc = .casCell → f.curIx < f.endSize

section Bound

variable {cfg : QueueConfig} {w w' : World α} {id : Nat}

/-- After a fetch-add the call goes to the cell CAS only below its bound (line 164). -/
theorem afterFetch_below {f : EnqueueFrame α} (cas : (f.afterFetch cfg).pc = .casCell) :
    f.curIx < f.endSize := by
  simp only [EnqueueFrame.afterFetch] at cas
  split_ifs at cas with below
  exact below

/-- A step that leaves its own call below its bound keeps every enqueuer below its bound. -/
theorem CasBelowBound.update (bound : CasBelowBound w) {s : CallStatus α}
    (calls : w'.calls = writeAt w.calls id ((w.calls id).map fun c => { c with status := s }))
    (own : ∀ f, s = .enqueuing f → f.pc = .casCell → f.curIx < f.endSize) : CasBelowBound w' := by
  -- The moved call is covered by `own`, every other by the invariant before the step.
  intro k t f found cas
  rcases calls_restatus calls found with moved | old
  · exact own f moved.symm cas
  · exact bound k t f old cas

/-- Every step of `queue_enqueue` keeps every enqueuer below its bound: the cell CAS is reached
only through the loop test, and a lost CAS goes back to the fetch-add. -/
theorem casBelowBound_enqueueStep (bound : CasBelowBound w) {f : EnqueueFrame α}
    (step : queueEnqueueStep cfg w id f = some w') : CasBelowBound w' := by
  -- Every other line the call moves to is past the cell CAS.
  cases pc : f.pc <;> simp only [queueEnqueueStep, pc] at step <;> (repeat' split at step) <;>
    cases step <;> refine bound.update rfl ?_ <;>
    simp only [World.setStatus, World.setSeg, CallStatus.enqueuing.injEq, forall_eq', pc,
      reduceCtorEq, false_implies, implies_true]
  case fetchIndex.refl => exact afterFetch_below
  all_goals first
    | exact fun cas => absurd cas (afterWrite_cases (· ≠ .casCell) nofun nofun)
    | exact fun cas => absurd cas (afterLink_cases (· ≠ .casCell) nofun nofun nofun)

/-- A step of `queue_dequeue` gives its call a dequeue status, so it keeps every bound. -/
theorem casBelowBound_dequeueStep (bound : CasBelowBound w) {f : DequeueFrame α}
    (step : queueDequeueStep w id f = some w') : CasBelowBound w' := by
  cases pc : f.pc <;> simp only [queueDequeueStep, pc] at step <;> (repeat' split at step) <;>
    cases step <;> refine bound.update rfl ?_ <;>
    simp only [reduceCtorEq, false_implies, implies_true]

/-- In every reachable state every enqueuer at the cell CAS has an index below its bound. -/
theorem casBelowBound_of_reachable (reach : QueueReachable cfg w) : CasBelowBound w := by
  induction reach with
  | init _ init =>
    -- A queue just set up has no calls.
    unfold queueInitSize at init
    split at init
    · cases init
    · cases init
      intro _ _ _ found
      cases found
  | step _ step bound =>
    cases step with
    | enqueue x | dequeue =>
      -- A new call starts at line 156 or 267; every other slot is as it was.
      intro k t f found cas
      simp only [World.invoke, writeAt_apply] at found
      split at found
      · simp only [Option.some.injEq, Call.mk.injEq, CallStatus.enqueuing.injEq,
          reduceCtorEq] at found
        cases found.2 <;> cases cas
      · exact bound k t f found cas
    | run id moved =>
      unfold World.runCall at moved
      split at moved
      · obtain ⟨w'', step, rfl⟩ := Option.map_eq_some'.mp moved
        have moved : CasBelowBound w'' := casBelowBound_enqueueStep bound step
        exact moved
      · obtain ⟨w'', step, rfl⟩ := Option.map_eq_some'.mp moved
        have moved : CasBelowBound w'' := casBelowBound_dequeueStep bound step
        exact moved
      · cases moved

end Bound

/-- The segments from `s` on, among the first `allocated`, that already have a successor. -/
def linkedFrom (segs : Nat → QueueSegment α) (allocated s : Nat) : Nat :=
  ((Finset.range allocated).filter fun m => s ≤ m ∧ (segs m).next ≠ none).card

section Linked

variable {segs : Nat → QueueSegment α} {a s : Nat}

/-- Rewriting a segment without touching its link leaves the count alone. -/
@[simp] theorem linkedFrom_writeAt {n : Nat} {seg : QueueSegment α}
    (same : seg.next = (segs n).next) :
    linkedFrom (writeAt segs n seg) a s = linkedFrom segs a s := by
  -- The filter reads only the links, and they are the same.
  unfold linkedFrom
  congr 1
  refine Finset.filter_congr fun m _ => ?_
  rw [writeAt_apply]
  split
  · subst m
    rw [same]
  · rfl

/-- A segment allocated at the end with no successor yet is not counted. -/
@[simp] theorem linkedFrom_alloc {seg : QueueSegment α} (fresh : seg.next = none) :
    linkedFrom (writeAt segs a seg) (a + 1) s = linkedFrom segs a s := by
  -- The new number fails the filter; below it the segments are as they were.
  unfold linkedFrom
  rw [Finset.range_succ, Finset.filter_insert, if_neg (by simp [fresh])]
  congr 1
  exact Finset.filter_congr fun m mem => by rw [writeAt_ne (Finset.mem_range.mp mem).ne]

/-- Moving on from an allocated segment `s` that has a successor to a later one lowers the
count. -/
theorem linkedFrom_lt {s' : Nat} (alloc : s < a) (linked : (segs s).next ≠ none) (later : s < s') :
    linkedFrom segs a s' < linkedFrom segs a s := by
  -- Segment `s` is counted from `s` on but not from `s'` on.
  unfold linkedFrom
  refine Finset.card_lt_card (Finset.ssubset_iff_of_subset (fun m mem => ?_) |>.mpr ⟨s, ?_, ?_⟩)
  · simp only [Finset.mem_filter] at mem ⊢
    exact ⟨mem.1, by omega, mem.2.2⟩
  · simp [alloc, linked]
  · simp only [Finset.mem_filter, not_and]
    omega

end Linked

/-- Of two published segments the earlier already has a successor: the later one is linked from a
segment at or after the earlier, since the gap invariant rules out a link jumping over it. -/
theorem linked_of_published_lt {w : World α} {now s : Nat} (order : OrderInv w now)
    (seg : SegInv w) (chain : ChainInv w) (early : Published w s) :
    ∀ e, Published w e → s < e → (w.segs s).next ≠ none := by
  intro e
  induction e using Nat.strong_induction_on with
  | _ e ih =>
  intro later before
  rcases later with rfl | ⟨m, link⟩
  · omega
  · -- The link into `e` starts before it, and not before `s`.
    have lower := (chain.next_lt m e link).1
    rcases Nat.lt_trichotomy m s with jumps | rfl | after
    · have := order.gap m e s link early jumps
      omega
    · simp [link]
    · exact ih m lower (seg.next_published m e link) after

/-- The segment an enqueue call works in: before its first read (line 156), the enqueue segment
it is about to read. -/
def World.enqueueTarget (w : World α) (f : EnqueueFrame α) : Nat :=
  if f.pc = .readSegments then w.queue.segments.enqueueSegment else f.segment

/-- The call's loop bound: before line 158, the size of the segment it is about to read. -/
def World.enqueueBound (w : World α) (f : EnqueueFrame α) : Nat :=
  if f.pc = .readSegments then (w.segs w.queue.segments.enqueueSegment).size else f.endSize

/-- The lines an enqueue call has left before its next fetch-add or before it leaves its segment:
the fetch-add and the cell CAS go round, a call past its bound asks for help, reads the pointers
and plans, allocates, links and swings; the swing of line 230 is retried at most once against
pointers read back unchanged, and a call past its write gives back help and bumps `len`. -/
def enqueueRank (w : World α) (f : EnqueueFrame α) : Nat :=
  match f.pc with
  | .addLen => 0
  | .subHelp => 1
  | .casSegments => if w.queue.segments = f.segments then 2 else 3
  | .casNext => 4
  | .allocSegment => 5
  | .readHelp | .rereadHelped => 6
  | .reread | .addHelp => 7
  | .fetchIndex => 8
  | .casCell => 9
  | .readSegments => 10

/-- The segments an enqueue call may still move on from: none once its item is written, else one
more than the segments from its own on that already have a successor. -/
def World.linksAhead (w : World α) (f : EnqueueFrame α) : Nat :=
  if f.written then 0 else linkedFrom w.segs w.allocated (w.enqueueTarget f) + 1

/-- The work left in the call's segment: four lines for each index below its bound that the
fetch-add may still hand out, and the lines left before the next one. -/
def World.enqueueLeft (w : World α) (f : EnqueueFrame α) : Nat :=
  4 * (w.enqueueBound f - (w.segs (w.enqueueTarget f)).enqueueIndex) + enqueueRank w f

/-- The segment an enqueuer allocates at lines 211 to 215 has no successor yet. -/
@[simp] theorem enqueueSuccessor_next {f : EnqueueFrame α} {id : Nat} :
    (enqueueSuccessor f id).next = none := rfl

section After

variable {cfg : QueueConfig} {W : World α} {f : EnqueueFrame α}

/-- After a fetch-add the call is still searching its own segment. -/
@[simp] theorem World.linksAhead_afterFetch :
    W.linksAhead (f.afterFetch cfg) = linkedFrom W.segs W.allocated f.segment + 1 := by
  -- The loop test sends it to the cell CAS or on to ask for help or to reread.
  simp only [World.linksAhead, World.enqueueTarget, EnqueueFrame.afterFetch, EnqueueFrame.written]
  split_ifs <;> simp_all

/-- After a fetch-add the call goes to the cell CAS below its bound, otherwise on towards a new
segment. -/
@[simp] theorem World.enqueueLeft_afterFetch :
    W.enqueueLeft (f.afterFetch cfg) =
      4 * (f.endSize - (W.segs f.segment).enqueueIndex) + if f.curIx < f.endSize then 9 else 7 := by
  -- The rank is that of the line the loop tests of lines 164 and 180 select.
  simp only [World.enqueueLeft, World.enqueueTarget, World.enqueueBound, enqueueRank,
    EnqueueFrame.afterFetch]
  split_ifs <;> simp_all

/-- Once its item is written the call only has its counters left to update. -/
@[simp] theorem World.linksAhead_afterWrite : W.linksAhead f.afterWrite = 0 := by
  simp only [World.linksAhead, EnqueueFrame.afterWrite, EnqueueFrame.written]
  split <;> rfl

/-- After the pointer CAS loop the call searches the winner's segment, or returns. -/
@[simp] theorem World.linksAhead_afterLink :
    W.linksAhead f.afterLink =
      if f.needToEnqueue then linkedFrom W.segs W.allocated f.newSegment + 1 else 0 := by
  simp only [World.linksAhead, World.enqueueTarget, EnqueueFrame.afterLink, EnqueueFrame.written]
  split_ifs <;> simp_all

/-- After the pointer CAS loop the call fetches in the winner's segment, or gives back help and
bumps `len`. -/
@[simp] theorem World.enqueueLeft_afterLink :
    W.enqueueLeft f.afterLink =
      4 * (f.endSize -
          (W.segs (if f.needToEnqueue then f.newSegment else f.segment)).enqueueIndex) +
        if f.needToEnqueue then 8 else if f.needHelp then 1 else 0 := by
  simp only [World.enqueueLeft, World.enqueueTarget, World.enqueueBound, enqueueRank,
    EnqueueFrame.afterLink]
  split_ifs <;> simp_all

end After

section Alone

variable {cfg : QueueConfig} {w : World α} {e t : Nat} {f : EnqueueFrame α}

/-- One step of an enqueue call from a reachable state: it is stuck only at the cell CAS with an
index past its segment's cells; otherwise it returns, or lowers its measure. -/
theorem enqueueStep_progress (reach : QueueReachable cfg w)
    (call : w.calls e = some ⟨t, .enqueuing f⟩) :
    (w.runCall cfg e = none ∧ f.pc = .casCell ∧ (w.segs f.segment).size ≤ f.curIx) ∨
    ∃ w', w.runCall cfg e = some w' ∧ ((∃ s, w'.calls e = some ⟨t, s⟩ ∧ s.inFlight = false) ∨
      ∃ f', w'.calls e = some ⟨t, .enqueuing f'⟩ ∧ (w'.linksAhead f' < w.linksAhead f ∨
        w'.linksAhead f' = w.linksAhead f ∧ w'.enqueueLeft f' < w.enqueueLeft f)) := by
  have chain := chainInv_of_reachable reach
  have ok : SegCallOk w e (.enqueuing f) := (segInv_of_reachable reach).calls_ok e _ call
  have order : CallOrder w e (.enqueuing f) := (orderInv_of_reachable reach).calls_order e _ call
  have alloc := (chain.bounds_of call).1
  have step := order.2.2.2.1
  have seg := segInv_of_reachable reach
  -- A call that finds a newer enqueue segment moves past its own, which therefore has a successor.
  have moveOn (notRead : f.pc ≠ .readSegments)
      (moved : w.queue.segments.enqueueSegment ≠ f.segment) :
      linkedFrom w.segs w.allocated w.queue.segments.enqueueSegment <
        linkedFrom w.segs w.allocated f.segment :=
    have later := Nat.lt_of_le_of_ne (order.1 notRead) (Ne.symm moved)
    linkedFrom_lt alloc (linked_of_published_lt (orderInv_of_reachable reach) seg chain
      (ok.1 notRead) _ seg.enqueue_published later) later
  simp only [World.runCall, call]
  cases pc : f.pc <;> simp only [queueEnqueueStep, pc, Option.map_some'] <;> (repeat' split) <;>
    (try refine .inr ⟨_, rfl, ?_⟩)
  all_goals first
    | exact .inl ⟨_, World.calls_setStatus_tick_self call rfl, rfl⟩
    | refine .inr ⟨_, World.calls_setStatus_tick_self call rfl, ?_⟩
    | skip
  all_goals try simp only [World.linksAhead_afterFetch, World.enqueueLeft_afterFetch,
    World.linksAhead_afterWrite, World.linksAhead_afterLink, World.enqueueLeft_afterLink]
  all_goals simp only [World.linksAhead, World.enqueueLeft, World.enqueueTarget,
    World.enqueueBound, enqueueRank, EnqueueFrame.written, pc, World.tick, World.setStatus,
    World.setSeg, writeAt_same, writeAt_ne alloc.ne, linkedFrom_writeAt, linkedFrom_alloc,
    enqueueSuccessor_next, Bool.not_false, reduceCtorEq, ite_false, ite_true, if_false, true_and,
    lt_self_iff_false, false_or]
  all_goals try first | omega | (split_ifs <;> omega)
  case casCell.isFalse => exact .inl ⟨rfl, by omega⟩
  case rereadHelped.isTrue moved | reread.isTrue moved =>
    exact .inl (Nat.succ_lt_succ (moveOn (by rw [pc]; nofun) moved))
  case casSegments.isTrue | casSegments.isFalse.isTrue =>
    -- A call that adopted the winner moves on to it; one whose item is linked has only its
    -- counters left.
    have linked := ok.2.2.2 pc
    cases nte : f.needToEnqueue
    · simp only [nte, Bool.not_false, ite_true, Bool.false_eq_true, ite_false, lt_self_iff_false,
        true_and, false_or]
      split_ifs <;> omega
    · have := linkedFrom_lt alloc (show (w.segs f.segment).next ≠ none by simp [linked])
        (chain.next_lt _ _ linked).1
      simp only [nte, Bool.not_true, ite_true, Bool.false_eq_true, ite_false]
      omega

/-- A `queue_enqueue` call that runs alone from a reachable state returns within finitely many of
its own steps, unless it reaches the cell CAS of line 166 with an index below its loop bound but
past the cells of its segment, which the bound read once at line 158 allows. -/
theorem enqueue_returns_alone (reach : QueueReachable cfg w)
    (call : w.calls e = some ⟨t, .enqueuing f⟩) :
    ∃ n w', w.exec cfg (List.replicate n (.run e)) = some w' ∧
      ((∃ s, w'.calls e = some ⟨t, s⟩ ∧ s.inFlight = false) ∨
        ∃ f', w'.calls e = some ⟨t, .enqueuing f'⟩ ∧ f'.pc = .casCell ∧
          (w'.segs f'.segment).size ≤ f'.curIx ∧ f'.curIx < f'.endSize) := by
  -- Induction on the linked segments ahead, and within one count of them on the work left.
  generalize ahead : w.linksAhead f = a
  induction a using Nat.strong_induction_on generalizing w f with
  | _ a outer =>
  generalize left : w.enqueueLeft f = p
  induction p using Nat.strong_induction_on generalizing w f with
  | _ p inner =>
  obtain ⟨-, cas, past⟩ | ⟨w', moved, ⟨s, call', done⟩ | ⟨f', call', lower⟩⟩ :=
    enqueueStep_progress reach call
  · -- The stuck CAS: its index is below the bound, as every cell CAS's is.
    exact ⟨0, w, rfl, .inr ⟨f, call, cas, past,
      casBelowBound_of_reachable reach e t f call cas⟩⟩
  · exact ⟨1, w', World.exec_replicate_run moved, .inl ⟨s, call', done⟩⟩
  · have reach' := reach.step (.run e moved)
    rcases lower with fewer | ⟨same, less⟩
    · obtain ⟨n, w'', ran, ended⟩ := outer _ (ahead ▸ fewer) reach' call' rfl
      exact ⟨n + 1, w'', (World.exec_replicate_run moved).trans ran, ended⟩
    · obtain ⟨n, w'', ran, ended⟩ := inner _ (left ▸ less) reach' call' (same.trans ahead) rfl
      exact ⟨n + 1, w'', (World.exec_replicate_run moved).trans ran, ended⟩

/-- A queue just set up, with one enqueue call started. -/
def aloneEnqueueStart : Option (World Nat) :=
  (queueInitSize smallConfig 0).bind fun w => w.exec smallConfig [.enqueue 7]

/-- That enqueue, run alone, returns or stops at an out-of-bounds cell CAS. -/
theorem aloneEnqueue_ends :
    ∃ w, aloneEnqueueStart = some w ∧ ∃ n w',
      w.exec smallConfig (List.replicate n (.run 0)) = some w' ∧
      ((∃ s, w'.calls 0 = some ⟨0, s⟩ ∧ s.inFlight = false) ∨
        ∃ f', w'.calls 0 = some ⟨0, .enqueuing f'⟩ ∧ f'.pc = .casCell ∧
          (w'.segs f'.segment).size ≤ f'.curIx ∧ f'.curIx < f'.endSize) :=
  ⟨_, rfl, enqueue_returns_alone (@reachable_of_exec _ smallConfig 0 _ [.enqueue 7] rfl) rfl⟩

end Alone

end Hatrack
