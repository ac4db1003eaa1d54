import Hatrack.Queue.Written

/-! What the queue never does to its segments: a segment freed by a losing enqueuer is never
reached again, and along every run a segment keeps its size, its link once set, and indices that
only grow. -/

namespace Hatrack

variable {α : Type}

section Freed

variable {cfg : QueueConfig} {w : World α}

/-- In every reachable state no segment that a losing enqueuer handed to `mmm_retire_unused`
(line 219) can be reached again: no `next` pointer leads to it, neither segment pointer names it,
and no call in flight works in it, is about to link it, or is about to swing a pointer to it. -/
theorem freed_segments_unreachable (reach : QueueReachable cfg w) {n : Nat} (freed : n ∈ w.freed) :
    (∀ m, (w.segs m).next ≠ some n) ∧ n ≠ w.queue.segments.enqueueSegment ∧
      n ≠ w.queue.segments.dequeueSegment ∧
      (∀ id t f, w.calls id = some ⟨t, .enqueuing f⟩ → (f.pc ≠ .readSegments → f.segment ≠ n) ∧
        (f.pc = .casNext ∨ f.pc = .casSegments → f.newSegment ≠ n)) ∧
      ∀ id t f, w.calls id = some ⟨t, .dequeuing f⟩ → (f.pc ≠ .readSegments → f.segment ≠ n) ∧
        (f.pc = .casSegments → f.newSegment ≠ n) := by
  -- A freed segment is unpublished, and every segment a call can reach is published, but for the
  -- private one an enqueuer is about to link, which it has not freed.
  have seg := segInv_of_reachable reach
  have hidden := (seg.freed_unpublished n freed).1
  have other : ∀ {k}, Published w k → k ≠ n := fun published same => hidden (same ▸ published)
  refine ⟨fun m link => hidden (.inr ⟨m, link⟩), (other seg.enqueue_published).symm,
    (other seg.dequeue_published).symm, fun id t f call => ?_, fun id t f call => ?_⟩
  · have ok : SegCallOk w id (.enqueuing f) := seg.calls_ok id _ call
    refine ⟨fun notRead => other (ok.1 notRead), ?_⟩
    rintro (linking | swinging)
    · exact fun same => (ok.2.2.1 linking).2.1 (same ▸ freed)
    · exact other (published_of_next (ok.2.2.2 swinging))
  · have ok : SegCallOk w id (.dequeuing f) := seg.calls_ok id _ call
    exact ⟨fun notRead => other (ok.1 notRead).1,
      fun swinging => other (published_of_next (ok.2 swinging))⟩

/-- In the release race the segment the loser freed is out of every call's and pointer's reach. -/
theorem releaseRun_freed_unreachable :
    ∃ w : World Nat, releaseRun = some w ∧ 2 ∈ w.freed ∧
      ((∀ m, (w.segs m).next ≠ some 2) ∧ 2 ≠ w.queue.segments.enqueueSegment ∧
        2 ≠ w.queue.segments.dequeueSegment ∧
        (∀ id t f, w.calls id = some ⟨t, .enqueuing f⟩ → (f.pc ≠ .readSegments → f.segment ≠ 2) ∧
          (f.pc = .casNext ∨ f.pc = .casSegments → f.newSegment ≠ 2)) ∧
        ∀ id t f, w.calls id = some ⟨t, .dequeuing f⟩ → (f.pc ≠ .readSegments → f.segment ≠ 2) ∧
          (f.pc = .casSegments → f.newSegment ≠ 2)) :=
  ⟨_, rfl, by decide, freed_segments_unreachable
    (@reachable_of_exec _ smallConfig 0 _ releaseSchedule rfl) (by decide)⟩

end Freed

/-- Segment `n` keeps its size and its link once set, and its indices do not go down. -/
structure SegGrows (old new : QueueSegment α) : Prop where
  size : new.size = old.size
  enqueue_le : old.enqueueIndex ≤ new.enqueueIndex
  dequeue_le : old.dequeueIndex ≤ new.dequeueIndex
  next : ∀ m, old.next = some m → new.next = some m

namespace SegGrows

variable {a b c : QueueSegment α}

/-- Every segment grows into itself. -/
theorem refl (a : QueueSegment α) : SegGrows a a :=
  ⟨rfl, Nat.le_refl _, Nat.le_refl _, fun _ link => link⟩

/-- Growth composes along a run. -/
theorem trans (ab : SegGrows a b) (bc : SegGrows b c) : SegGrows a c :=
  ⟨bc.size.trans ab.size, ab.enqueue_le.trans bc.enqueue_le, ab.dequeue_le.trans bc.dequeue_le,
    fun m link => bc.next m (ab.next m link)⟩

end SegGrows

section Grows

variable {cfg : QueueConfig} {w w' : World α} {id : Nat}

/-- A segment rewrite that grows the segment it replaces leaves every allocated segment grown. -/
theorem segGrows_writeAt {n : Nat} {seg : QueueSegment α} (k : Nat)
    (grows : SegGrows (w.segs n) seg) : SegGrows (w.segs k) (writeAt w.segs n seg k) := by
  rw [writeAt_apply]
  split
  · subst k
    exact grows
  · exact .refl _

/-- The allocation at lines 211 to 215 writes only the first free number. -/
theorem segGrows_alloc {seg : QueueSegment α} {k : Nat} (old : k < w.allocated) :
    SegGrows (w.segs k) (writeAt w.segs w.allocated seg k) := by
  rw [writeAt_ne (Nat.ne_of_lt old)]
  exact .refl _

/-- Every step of `queue_enqueue` grows every allocated segment: its fetch-adds raise
`enqueue_index`, its cell CAS writes a cell, and its CAS of line 218 sets a `next` that was
`NULL`. -/
theorem queueEnqueueStep_grows {f : EnqueueFrame α} (step : queueEnqueueStep cfg w id f = some w')
    {k : Nat} (old : k < w.allocated) : SegGrows (w.segs k) (w'.segs k) := by
  cases pc : f.pc <;> simp only [queueEnqueueStep, pc] at step <;> (repeat' split at step) <;>
    cases step <;> dsimp only [World.setStatus, World.setSeg]
  -- The link of line 218 is set only where there was none.
  all_goals first
    | exact .refl _ | exact segGrows_alloc old
    | refine segGrows_writeAt k ⟨rfl, ?_, ?_, fun m link => ?_⟩ <;> simp_all

/-- Every step of `queue_dequeue` grows every segment: its fetch-add raises `dequeue_index` and its
cell CAS writes a cell. -/
theorem queueDequeueStep_grows {f : DequeueFrame α} (step : queueDequeueStep w id f = some w')
    (k : Nat) : SegGrows (w.segs k) (w'.segs k) := by
  cases pc : f.pc <;> simp only [queueDequeueStep, pc] at step <;> (repeat' split at step) <;>
    cases step <;> dsimp only [World.setStatus, World.setSeg]
  all_goals first
    | exact .refl _
    | refine segGrows_writeAt k ⟨rfl, ?_, ?_, fun m link => ?_⟩ <;> simp_all

/-- Every step of the system grows every allocated segment and allocates no fewer segments. -/
theorem QueueStep.grows (step : QueueStep cfg w w') {k : Nat} (old : k < w.allocated) :
    w.allocated ≤ w'.allocated ∧ SegGrows (w.segs k) (w'.segs k) := by
  cases step with
  | enqueue | dequeue => exact ⟨Nat.le_refl _, .refl _⟩
  | run id moved =>
    obtain ⟨grown, -⟩ := (QueueStep.run id moved).cellChange
    refine ⟨grown, ?_⟩
    unfold World.runCall at moved
    split at moved
    · obtain ⟨w'', step, rfl⟩ := Option.map_eq_some'.mp moved
      exact queueEnqueueStep_grows step old
    · obtain ⟨w'', step, rfl⟩ := Option.map_eq_some'.mp moved
      exact queueDequeueStep_grows step k
    · cases moved

/-- Along every run each allocated segment keeps its size and any `next` pointer once set, and its
enqueue and dequeue indices never go down: the chain only grows at its end, and the indices are
changed only by the fetch-adds of lines 159, 177, 188, 199, 248 and 284. -/
theorem segments_only_grow (run : QueueRun cfg w w') {n : Nat} (old : n < w.allocated) :
    (w'.segs n).size = (w.segs n).size ∧
      (w.segs n).enqueueIndex ≤ (w'.segs n).enqueueIndex ∧
      (w.segs n).dequeueIndex ≤ (w'.segs n).dequeueIndex ∧
      ∀ m, (w.segs n).next = some m → (w'.segs n).next = some m := by
  -- Each step grows the segment, and growth composes.
  suffices grows : w.allocated ≤ w'.allocated ∧ SegGrows (w.segs n) (w'.segs n) from
    ⟨grows.2.size, grows.2.enqueue_le, grows.2.dequeue_le, grows.2.next⟩
  induction run with
  | refl => exact ⟨Nat.le_refl _, .refl _⟩
  | tail _ step ih =>
    obtain ⟨grown, more⟩ := step.grows (Nat.lt_of_lt_of_le old ih.1)
    exact ⟨ih.1.trans grown, ih.2.trans more⟩

/-- Over the stale-bound schedule the first segment keeps its size and link and its indices grow. -/
theorem staleBoundRun_first_segment_grows :
    ∃ w w' : World Nat, queueInitSize smallConfig 0 = some w ∧
      w.exec smallConfig staleBoundSchedule = some w' ∧
      ((w'.segs 0).size = (w.segs 0).size ∧
        (w.segs 0).enqueueIndex ≤ (w'.segs 0).enqueueIndex ∧
        (w.segs 0).dequeueIndex ≤ (w'.segs 0).dequeueIndex ∧
        ∀ m, (w.segs 0).next = some m → (w'.segs 0).next = some m) :=
  ⟨_, _, rfl, rfl,
    segments_only_grow (@World.exec_run _ smallConfig _ _ staleBoundSchedule (by rfl)) (by decide)⟩

end Grows

end Hatrack
