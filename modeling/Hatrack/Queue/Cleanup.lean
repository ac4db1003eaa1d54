import Hatrack.Queue.Publish
import Mathlib.Data.List.Nodup

/-! `queue_cleanup`, and the release of segments: once no call is in flight, each allocated segment
has been freed by a losing enqueuer, retired by a dequeuer, or is swept by the cleanup walk, and
exactly one of these. -/

namespace Hatrack

variable {α : Type}

/-- The walk of `queue_cleanup` (lines 102 to 112) from segment `cur`: each segment is handed to
`mmm_retire_unused` and the walk follows `next` until it is `NULL`. It fails if `fuel` runs out. -/
def queueCleanupFrom (segs : Nat → QueueSegment α) : Nat → Nat → Option (List Nat)
  | 0, _ => none
  | fuel + 1, cur =>
    match (segs cur).next with
    | none => some [cur]
    | some next => (queueCleanupFrom segs fuel next).map (cur :: ·)

/-- `queue_cleanup`: the walk from the dequeue segment, with a step for each allocated segment. -/
def queueCleanup (w : World α) : Option (List Nat) :=
  queueCleanupFrom w.segs w.allocated w.queue.segments.dequeueSegment

section Walks

variable {segs : Nat → QueueSegment α}

/-- A finished cleanup walk follows `next` pointers to a segment without successor. -/
theorem queueCleanupFrom_path : ∀ {fuel a : Nat} {swept : List Nat},
    queueCleanupFrom segs fuel a = some swept →
      ∃ path b, SegPath segs a b path ∧ (segs b).next = none ∧ swept = path ++ [b]
  | 0, _, _, walked => by cases walked
  | fuel + 1, a, swept, walked => by
    simp only [queueCleanupFrom] at walked
    split at walked
    · cases walked
      exact ⟨[], a, .nil a, ‹_›, rfl⟩
    · obtain ⟨rest, restWalked, rfl⟩ := Option.map_eq_some'.mp walked
      obtain ⟨path, b, walk, ends, rfl⟩ := queueCleanupFrom_path restWalked
      exact ⟨a :: path, b, .cons ‹_› walk, ends, rfl⟩

/-- When `next` pointers only lead upwards and below `bound`, a walk from below `bound` finishes
within `bound - a` steps. -/
theorem queueCleanupFrom_isSome {bound : Nat}
    (upward : ∀ n j, (segs n).next = some j → n < j ∧ j < bound) :
    ∀ {fuel a : Nat}, a < bound → bound ≤ fuel + a → (queueCleanupFrom segs fuel a).isSome
  | 0, _, below, enough => by omega
  | fuel + 1, a, below, enough => by
    simp only [queueCleanupFrom]
    split
    · rfl
    · have step := upward a _ ‹_›
      rw [Option.isSome_map']
      exact queueCleanupFrom_isSome upward step.2 (by omega)

/-- Two walks end to end make one. -/
theorem SegPath.append {a b c : Nat} {first second : List Nat} (walk : SegPath segs a b first)
    (rest : SegPath segs b c second) : SegPath segs a c (first ++ second) := by
  induction walk with
  | nil => exact rest
  | cons linked _ ih => exact .cons linked (ih rest)

/-- A walk's segments start with the segment it starts from. -/
theorem SegPath.start_mem {a b : Nat} {path : List Nat} (walk : SegPath segs a b path) :
    a ∈ path ++ [b] := by
  cases walk <;> simp

/-- A walk that ends at a segment without successor holds the successor of each of its segments. -/
theorem SegPath.next_mem {a b : Nat} {path : List Nat} (walk : SegPath segs a b path)
    (ends : (segs b).next = none) :
    ∀ m ∈ path ++ [b], ∀ n, (segs m).next = some n → n ∈ path ++ [b] := by
  induction walk with
  | nil a =>
    intro m mem n linked
    rw [List.mem_singleton.mp mem, ends] at linked
    cases linked
  | cons linked rest ih =>
    intro m mem n next
    rcases List.mem_cons.mp mem with rfl | later
    · -- The first segment's successor starts the rest of the walk.
      rw [linked] at next
      cases next
      exact List.mem_cons_of_mem _ rest.start_mem
    · exact List.mem_cons_of_mem _ (ih ends m later n next)

/-- When `next` pointers only lead upwards, a walk visits segments in increasing order. -/
theorem SegPath.sorted (upward : ∀ n j, (segs n).next = some j → n < j) {a b : Nat}
    {path : List Nat} (walk : SegPath segs a b path) :
    (path ++ [b]).Pairwise (· < ·) ∧ ∀ x ∈ path ++ [b], a ≤ x := by
  induction walk with
  | nil a => simp
  | cons linked _ ih =>
    obtain ⟨sorted, above⟩ := ih
    have step := upward _ _ linked
    refine ⟨List.pairwise_cons.mpr ⟨fun x mem => by have := above x mem; omega, sorted⟩,
      fun x mem => ?_⟩
    rcases List.mem_cons.mp mem with rfl | later
    · exact Nat.le_refl _
    · have := above x later; omega

end Walks

section Release

variable {w : World α}

/-- Each segment of a walk from a published segment is published. -/
theorem SegPath.published {a b : Nat} {path : List Nat} (walk : SegPath w.segs a b path) :
    Published w a → ∀ x ∈ path ++ [b], Published w x := by
  induction walk with
  | nil a =>
    intro start x mem
    rw [List.mem_singleton.mp mem]
    exact start
  | cons linked _ ih =>
    intro start x mem
    rcases List.mem_cons.mp mem with rfl | later
    · exact start
    · exact ih (published_of_next linked) x later

/-- A walk from the first segment that ends at a segment without successor visits exactly the
published segments, each once. -/
theorem SegPath.chain {b : Nat} {path : List Nat} (walk : SegPath w.segs 0 b path)
    (inv : SegInv w) (chain : ChainInv w) (ends : (w.segs b).next = none) :
    (∀ x, x ∈ path ++ [b] ↔ Published w x) ∧ (path ++ [b]).Nodup := by
  refine ⟨fun x => ⟨walk.published (.inl rfl) x, fun published => ?_⟩,
    (walk.sorted fun n j linked => (chain.next_lt n j linked).1).1.imp Nat.ne_of_lt⟩
  -- Each published segment is the first, or the successor of an earlier published one.
  induction x using Nat.strong_induction_on with
  | _ x ih =>
    rcases published with rfl | ⟨m, linked⟩
    · exact walk.start_mem
    · have earlier := ih m (chain.next_lt m x linked).1 (inv.next_published m x linked)
      exact walk.next_mem ends m earlier x linked

/-- Published segments have been allocated. -/
theorem ChainInv.published_lt (chain : ChainInv w) {n : Nat} (published : Published w n) :
    n < w.allocated := by
  rcases published with rfl | ⟨m, linked⟩
  · have := chain.enqueue_lt; omega
  · exact (chain.next_lt m n linked).2

/-- Only a call in flight holds a segment privately. -/
theorem CallStatus.inFlight_of_privateSegment {s : CallStatus α} {n : Nat}
    (held : s.privateSegment = some n) : s.inFlight = true := by
  cases s <;> simp_all [CallStatus.privateSegment, CallStatus.inFlight]

/-- After any interleaving of queue calls, with none in flight, `queue_cleanup` finishes, and
every allocated segment has been released exactly once: freed unpublished by an enqueuer that lost
the `next` CAS (line 219), retired by the dequeuer that moved past it (line 333), so that the
retired segments are the chain up to the dequeue segment, or swept from the dequeue segment on by
`queue_cleanup`; nothing else has been released. -/
theorem queueCleanup_releases_once {cfg : QueueConfig} (reach : QueueReachable cfg w)
    (idle : Quiescent w) : ∃ swept, queueCleanup w = some swept ∧
      (∀ n ∈ w.freed, ¬ Published w n) ∧
      SegPath w.segs 0 w.queue.segments.dequeueSegment w.retired ∧
      ∀ n, (w.freed ++ w.retired ++ swept).count n = if n < w.allocated then 1 else 0 := by
  have inv := segInv_of_reachable reach
  have chain := chainInv_of_reachable reach
  -- The walk finishes: pointers only lead upwards, and stay below the allocation count.
  have finishes : (queueCleanup w).isSome :=
    queueCleanupFrom_isSome chain.next_lt chain.dequeue_lt (by omega)
  obtain ⟨swept, walked⟩ := Option.isSome_iff_exists.mp finishes
  obtain ⟨path, b, walk, ends, rfl⟩ := queueCleanupFrom_path walked
  refine ⟨_, walked, fun n freed => (inv.freed_unpublished n freed).1, inv.retired_path,
    fun n => ?_⟩
  -- The retired segments and the sweep make up the chain from the first segment.
  obtain ⟨onChain, chainNodup⟩ := (inv.retired_path.append walk).chain inv chain ends
  -- No freed segment is on the chain.
  have nodup : (w.freed ++ (w.retired ++ path ++ [b])).Nodup :=
    List.nodup_append.mpr ⟨inv.freed_nodup, chainNodup, fun ⦃x⦄ freed chained =>
      (inv.freed_unpublished x freed).1 ((onChain x).mp chained)⟩
  -- A segment is released once it is allocated: no call in flight holds one privately.
  have released : n ∈ w.freed ++ (w.retired ++ path ++ [b]) ↔ n < w.allocated := by
    rw [List.mem_append, onChain]
    refine ⟨fun mem => mem.elim (fun freed => (inv.freed_unpublished n freed).2)
      chain.published_lt, fun below => ?_⟩
    rcases inv.allocated_cover n below with published | freed | ⟨k, c, call, held⟩
    · exact .inr published
    · exact .inl freed
    · exact absurd (idle k c call) (by rw [CallStatus.inFlight_of_privateSegment held]; decide)
  rw [List.append_assoc, ← List.append_assoc w.retired, List.count_eq_of_nodup nodup]
  exact if_congr released rfl rfl

/-- A schedule in which two enqueuers race to link a successor: the loser frees its segment, and a
dequeuer then moves past the first segment and retires it. -/
def releaseSchedule : List (QueueAction Nat) :=
  enqueueRun 0 0 ++ enqueueRun 1 1 ++ .enqueue 2 :: List.replicate 5 (.run 2) ++
    .enqueue 3 :: List.replicate 5 (.run 3) ++ List.replicate 4 (.run 2) ++
    List.replicate 6 (.run 3) ++ dequeueRun 4 ++ dequeueRun 5 ++ .dequeue :: List.replicate 10 (.run 6)

/-- The run of `releaseSchedule` from a queue of two-cell segments. -/
def releaseRun : Option (World Nat) :=
  (queueInitSize smallConfig 0).bind fun w => w.exec smallConfig releaseSchedule

/-- In the race's final state the three ways of release each take one segment, and together they
release the three allocated segments once each. -/
theorem releaseRun_releases_once : ∃ w, releaseRun = some w ∧ w.freed = [2] ∧ w.retired = [0] ∧
    ∃ swept, queueCleanup w = some swept ∧
      (∀ n ∈ w.freed, ¬ Published w n) ∧
      SegPath w.segs 0 w.queue.segments.dequeueSegment w.retired ∧
      ∀ n, (w.freed ++ w.retired ++ swept).count n = if n < w.allocated then 1 else 0 := by
  refine ⟨_, rfl, rfl, rfl,
    @queueCleanup_releases_once _ _ smallConfig ?reach (quiescent_of_allReturned ?reach ?idle)⟩
  case reach => exact reachable_of_exec 0 releaseSchedule rfl
  case idle => rfl

end Release

end Hatrack
