import Mathlib.Algebra.Group.Int

/-! The memory of the wait-free queue of `queue.c`: cells, segments, the queue record, and its calls. -/

namespace Hatrack

/-- A numbered store (of segments, of cells, of calls) with slot `k` overwritten by `v`. -/
def writeAt {β : Type} (store : Nat → β) (k : Nat) (v : β) : Nat → β :=
  fun n => if n = k then v else store n

section WriteAt

variable {β : Type} {store : Nat → β} {k n : Nat} {v : β}

/-- Reading a store at any slot after a write. -/
theorem writeAt_apply : writeAt store k v n = if n = k then v else store n := rfl

/-- Reading back the slot just written. -/
@[simp] theorem writeAt_same : writeAt store k v k = v := if_pos rfl

/-- A write leaves every other slot alone. -/
@[simp] theorem writeAt_ne (other : n ≠ k) : writeAt store k v n = store n := if_neg other

/-- Of two writes to one slot the second stays. -/
theorem writeAt_writeAt {v' : β} : writeAt (writeAt store k v) k v' = writeAt store k v' := by
  funext n
  simp only [writeAt_apply]
  split <;> rfl

end WriteAt

/-- The constants `queue.c` reads from `queue.h`, a header the sources do not include. -/
structure QueueConfig where
  /-- `QSIZE_LOG_DEFAULT`, the size log a zero argument of `queue_init_size` stands for. -/
  qsizeLogDefault : Nat
  /-- `QSIZE_LOG_MIN`, the smallest size log `queue_init_size` accepts. -/
  qsizeLogMin : Nat
  /-- `QSIZE_LOG_MAX`, the largest size log `queue_init_size` accepts. -/
  qsizeLogMax : Nat
  /-- `QUEUE_HELP_VALUE`, the step from which a losing enqueuer asks for larger segments. -/
  queueHelpValue : Nat
  deriving Repr, DecidableEq

/-- A queue cell (`queue_item_t`); a used cell also records which call wrote it. -/
inductive QueueItem (α : Type) where
  /-- `empty_cell`: every cell of a fresh segment starts out empty. -/
  | empty
  /-- `too_slow_marker`: a dequeuer reached the cell before the enqueuer it was reserved for. -/
  | tooSlow
  /-- A `QUEUE_USED` cell holding `item`, written by call number `enqueuer`. -/
  | used (item : α) (enqueuer : Nat)
  deriving Repr, DecidableEq

/-- The `item` field of a cell: the stored pointer, `NULL` unless the cell is used. -/
def QueueItem.item {α : Type} : QueueItem α → Option α
  | .used x _ => some x
  | _ => none

/-- A cell of the segment heap: the segment's allocation number and the index within it. -/
structure CellRef where
  segment : Nat
  index : Nat
  deriving Repr, DecidableEq

/-- Queue order on cells: by segment, then by index within the segment. -/
def CellRef.Before (p q : CellRef) : Prop :=
  p.segment < q.segment ∨ (p.segment = q.segment ∧ p.index < q.index)

/-- A segment (`queue_segment_t`); a pointer to a segment is its allocation number. -/
structure QueueSegment (α : Type) where
  size : Nat
  enqueueIndex : Nat
  dequeueIndex : Nat
  next : Option Nat
  cells : Nat → QueueItem α

/-- `queue_new_segment`: zeroed memory, so both indices are 0, `next` is `NULL` and every cell is
`empty_cell`. -/
def queueNewSegment {α : Type} (numCells : Nat) : QueueSegment α :=
  { size := numCells, enqueueIndex := 0, dequeueIndex := 0, next := none,
    cells := fun _ => .empty }

/-- `queue_seg_ptrs_t`, the two segment pointers that one double-word CAS updates together. -/
structure QueueSegPtrs where
  enqueueSegment : Nat
  dequeueSegment : Nat
  deriving Repr, DecidableEq

/-- `queue_t`: the segment pointers and the shared counters, kept as exact integers. -/
structure Queue where
  segments : QueueSegPtrs
  defaultSegmentSize : Nat
  helpNeeded : Int
  len : Int
  deriving Repr, DecidableEq

/-- The line of `queue_enqueue` a call runs next; each is one access to shared memory. -/
inductive EnqueuePc where
  /-- Line 156: `segments = atomic_read(&self->segments)`. -/
  | readSegments
  /-- Lines 159, 177, 188, 199 and 248: `atomic_fetch_add(&segment->enqueue_index, step)`. -/
  | fetchIndex
  /-- Line 166: the CAS of `segment->cells[cur_ix]` from `empty_cell` to the candidate. -/
  | casCell
  /-- Line 182: `atomic_fetch_add(&self->help_needed, 1)`. -/
  | addHelp
  /-- Line 184: the re-read of the segment pointers after asking for help. -/
  | rereadHelped
  /-- Line 195: the re-read of the segment pointers without asking for help. -/
  | reread
  /-- Line 203: `atomic_read(&self->help_needed)`. -/
  | readHelp
  /-- Lines 211 to 215: the successor is allocated with the candidate in its first cell. -/
  | allocSegment
  /-- Line 218: the CAS of `segment->next` from `NULL` to the new segment. -/
  | casNext
  /-- Line 230: the CAS of the segment pointers publishing the new enqueue segment. -/
  | casSegments
  /-- Lines 169 and 239: `atomic_fetch_sub(&self->help_needed, 1)`. -/
  | subHelp
  /-- Lines 173 and 243: `atomic_fetch_add(&self->len, 1)`, after which the call returns. -/
  | addLen
  deriving Repr, DecidableEq

/-- The locals of a running `queue_enqueue` call. The candidate cell is `{ item, QUEUE_USED }` and
the candidate pointers are `(new_segment, segments.dequeue_segment)`, so neither is stored. -/
structure EnqueueFrame (α : Type) where
  item : α
  pc : EnqueuePc
  segments : QueueSegPtrs
  segment : Nat
  endSize : Nat
  curIx : Nat
  step : Nat
  needHelp : Bool
  newSize : Nat
  newSegment : Nat
  needToEnqueue : Bool
  /-- Ghost: the cell the item went to, meaningful once it has been written. -/
  placed : CellRef
  deriving Repr, DecidableEq

/-- The line of `queue_dequeue` a call runs next; each is one access to shared memory. -/
inductive DequeuePc where
  /-- Line 267: `segments = atomic_read(&self->segments)`. -/
  | readSegments
  /-- Line 273: `cur_ix = atomic_load(&segment->dequeue_index)`. -/
  | loadDequeueIndex
  /-- Line 274: `head_ix = atomic_load(&segment->enqueue_index)`, then the tests of lines 276, 280. -/
  | loadEnqueueIndex
  /-- Line 284: `cur_ix = atomic_fetch_add(&segment->dequeue_index, 1)`, then the test of line 285. -/
  | fetchIndex
  /-- Line 291: the CAS of `segment->cells[cur_ix]` from `empty_cell` to `too_slow_marker`. -/
  | casCell
  /-- Line 297: `atomic_fetch_sub(&self->len, 1)`, after which the call returns its item. -/
  | subLen
  /-- Line 302: `new_segment = atomic_read(&segment->next)`. -/
  | readNext
  /-- Line 316: the CAS moving the dequeue segment on; the winner retires the old one (line 333). -/
  | casSegments
  deriving Repr, DecidableEq

/-- The locals of a running `queue_dequeue` call; `head_ix` lives only within one step. -/
structure DequeueFrame (α : Type) where
  pc : DequeuePc
  segments : QueueSegPtrs
  segment : Nat
  curIx : Nat
  newSegment : Nat
  cellContents : QueueItem α
  deriving Repr, DecidableEq

/-- Where a queue call stands: running with its locals, or returned with what it returned. -/
inductive CallStatus (α : Type) where
  /-- A `queue_enqueue` call in flight. -/
  | enqueuing (frame : EnqueueFrame α)
  /-- A `queue_dequeue` call in flight. -/
  | dequeuing (frame : DequeueFrame α)
  /-- A `queue_enqueue` call that returned after writing `item` to `cell`. -/
  | enqueued (item : α) (cell : CellRef) (returnedAt : Nat)
  /-- A `queue_dequeue` call that returned with `found = false`. -/
  | notFound (returnedAt : Nat)
  /-- A `queue_dequeue` call that returned `cellContents.item` with `found = true`, from `cell`. -/
  | found (cellContents : QueueItem α) (cell : CellRef) (returnedAt : Nat)
  deriving Repr, DecidableEq

/-- A call to the queue, stamped with the step at which it was invoked. -/
structure Call (α : Type) where
  invokedAt : Nat
  status : CallStatus α
  deriving Repr, DecidableEq

/-- Ghost record of a dequeuer's fetch-add handing it an index below the segment's size. -/
structure Claim where
  dequeuer : Nat
  cell : CellRef
  time : Nat
  deriving Repr, DecidableEq

/-- The whole system: the queue record, the segment heap, every call made so far, and ghost logs.
Calls are numbered in invocation order and `clock` counts the steps taken. -/
structure World (α : Type) where
  queue : Queue
  segs : Nat → QueueSegment α
  allocated : Nat
  calls : Nat → Option (Call α)
  started : Nat
  clock : Nat
  /-- Ghost: every dequeue claim so far, oldest first. -/
  claims : List Claim
  /-- Ghost: every segment handed to `mmm_retire`, oldest first. -/
  retired : List Nat
  /-- Ghost: every segment handed to `mmm_retire_unused`, oldest first. -/
  freed : List Nat

/-- `queue_init_size`: a zero size log means the default, one out of range aborts, and the first
segment (allocation number 0) is both the enqueue and the dequeue segment. -/
def queueInitSize {α : Type} (cfg : QueueConfig) (sizeLog : Nat) : Option (World α) :=
  if sizeLog ≠ 0 ∧ (sizeLog < cfg.qsizeLogMin ∨ cfg.qsizeLogMax < sizeLog) then none
  else
    let segCells := 2 ^ (if sizeLog = 0 then cfg.qsizeLogDefault else sizeLog)
    some { queue := { segments := ⟨0, 0⟩, defaultSegmentSize := segCells, helpNeeded := 0, len := 0 }
           segs := fun n => if n = 0 then queueNewSegment segCells else queueNewSegment 0
           allocated := 1, calls := fun _ => none, started := 0, clock := 0, claims := []
           retired := [], freed := [] }

namespace World

variable {α : Type}

/-- Replace the segment with allocation number `n`. -/
@[simp] def setSeg (w : World α) (n : Nat) (seg : QueueSegment α) : World α :=
  { w with segs := writeAt w.segs n seg }

/-- Give call `id` a new status, keeping its invocation stamp. -/
@[simp] def setStatus (w : World α) (id : Nat) (status : CallStatus α) : World α :=
  { w with calls := writeAt w.calls id ((w.calls id).map fun c => { c with status }) }

/-- One step has been taken. -/
@[simp] def tick (w : World α) : World α :=
  { w with clock := w.clock + 1 }

/-- The call table after call `id`, found as `c`, moves to a new status. -/
theorem setStatus_calls {w : World α} {id : Nat} {c : Call α} {status : CallStatus α}
    (call : w.calls id = some c) (e : Nat) :
    (w.setStatus id status).calls e = if e = id then some { c with status } else w.calls e := by
  simp only [setStatus, writeAt_apply]
  split
  · subst e; simp [call]
  · rfl

end World

end Hatrack
