import Hatrack.Queue.State

/-! The epoch counter of `mmm.h` and the calls that read it: `mmm_commit_write`,
`mmm_help_commit` and `mmm_start_linearized_op`, over records handed out by `mmm_alloc`. -/

namespace Hatrack

/-- `uint64_t` arithmetic is modulo this. -/
def wordSize : Nat := 2 ^ 64

/-- `atomic_fetch_add(&mmm_epoch, 1) + 1`: the value stored back and the value returned, in
64-bit arithmetic. -/
def epochSucc (e : Nat) : Nat := (e + 1) % wordSize

/-- Where a call of the epoch functions stands, with the locals it still needs. -/
inductive EpochStatus where
  /-- About to run `atomic_fetch_add(&mmm_epoch, 1)` for record `p` (lines 405 and 432). -/
  | fetchEpoch (p : Nat)
  /-- Holding `cur_epoch`, about to CAS `p`'s `write_epoch` from 0 to it (lines 417 and 433). -/
  | casWriteEpoch (p : Nat) (cur : Nat)
  /-- `mmm_help_commit(ptr)` on entry: the null test, then the read of `write_epoch` (line 428). -/
  | helpRead (ptr : Option Nat)
  /-- A returned `mmm_commit_write` or `mmm_help_commit` on `ptr`. -/
  | committed (ptr : Option Nat) (returnedAt : Nat)
  /-- `mmm_start_linearized_op()` on entry, about to load the epoch (line 377). -/
  | linearizeLoad
  /-- About to store `read_epoch` in the thread's reservation slot (line 379). -/
  | linearizeReserve (readEpoch : Nat)
  /-- About to load the epoch again and compare it with the reservation (lines 380 and 381). -/
  | linearizeReload
  /-- A returned `mmm_start_linearized_op()` with the epoch it returned. -/
  | linearized (epoch : Nat) (returnedAt : Nat)
  deriving Repr, DecidableEq

/-- The record a commit or help call works on, if any. -/
def EpochStatus.target : EpochStatus → Option Nat
  | .fetchEpoch p | .casWriteEpoch p _ => some p
  | .helpRead ptr | .committed ptr _ => ptr
  | _ => none

/-- A call, stamped with the step at which it was invoked and, as ghost data, the epoch then. -/
structure EpochCall where
  invokedAt : Nat
  invokedEpoch : Nat
  status : EpochStatus
  deriving Repr, DecidableEq

/-- `mmm_epoch`, each record's `write_epoch`, the reservation slots, and the calls so far. -/
structure EpochWorld where
  epoch : Nat
  writeEpoch : Nat → Nat
  /-- `mmm_reservations`, one slot per call: a thread writes and reads back only its own. -/
  reservations : Nat → Nat
  /-- Records handed out by `mmm_alloc` so far. -/
  allocated : Nat
  calls : Nat → Option EpochCall
  started : Nat
  clock : Nat
  /-- Ghost: the epoch the run started from. -/
  initialEpoch : Nat
  /-- Ghost: the fetch-adds of the epoch so far. -/
  increments : Nat

namespace EpochWorld

/-- No records and no calls yet, with the epoch at `e0`. -/
def init (e0 : Nat) : EpochWorld :=
  { epoch := e0, writeEpoch := fun _ => 0, reservations := fun _ => 0, allocated := 0
    calls := fun _ => none, started := 0, clock := 0, initialEpoch := e0, increments := 0 }

/-- Give call `id` a new status. -/
@[simp] def setStatus (w : EpochWorld) (id : Nat) (status : EpochStatus) : EpochWorld :=
  { w with calls := writeAt w.calls id ((w.calls id).map fun c => { c with status }) }

/-- `atomic_fetch_add(&mmm_epoch, 1)`. -/
@[simp] def fetchAdd (w : EpochWorld) : EpochWorld :=
  { w with epoch := epochSucc w.epoch, increments := w.increments + 1 }

/-- The CAS of `p`'s `write_epoch` from 0 to `cur`. -/
def casWriteEpoch (w : EpochWorld) (p cur : Nat) : EpochWorld :=
  if w.writeEpoch p = 0 then { w with writeEpoch := writeAt w.writeEpoch p cur } else w

section CasWriteEpoch

variable {w : EpochWorld} {p cur : Nat}

/-- The CAS touches only `write_epoch`. -/
@[simp] theorem casWriteEpoch_epoch : (w.casWriteEpoch p cur).epoch = w.epoch := by
  unfold casWriteEpoch; split <;> rfl

/-- The CAS touches only `write_epoch`. -/
@[simp] theorem casWriteEpoch_increments : (w.casWriteEpoch p cur).increments = w.increments := by
  unfold casWriteEpoch; split <;> rfl

/-- The CAS touches only `write_epoch`. -/
@[simp] theorem casWriteEpoch_initialEpoch :
    (w.casWriteEpoch p cur).initialEpoch = w.initialEpoch := by
  unfold casWriteEpoch; split <;> rfl

end CasWriteEpoch

/-- `mmm_alloc`: `calloc` zeroes the header, so the new record's `write_epoch` is 0. -/
def mmmAlloc (w : EpochWorld) : EpochWorld :=
  { w with
    writeEpoch := writeAt w.writeEpoch w.allocated 0, allocated := w.allocated + 1
    clock := w.clock + 1 }

/-- A new call enters with the next call number. -/
def invoke (w : EpochWorld) (status : EpochStatus) : EpochWorld :=
  { w with
    calls := writeAt w.calls w.started (some ⟨w.clock, w.epoch, status⟩)
    started := w.started + 1, clock := w.clock + 1 }

end EpochWorld

/-- One atomic step of call `id` at the line its status names. -/
def epochStep (w : EpochWorld) (id : Nat) : EpochStatus → Option EpochWorld
  | .fetchEpoch p => some (w.fetchAdd.setStatus id (.casWriteEpoch p (epochSucc w.epoch)))
  -- Whether the CAS wins or loses, the call returns (lines 406 to 417 and 433 to 436).
  | .casWriteEpoch p cur => some ((w.casWriteEpoch p cur).setStatus id (.committed (some p) w.clock))
  | .helpRead none => some (w.setStatus id (.committed none w.clock))
  | .helpRead (some p) =>
    if w.writeEpoch p = 0 then some (w.setStatus id (.fetchEpoch p))
    else some (w.setStatus id (.committed (some p) w.clock))
  | .linearizeLoad => some (w.setStatus id (.linearizeReserve w.epoch))
  | .linearizeReserve r =>
    some ({ w with reservations := writeAt w.reservations id r }.setStatus id .linearizeReload)
  -- The loop ends once the epoch read equals the reservation just made.
  | .linearizeReload =>
    if w.epoch ≠ w.reservations id then some (w.setStatus id (.linearizeReserve w.epoch))
    else some (w.setStatus id (.linearized w.epoch w.clock))
  | .committed .. | .linearized .. => none

/-- Call `id` takes its next step, if it is in flight. -/
def EpochWorld.runCall (w : EpochWorld) (id : Nat) : Option EpochWorld :=
  (w.calls id).bind fun c => (epochStep w id c.status).map fun w' => { w' with clock := w'.clock + 1 }

/-- One step of the system: a record is allocated, a call starts on an allocated record, or a
call in flight takes its next step. -/
inductive EpochStep : EpochWorld → EpochWorld → Prop where
  /-- Some thread calls `mmm_alloc`. -/
  | alloc (w : EpochWorld) : EpochStep w w.mmmAlloc
  /-- Some thread calls `mmm_commit_write(p)` on a record it allocated. -/
  | commitWrite (w : EpochWorld) (p : Nat) :
      p < w.allocated → EpochStep w (w.invoke (.fetchEpoch p))
  /-- Some thread calls `mmm_help_commit(ptr)` on `NULL` or an allocated record. -/
  | helpCommit (w : EpochWorld) (ptr : Option Nat) :
      (∀ p, ptr = some p → p < w.allocated) → EpochStep w (w.invoke (.helpRead ptr))
  /-- Some thread calls `mmm_start_linearized_op()`. -/
  | startLinearizedOp (w : EpochWorld) : EpochStep w (w.invoke .linearizeLoad)
  /-- Call `id` takes one atomic step. -/
  | run {w w' : EpochWorld} (id : Nat) : w.runCall id = some w' → EpochStep w w'

/-- The states reached from any 64-bit starting epoch. -/
inductive EpochReachable : EpochWorld → Prop where
  /-- No records and no calls yet. -/
  | init (e0 : Nat) : e0 < wordSize → EpochReachable (EpochWorld.init e0)
  /-- One more step of any thread. -/
  | step {w w' : EpochWorld} : EpochReachable w → EpochStep w w' → EpochReachable w'

/-- A thread's move in a schedule of the epoch functions. -/
inductive EpochAction where
  | alloc
  | commitWrite (p : Nat)
  | helpCommit (ptr : Option Nat)
  | startLinearizedOp
  | run (id : Nat)
  deriving Repr, DecidableEq

/-- Run a schedule; it fails when a call names a record not allocated or a listed call cannot
move. -/
def EpochWorld.exec : EpochWorld → List EpochAction → Option EpochWorld
  | w, [] => some w
  | w, .alloc :: rest => w.mmmAlloc.exec rest
  | w, .commitWrite p :: rest =>
    if p < w.allocated then (w.invoke (.fetchEpoch p)).exec rest else none
  | w, .helpCommit ptr :: rest =>
    if ptr.all (· < w.allocated) then (w.invoke (.helpRead ptr)).exec rest else none
  | w, .startLinearizedOp :: rest => (w.invoke .linearizeLoad).exec rest
  | w, .run id :: rest => (w.runCall id).bind fun w' => w'.exec rest

/-- The epoch has not wrapped: fewer than `2^64 - 1 - E0` fetch-adds from its start `E0`. -/
def EpochWorld.NoWrap (w : EpochWorld) : Prop :=
  w.increments < wordSize - 1 - w.initialEpoch

instance (w : EpochWorld) : Decidable w.NoWrap :=
  inferInstanceAs (Decidable (_ < _))

end Hatrack
