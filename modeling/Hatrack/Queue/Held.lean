import Hatrack.Queue.Cleanup
import Hatrack.Queue.Cells
import Hatrack.Queue.Len
import Mathlib.Data.Finset.Card
import Mathlib.Data.Finset.Union

/-! The items the queue holds: once no call is in flight, `len` is the number of used cells of the
segment chain that no dequeue took. -/

namespace Hatrack

variable {α : Type}

/-- The segments of the chain: the walk of `queue_cleanup` started at the first segment. -/
def chainSegments (w : World α) : List Nat :=
  (queueCleanupFrom w.segs w.allocated 0).getD []

/-- The cells of the chain. -/
def chainCells (w : World α) : Finset CellRef :=
  (chainSegments w).toFinset.biUnion fun n =>
    (Finset.range (w.segs n).size).image fun i => ⟨n, i⟩

/-- The used cells of the chain. -/
def usedCells (w : World α) : Finset CellRef :=
  (chainCells w).filter fun p => (w.cellAt p).isUsed

/-- The cell a returned call names: the one an enqueue wrote, or the one a dequeue took. -/
def CallStatus.cell : CallStatus α → CellRef
  | .enqueued _ p _ | .found _ p _ => p
  | _ => ⟨0, 0⟩

namespace World

/-- The cell call `id` returned naming. -/
def callCell (w : World α) (id : Nat) : CellRef :=
  ((w.calls id).map fun c => c.status.cell).getD ⟨0, 0⟩

/-- The returned enqueue calls. -/
def enqueuedCalls (w : World α) : Finset Nat :=
  (Finset.range w.started).filter fun e => (w.calls e).any fun c => c.status.isEnqueued

/-- The dequeue calls that returned an item. -/
def foundCalls (w : World α) : Finset Nat :=
  (Finset.range w.started).filter fun d => (w.calls d).any fun c => c.status.isFound

/-- Some dequeue call has returned the item of cell `p`. -/
def taken (w : World α) (p : CellRef) : Bool :=
  (List.range w.started).any fun d =>
    (w.calls d).any fun c => c.status.isFound && decide (c.status.cell = p)

end World

/-- The items the queue holds: the used cells of the chain that no dequeue took. -/
def heldCells (w : World α) : Finset CellRef :=
  (chainCells w).filter fun p => (w.cellAt p).isUsed && !w.taken p

/-- A count of calls is the size of the set of call numbers it counts. -/
theorem countCalls_eq_card (p : CallStatus α → Bool) (calls : Nat → Option (Call α)) (n : Nat) :
    countCalls p calls n =
      ((Finset.range n).filter fun i => (calls i).any fun c => p c.status).card := by
  induction n with
  | zero => rfl
  | succ n ih =>
    rw [countCalls, ih, Finset.range_succ, Finset.filter_insert]
    -- Slot `n` is counted once if its call passes the test.
    have fresh : n ∉ (Finset.range n).filter fun i => (calls i).any fun c => p c.status := by
      simp
    cases calls n with
    | none => simp
    | some c =>
      by_cases passes : p c.status
      · simp [passes, Finset.card_insert_of_not_mem fresh]
      · simp [passes]

section Held

variable {w : World α}

/-- The chain's segments are the published ones. -/
theorem mem_chainSegments (inv : SegInv w) (chain : ChainInv w) {n : Nat} :
    n ∈ chainSegments w ↔ Published w n := by
  have zero : 0 < w.allocated := by have := chain.enqueue_lt; omega
  have finishes : (queueCleanupFrom w.segs w.allocated 0).isSome :=
    queueCleanupFrom_isSome chain.next_lt zero (by omega)
  obtain ⟨segs, walked⟩ := Option.isSome_iff_exists.mp finishes
  obtain ⟨path, b, walk, ends, rfl⟩ := queueCleanupFrom_path walked
  rw [chainSegments, walked, Option.getD_some]
  exact (walk.chain inv chain ends).1 n

/-- The chain's cells are the cells of published segments below their sizes. -/
theorem mem_chainCells (inv : SegInv w) (chain : ChainInv w) {p : CellRef} :
    p ∈ chainCells w ↔ InChain w p := by
  simp only [chainCells, Finset.mem_biUnion, List.mem_toFinset, mem_chainSegments inv chain,
    Finset.mem_image, Finset.mem_range]
  constructor
  · rintro ⟨n, published, i, below, rfl⟩
    exact ⟨published, below⟩
  · rintro ⟨published, below⟩
    exact ⟨p.segment, published, p.index, below, rfl⟩

/-- A cell is taken when a dequeue that returned an item names it. -/
theorem taken_iff {p : CellRef} :
    w.taken p = true ↔ ∃ d ∈ w.foundCalls, w.callCell d = p := by
  simp only [World.taken, List.any_eq_true, List.mem_range, World.foundCalls,
    Finset.mem_filter, Finset.mem_range, World.callCell]
  constructor
  · rintro ⟨d, below, named⟩
    cases slot : w.calls d with
    | none => simp [slot] at named
    | some c =>
      simp only [slot, Option.any_some, Bool.and_eq_true, decide_eq_true_eq] at named
      exact ⟨d, ⟨below, by simp [slot, named.1]⟩, by simp [slot, named.2]⟩
  · rintro ⟨d, ⟨below, found⟩, named⟩
    cases slot : w.calls d with
    | none => simp [slot] at found
    | some c =>
      simp only [slot, Option.any_some, Option.map_some', Option.getD_some] at found named
      exact ⟨d, below, by simp [slot, found, named]⟩

/-- At quiescence each used cell of the chain was written by exactly one returned enqueue. -/
theorem image_enqueuedCalls {cfg : QueueConfig} (reach : QueueReachable cfg w)
    (idle : Quiescent w) : w.enqueuedCalls.image w.callCell = usedCells w := by
  have inv := cellInv_of_reachable reach
  have segInv := segInv_of_reachable reach
  have chain := chainInv_of_reachable reach
  ext p
  simp only [Finset.mem_image, World.enqueuedCalls, usedCells, Finset.mem_filter,
    Finset.mem_range, mem_chainCells segInv chain]
  constructor
  · -- A returned enqueue names the cell it wrote, which still holds its item.
    rintro ⟨e, ⟨below, returned⟩, rfl⟩
    cases slot : w.calls e with
    | none => simp [slot] at returned
    | some c =>
      simp only [slot, Option.any_some] at returned
      cases status : c.status with
      | enqueued x q t =>
        have placed : c.status.Placed x q := by rw [status]; exact ⟨rfl, rfl⟩
        obtain ⟨chain, used⟩ := inv.placed_used e c x q slot placed
        simp only [World.callCell, slot, status, Option.map_some', Option.getD_some,
          CallStatus.cell]
        exact ⟨chain, by rw [used]; rfl⟩
      | _ => simp [status, CallStatus.isEnqueued] at returned
  · -- A used cell's writer placed it, and with no call in flight it has returned.
    rintro ⟨chain, used⟩
    cases read : w.cellAt p with
    | used x e =>
      obtain ⟨c, slot, placed⟩ := inv.used_placed p x e chain read
      have below : e < w.started := Nat.lt_of_not_le fun past => by
        rw [calls_eq_none_of_reachable reach e past] at slot; cases slot
      have flight := idle e c slot
      cases status : c.status with
      | enqueued y q t =>
        rw [status] at placed
        obtain ⟨-, rfl⟩ := placed
        refine ⟨e, ⟨below, by simp [slot, status, CallStatus.isEnqueued]⟩, ?_⟩
        simp [World.callCell, slot, status, CallStatus.cell]
      | enqueuing f => rw [status] at flight; cases flight
      | _ => rw [status] at placed; exact placed.elim
    | _ => rw [read] at used; cases used

/-- Returned enqueues name distinct cells. -/
theorem injOn_enqueuedCalls {cfg : QueueConfig} (reach : QueueReachable cfg w) :
    Set.InjOn w.callCell w.enqueuedCalls := by
  have inv := cellInv_of_reachable reach
  -- Each named cell holds the item of the call that names it.
  have holds : ∀ e ∈ w.enqueuedCalls, ∃ x, w.cellAt (w.callCell e) = .used x e := by
    intro e mem
    simp only [World.enqueuedCalls, Finset.mem_filter, Finset.mem_range] at mem
    cases slot : w.calls e with
    | none => simp [slot] at mem
    | some c =>
      cases status : c.status with
      | enqueued x q t =>
        have placed : c.status.Placed x q := by rw [status]; exact ⟨rfl, rfl⟩
        refine ⟨x, ?_⟩
        simp only [World.callCell, slot, status, Option.map_some', Option.getD_some,
          CallStatus.cell]
        exact (inv.placed_used e c x q slot placed).2
      | _ => simp [slot, status, CallStatus.isEnqueued] at mem
  intro e mem e' mem' same
  obtain ⟨x, used⟩ := holds e mem
  obtain ⟨x', used'⟩ := holds e' mem'
  rw [same, used'] at used
  cases used
  rfl

/-- Each dequeue that returned an item names a used cell of the chain, and the named cells are
exactly the taken ones. -/
theorem image_foundCalls {cfg : QueueConfig} (reach : QueueReachable cfg w) :
    w.foundCalls.image w.callCell = (usedCells w).filter fun p => w.taken p := by
  have inv := cellInv_of_reachable reach
  have segInv := segInv_of_reachable reach
  have chain := chainInv_of_reachable reach
  ext p
  simp only [Finset.mem_image, Finset.mem_filter, usedCells, mem_chainCells segInv chain]
  constructor
  · rintro ⟨d, mem, rfl⟩
    refine ⟨?_, taken_iff.mpr ⟨d, mem, rfl⟩⟩
    simp only [World.foundCalls, Finset.mem_filter, Finset.mem_range] at mem
    cases slot : w.calls d with
    | none => simp [slot] at mem
    | some c =>
      cases status : c.status with
      | found contents q t =>
        -- The dequeue took a used cell of the chain.
        obtain ⟨-, chain, read, used⟩ := inv.took ⟨c.invokedAt, t, by rw [slot, ← status]⟩
        simp only [World.callCell, slot, status, Option.map_some', Option.getD_some,
          CallStatus.cell]
        exact ⟨chain, by rw [read]; exact used⟩
      | _ => simp [slot, status, CallStatus.isFound] at mem
  · rintro ⟨-, named⟩
    exact taken_iff.mp named

/-- Dequeues that returned an item name distinct cells. -/
theorem injOn_foundCalls {cfg : QueueConfig} (reach : QueueReachable cfg w) :
    Set.InjOn w.callCell w.foundCalls := by
  have inv := cellInv_of_reachable reach
  -- Each named cell was claimed by the call that names it.
  have claimed : ∀ d ∈ w.foundCalls, ClaimedBy w d (w.callCell d) := by
    intro d mem
    simp only [World.foundCalls, Finset.mem_filter, Finset.mem_range] at mem
    cases slot : w.calls d with
    | none => simp [slot] at mem
    | some c =>
      cases status : c.status with
      | found contents q t =>
        simp only [World.callCell, slot, status, Option.map_some', Option.getD_some,
          CallStatus.cell]
        exact (inv.took ⟨c.invokedAt, t, by rw [slot, ← status]⟩).1
      | _ => simp [slot, status, CallStatus.isFound] at mem
  intro d mem d' mem' same
  have mine := claimed d mem
  rw [same] at mine
  exact inv.claimedBy_unique mine (claimed d' mem')

/-- In every reachable state with no call in flight, `len` is the number of items the queue
holds, the used cells of the segment chain that no dequeue took, and that number is the returned
enqueues less the dequeues that returned an item. -/
theorem len_eq_heldCells {cfg : QueueConfig} (reach : QueueReachable cfg w)
    (idle : Quiescent w) :
    w.queue.len = (heldCells w).card ∧
      ((heldCells w).card : Int) = w.enqueuedCount - w.foundCount := by
  -- Returned enqueues and used cells match one to one, as do found dequeues and taken cells.
  have enqueued : w.enqueuedCount = (usedCells w).card := by
    rw [World.enqueuedCount, countCalls_eq_card, ← image_enqueuedCalls reach idle,
      Finset.card_image_of_injOn (injOn_enqueuedCalls reach)]
    rfl
  have found : w.foundCount = ((usedCells w).filter fun p => w.taken p).card := by
    rw [World.foundCount, countCalls_eq_card, ← image_foundCalls reach,
      Finset.card_image_of_injOn (injOn_foundCalls reach)]
    rfl
  -- The held cells are the used cells not taken.
  have held : heldCells w = (usedCells w).filter fun p => ¬ w.taken p = true := by
    ext p
    simp [heldCells, usedCells, Finset.mem_filter, and_assoc]
  have split := Finset.filter_card_add_filter_neg_card_eq_card (s := usedCells w)
    fun p => w.taken p = true
  have len := lenInv_of_reachable reach
  unfold LenInv at len
  rw [← held, ← found, ← enqueued] at split
  constructor <;> omega

/-- In the final state of the race for a successor, with no call in flight, `len` is the one
item left in the chain. -/
theorem releaseRun_len_eq_held : ∃ w, releaseRun = some w ∧ (heldCells w).card = 1 ∧
    w.queue.len = (heldCells w).card ∧
      ((heldCells w).card : Int) = w.enqueuedCount - w.foundCount := by
  refine ⟨_, rfl, by decide,
    @len_eq_heldCells _ _ smallConfig ?reach (quiescent_of_allReturned ?reach ?idle)⟩
  case reach => exact reachable_of_exec 0 releaseSchedule rfl
  case idle => rfl

end Held

end Hatrack
