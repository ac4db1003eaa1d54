import Hatrack.Queue.Progress
import Mathlib.Data.List.Basic
import Mathlib.Data.List.Chain
import Mathlib.Data.List.Nodup

/-! The queue driven one call at a time: each operation invoked once the previous one returned and
run alone until it returns gives the results of a FIFO list. -/

namespace Hatrack

variable {α : Type}

/-- A client's request to the queue. -/
inductive QueueOp (α : Type) where
  | enqueue (item : α)
  | dequeue
  deriving Repr, DecidableEq

/-- The FIFO queue `queue.c` implements, oldest item first: the results of the dequeues among
`ops` run one after another from `q`, with `none` for a dequeue of an empty queue. -/
def fifoResults : List α → List (QueueOp α) → List (Option α)
  | _, [] => []
  | q, .enqueue x :: ops => fifoResults (q ++ [x]) ops
  | q, .dequeue :: ops => q.head? :: fifoResults q.tail ops

/-- What a returned `queue_dequeue` hands its caller: the item of the cell it took, or nothing
with `found = false`. -/
def CallStatus.dequeued : CallStatus α → Option α
  | .found contents _ _ => contents.item
  | _ => none

/-- Operations run one at a time: each is invoked once the previous one returned, and runs alone
until it returns; the results are those of the dequeues. -/
inductive SeqRun (cfg : QueueConfig) :
    World α → List (QueueOp α) → List (Option α) → World α → Prop where
  /-- Nothing left to run. -/
  | nil (w : World α) : SeqRun cfg w [] [] w
  /-- `queue_enqueue(self, x)` runs `n` steps alone and returns. -/
  | enqueue {w w' w'' : World α} {ops : List (QueueOp α)} {rs : List (Option α)} (x : α)
      (n t : Nat) (s : CallStatus α)
      (ran : w.exec cfg (.enqueue x :: List.replicate n (.run w.started)) = some w')
      (returned : w'.calls w.started = some ⟨t, s⟩) (done : s.inFlight = false)
      (rest : SeqRun cfg w' ops rs w'') : SeqRun cfg w (.enqueue x :: ops) rs w''
  /-- `queue_dequeue(self, &found)` runs `n` steps alone and returns. -/
  | dequeue {w w' w'' : World α} {ops : List (QueueOp α)} {rs : List (Option α)}
      (n t : Nat) (s : CallStatus α)
      (ran : w.exec cfg (.dequeue :: List.replicate n (.run w.started)) = some w')
      (returned : w'.calls w.started = some ⟨t, s⟩) (done : s.inFlight = false)
      (rest : SeqRun cfg w' ops rs w'') : SeqRun cfg w (.dequeue :: ops) (s.dequeued :: rs) w''

/-- The items a segment holds from cell `i` up to its enqueue index, in cell order. -/
def QueueSegment.itemsFrom (seg : QueueSegment α) (i : Nat) : List α :=
  (List.range' i (min seg.enqueueIndex seg.size - i)).filterMap fun k => (seg.cells k).item

/-- A segment as calls run one at a time leave it: it has cells, its dequeue index trails its
enqueue index, the cells below the enqueue index hold items and those above are empty, and while
it has room it has no successor. -/
structure QueueSegment.Packed (seg : QueueSegment α) : Prop where
  size_pos : 0 < seg.size
  dequeue_le : seg.dequeueIndex ≤ seg.enqueueIndex
  open_of_room : seg.enqueueIndex < seg.size → seg.next = none
  used_below : ∀ k < seg.size, k < seg.enqueueIndex → ∃ x e, seg.cells k = .used x e
  empty_above : ∀ k < seg.size, seg.enqueueIndex ≤ k → seg.cells k = .empty

namespace QueueSegment

variable {seg : QueueSegment α} {i : Nat} {x : α} {e : Nat}

/-- The dequeue index is not read by `itemsFrom`. -/
@[simp] theorem itemsFrom_dequeueIndex {di : Nat} :
    { seg with dequeueIndex := di }.itemsFrom i = seg.itemsFrom i := rfl

/-- A segment read from past its enqueue index, or past its end, holds nothing more. -/
theorem itemsFrom_of_le (past : min seg.enqueueIndex seg.size ≤ i) : seg.itemsFrom i = [] := by
  simp [itemsFrom, Nat.sub_eq_zero_of_le past]

/-- Reading from a used cell below the enqueue index starts with its item. -/
theorem itemsFrom_of_used (below : i < min seg.enqueueIndex seg.size)
    (used : seg.cells i = .used x e) : seg.itemsFrom i = x :: seg.itemsFrom (i + 1) := by
  -- The range starts at `i`, and what follows starts at `i + 1`.
  obtain ⟨m, more⟩ : ∃ m, min seg.enqueueIndex seg.size - i = m + 1 := ⟨_, (Nat.succ_pred_eq_of_pos
    (Nat.sub_pos_of_lt below)).symm⟩
  have rest : min seg.enqueueIndex seg.size - (i + 1) = m := by omega
  simp only [itemsFrom, more, rest, List.range'_succ, List.filterMap_cons, used, QueueItem.item]

/-- Writing an item at the enqueue index of a segment with room (line 166) and moving the index
past it (line 159) adds the item at the end of what the segment holds. -/
theorem itemsFrom_push (room : seg.enqueueIndex < seg.size) (le : i ≤ seg.enqueueIndex) :
    { seg with enqueueIndex := seg.enqueueIndex + 1
               cells := writeAt seg.cells seg.enqueueIndex (.used x e) }.itemsFrom i =
      seg.itemsFrom i ++ [x] := by
  -- The cells before the new one are untouched, and the new one holds `x`.
  have old : min seg.enqueueIndex seg.size - i = seg.enqueueIndex - i := by omega
  have new : min (seg.enqueueIndex + 1) seg.size - i = seg.enqueueIndex - i + 1 := by omega
  simp only [itemsFrom, old, new, List.range'_concat, List.filterMap_append]
  congr 1
  · refine List.filterMap_congr fun k mem => ?_
    rw [writeAt_ne (by simp [List.mem_range'] at mem; omega)]
  · simp [Nat.add_sub_cancel' le, QueueItem.item]

/-- A full segment holds the same items once an enqueuer moved its index on (line 159) and linked
a successor (line 218). -/
theorem itemsFrom_seal (full : seg.size ≤ seg.enqueueIndex) {n : Option Nat} :
    { seg with enqueueIndex := seg.enqueueIndex + 1, next := n }.itemsFrom i = seg.itemsFrom i := by
  simp only [itemsFrom, Nat.min_eq_right full, Nat.min_eq_right (Nat.le_succ_of_le full)]

/-- The segment allocated at lines 211 to 215 holds the item in its first cell and nothing else. -/
theorem itemsFrom_successor {n : Nat} (sized : 0 < n) :
    { (queueNewSegment n : QueueSegment α) with
      enqueueIndex := 1, cells := writeAt (fun _ => .empty) 0 (.used x e) }.itemsFrom 0 = [x] := by
  simp [itemsFrom, queueNewSegment, Nat.min_eq_left sized, QueueItem.item]

namespace Packed

/-- An item written at the enqueue index of a packed segment with room keeps it packed. -/
theorem push (packed : seg.Packed) (room : seg.enqueueIndex < seg.size) :
    { seg with enqueueIndex := seg.enqueueIndex + 1
               cells := writeAt seg.cells seg.enqueueIndex (.used x e) }.Packed where
  size_pos := packed.size_pos
  dequeue_le := Nat.le_succ_of_le packed.dequeue_le
  open_of_room _ := packed.open_of_room room
  used_below k inside below := by
    -- The new cell holds the item; those before it held theirs already.
    dsimp only at inside below ⊢
    rw [writeAt_apply]
    split
    · exact ⟨x, e, rfl⟩
    · exact packed.used_below k inside (by omega)
  empty_above k inside above := by
    dsimp only at inside above ⊢
    rw [writeAt_ne (by omega)]
    exact packed.empty_above k inside (by omega)

/-- A full packed segment stays packed once its index moves on and it is linked. -/
theorem link (packed : seg.Packed) (full : seg.size ≤ seg.enqueueIndex) {n : Option Nat} :
    { seg with enqueueIndex := seg.enqueueIndex + 1, next := n }.Packed where
  size_pos := packed.size_pos
  dequeue_le := Nat.le_succ_of_le packed.dequeue_le
  open_of_room room := absurd full (by dsimp only at room; omega)
  used_below k inside _ := packed.used_below k inside (Nat.lt_of_lt_of_le inside full)
  empty_above k inside above := absurd full (by dsimp only at inside above; omega)

/-- Taking the cell at the dequeue index keeps a segment packed. -/
theorem take (packed : seg.Packed) (avail : seg.dequeueIndex < seg.enqueueIndex) :
    { seg with dequeueIndex := seg.dequeueIndex + 1 }.Packed where
  size_pos := packed.size_pos
  dequeue_le := avail
  open_of_room := packed.open_of_room
  used_below := packed.used_below
  empty_above := packed.empty_above

end Packed

/-- The segment allocated at lines 211 to 215 is packed once it has cells. -/
theorem packed_successor {n : Nat} (sized : 0 < n) :
    { (queueNewSegment n : QueueSegment α) with
      enqueueIndex := 1, cells := writeAt (fun _ => .empty) 0 (.used x e) }.Packed where
  size_pos := sized
  dequeue_le := Nat.zero_le 1
  open_of_room _ := rfl
  used_below k _ below := ⟨x, e, by
    dsimp only [queueNewSegment] at below ⊢
    rw [Nat.lt_one_iff.mp below, writeAt_same]⟩
  empty_above k _ above := by
    dsimp only [queueNewSegment] at above ⊢
    exact writeAt_ne (by omega)

end QueueSegment

/-- The items the segments of `chain` hold, each read from its dequeue index, oldest first. -/
def chainItems (segs : Nat → QueueSegment α) (chain : List Nat) : List α :=
  chain.flatMap fun s => (segs s).itemsFrom (segs s).dequeueIndex

section ChainItems

variable {segs segs' : Nat → QueueSegment α} {chain chain' : List Nat} {s : Nat}

/-- An empty chain holds nothing. -/
@[simp] theorem chainItems_nil : chainItems segs [] = [] := rfl

/-- A chain holds the items of its first segment, then those of the rest. -/
@[simp] theorem chainItems_cons :
    chainItems segs (s :: chain) =
      (segs s).itemsFrom (segs s).dequeueIndex ++ chainItems segs chain := rfl

/-- Two chains one after the other hold the items of the first, then those of the second. -/
@[simp] theorem chainItems_append :
    chainItems segs (chain ++ chain') = chainItems segs chain ++ chainItems segs chain' :=
  List.flatMap_append _ _ _

/-- A chain holds the same items in two heaps that agree on its segments. -/
theorem chainItems_congr (same : ∀ s ∈ chain, segs' s = segs s) :
    chainItems segs' chain = chainItems segs chain :=
  List.flatMap_congr fun s mem => by rw [same s mem]

/-- A write to a segment off the chain leaves what the chain holds alone. -/
theorem chainItems_writeAt {v : QueueSegment α} (off : s ∉ chain) :
    chainItems (writeAt segs s v) chain = chainItems segs chain :=
  chainItems_congr fun _ mem => writeAt_ne fun same => off (same ▸ mem)

end ChainItems

/-- The memory of a queue that calls have used one at a time, holding `items`: `chain` lists the
segments from the dequeue segment to the enqueue segment along their `next` pointers, each packed,
and `items` is what they hold from their dequeue indices on. -/
structure SeqRep (w : World α) (chain : List Nat) (items : List α) : Prop where
  dequeue_head : chain.head? = some w.queue.segments.dequeueSegment
  enqueue_last : chain.getLast? = some w.queue.segments.enqueueSegment
  linked : chain.Chain' fun a b => (w.segs a).next = some b
  enqueue_open : (w.segs w.queue.segments.enqueueSegment).next = none
  nodup : chain.Nodup
  allocated : ∀ s ∈ chain, s < w.allocated
  default_pos : 0 < w.queue.defaultSegmentSize
  packed : ∀ s ∈ chain, (w.segs s).Packed
  holds : items = chainItems w.segs chain

section Rep

variable {w w' : World α} {chain : List Nat} {q : List α}

/-- `queue_init_size` sets up an empty queue of one segment. -/
theorem seqRep_init {cfg : QueueConfig} {sizeLog : Nat}
    (init : queueInitSize cfg sizeLog = some w) : SeqRep w [0] [] := by
  unfold queueInitSize at init
  split at init <;> cases init
  -- The first segment has `2 ^ log` empty cells and both pointers name it.
  have sized := Nat.two_pow_pos (if sizeLog = 0 then cfg.qsizeLogDefault else sizeLog)
  refine ⟨rfl, rfl, List.chain'_singleton 0, rfl, List.nodup_singleton 0, by simp, sized,
    fun s mem => ?_, ?_⟩
  · rw [List.mem_singleton.mp mem]
    exact ⟨sized, le_rfl, fun _ => rfl, fun _ _ below => absurd below (Nat.not_lt_zero _),
      fun _ _ _ => rfl⟩
  · simp [QueueSegment.itemsFrom_of_le, queueNewSegment]

/-- The enqueue segment is on the chain. -/
theorem SeqRep.enqueue_mem (rep : SeqRep w chain q) : w.queue.segments.enqueueSegment ∈ chain :=
  List.mem_of_getLast?_eq_some rep.enqueue_last

/-- The dequeue segment is on the chain. -/
theorem SeqRep.dequeue_mem (rep : SeqRep w chain q) : w.queue.segments.dequeueSegment ∈ chain :=
  List.mem_of_mem_head? rep.dequeue_head

/-- A write that keeps a segment's `next` pointer keeps every `next` pointer. -/
theorem next_writeAt {segs : Nat → QueueSegment α} {k a : Nat} {v : QueueSegment α}
    (keep : v.next = (segs k).next) : (writeAt segs k v a).next = (segs a).next := by
  rw [writeAt_apply]
  split
  · subst a
    exact keep
  · rfl

/-- Rewriting one segment of the chain with a packed segment that keeps its link, and nothing
else of the memory, gives the memory of the queue that holds what the rewritten chain holds. -/
theorem SeqRep.rewrite (rep : SeqRep w chain q) {k : Nat} {v : QueueSegment α} {q' : List α}
    (segs : w'.segs = writeAt w.segs k v) (ptrs : w'.queue.segments = w.queue.segments)
    (dflt : w'.queue.defaultSegmentSize = w.queue.defaultSegmentSize)
    (alloc : w'.allocated = w.allocated) (keep : v.next = (w.segs k).next) (packed : v.Packed)
    (items : chainItems (writeAt w.segs k v) chain = q') : SeqRep w' chain q' where
  dequeue_head := ptrs ▸ rep.dequeue_head
  enqueue_last := ptrs ▸ rep.enqueue_last
  linked := rep.linked.imp fun a b link => by rw [segs, next_writeAt keep]; exact link
  enqueue_open := by rw [segs, ptrs, next_writeAt keep]; exact rep.enqueue_open
  nodup := rep.nodup
  allocated := alloc ▸ rep.allocated
  default_pos := dflt ▸ rep.default_pos
  packed s mem := by
    rw [segs, writeAt_apply]
    split
    · exact packed
    · exact rep.packed s mem
  holds := segs ▸ items.symm

/-- `SeqRep` reads only the segment pointers, the default segment size, the segments and the
count of allocated segments. -/
theorem SeqRep.of_memory (rep : SeqRep w chain q) (ptrs : w'.queue.segments = w.queue.segments)
    (dflt : w'.queue.defaultSegmentSize = w.queue.defaultSegmentSize) (segs : w'.segs = w.segs)
    (alloc : w'.allocated = w.allocated) : SeqRep w' chain q where
  dequeue_head := ptrs ▸ rep.dequeue_head
  enqueue_last := ptrs ▸ rep.enqueue_last
  linked := segs ▸ rep.linked
  enqueue_open := by rw [segs, ptrs]; exact rep.enqueue_open
  nodup := rep.nodup
  allocated := alloc ▸ rep.allocated
  default_pos := dflt ▸ rep.default_pos
  packed := segs ▸ rep.packed
  holds := segs ▸ rep.holds

variable {e d : Nat} {seg : QueueSegment α}

/-- The enqueue segment splits the chain into the segments before it and itself. -/
theorem SeqRep.split_last (rep : SeqRep w chain q) (ptrs : w.queue.segments = ⟨e, d⟩) :
    ∃ pre, chain = pre ++ [e] ∧ e ∉ pre := by
  obtain ⟨pre, rfl⟩ := List.getLast?_eq_some_iff.mp (ptrs ▸ rep.enqueue_last)
  exact ⟨pre, rfl, (List.nodup_cons.mp (List.nodup_append_comm.mp rep.nodup)).1⟩

/-- The dequeue segment splits the chain into itself and the segments after it. -/
theorem SeqRep.split_head (rep : SeqRep w chain q) (ptrs : w.queue.segments.dequeueSegment = d) :
    ∃ rest, chain = d :: rest ∧ d ∉ rest := by
  obtain _ | ⟨first, rest⟩ := chain
  · cases rep.dequeue_head
  · cases (Option.some.inj rep.dequeue_head).trans ptrs
    exact ⟨rest, rfl, (List.nodup_cons.mp rep.nodup).1⟩

/-- The enqueue segment has no successor. -/
theorem SeqRep.last_open (rep : SeqRep w chain q) (ptrs : w.queue.segments = ⟨e, d⟩) :
    (w.segs e).next = none := by
  simpa [ptrs] using rep.enqueue_open

/-- An item written at the enqueue index of an enqueue segment with room (lines 159 and 166) goes
to the back of the queue. -/
theorem SeqRep.push (rep : SeqRep w chain q) (ptrs : w.queue.segments = ⟨e, d⟩)
    (atE : w.segs e = seg) (room : seg.enqueueIndex < seg.size) {x : α} {id : Nat}
    (segs : w'.segs = writeAt w.segs e { seg with
      enqueueIndex := seg.enqueueIndex + 1
      cells := writeAt seg.cells seg.enqueueIndex (.used x id) })
    (ptrs' : w'.queue.segments = w.queue.segments)
    (dflt : w'.queue.defaultSegmentSize = w.queue.defaultSegmentSize)
    (alloc : w'.allocated = w.allocated) : SeqRep w' chain (q ++ [x]) := by
  obtain ⟨pre, rfl, off⟩ := rep.split_last ptrs
  have packed : seg.Packed := atE ▸ rep.packed e (by simp)
  refine rep.rewrite segs ptrs' dflt alloc (by rw [atE]) (packed.push room) ?_
  -- The segments before the enqueue segment are untouched; the enqueue segment gains `x`.
  rw [rep.holds, chainItems_append, chainItems_append, chainItems_writeAt off]
  simp [atE, QueueSegment.itemsFrom_push room packed.dequeue_le]

/-- An enqueuer that found the enqueue segment full and linked a successor holding its item
(lines 211 to 230) puts the item at the back of the queue, in a chain one segment longer. -/
theorem SeqRep.extend (rep : SeqRep w chain q) (ptrs : w.queue.segments = ⟨e, d⟩)
    (atE : w.segs e = seg) (full : seg.size ≤ seg.enqueueIndex) {n : Nat} (sized : 0 < n)
    {x : α} {id : Nat}
    (segs : w'.segs = writeAt (writeAt (writeAt w.segs e
      { seg with enqueueIndex := seg.enqueueIndex + 1 }) w.allocated
      { (queueNewSegment n : QueueSegment α) with
        enqueueIndex := 1, cells := writeAt (fun _ => .empty) 0 (.used x id) }) e
      { seg with enqueueIndex := seg.enqueueIndex + 1, next := some w.allocated })
    (ptrs' : w'.queue.segments = ⟨w.allocated, d⟩)
    (dflt : w'.queue.defaultSegmentSize = w.queue.defaultSegmentSize)
    (alloc : w'.allocated = w.allocated + 1) : SeqRep w' (chain ++ [w.allocated]) (q ++ [x]) := by
  obtain ⟨pre, rfl, off⟩ := rep.split_last ptrs
  have packed : seg.Packed := atE ▸ rep.packed e (by simp)
  have fresh : ∀ s ∈ pre ++ [e], s ≠ w.allocated := fun s mem => Nat.ne_of_lt (rep.allocated s mem)
  have ends : e ≠ w.allocated := fresh e (by simp)
  -- The enqueue segment is linked to the new one, which is read as is; the rest is untouched.
  have atNew : w'.segs w.allocated = { (queueNewSegment n : QueueSegment α) with
      enqueueIndex := 1, cells := writeAt (fun _ => .empty) 0 (.used x id) } := by
    rw [segs, writeAt_ne ends.symm, writeAt_same]
  have atOld : w'.segs e =
      { seg with enqueueIndex := seg.enqueueIndex + 1, next := some w.allocated } := by
    rw [segs, writeAt_same]
  have others : ∀ s ∈ pre ++ [e], s ≠ e → w'.segs s = w.segs s := fun s mem other => by
    rw [segs, writeAt_ne other, writeAt_ne (fresh s mem), writeAt_ne other]
  have ptrsD : w.queue.segments.dequeueSegment = d := by rw [ptrs]
  refine ⟨?_, by rw [ptrs']; exact List.getLast?_concat _, ?_, by rw [ptrs', atNew]; rfl,
    rep.nodup.append (List.nodup_singleton _) (List.disjoint_singleton.mpr fun mem =>
      fresh _ mem rfl), ?_, dflt ▸ rep.default_pos, ?_, ?_⟩
  · -- The chain still starts at the dequeue segment.
    rw [ptrs', List.head?_append, rep.dequeue_head, ptrsD]
    rfl
  · -- Old links stay, and the last old segment now leads to the new one.
    refine (List.Chain'.iff_mem.mp rep.linked).imp (fun a b ⟨mem, _, link⟩ => ?_) |>.append
      (List.chain'_singleton _) ?_
    · intro a last b first
      rw [List.getLast?_concat] at last
      cases last
      cases first
      rw [atOld]
    · by_cases same : a = e
      · subst same
        rw [rep.last_open ptrs] at link
        cases link
      · rw [others a mem same]
        exact link
  · intro s mem
    rw [alloc]
    rcases List.mem_append.mp mem with old | new
    · exact Nat.lt_succ_of_lt (rep.allocated s old)
    · rw [List.mem_singleton.mp new]
      exact Nat.lt_succ_self _
  · intro s mem
    rcases List.mem_append.mp mem with old | new
    · by_cases same : s = e
      · subst same
        rw [atOld]
        exact packed.link full
      · rw [others s old same]
        exact rep.packed s old
    · rw [List.mem_singleton.mp new, atNew]
      exact QueueSegment.packed_successor sized
  · -- The old segments hold what they held, and the new one holds `x`.
    have before : chainItems w'.segs pre = chainItems w.segs pre :=
      chainItems_congr fun s mem => others s (by simp [mem]) fun same => off (same ▸ mem)
    have added : (w'.segs w.allocated).itemsFrom (w'.segs w.allocated).dequeueIndex = [x] := by
      rw [atNew]
      exact QueueSegment.itemsFrom_successor sized
    rw [rep.holds, chainItems_append, chainItems_append, chainItems_append, before]
    simp [atOld, added, atE, QueueSegment.itemsFrom_seal full]

/-- The used cell at the dequeue index of the dequeue segment holds the item at the front of the
queue. -/
theorem SeqRep.items_front (rep : SeqRep w chain q) (ptrs : w.queue.segments.dequeueSegment = d)
    (atD : w.segs d = seg) (inside : seg.dequeueIndex < seg.size)
    (avail : seg.dequeueIndex < seg.enqueueIndex) {y : α} {id : Nat}
    (used : seg.cells seg.dequeueIndex = .used y id) :
    q = y :: (seg.itemsFrom (seg.dequeueIndex + 1) ++ chainItems w.segs chain.tail) := by
  obtain ⟨rest, rfl, -⟩ := rep.split_head ptrs
  rw [rep.holds, chainItems_cons, atD, seg.itemsFrom_of_used (lt_min avail inside) used]
  rfl

/-- A dequeuer that takes the used cell at the dequeue index of the dequeue segment (lines 284 to
299) leaves the queue holding what was behind the item it took. -/
theorem SeqRep.take (rep : SeqRep w chain q) (ptrs : w.queue.segments.dequeueSegment = d)
    (atD : w.segs d = seg) (inside : seg.dequeueIndex < seg.size)
    (avail : seg.dequeueIndex < seg.enqueueIndex) {y : α} {id : Nat}
    (used : seg.cells seg.dequeueIndex = .used y id)
    (segs : w'.segs = writeAt w.segs d { seg with dequeueIndex := seg.dequeueIndex + 1 })
    (ptrs' : w'.queue.segments = w.queue.segments)
    (dflt : w'.queue.defaultSegmentSize = w.queue.defaultSegmentSize)
    (alloc : w'.allocated = w.allocated) : SeqRep w' chain q.tail := by
  have front := rep.items_front ptrs atD inside avail used
  obtain ⟨rest, rfl, off⟩ := rep.split_head ptrs
  have packed : seg.Packed := atD ▸ rep.packed d (List.mem_cons_self d rest)
  refine rep.rewrite segs ptrs' dflt alloc (by rw [atD]) (packed.take avail) ?_
  rw [front, chainItems_cons, writeAt_same, chainItems_writeAt off]
  rfl

/-- The queue is empty when its dequeue segment has nothing left to read and no successor. -/
theorem SeqRep.empty (rep : SeqRep w chain q) (ptrs : w.queue.segments.dequeueSegment = d)
    (atD : w.segs d = seg) (drained : min seg.enqueueIndex seg.size ≤ seg.dequeueIndex)
    (last : seg.next = none) : q = [] := by
  obtain ⟨_ | ⟨b, rest⟩, rfl, -⟩ := rep.split_head ptrs
  · rw [rep.holds, chainItems_cons, atD, QueueSegment.itemsFrom_of_le drained]
    rfl
  · -- A segment with a successor on the chain has a `next` pointer.
    have link := (List.chain'_cons.mp rep.linked).1
    rw [atD, last] at link
    cases link

/-- A dequeuer that swings the dequeue segment pointer from a drained segment to its successor
(line 316) leaves the queue holding what it held, along the rest of the chain. -/
theorem SeqRep.advance (rep : SeqRep w chain q) (ptrs : w.queue.segments.dequeueSegment = d)
    (atD : w.segs d = seg) (drained : seg.size ≤ seg.dequeueIndex) {n : Nat}
    (next : seg.next = some n) (segs : w'.segs = w.segs)
    (ptrs' : w'.queue.segments = ⟨w.queue.segments.enqueueSegment, n⟩)
    (dflt : w'.queue.defaultSegmentSize = w.queue.defaultSegmentSize)
    (alloc : w'.allocated = w.allocated) : SeqRep w' chain.tail q := by
  obtain ⟨rest, rfl, -⟩ := rep.split_head ptrs
  -- The drained segment is not the enqueue segment, so its successor comes next on the chain.
  obtain _ | ⟨b, rest⟩ := rest
  · have same : w.queue.segments.enqueueSegment = d := (Option.some.inj rep.enqueue_last).symm
    have closed := rep.enqueue_open
    rw [same, atD, next] at closed
    cases closed
  have link := (List.chain'_cons.mp rep.linked).1
  rw [atD, next] at link
  cases link
  have drop : ∀ s ∈ n :: rest, s ∈ d :: n :: rest := fun s mem => List.mem_cons_of_mem d mem
  refine ⟨by rw [ptrs']; rfl, by rw [ptrs', ← rep.enqueue_last]; rfl, segs ▸ rep.linked.tail,
    by rw [segs, ptrs']; exact rep.enqueue_open, rep.nodup.of_cons,
    fun s mem => alloc ▸ rep.allocated s (drop s mem), dflt ▸ rep.default_pos,
    fun s mem => segs ▸ rep.packed s (drop s mem), ?_⟩
  rw [rep.holds, chainItems_cons, atD, QueueSegment.itemsFrom_of_le
    ((Nat.min_le_right _ _).trans drained), segs]
  rfl

end Rep

/-- A schedule run step by step: the first action, then the rest. -/
theorem World.exec_run_cons {cfg : QueueConfig} {w : World α} {d : Nat}
    {rest : List (QueueAction α)} :
    w.exec cfg (.run d :: rest) = (w.runCall cfg d).bind fun w' => w'.exec cfg rest := rfl

/-- A schedule that starts with a call to `queue_enqueue`. -/
theorem World.exec_enqueue_cons {cfg : QueueConfig} {w : World α} {x : α}
    {rest : List (QueueAction α)} :
    w.exec cfg (.enqueue x :: rest) = (w.invoke (.enqueuing (enqueueEntry x))).exec cfg rest := rfl

/-- A schedule that starts with a call to `queue_dequeue`. -/
theorem World.exec_dequeue_cons {cfg : QueueConfig} {w : World α}
    {rest : List (QueueAction α)} :
    w.exec cfg (.dequeue :: rest) = (w.invoke (.dequeuing dequeueEntry)).exec cfg rest := rfl

/-- Two schedules one after the other. -/
theorem World.exec_append {cfg : QueueConfig} :
    ∀ {w : World α} (acts acts' : List (QueueAction α)),
      w.exec cfg (acts ++ acts') = (w.exec cfg acts).bind fun w' => w'.exec cfg acts'
  | _, [], _ => rfl
  | _, .enqueue _ :: acts, acts' => World.exec_append acts acts'
  | _, .dequeue :: acts, acts' => World.exec_append acts acts'
  | w, .run d :: acts, acts' => by
    -- The call moves or the whole schedule fails.
    cases moved : w.runCall cfg d with
    | none => simp only [List.cons_append, World.exec_run_cons, moved, Option.none_bind]
    | some w' =>
      simp only [List.cons_append, World.exec_run_cons, moved, Option.some_bind]
      exact World.exec_append acts acts'

section Paths

/-! The paths a call takes when it runs alone on the memory `SeqRep` describes. Each lemma gives
the exact state the path ends in. -/

variable {cfg : QueueConfig} {w : World α} {x : α} {e d : Nat} {seg : QueueSegment α}

/-- Lines 156 to 174 run alone on an enqueue segment with room: the enqueuer takes the next index,
writes its item there and returns. -/
theorem enqueue_room_run (ptrs : w.queue.segments = ⟨e, d⟩) (atE : w.segs e = seg)
    (room : seg.enqueueIndex < seg.size) (empty : seg.cells seg.enqueueIndex = .empty) :
    w.exec cfg (.enqueue x :: List.replicate 4 (.run w.started)) = some { w with
      queue := { w.queue with len := w.queue.len + 1 }
      segs := writeAt w.segs e { seg with
        enqueueIndex := seg.enqueueIndex + 1
        cells := writeAt seg.cells seg.enqueueIndex (.used x w.started) }
      calls := writeAt w.calls w.started
        (some ⟨w.clock, .enqueued x ⟨e, seg.enqueueIndex⟩ (w.clock + 4)⟩)
      started := w.started + 1, clock := w.clock + 5 } := by
  simp only [List.replicate, World.exec_enqueue_cons, World.invoke]
  iterate 4 (rw [World.exec_run_cons]; simp only [World.runCall, World.setStatus, World.setSeg,
    World.tick, writeAt_same, writeAt_writeAt, Option.map_some', Option.some_bind, queueEnqueueStep,
    enqueueEntry, EnqueueFrame.afterFetch, EnqueueFrame.afterWrite, ↓reduceIte, ptrs, atE, room,
    Nat.not_le.mpr room, empty, false_and, decide_False, Bool.or_self, Bool.false_eq_true])
  rfl

/-- Lines 156 to 245 run alone on a full enqueue segment, with a step below `QUEUE_HELP_VALUE`:
the enqueuer links a successor holding its item, makes it the enqueue segment and returns. -/
theorem enqueue_alloc_run (ptrs : w.queue.segments = ⟨e, d⟩) (atE : w.segs e = seg)
    (full : seg.size ≤ seg.enqueueIndex) (last : seg.next = none) (fresh : e ≠ w.allocated)
    (help : ¬cfg.queueHelpValue ≤ 1) :
    w.exec cfg (.enqueue x :: List.replicate 8 (.run w.started)) = some { w with
      queue := { w.queue with segments := ⟨w.allocated, d⟩, len := w.queue.len + 1 }
      segs := writeAt (writeAt (writeAt w.segs e { seg with enqueueIndex := seg.enqueueIndex + 1 })
        w.allocated
        { (queueNewSegment (if w.queue.helpNeeded ≠ 0 then 2 * seg.size
            else w.queue.defaultSegmentSize) : QueueSegment α) with
          enqueueIndex := 1, cells := writeAt (fun _ => .empty) 0 (.used x w.started) }) e
        { seg with enqueueIndex := seg.enqueueIndex + 1, next := some w.allocated }
      allocated := w.allocated + 1
      calls := writeAt w.calls w.started
        (some ⟨w.clock, .enqueued x ⟨w.allocated, 0⟩ (w.clock + 8)⟩)
      started := w.started + 1, clock := w.clock + 9 } := by
  simp only [List.replicate, World.exec_enqueue_cons, World.invoke]
  iterate 8 (rw [World.exec_run_cons]; simp only [World.runCall, World.setStatus, World.setSeg,
    World.tick, writeAt_same, writeAt_writeAt, Option.map_some', Option.some_bind, queueEnqueueStep,
    enqueueEntry, EnqueueFrame.afterFetch, EnqueueFrame.afterLink, ↓reduceIte, ptrs, atE, full,
    Nat.not_lt.mpr full, last, fresh, help, writeAt_ne, ne_eq, not_false_eq_true, not_true_eq_false,
    and_true, and_false, decide_False, Bool.or_self, Bool.false_eq_true])
  rfl

/-- The same, with `QUEUE_HELP_VALUE` at most the first step: the enqueuer asks for help (line 182),
doubles the segment size (line 192) and gives the help request back (line 239). -/
theorem enqueue_alloc_helped_run (ptrs : w.queue.segments = ⟨e, d⟩) (atE : w.segs e = seg)
    (full : seg.size ≤ seg.enqueueIndex) (last : seg.next = none) (fresh : e ≠ w.allocated)
    (help : cfg.queueHelpValue ≤ 1) :
    w.exec cfg (.enqueue x :: List.replicate 9 (.run w.started)) = some { w with
      queue := { w.queue with segments := ⟨w.allocated, d⟩, helpNeeded := w.queue.helpNeeded + 1 - 1
                              len := w.queue.len + 1 }
      segs := writeAt (writeAt (writeAt w.segs e { seg with enqueueIndex := seg.enqueueIndex + 1 })
        w.allocated
        { (queueNewSegment (2 * seg.size) : QueueSegment α) with
          enqueueIndex := 1, cells := writeAt (fun _ => .empty) 0 (.used x w.started) }) e
        { seg with enqueueIndex := seg.enqueueIndex + 1, next := some w.allocated }
      allocated := w.allocated + 1
      calls := writeAt w.calls w.started
        (some ⟨w.clock, .enqueued x ⟨w.allocated, 0⟩ (w.clock + 9)⟩)
      started := w.started + 1, clock := w.clock + 10 } := by
  simp only [List.replicate, World.exec_enqueue_cons, World.invoke]
  iterate 9 (rw [World.exec_run_cons]; simp only [World.runCall, World.setStatus, World.setSeg,
    World.tick, writeAt_same, writeAt_writeAt, Option.map_some', Option.some_bind, queueEnqueueStep,
    enqueueEntry, EnqueueFrame.afterFetch, EnqueueFrame.afterLink, ↓reduceIte, ptrs, atE, full,
    Nat.not_lt.mpr full, last, fresh, help, writeAt_ne, ne_eq, not_false_eq_true, not_true_eq_false,
    and_self, decide_True, Bool.or_true, Bool.false_eq_true])
  rfl

/-- Lines 267 and 268 run alone: the dequeuer reads the segment pointers and starts on the dequeue
segment, with the memory as it was. -/
theorem dequeue_start_run (cfg : QueueConfig) (w : World α) : ∃ w₀ : World α,
    (∀ rest, w.exec cfg (.dequeue :: .run w.started :: rest) = w₀.exec cfg rest) ∧
    w₀.calls w.started = some ⟨w.clock, .dequeuing { dequeueEntry with
      segments := w.queue.segments, segment := w.queue.segments.dequeueSegment
      pc := .loadDequeueIndex }⟩ ∧
    w₀.queue = w.queue ∧ w₀.segs = w.segs ∧ w₀.allocated = w.allocated := by
  simp only [World.exec_dequeue_cons, World.exec_run_cons]
  simp only [World.invoke, World.runCall, writeAt_same, Option.map_some', queueDequeueStep,
    dequeueEntry, World.setStatus, World.tick, Option.some_bind]
  exact ⟨_, fun _ => rfl, writeAt_same, rfl, rfl, rfl⟩

variable {id t : Nat} {f : DequeueFrame α}

/-- Lines 273 to 299 run alone on a dequeue segment whose next cell holds an item: the dequeuer
moves the dequeue index past it, takes the item and returns it. -/
theorem dequeue_take_run (call : w.calls id = some ⟨t, .dequeuing f⟩)
    (pc : f.pc = .loadDequeueIndex) (atD : w.segs f.segment = seg)
    (inside : seg.dequeueIndex < seg.size) (avail : seg.dequeueIndex < seg.enqueueIndex)
    {y : α} {writer : Nat} (used : seg.cells seg.dequeueIndex = .used y writer) :
    w.exec cfg (List.replicate 5 (.run id)) = some { w with
      queue := { w.queue with len := w.queue.len - 1 }
      segs := writeAt w.segs f.segment { seg with dequeueIndex := seg.dequeueIndex + 1 }
      calls := writeAt w.calls id
        (some ⟨t, .found (.used y writer) ⟨f.segment, seg.dequeueIndex⟩ (w.clock + 4)⟩)
      clock := w.clock + 5
      claims := w.claims ++ [⟨id, ⟨f.segment, seg.dequeueIndex⟩, w.clock + 2⟩] } := by
  simp only [List.replicate]
  iterate 5 (rw [World.exec_run_cons]; simp only [World.runCall, World.setStatus, World.setSeg,
    World.tick, writeAt_same, writeAt_writeAt, Option.map_some', Option.some_bind, queueDequeueStep,
    ↓reduceIte, call, pc, atD, Nat.not_le.mpr inside, Nat.not_le.mpr avail, used])
  rfl

/-- Lines 273 to 281 run alone on a dequeue segment with room whose cells are all taken: the queue
is empty. -/
theorem dequeue_empty_run (call : w.calls id = some ⟨t, .dequeuing f⟩)
    (pc : f.pc = .loadDequeueIndex) (atD : w.segs f.segment = seg)
    (inside : seg.dequeueIndex < seg.size) (taken : seg.enqueueIndex ≤ seg.dequeueIndex) :
    w.exec cfg (List.replicate 2 (.run id)) = some { w with
      calls := writeAt w.calls id (some ⟨t, .notFound (w.clock + 1)⟩), clock := w.clock + 2 } := by
  simp only [List.replicate]
  iterate 2 (rw [World.exec_run_cons]; simp only [World.runCall, World.setStatus, World.tick,
    writeAt_same, writeAt_writeAt, Option.map_some', Option.some_bind, queueDequeueStep, ↓reduceIte,
    call, pc, atD, Nat.not_le.mpr inside, taken])
  rfl

/-- Lines 273 to 310 run alone on a drained dequeue segment with no successor: the queue is
empty. -/
theorem dequeue_drained_run (call : w.calls id = some ⟨t, .dequeuing f⟩)
    (pc : f.pc = .loadDequeueIndex) (atD : w.segs f.segment = seg)
    (drained : seg.size ≤ seg.dequeueIndex) (last : seg.next = none) :
    w.exec cfg (List.replicate 3 (.run id)) = some { w with
      calls := writeAt w.calls id (some ⟨t, .notFound (w.clock + 2)⟩), clock := w.clock + 3 } := by
  simp only [List.replicate]
  iterate 3 (rw [World.exec_run_cons]; simp only [World.runCall, World.setStatus, World.tick,
    writeAt_same, writeAt_writeAt, Option.map_some', Option.some_bind, queueDequeueStep, ↓reduceIte,
    call, pc, atD, drained, last])
  rfl

/-- Lines 273 to 337 run alone on a drained dequeue segment with a successor: the dequeuer swings
the dequeue segment pointer to it (line 316) and starts over there (line 337), with the segments
as they were. -/
theorem dequeue_advance_run (cfg : QueueConfig) (call : w.calls id = some ⟨t, .dequeuing f⟩)
    (pc : f.pc = .loadDequeueIndex) (atD : w.segs f.segment = seg)
    (drained : seg.size ≤ seg.dequeueIndex) {n : Nat} (next : seg.next = some n)
    (ptrs : w.queue.segments = f.segments) : ∃ w',
      w.exec cfg (List.replicate 4 (.run id)) = some w' ∧
      w'.calls id = some ⟨t, .dequeuing { f with
        curIx := seg.dequeueIndex, newSegment := n, segments := ⟨f.segments.enqueueSegment, n⟩
        segment := n, pc := .loadDequeueIndex }⟩ ∧
      w'.queue = { w.queue with segments := ⟨f.segments.enqueueSegment, n⟩ } ∧
      w'.segs = w.segs ∧ w'.allocated = w.allocated ∧ w'.retired = w.retired ++ [f.segment] := by
  simp only [List.replicate]
  iterate 4 (rw [World.exec_run_cons]; simp only [World.runCall, World.setStatus, World.tick,
    writeAt_same, writeAt_writeAt, Option.map_some', Option.some_bind, queueDequeueStep, ↓reduceIte,
    call, pc, atD, drained, next, ptrs])
  exact ⟨_, rfl, writeAt_same, rfl, rfl, rfl, rfl⟩

end Paths

section Ops

variable {cfg : QueueConfig} {w : World α} {chain : List Nat} {q : List α}

/-- A `queue_enqueue` call invoked on the memory of a queue holding `q`, and run alone, returns
and leaves the memory of a queue holding `q ++ [x]`. -/
theorem SeqRep.enqueue_returns (rep : SeqRep w chain q) (cfg : QueueConfig) (x : α) :
    ∃ n w', w.exec cfg (.enqueue x :: List.replicate n (.run w.started)) = some w' ∧
      (∃ t s, w'.calls w.started = some ⟨t, s⟩ ∧ s.inFlight = false) ∧
      ∃ chain', SeqRep w' chain' (q ++ [x]) := by
  cases ptrs : w.queue.segments with
  | mk e d =>
  have packed : (w.segs e).Packed := rep.packed e (by simpa [ptrs] using rep.enqueue_mem)
  by_cases room : (w.segs e).enqueueIndex < (w.segs e).size
  · -- The next cell is free and the item goes there.
    exact ⟨4, _, enqueue_room_run ptrs rfl room (packed.empty_above _ room le_rfl),
      ⟨_, _, writeAt_same, rfl⟩, chain, rep.push ptrs rfl room rfl rfl rfl rfl⟩
  · -- The segment is full: a successor holding the item is linked after it.
    have full := Nat.le_of_not_lt room
    have fresh : e ≠ w.allocated :=
      Nat.ne_of_lt (rep.allocated e (by simpa [ptrs] using rep.enqueue_mem))
    have sized := packed.size_pos
    by_cases help : cfg.queueHelpValue ≤ 1
    · exact ⟨9, _, enqueue_alloc_helped_run ptrs rfl full (rep.last_open ptrs) fresh help,
        ⟨_, _, writeAt_same, rfl⟩, _, rep.extend ptrs rfl full (by omega) rfl rfl rfl rfl⟩
    · have dflt := rep.default_pos
      exact ⟨8, _, enqueue_alloc_run ptrs rfl full (rep.last_open ptrs) fresh help,
        ⟨_, _, writeAt_same, rfl⟩, _, rep.extend ptrs rfl full (by split <;> omega) rfl rfl rfl rfl⟩

/-- The loop of lines 270 to 337, run alone from the dequeue segment of the memory of a queue
holding `q`, returns the front of `q` and leaves the memory of a queue holding the rest. -/
theorem SeqRep.dequeue_loop {id t : Nat} {f : DequeueFrame α} (rep : SeqRep w chain q)
    (call : w.calls id = some ⟨t, .dequeuing f⟩) (pc : f.pc = .loadDequeueIndex)
    (ptrs : f.segments = w.queue.segments) (here : f.segment = w.queue.segments.dequeueSegment) :
    ∃ n w' s, w.exec cfg (List.replicate n (.run id)) = some w' ∧ w'.calls id = some ⟨t, s⟩ ∧
      s.inFlight = false ∧ s.dequeued = q.head? ∧ ∃ chain', SeqRep w' chain' q.tail := by
  induction chain generalizing w q f with
  | nil => cases rep.dequeue_head
  | cons first rest ih =>
  have packed : (w.segs f.segment).Packed := here ▸ rep.packed _ rep.dequeue_mem
  by_cases inside : (w.segs f.segment).dequeueIndex < (w.segs f.segment).size
  · by_cases avail : (w.segs f.segment).dequeueIndex < (w.segs f.segment).enqueueIndex
    · -- The cell at the dequeue index holds the item at the front.
      obtain ⟨y, writer, used⟩ := packed.used_below _ inside avail
      exact ⟨5, _, _, dequeue_take_run call pc rfl inside avail used, writeAt_same, rfl,
        by rw [rep.items_front here.symm rfl inside avail used]; rfl, _,
        rep.take here.symm rfl inside avail used rfl rfl rfl rfl⟩
    · -- Every cell written so far is taken: the queue is empty.
      have taken := Nat.le_of_not_lt avail
      have empty := rep.empty here.symm rfl (Nat.min_le_left _ _ |>.trans taken)
        (packed.open_of_room (Nat.lt_of_le_of_lt taken inside))
      subst empty
      exact ⟨2, _, _, dequeue_empty_run call pc rfl inside taken, writeAt_same, rfl, rfl, _,
        rep.of_memory rfl rfl rfl rfl⟩
  · have drained := Nat.le_of_not_lt inside
    cases next : (w.segs f.segment).next with
    | none =>
      -- No successor yet: the queue is empty.
      have empty := rep.empty here.symm rfl (Nat.min_le_right _ _ |>.trans drained) next
      subst empty
      exact ⟨3, _, _, dequeue_drained_run call pc rfl drained next, writeAt_same, rfl, rfl, _,
        rep.of_memory rfl rfl rfl rfl⟩
    | some n =>
      -- The dequeuer moves on to the successor and starts over there.
      obtain ⟨w₁, moved, call₁, queue₁, segs₁, alloc₁, -⟩ :=
        dequeue_advance_run cfg call pc rfl drained next ptrs.symm
      have rep₁ := rep.advance here.symm rfl drained next segs₁ (by rw [queue₁, ptrs])
        (by rw [queue₁]) alloc₁
      obtain ⟨m, w', s, ran, returned, done, result, rest'⟩ :=
        ih rep₁ call₁ rfl (by rw [queue₁]) (by rw [queue₁])
      refine ⟨4 + m, w', s, ?_, returned, done, result, rest'⟩
      rw [List.replicate_add, World.exec_append, moved]
      exact ran

/-- A `queue_dequeue` call invoked on the memory of a queue holding `q`, and run alone, returns
the front of `q`, or nothing when `q` is empty, and leaves the memory of a queue holding the
rest. -/
theorem SeqRep.dequeue_returns (rep : SeqRep w chain q) (cfg : QueueConfig) :
    ∃ n w' t s, w.exec cfg (.dequeue :: List.replicate n (.run w.started)) = some w' ∧
      w'.calls w.started = some ⟨t, s⟩ ∧ s.inFlight = false ∧ s.dequeued = q.head? ∧
      ∃ chain', SeqRep w' chain' q.tail := by
  -- After reading the segment pointers the dequeuer runs the loop from the dequeue segment.
  obtain ⟨w₀, start, call₀, queue₀, segs₀, alloc₀⟩ := dequeue_start_run cfg w
  have rep₀ := rep.of_memory (by rw [queue₀]) (by rw [queue₀]) segs₀ alloc₀
  obtain ⟨n, w', s, ran, returned, done, result, rest⟩ :=
    rep₀.dequeue_loop call₀ rfl (by rw [queue₀]) (by rw [queue₀])
  exact ⟨n + 1, w', w.clock, s, by rw [List.replicate_succ, start]; exact ran,
    returned, done, result, rest⟩

end Ops

section Runs

variable {cfg : QueueConfig} {d : Nat}

/-- A call that returned takes no further step. -/
theorem World.runCall_returned {w : World α} {c : Call α} (call : w.calls d = some c)
    (done : c.status.inFlight = false) : w.runCall cfg d = none := by
  cases moved : w.runCall cfg d with
  | none => rfl
  | some w' =>
    -- A call that moves is in flight.
    obtain ⟨⟨c', call', flight⟩, -⟩ := runCall_frame moved
    rw [call] at call'
    cases call'
    rw [done] at flight
    cases flight

/-- A call run alone returns at one point only: two runs of it that both leave it returned reach
the same state. -/
theorem World.exec_replicate_returned : ∀ {n m : Nat} {w a b : World α},
    w.exec cfg (List.replicate n (.run d)) = some a →
    w.exec cfg (List.replicate m (.run d)) = some b →
    (∃ c, a.calls d = some c ∧ c.status.inFlight = false) →
    (∃ c, b.calls d = some c ∧ c.status.inFlight = false) → a = b
  | 0, 0, _, _, _, ra, rb, _, _ => by
    cases ra
    cases rb
    rfl
  | 0, _ + 1, _, _, _, ra, rb, ⟨_, call, done⟩, _ => by
    -- The call had returned before the longer run's first step.
    cases ra
    rw [List.replicate_succ, World.exec_run_cons, World.runCall_returned call done] at rb
    cases rb
  | _ + 1, 0, _, _, _, ra, rb, _, ⟨_, call, done⟩ => by
    cases rb
    rw [List.replicate_succ, World.exec_run_cons, World.runCall_returned call done] at ra
    cases ra
  | _ + 1, _ + 1, w, _, _, ra, rb, doneA, doneB => by
    -- Both runs take the same first step.
    rw [List.replicate_succ, World.exec_run_cons] at ra rb
    cases moved : w.runCall cfg d with
    | none =>
      rw [moved] at ra
      cases ra
    | some w' =>
      rw [moved, Option.some_bind] at ra rb
      exact World.exec_replicate_returned ra rb doneA doneB

variable {w w' : World α} {chain : List Nat} {q : List α}

/-- From the memory of a queue holding `q`, every list of operations run one at a time runs to
its end. -/
theorem SeqRep.seqRun_exists (rep : SeqRep w chain q) (ops : List (QueueOp α)) :
    ∃ rs w', SeqRun cfg w ops rs w' := by
  induction ops generalizing w chain q with
  | nil => exact ⟨[], w, .nil w⟩
  | cons op ops ih =>
    cases op with
    | enqueue x =>
      obtain ⟨n, w', ran, ⟨t, s, returned, done⟩, _, rep'⟩ := rep.enqueue_returns cfg x
      obtain ⟨rs, w'', run⟩ := ih rep'
      exact ⟨rs, w'', .enqueue x n t s ran returned done run⟩
    | dequeue =>
      obtain ⟨n, w', t, s, ran, returned, done, -, _, rep'⟩ := rep.dequeue_returns cfg
      obtain ⟨rs, w'', run⟩ := ih rep'
      exact ⟨_, w'', .dequeue n t s ran returned done run⟩

/-- From the memory of a queue holding `q`, the dequeues of operations run one at a time return
what the dequeues of a FIFO list holding `q` return. -/
theorem SeqRep.seqRun_results {ops : List (QueueOp α)} {rs : List (Option α)}
    (rep : SeqRep w chain q) (run : SeqRun cfg w ops rs w') : rs = fifoResults q ops := by
  induction run generalizing chain q with
  | nil => rfl
  | enqueue x n t s ran returned done _ ih =>
    -- The call returns in the one state the solo enqueue reaches.
    obtain ⟨_, _, ran₀, ⟨_, _, returned₀, done₀⟩, _, rep'⟩ := rep.enqueue_returns cfg x
    rw [World.exec_enqueue_cons] at ran ran₀
    cases World.exec_replicate_returned ran ran₀ ⟨_, returned, done⟩ ⟨_, returned₀, done₀⟩
    exact ih rep'
  | dequeue n t s ran returned done _ ih =>
    -- The call returns in the one state the solo dequeue reaches, with the front of `q`.
    obtain ⟨_, _, _, _, ran₀, returned₀, done₀, front, _, rep'⟩ := rep.dequeue_returns cfg
    rw [World.exec_dequeue_cons] at ran ran₀
    cases World.exec_replicate_returned ran ran₀ ⟨_, returned, done⟩ ⟨_, returned₀, done₀⟩
    rw [returned] at returned₀
    cases returned₀
    rw [front, ih rep']
    rfl

/-- Driven one call at a time from a queue set up by `queue_init_size`, each call invoked once the
previous one returned and run alone until it returns, the queue runs every list of operations to
its end, and its dequeues return what those of a FIFO list return: the oldest item not yet
dequeued, or nothing when there is none. -/
theorem one_at_a_time_fifo {sizeLog : Nat} (init : queueInitSize cfg sizeLog = some w)
    (ops : List (QueueOp α)) :
    (∃ rs w', SeqRun cfg w ops rs w') ∧
      ∀ rs w', SeqRun cfg w ops rs w' → rs = fifoResults [] ops :=
  ⟨(seqRep_init init).seqRun_exists ops, fun _ _ run => (seqRep_init init).seqRun_results run⟩

/-- Three enqueues and four dequeues on two-cell segments: the third item overflows into a
successor and the dequeuers follow it there. -/
def overflowOps : List (QueueOp Nat) :=
  [.enqueue 1, .enqueue 2, .enqueue 3, .dequeue, .dequeue, .dequeue, .dequeue]

/-- Run one at a time on two-cell segments the queue returns 1, 2, 3 and then nothing. -/
theorem overflowOps_fifo :
    ∃ w : World Nat, queueInitSize smallConfig 0 = some w ∧
      ((∃ rs w', SeqRun smallConfig w overflowOps rs w') ∧
        ∀ rs w', SeqRun smallConfig w overflowOps rs w' → rs = fifoResults [] overflowOps) :=
  ⟨_, rfl, @one_at_a_time_fifo Nat smallConfig _ 0 rfl overflowOps⟩

/-- The FIFO results of that list. -/
example : fifoResults [] overflowOps = [some 1, some 2, some 3, none] := rfl

end Runs

end Hatrack
