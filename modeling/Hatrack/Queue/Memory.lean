import Hatrack.Queue.Safety

/-! The memory the segments take. `queue_new_segment` asks `mmm_alloc_committed` for
`sizeof(queue_segment_t) + sizeof(queue_item_t) * num_cells` bytes, `mmm_alloc` takes them and the
record header from `calloc` without checking the result, and line 35 writes through what comes
back, so a request `calloc` refuses ends the program. The runs of the program are the runs of the
step model in which every allocation fits the largest block `calloc` hands out; on them every
segment has a power of two of cells and no length that `queue_new_segment` computes wraps. -/

namespace Hatrack

variable {α : Type}

/-- `sizeof(mmm_header_t)`: the four 64-bit words of `struct mmm_header_st`, aligned to 32. -/
def mmmHeaderBytes : Nat := 32

/-- The sizes of the two types `queue_new_segment` allocates, declared in `queue.h`, which the
sources do not include, and the largest block `calloc` hands out. No object of a 64-bit target
reaches `2 ^ 63` bytes: `PTRDIFF_MAX` is `2 ^ 63 - 1`. -/
structure QueueMemory where
  /-- `sizeof(queue_segment_t)`, the fields of a segment before its cells. -/
  segmentBytes : Nat
  /-- `sizeof(queue_item_t)`, the bytes of one cell. -/
  itemBytes : Nat
  /-- The largest block `calloc` returns. -/
  callocMax : Nat
  item_pos : 0 < itemBytes
  callocMax_lt : callocMax < 2 ^ 63

/-- `len` of `queue_new_segment` (line 33): the fields of the segment and `num_cells` cells. -/
def queueNewSegmentLen (mem : QueueMemory) (numCells : Nat) : Nat :=
  mem.segmentBytes + mem.itemBytes * numCells

/-- `calloc` grants the block `mmm_alloc` (mmm.h, lines 443 to 450) asks for a segment of
`numCells` cells: the record header and `len` bytes. -/
def QueueMemory.Fits (mem : QueueMemory) (numCells : Nat) : Prop :=
  mmmHeaderBytes + queueNewSegmentLen mem numCells ≤ mem.callocMax

/-- Whether a request fits is computed. -/
instance (mem : QueueMemory) (numCells : Nat) : Decidable (mem.Fits numCells) :=
  inferInstanceAs (Decidable (_ ≤ _))

/-- A segment's cells are no more than its block's bytes. -/
theorem QueueMemory.cells_le_block (mem : QueueMemory) (n : Nat) :
    n ≤ mmmHeaderBytes + queueNewSegmentLen mem n :=
  calc n ≤ mem.itemBytes * n := Nat.le_mul_of_pos_left n mem.item_pos
    _ ≤ mmmHeaderBytes + queueNewSegmentLen mem n := by unfold queueNewSegmentLen; omega

section Arith

variable {mem : QueueMemory} {n : Nat}

/-- The length of a granted block is under `2 ^ 63`, so the 64-bit sum of line 33 is exact. -/
theorem QueueMemory.Fits.len_lt (fits : mem.Fits n) : queueNewSegmentLen mem n < 2 ^ 63 := by
  have := mem.callocMax_lt
  unfold QueueMemory.Fits at fits
  omega

/-- A granted segment has fewer than `2 ^ 63` cells, each taking a byte at least. -/
theorem QueueMemory.Fits.size_lt (fits : mem.Fits n) : n < 2 ^ 63 :=
  calc n ≤ mem.itemBytes * n := Nat.le_mul_of_pos_left n mem.item_pos
    _ ≤ queueNewSegmentLen mem n := Nat.le_add_left _ _
    _ < 2 ^ 63 := fits.len_lt

/-- Twice the cells of a granted segment need at most twice the largest block. -/
theorem QueueMemory.Fits.double (fits : mem.Fits n) :
    mmmHeaderBytes + queueNewSegmentLen mem (2 * n) ≤ 2 * mem.callocMax := by
  unfold QueueMemory.Fits queueNewSegmentLen at *
  rw [Nat.mul_left_comm]
  omega

end Arith

/-- Every segment a step allocated got its block. A step whose `calloc` failed has no state after
it: line 35 writes through the pointer `mmm_alloc` made of the null block, and the program stops
there. -/
def AllocFits (mem : QueueMemory) (w w' : World α) : Prop :=
  ∀ n, w.allocated ≤ n → n < w'.allocated → mem.Fits (w'.segs n).size

/-- The states a run of the program reaches: a queue `queue_init_size` set up in a block `calloc`
granted, then steps each of whose allocations `calloc` granted. -/
inductive QueueRunnable (cfg : QueueConfig) (mem : QueueMemory) : World α → Prop where
  /-- A queue just set up. -/
  | init {w : World α} (sizeLog : Nat) :
      queueInitSize cfg sizeLog = some w → mem.Fits (w.segs 0).size → QueueRunnable cfg mem w
  /-- One more step of any thread, whose allocations fit. -/
  | step {w w' : World α} :
      QueueRunnable cfg mem w → QueueStep cfg w w' → AllocFits mem w w' → QueueRunnable cfg mem w'

/-- Every run of the program is a run of the step model, so every invariant of the reachable
states holds on it. -/
theorem QueueRunnable.reachable {cfg : QueueConfig} {mem : QueueMemory} {w : World α}
    (run : QueueRunnable cfg mem w) : QueueReachable cfg w := by
  induction run with
  | init sizeLog init => exact .init sizeLog init
  | step _ step _ reach => exact reach.step step

section Steps

variable {cfg : QueueConfig} {w w' : World α} {id : Nat}

/-- What a step of `queue_enqueue` does to sizes: the default stays; only line 211 allocates, one
segment of the planned size at the first free number; and the call reaches line 211 only from
lines 192 and 204, with twice the cells of its segment or the default planned. -/
theorem queueEnqueueStep_sizes {f : EnqueueFrame α} (step : queueEnqueueStep cfg w id f = some w') :
    w'.queue.defaultSegmentSize = w.queue.defaultSegmentSize ∧
      (w'.allocated = w.allocated ∨ f.pc = .allocSegment ∧ w'.allocated = w.allocated + 1 ∧
        (w'.segs w.allocated).size = f.newSize) ∧
      ∀ t f', w'.calls id = some ⟨t, .enqueuing f'⟩ → f'.pc = .allocSegment →
        f'.newSize = 2 * (w.segs f.segment).size ∨ f'.newSize = w.queue.defaultSegmentSize := by
  cases pc : f.pc <;> simp only [queueEnqueueStep, pc] at step <;> (repeat' split at step) <;>
    cases step <;> refine ⟨rfl, ?_, fun t f' call pc' => ?_⟩
  all_goals first
    | exact .inl rfl
    | exact .inr ⟨rfl, rfl, by simp [enqueueSuccessor, queueNewSegment]⟩
    | skip
  -- The new frame is the one the step wrote; only lines 192 and 204 set its line to 211.
  all_goals simp only [World.setStatus, writeAt_same, Option.map_eq_some', Call.mk.injEq,
    CallStatus.enqueuing.injEq] at call
  all_goals obtain ⟨_, -, -, same⟩ := call; cases same
  all_goals simp_all [EnqueueFrame.afterFetch, EnqueueFrame.afterWrite, EnqueueFrame.afterLink]
  all_goals split_ifs at pc'

/-- A step of `queue_dequeue` allocates nothing, keeps the default, and leaves its call a
dequeue. -/
theorem queueDequeueStep_sizes {f : DequeueFrame α} (step : queueDequeueStep w id f = some w') :
    w'.queue.defaultSegmentSize = w.queue.defaultSegmentSize ∧ w'.allocated = w.allocated ∧
      ∀ t f', w'.calls id ≠ some ⟨t, .enqueuing f'⟩ := by
  cases pc : f.pc <;> simp only [queueDequeueStep, pc] at step <;> (repeat' split at step) <;>
    cases step <;> exact ⟨rfl, rfl, fun t f' => by simp⟩

/-- What a step of the system does to sizes: the default stays; a segment it allocates has the
size its enqueuer, standing at line 211, planned; and a call standing at line 211 after it stood
there before, or has just planned twice the cells of an allocated segment or the default. -/
theorem QueueStep.sizes (chain : ChainInv w) (step : QueueStep cfg w w') :
    w'.queue.defaultSegmentSize = w.queue.defaultSegmentSize ∧
      (∀ n, w.allocated ≤ n → n < w'.allocated → ∃ id t f, w.calls id = some ⟨t, .enqueuing f⟩ ∧
        f.pc = .allocSegment ∧ (w'.segs n).size = f.newSize) ∧
      ∀ id t f', w'.calls id = some ⟨t, .enqueuing f'⟩ → f'.pc = .allocSegment →
        w.calls id = some ⟨t, .enqueuing f'⟩ ∨
          (∃ m < w.allocated, f'.newSize = 2 * (w.segs m).size) ∨
          f'.newSize = w.queue.defaultSegmentSize := by
  cases step with
  | enqueue x | dequeue =>
    -- A new call starts at its first line; every other call is as it was.
    refine ⟨rfl, fun n old new => absurd new (by simpa using old), fun id t f' call pc' => .inl ?_⟩
    simp only [World.invoke, writeAt_apply] at call
    split at call
    · cases call <;> cases pc'
    · exact call
  | run id moved =>
    obtain ⟨-, s, calls, -⟩ := runCall_frame moved
    have others : ∀ k, k ≠ id → w'.calls k = w.calls k := fun k other => by
      rw [calls, writeAt_ne other]
    unfold World.runCall at moved
    split at moved
    · -- The enqueuer's own step allocates and plans; the rest keep their frames.
      rename_i t₀ f call
      obtain ⟨w'', step, rfl⟩ := Option.map_eq_some'.mp moved
      obtain ⟨dflt, alloc, plans⟩ := queueEnqueueStep_sizes step
      refine ⟨dflt, fun n old new => ?_, fun k t f' call' pc' => ?_⟩
      · rcases alloc with same | ⟨pc, grown, size⟩
        · exact absurd new (by simpa [same] using old)
        · obtain rfl : n = w.allocated := by simp only [World.tick] at new; omega
          exact ⟨id, t₀, f, call, pc, size⟩
      · by_cases self : k = id
        · subst self
          rcases plans t f' call' pc' with doubled | dflt'
          · exact .inr (.inl ⟨f.segment, (chain.bounds_of call).1, doubled⟩)
          · exact .inr (.inr dflt')
        · exact .inl ((others k self).symm.trans call')
    · obtain ⟨w'', step, rfl⟩ := Option.map_eq_some'.mp moved
      obtain ⟨dflt, same, dequeuing⟩ := queueDequeueStep_sizes step
      refine ⟨dflt, fun n old new => absurd new (by simpa [same] using old),
        fun k t f' call' _ => ?_⟩
      by_cases self : k = id
      · exact absurd call' (self ▸ dequeuing t f')
      · exact .inl ((others k self).symm.trans call')
    · cases moved

end Steps

section Sizes

variable {mem : QueueMemory} {w w' : World α}

/-- A number of cells a segment can be given: a power of two no smaller than the default. -/
def PowSize (w : World α) (n : Nat) : Prop :=
  (∃ k, n = 2 ^ k) ∧ w.queue.defaultSegmentSize ≤ n

/-- What the allocations of a run of the program keep: the default is a power of two in a block
`calloc` grants, every allocated segment has a size of that kind in a granted block, and an
enqueuer at line 211 asks for a size of that kind in at most twice the largest block. -/
structure SizeInv (mem : QueueMemory) (w : World α) : Prop where
  default_pow : ∃ k, w.queue.defaultSegmentSize = 2 ^ k
  default_fits : mem.Fits w.queue.defaultSegmentSize
  sized : ∀ n < w.allocated, PowSize w (w.segs n).size ∧ mem.Fits (w.segs n).size
  planned : ∀ id t f, w.calls id = some ⟨t, .enqueuing f⟩ → f.pc = .allocSegment →
    PowSize w f.newSize ∧ mmmHeaderBytes + queueNewSegmentLen mem f.newSize ≤ 2 * mem.callocMax

/-- What lines 192 and 204 plan, twice the cells of an allocated segment or the default, is a
size of that kind, and its block at most twice the largest. -/
theorem SizeInv.plan (inv : SizeInv mem w) {n : Nat}
    (planned : (∃ m < w.allocated, n = 2 * (w.segs m).size) ∨ n = w.queue.defaultSegmentSize) :
    PowSize w n ∧ mmmHeaderBytes + queueNewSegmentLen mem n ≤ 2 * mem.callocMax := by
  rcases planned with ⟨m, old, rfl⟩ | rfl
  · obtain ⟨⟨⟨k, pow⟩, least⟩, fits⟩ := inv.sized m old
    exact ⟨⟨⟨k + 1, by rw [pow, Nat.pow_succ']⟩, by omega⟩, fits.double⟩
  · exact ⟨⟨inv.default_pow, Nat.le_refl _⟩, Nat.le_trans inv.default_fits (Nat.le_mul_of_pos_left _
      (by decide))⟩

/-- A queue just set up holds one segment of the default size, in the block `calloc` granted. -/
theorem sizeInv_init {cfg : QueueConfig} {sizeLog : Nat} (init : queueInitSize cfg sizeLog = some w)
    (fits : mem.Fits (w.segs 0).size) : SizeInv mem w := by
  unfold queueInitSize at init
  split at init
  · cases init
  · cases init
    refine ⟨⟨_, rfl⟩, fits, fun n below => ?_, fun id t f call => by simp at call⟩
    obtain rfl : n = 0 := by simpa using below
    exact ⟨⟨⟨_, rfl⟩, Nat.le_refl _⟩, fits⟩

/-- Every step of the program keeps the invariant: old segments keep their sizes, a new one has
the size its enqueuer planned and got its block, and a plan is made only at lines 192 and 204. -/
theorem SizeInv.step {cfg : QueueConfig} (inv : SizeInv mem w) (chain : ChainInv w)
    (step : QueueStep cfg w w') (fits : AllocFits mem w w') : SizeInv mem w' := by
  obtain ⟨dflt, fresh, frames⟩ := step.sizes chain
  have pow : ∀ {n}, PowSize w' n ↔ PowSize w n := by simp only [PowSize, dflt, implies_true]
  refine ⟨dflt ▸ inv.default_pow, dflt ▸ inv.default_fits, fun n below => ?_,
    fun id t f call pc => ?_⟩
  · by_cases old : n < w.allocated
    · rw [(step.grows old).2.size, pow]
      exact inv.sized n old
    · obtain ⟨id, t, f, call, pc, size⟩ := fresh n (by omega) below
      refine ⟨?_, fits n (by omega) below⟩
      rw [size, pow]
      exact (inv.planned id t f call pc).1
  · rw [pow]
    rcases frames id t f call pc with before | planned
    · exact inv.planned id t f before pc
    · exact inv.plan planned

/-- The invariant holds on every run of the program. -/
theorem sizeInv_of_runnable {cfg : QueueConfig} (run : QueueRunnable cfg mem w) :
    SizeInv mem w := by
  induction run with
  | init _ init fits => exact sizeInv_init init fits
  | step run step fits inv => exact inv.step (chainInv_of_reachable run.reachable) step fits

end Sizes

section Program

variable {cfg : QueueConfig} {mem : QueueMemory} {w w' : World α}

/-- Whether the segments a stretch of a run allocated all fit is computed. -/
instance (mem : QueueMemory) (w w' : World α) : Decidable (AllocFits mem w w') :=
  inferInstanceAs (Decidable (∀ n, _ ≤ n → n < _ → _))

/-- A run of the step model from a state of the program is a run of the program when every
segment it allocated fits: a segment keeps its size, so it fitted when it was allocated. -/
theorem QueueRunnable.of_run (start : QueueRunnable cfg mem w) (run : QueueRun cfg w w')
    (fits : AllocFits mem w w') : QueueRunnable cfg mem w' := by
  suffices grown : w.allocated ≤ w'.allocated ∧ QueueRunnable cfg mem w' from grown.2
  induction run with
  | refl => exact ⟨Nat.le_refl _, start⟩
  | tail _ step ih =>
    -- The segments of the earlier stretch have their final sizes already.
    have more := step.cellChange.1
    obtain ⟨grown, runnable⟩ := ih fun n old new => by
      rw [← (step.grows new).2.size]
      exact fits n old (Nat.lt_of_lt_of_le new more)
    exact ⟨grown.trans more, runnable.step step fun n old new => fits n (grown.trans old) new⟩

/-- On every run of the program each allocated segment has a power of two of cells, no fewer
than the default and at most `2 ^ 63`, in a block whose exact length is under `2 ^ 64`: the
64-bit sums of line 33 and of `mmm_alloc` are exact, and the block has room for every cell.
Doubling it, as lines 192 and 204 do, gives a nonzero size under `2 ^ 64` with a block length
under `2 ^ 64` too; and an enqueuer at line 211 asks for a power of two of cells, no fewer than
the default and under `2 ^ 64`, in a block of exact length. -/
theorem segment_sizes_fit (run : QueueRunnable cfg mem w) :
    (∀ n < w.allocated, (∃ k, (w.segs n).size = 2 ^ k) ∧
      w.queue.defaultSegmentSize ≤ (w.segs n).size ∧ (w.segs n).size ≤ 2 ^ 63 ∧
      mmmHeaderBytes + queueNewSegmentLen mem (w.segs n).size < 2 ^ 64 ∧
      2 * (w.segs n).size < 2 ^ 64 ∧
      mmmHeaderBytes + queueNewSegmentLen mem (2 * (w.segs n).size) < 2 ^ 64) ∧
    ∀ id t f, w.calls id = some ⟨t, .enqueuing f⟩ → f.pc = .allocSegment →
      (∃ k, f.newSize = 2 ^ k) ∧ w.queue.defaultSegmentSize ≤ f.newSize ∧ f.newSize < 2 ^ 64 ∧
      mmmHeaderBytes + queueNewSegmentLen mem f.newSize < 2 ^ 64 := by
  -- Every bound is a block of at most twice the largest, which is under `2 ^ 63`.
  have inv := sizeInv_of_runnable run
  have room := mem.callocMax_lt
  refine ⟨fun n old => ?_, fun id t f call pc => ?_⟩
  · obtain ⟨⟨pow, least⟩, fits⟩ := inv.sized n old
    have double := fits.double
    have cells := mem.cells_le_block (2 * (w.segs n).size)
    unfold QueueMemory.Fits at fits
    exact ⟨pow, least, by omega, by omega, by omega, by omega⟩
  · obtain ⟨⟨pow, least⟩, bound⟩ := inv.planned id t f call pc
    have cells := mem.cells_le_block f.newSize
    exact ⟨pow, least, by omega, by omega⟩

/-- Sixteen-byte cells after a 64-byte segment, and blocks of at most `2 ^ 47` bytes, the user
half of a 48-bit address space. -/
def x86Memory : QueueMemory :=
  { segmentBytes := 64, itemBytes := 16, callocMax := 2 ^ 47, item_pos := by decide
    callocMax_lt := by decide }

/-- An enqueuer loses both cells of the first segment to two dequeuers, asks for help, and links
a successor of four cells. -/
def doublingSchedule : List (QueueAction Nat) :=
  [.enqueue 1, .run 0, .run 0] ++ .dequeue :: List.replicate 7 (.run 1) ++ [.run 0, .run 0] ++
    .dequeue :: List.replicate 8 (.run 2) ++ List.replicate 9 (.run 0)

/-- The state the doubling schedule ends in. -/
def doublingRun : Option (World Nat) :=
  (queueInitSize smallConfig 0).bind fun w => w.exec smallConfig doublingSchedule

/-- The doubled segment and the first one fit, and so does the doubling of either. -/
theorem doublingRun_sizes_fit :
    ∃ w w', queueInitSize smallConfig 0 = some w ∧ w.exec smallConfig doublingSchedule = some w' ∧
      (w'.segs 1).size = 4 ∧ QueueRunnable smallConfig x86Memory w' ∧
      ((∀ n < w'.allocated, (∃ k, (w'.segs n).size = 2 ^ k) ∧
        w'.queue.defaultSegmentSize ≤ (w'.segs n).size ∧ (w'.segs n).size ≤ 2 ^ 63 ∧
        mmmHeaderBytes + queueNewSegmentLen x86Memory (w'.segs n).size < 2 ^ 64 ∧
        2 * (w'.segs n).size < 2 ^ 64 ∧
        mmmHeaderBytes + queueNewSegmentLen x86Memory (2 * (w'.segs n).size) < 2 ^ 64) ∧
      ∀ id t f, w'.calls id = some ⟨t, .enqueuing f⟩ → f.pc = .allocSegment →
        (∃ k, f.newSize = 2 ^ k) ∧ w'.queue.defaultSegmentSize ≤ f.newSize ∧
        f.newSize < 2 ^ 64 ∧ mmmHeaderBytes + queueNewSegmentLen x86Memory f.newSize < 2 ^ 64) :=
  have runnable : QueueRunnable smallConfig x86Memory _ :=
    .of_run (.init 0 rfl (by decide)) (World.exec_run doublingSchedule rfl) (by decide)
  ⟨_, _, rfl, rfl, rfl, runnable, segment_sizes_fit runnable⟩

end Program

end Hatrack
