import Hatrack.Queue.Cells
import Hatrack.Queue.Cleanup
import Mathlib.Logic.Relation

/-! Written cells: a cell of an allocated segment changes only by a CAS from `empty_cell`, to the
enqueuer's item (line 166) or to `too_slow_marker` (line 291), so once a cell of a published
segment is written it never changes again. -/

namespace Hatrack

variable {α : Type}

/-- What one step may do to a cell: leave it alone, or fill an empty cell with an item or with
`too_slow_marker`. -/
def CellChange (before after : QueueItem α) : Prop :=
  after = before ∨ before = .empty ∧ (after = .tooSlow ∨ ∃ x e, after = .used x e)

/-- A cell left alone. -/
theorem CellChange.refl (cell : QueueItem α) : CellChange cell cell := .inl rfl

/-- A written cell is left alone. -/
theorem CellChange.eq_of_ne_empty {before after : QueueItem α} (change : CellChange before after)
    (written : before ≠ .empty) : after = before :=
  change.elim id fun ⟨empty, _⟩ => absurd empty written

section Step

variable {cfg : QueueConfig} {w w' : World α} {id n : Nat}

/-- Replacing a segment by a copy with other indices or `next` leaves its cells alone. -/
theorem cellChange_writeSeg {segs : Nat → QueueSegment α} {m : Nat} {seg : QueueSegment α}
    (same : seg.cells = (segs m).cells) (n i : Nat) :
    CellChange ((segs n).cells i) ((writeAt segs m seg n).cells i) := by
  rw [writeAt_apply]
  split
  · subst n; rw [same]; exact .refl _
  · exact .refl _

/-- A CAS from `empty_cell` on one cell changes that cell only. -/
theorem cellChange_cas {segs : Nat → QueueSegment α} {m j : Nat} {new : QueueItem α}
    (empty : (segs m).cells j = .empty) (filled : new = .tooSlow ∨ ∃ x e, new = .used x e)
    (n i : Nat) :
    CellChange ((segs n).cells i)
      ((writeAt segs m { segs m with cells := writeAt (segs m).cells j new } n).cells i) := by
  rw [writeAt_apply]
  split
  · subst n
    dsimp only
    rw [writeAt_apply]
    split
    · subst i; exact .inr ⟨empty, filled⟩
    · exact .refl _
  · exact .refl _

/-- A step of `queue_enqueue` changes a cell of an allocated segment only by its cell CAS. -/
theorem queueEnqueueStep_cellChange {f : EnqueueFrame α}
    (step : queueEnqueueStep cfg w id f = some w') (old : n < w.allocated) (i : Nat) : CellChange ((w.segs n).cells i) ((w'.segs n).cells i) := by
  cases pc : f.pc <;> simp only [queueEnqueueStep, pc] at step <;> (repeat' split at step) <;>
    cases step <;> dsimp only [World.setStatus, World.setSeg]
  case fetchIndex => exact cellChange_writeSeg (by rfl) n i
  case casCell.isTrue.h_1 empty => exact cellChange_cas empty (.inr ⟨_, _, rfl⟩) n i
  case allocSegment =>
    -- The successor is written at the first unallocated number (lines 211 to 215).
    rw [writeAt_ne (Nat.ne_of_lt old)]
    exact .refl _
  case casNext.h_1 => exact cellChange_writeSeg (by rfl) n i
  all_goals exact .refl _

/-- A step of `queue_dequeue` changes a cell only by its CAS to `too_slow_marker`. -/
theorem queueDequeueStep_cellChange {f : DequeueFrame α} (step : queueDequeueStep w id f = some w')
    (i : Nat) : CellChange ((w.segs n).cells i) ((w'.segs n).cells i) := by
  cases pc : f.pc <;> simp only [queueDequeueStep, pc] at step <;> (repeat' split at step) <;>
    cases step <;> dsimp only [World.setStatus, World.setSeg]
  case fetchIndex.isTrue => exact cellChange_writeSeg (by rfl) n i
  case fetchIndex.isFalse => exact cellChange_writeSeg (by rfl) n i
  case casCell.h_1 empty => exact cellChange_cas empty (.inl rfl) n i
  all_goals exact .refl _

/-- Every step keeps the segments allocated and changes their cells only by a CAS from
`empty_cell`. -/
theorem QueueStep.cellChange (step : QueueStep cfg w w') :
    w.allocated ≤ w'.allocated ∧
      ∀ n < w.allocated, ∀ i, CellChange ((w.segs n).cells i) ((w'.segs n).cells i) := by
  cases step with
  | enqueue | dequeue => exact ⟨Nat.le_refl _, fun _ _ _ => .refl _⟩
  | run id moved =>
    unfold World.runCall at moved
    split at moved
    · obtain ⟨w'', step, rfl⟩ := Option.map_eq_some'.mp moved
      refine ⟨?_, fun n old i => queueEnqueueStep_cellChange step old i⟩
      -- Only lines 211 to 215 allocate, and they add one segment.
      rename_i f _
      cases pc : f.pc <;> simp only [queueEnqueueStep, pc] at step <;>
        (repeat' split at step) <;> cases step <;> simp
    · obtain ⟨w'', step, rfl⟩ := Option.map_eq_some'.mp moved
      refine ⟨?_, fun n _ i => queueDequeueStep_cellChange step i⟩
      rename_i f _
      cases pc : f.pc <;> simp only [queueDequeueStep, pc] at step <;>
        (repeat' split at step) <;> cases step <;> simp
    · cases moved

end Step

/-- A run of the system, step after step. -/
def QueueRun (cfg : QueueConfig) : World α → World α → Prop :=
  Relation.ReflTransGen (QueueStep cfg)

/-- A schedule that runs is a run of the system. -/
theorem World.exec_run {cfg : QueueConfig} :
    ∀ {w w' : World α} (acts : List (QueueAction α)), w.exec cfg acts = some w' → QueueRun cfg w w'
  | _, _, [], ran => by cases ran; exact .refl
  | w, _, .enqueue x :: rest, ran => .head (.enqueue w x) (exec_run rest ran)
  | w, _, .dequeue :: rest, ran => .head (.dequeue w) (exec_run rest ran)
  | w, _, .run id :: rest, ran => by
    obtain ⟨w'', moved, rest_ran⟩ := Option.bind_eq_some.mp ran
    exact .head (.run id moved) (exec_run rest rest_ran)

/-- A run from a reachable state ends in a reachable state. -/
theorem QueueRun.reachable {cfg : QueueConfig} {w w' : World α} (run : QueueRun cfg w w')
    (reach : QueueReachable cfg w) : QueueReachable cfg w' := by
  induction run with
  | refl => exact reach
  | tail _ step ih => exact ih.step step

/-- Over a run, the segments allocated stay allocated and a written cell of one of them keeps
its contents. -/
theorem QueueRun.written_stable {cfg : QueueConfig} {w w' : World α} (run : QueueRun cfg w w')
    {n i : Nat} (old : n < w.allocated) (written : (w.segs n).cells i ≠ .empty) :
    w.allocated ≤ w'.allocated ∧ (w'.segs n).cells i = (w.segs n).cells i := by
  induction run with
  | refl => exact ⟨Nat.le_refl _, rfl⟩
  | tail _ step ih =>
    obtain ⟨grown, same⟩ := ih
    obtain ⟨grows, changes⟩ := step.cellChange
    refine ⟨Nat.le_trans grown grows, ?_⟩
    rw [(changes n (Nat.lt_of_lt_of_le old grown) i).eq_of_ne_empty (same ▸ written), same]

/-- Over any run from a reachable state, a cell of a published segment that is not `empty_cell`
never changes again: cells change only by the CAS from `empty_cell` of line 166 or line 291, and
the only other cell write, at line 215, goes to a segment not yet allocated. -/
theorem written_cell_stable {cfg : QueueConfig} {w w' : World α} (reach : QueueReachable cfg w)
    (run : QueueRun cfg w w') {p : CellRef} (published : Published w p.segment)
    (written : w.cellAt p ≠ .empty) : w'.cellAt p = w.cellAt p :=
  (run.written_stable ((chainInv_of_reachable reach).published_lt published) written).2

/-- An enqueue writes cell 0 of the first segment; the run goes on until a dequeue has taken it. -/
def writtenPrefix : List (QueueAction Nat) := enqueueRun 0 5

/-- The state after the first enqueue. -/
def writtenStart : Option (World Nat) :=
  (queueInitSize smallConfig 0).bind fun w => w.exec smallConfig writtenPrefix

/-- The taken cell still holds the item written into it. -/
theorem writtenRun_cell_stable :
    ∃ w w', writtenStart = some w ∧ w.exec smallConfig (dequeueRun 1) = some w' ∧
      w.cellAt ⟨0, 0⟩ = .used 5 0 ∧ w'.cellAt ⟨0, 0⟩ = w.cellAt ⟨0, 0⟩ :=
  ⟨_, _, rfl, rfl, by decide,
    written_cell_stable (@reachable_of_exec _ smallConfig 0 _ writtenPrefix rfl)
      (World.exec_run (dequeueRun 1) rfl) (.inl rfl) (by decide)⟩

end Hatrack
