import Hatrack.Queue.Step

/-! The bound of the cell CAS: `end_size` is read once (line 158), from the first segment a call
sees, so a call that moves on to a smaller segment can index past its cells at line 166. -/

namespace Hatrack

variable {α : Type}

/-- The index call `id` is about to CAS at line 166, its loop bound `end_size`, and the number of
cells of the segment it indexes, if it stands at that line. -/
def World.casTarget (w : World α) (id : Nat) : Option (Nat × Nat × Nat) :=
  match w.calls id with
  | some ⟨_, .enqueuing f⟩ =>
    if f.pc = .casCell then some (f.curIx, f.endSize, (w.segs f.segment).size) else none
  | _ => none

/-- A CAS past the end of the cell array writes outside the allocation, where the model stops. -/
theorem runCall_eq_none_of_casTarget {cfg : QueueConfig} {w : World α} {id ix bound size : Nat}
    (target : w.casTarget id = some (ix, bound, size)) (past : size ≤ ix) : w.runCall cfg id = none := by
  unfold World.casTarget at target
  split at target
  · rename_i t f call
    split at target
    · rename_i pc
      cases target
      simp [World.runCall, call, queueEnqueueStep, pc, Nat.not_lt.mpr past]
    · cases target
  · cases target

/-- Help asked for from step 2 on, so that a segment found full by an enqueuer with step 1 is
followed by one of the default size. -/
def slowHelpConfig : QueueConfig :=
  { qsizeLogDefault := 1, qsizeLogMin := 1, qsizeLogMax := 4, queueHelpValue := 2 }

/-- An enqueuer loses cell 0 to a dequeuer, asks for help and links a segment of four cells. A
new enqueuer, call 3, reads it, so its `end_size` is 4, and stops before its fetch-add. Three
enqueues fill the rest of that segment; the next one, with step 1, finds no help asked for and
links a segment of the default two cells, and one more takes its cell 1. Call 3 then moves on to
the small segment and is handed index 2. -/
def staleSizeSchedule : List (QueueAction Nat) :=
  [.enqueue 10, .run 0, .run 0] ++ enqueueRun 1 11 ++ .dequeue :: List.replicate 9 (.run 2) ++
    List.replicate 9 (.run 0) ++ [.enqueue 13, .run 3] ++ enqueueRun 4 14 ++ enqueueRun 5 15 ++
    enqueueRun 6 16 ++ .enqueue 17 :: List.replicate 8 (.run 7) ++ enqueueRun 8 18 ++
    List.replicate 3 (.run 3)

/-- The state the schedule ends in. -/
def staleSizeRun : Option (World Nat) :=
  (queueInitSize slowHelpConfig 0).bind fun w => w.exec slowHelpConfig staleSizeSchedule

/-- Call 3 is about to CAS cell 2 of a segment of two cells, below the bound of 4 it read from
segment 1, and the model has no step for it there. -/
theorem staleSizeRun_cas_out_of_bounds :
    ∃ w, staleSizeRun = some w ∧ QueueReachable slowHelpConfig w ∧
      w.casTarget 3 = some (2, 4, 2) ∧ (w.segs 1).size = 4 ∧ w.runCall slowHelpConfig 3 = none :=
  ⟨_, rfl, reachable_of_exec 0 staleSizeSchedule rfl, by decide, by decide,
    runCall_eq_none_of_casTarget (show _ = some (2, 4, 2) by decide) (Nat.le_refl 2)⟩

end Hatrack
