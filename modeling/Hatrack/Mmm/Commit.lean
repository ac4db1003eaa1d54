import Hatrack.Mmm.Epoch
import Mathlib.Logic.Relation

/-! Write epochs: a record is stamped at most once, with an epoch no other record gets, and a
linearized reader's epoch separates the writes committed before it from those begun after. -/

namespace Hatrack

/-- What a call's locals guarantee about the shared state, by the line it stands at. -/
def StatusOk (w : EpochWorld) (id invokedEpoch : Nat) : EpochStatus → Prop
  | .casWriteEpoch _ cur => invokedEpoch < cur ∧ cur ≤ w.epoch ∧ ∀ q, w.writeEpoch q ≠ cur
  | .committed (some p) t => w.writeEpoch p ≠ 0 ∧ t < w.clock
  | .linearizeReserve r => invokedEpoch ≤ r ∧ r ≤ w.epoch
  | .linearizeReload => invokedEpoch ≤ w.reservations id ∧ w.reservations id ≤ w.epoch
  | .linearized e t => invokedEpoch ≤ e ∧ e ≤ w.epoch ∧ t < w.clock
  | _ => True

/-- What a returned call settled, and when: the stamp of the record a commit or help call
returned on, or the epoch `mmm_start_linearized_op` returned. -/
def EpochStatus.settled (writeEpoch : Nat → Nat) : EpochStatus → Option (Nat × Nat)
  | .committed (some p) t => some (writeEpoch p, t)
  | .linearized e t => some (e, t)
  | _ => none

/-- The facts every call keeps. -/
structure CallOk (w : EpochWorld) (id : Nat) (c : EpochCall) : Prop where
  invoked_lt : c.invokedAt < w.clock
  invokedEpoch_le : c.invokedEpoch ≤ w.epoch
  target_lt : ∀ p, c.status.target = some p → p < w.allocated
  status_ok : StatusOk w id c.invokedEpoch c.status

/-- The invariant of the epoch system while the epoch has not wrapped. -/
structure EpochInv (w : EpochWorld) : Prop where
  epoch_eq : w.epoch = w.initialEpoch + w.increments
  stamp_le : ∀ p, w.writeEpoch p ≤ w.epoch
  unallocated_zero : ∀ p, w.allocated ≤ p → w.writeEpoch p = 0
  stamp_origin : ∀ p, w.writeEpoch p ≠ 0 → ∃ id c, w.calls id = some c ∧
    c.status.target = some p ∧ c.invokedEpoch < w.writeEpoch p
  stamp_unique : ∀ p q, w.writeEpoch p ≠ 0 → w.writeEpoch p = w.writeEpoch q → p = q
  fresh : ∀ id, w.started ≤ id → w.calls id = none
  calls_ok : ∀ id c, w.calls id = some c → CallOk w id c
  cur_unique : ∀ id id' c c' p p' cur, w.calls id = some c → c.status = .casWriteEpoch p cur →
    w.calls id' = some c' → c'.status = .casWriteEpoch p' cur → id = id'
  settled_before : ∀ id c v t id' c', w.calls id = some c →
    c.status.settled w.writeEpoch = some (v, t) → w.calls id' = some c' → t < c'.invokedAt →
    v ≤ c'.invokedEpoch

section Calls

variable {w : EpochWorld} {id k : Nat} {c ck : EpochCall} {s : EpochStatus}

/-- A call of the world after one call's status changed is that call, restatused, or another
call as it was. -/
theorem calls_setStatus (call : w.calls id = some c) (found : (w.setStatus id s).calls k = some ck) :
    (k = id ∧ ck = { c with status := s }) ∨ (k ≠ id ∧ w.calls k = some ck) := by
  simp only [EpochWorld.setStatus, writeAt_apply] at found
  split at found
  · subst k
    simp only [call, Option.map_some', Option.some.injEq] at found
    exact .inl ⟨rfl, found.symm⟩
  · exact .inr ⟨‹_›, found⟩

/-- The restatused call is present. -/
theorem setStatus_calls_self (call : w.calls id = some c) :
    (w.setStatus id s).calls id = some { c with status := s } := by
  simp [call]

end Calls

namespace EpochInv

variable {w : EpochWorld} {id : Nat} {c : EpochCall} {s : EpochStatus}

/-- A later clock and a larger epoch keep what a call's locals guarantee, when the stamps and
the reservations are as they were. -/
theorem statusOk_mono {w' : EpochWorld} {ie : Nat} {s : EpochStatus} (ok : StatusOk w id ie s)
    (stamps : w'.writeEpoch = w.writeEpoch) (reserved : w'.reservations id = w.reservations id)
    (grown : w.epoch ≤ w'.epoch) (later : w.clock ≤ w'.clock) : StatusOk w' id ie s := by
  cases s with
  | casWriteEpoch p cur =>
    exact ⟨ok.1, Nat.le_trans ok.2.1 grown, fun q => by rw [stamps]; exact ok.2.2 q⟩
  | committed ptr t =>
    cases ptr with
    | none => trivial
    | some p => exact ⟨by rw [stamps]; exact ok.1, Nat.lt_of_lt_of_le ok.2 later⟩
  | linearizeReserve r => simp only [StatusOk] at *; omega
  | linearizeReload => simp only [StatusOk, reserved] at *; omega
  | linearized e t => simp only [StatusOk] at *; omega
  | _ => exact ok

/-- A call of the world after a new call entered is the new call or an old one. -/
theorem calls_invoke {k : Nat} {ck : EpochCall} (found : (w.invoke s).calls k = some ck) :
    (k = w.started ∧ ck = ⟨w.clock, w.epoch, s⟩) ∨ (k ≠ w.started ∧ w.calls k = some ck) := by
  simp only [EpochWorld.invoke, writeAt_apply] at found
  split at found
  · cases found
    exact .inl ⟨‹_›, rfl⟩
  · exact .inr ⟨‹_›, found⟩

/-- A call in the table has a number below `started`. -/
theorem lt_started (inv : EpochInv w) (call : w.calls id = some c) : id < w.started :=
  Nat.lt_of_not_le fun past => by simp [inv.fresh id past] at call

/-- A call moving on without touching shared memory keeps the invariant, when its new locals are
sound, it works on the same record, it holds no new `cur_epoch`, and a return is stamped now. -/
theorem restatus (inv : EpochInv w) (call : w.calls id = some c)
    (target : s.target = c.status.target)
    (ok : StatusOk { w with clock := w.clock + 1 } id c.invokedEpoch s)
    (curFresh : ∀ p cur, s = .casWriteEpoch p cur → ∀ k ck p', w.calls k = some ck →
      ck.status = .casWriteEpoch p' cur → k = id)
    (now : ∀ v t, s.settled w.writeEpoch = some (v, t) → t = w.clock) :
    EpochInv { w.setStatus id s with clock := w.clock + 1 } := by
  have callOk := inv.calls_ok id c call
  have below := inv.lt_started call
  constructor
  case epoch_eq => exact inv.epoch_eq
  case stamp_le => exact inv.stamp_le
  case unallocated_zero => exact inv.unallocated_zero
  case stamp_unique => exact inv.stamp_unique
  case stamp_origin =>
    -- The stamp's origin is still in the table, on the same record.
    intro p stamped
    obtain ⟨k, ck, found, tgt, lt⟩ := inv.stamp_origin p stamped
    by_cases same : k = id
    · subst same
      rw [call, Option.some.injEq] at found
      subst found
      exact ⟨k, _, setStatus_calls_self call, target.trans tgt, lt⟩
    · exact ⟨k, ck, by simpa [writeAt_ne same] using found, tgt, lt⟩
  case fresh =>
    intro k past
    simp only [EpochWorld.setStatus] at past ⊢
    rw [writeAt_ne (by omega)]
    exact inv.fresh k past
  case calls_ok =>
    intro k ck found
    rcases calls_setStatus call found with ⟨rfl, rfl⟩ | ⟨-, found⟩
    · exact ⟨by have := callOk.invoked_lt; simp only; omega, callOk.invokedEpoch_le,
        fun p tgt => callOk.target_lt p (target ▸ tgt), ok⟩
    · have old := inv.calls_ok k ck found
      exact ⟨by have := old.invoked_lt; simp only; omega, old.invokedEpoch_le, old.target_lt,
        statusOk_mono old.status_ok rfl rfl (Nat.le_refl _) (by simp)⟩
  case cur_unique =>
    intro k k' ck ck' p p' cur found cas found' cas'
    rcases calls_setStatus call found with ⟨rfl, rfl⟩ | ⟨other, before⟩ <;>
      rcases calls_setStatus call found' with ⟨rfl, rfl⟩ | ⟨other', after⟩
    · rfl
    · exact absurd (curFresh p cur cas k' ck' p' after cas') other'
    · exact absurd (curFresh p' cur cas' k ck p before cas) other
    · exact inv.cur_unique k k' ck ck' p p' cur before cas after cas'
  case settled_before =>
    intro k ck v t k' ck' found settled found' later
    -- A call invoked after a return now would be invoked after the present step.
    have early : ∀ kk cc, (w.setStatus id s).calls kk = some cc → cc.invokedAt < w.clock := by
      intro kk cc f
      rcases calls_setStatus call f with ⟨rfl, rfl⟩ | ⟨-, f⟩
      · exact callOk.invoked_lt
      · exact (inv.calls_ok kk cc f).invoked_lt
    rcases calls_setStatus call found with ⟨rfl, rfl⟩ | ⟨-, before⟩
    · have := now v t settled
      have := early k' ck' found'
      omega
    rcases calls_setStatus call found' with ⟨rfl, rfl⟩ | ⟨-, after⟩
    · exact inv.settled_before k ck v t _ c before settled call later
    · exact inv.settled_before k ck v t k' ck' before settled after later

/-- What a returned call settled is at most the present epoch. -/
theorem settled_le (inv : EpochInv w) (call : w.calls id = some c) {v t : Nat}
    (settled : c.status.settled w.writeEpoch = some (v, t)) : v ≤ w.epoch ∧ t < w.clock := by
  have ok := (inv.calls_ok id c call).status_ok
  cases status : c.status with
  | committed ptr t' =>
    cases ptr with
    | none => simp [status, EpochStatus.settled] at settled
    | some p =>
      simp only [status, EpochStatus.settled, Option.some.injEq, Prod.mk.injEq] at settled ok
      obtain ⟨rfl, rfl⟩ := settled
      exact ⟨inv.stamp_le p, ok.2⟩
  | linearized e t' =>
    simp only [status, EpochStatus.settled, Option.some.injEq, Prod.mk.injEq] at settled ok
    obtain ⟨rfl, rfl⟩ := settled
    exact ⟨ok.2.1, ok.2.2⟩
  | _ => simp [status, EpochStatus.settled] at settled

/-- No records and no calls: the invariant holds from the start. -/
theorem init (e0 : Nat) : EpochInv (EpochWorld.init e0) :=
  ⟨rfl, fun _ => Nat.zero_le _, fun _ _ => rfl, fun _ stamped => absurd rfl stamped,
    fun _ _ stamped => absurd rfl stamped, fun _ _ => rfl, fun _ _ found => (by cases found),
    fun _ _ _ _ _ _ _ found => (by cases found), fun _ _ _ _ _ _ found => (by cases found)⟩

/-- The epoch's fetch-add, short of wrapping, keeps the invariant. -/
theorem fetchAdd (inv : EpochInv w) (room : w.epoch + 1 < wordSize) : EpochInv w.fetchAdd := by
  have succ : epochSucc w.epoch = w.epoch + 1 := Nat.mod_eq_of_lt room
  refine ⟨?_, fun p => ?_, inv.unallocated_zero, inv.stamp_origin, inv.stamp_unique, inv.fresh,
    fun k ck found => ?_, inv.cur_unique, inv.settled_before⟩
  · show epochSucc w.epoch = w.initialEpoch + (w.increments + 1)
    rw [succ, inv.epoch_eq]
    omega
  · have := inv.stamp_le p
    simp only [EpochWorld.fetchAdd, succ]
    omega
  · have old := inv.calls_ok k ck found
    exact ⟨old.invoked_lt, by have := old.invokedEpoch_le; simp only [EpochWorld.fetchAdd, succ]; omega,
      old.target_lt, statusOk_mono old.status_ok rfl rfl (by simp [succ]) (Nat.le_refl _)⟩

/-- Writing a reservation slot keeps the invariant unless its owner is comparing against it. -/
theorem reserve (inv : EpochInv w) (call : w.calls id = some c)
    (notReload : c.status ≠ .linearizeReload) (r : Nat) :
    EpochInv { w with reservations := writeAt w.reservations id r } := by
  refine ⟨inv.epoch_eq, inv.stamp_le, inv.unallocated_zero, inv.stamp_origin, inv.stamp_unique,
    inv.fresh, fun k ck found => ?_, inv.cur_unique, inv.settled_before⟩
  have old := inv.calls_ok k ck found
  refine ⟨old.invoked_lt, old.invokedEpoch_le, old.target_lt, ?_⟩
  by_cases same : k = id
  · -- The owner's own facts do not mention its slot.
    subst same
    rw [call, Option.some.injEq] at found
    subst found
    have ok := old.status_ok
    cases status : c.status with
    | committed ptr t => cases ptr <;> simp_all [StatusOk]
    | _ => simp_all [StatusOk]
  · exact statusOk_mono old.status_ok rfl (writeAt_ne same) (Nat.le_refl _) (Nat.le_refl _)

/-- `mmm_alloc` zeroes a record no call works on, so only the count of records moves. -/
theorem alloc (inv : EpochInv w) : EpochInv w.mmmAlloc := by
  have zeroed : writeAt w.writeEpoch w.allocated 0 = w.writeEpoch := funext fun p => by
    by_cases fresh : p = w.allocated
    · subst fresh
      rw [writeAt_same, inv.unallocated_zero _ (Nat.le_refl _)]
    · exact writeAt_ne fresh
  unfold EpochWorld.mmmAlloc
  rw [zeroed]
  refine ⟨inv.epoch_eq, inv.stamp_le,
    fun p past => inv.unallocated_zero p (by simp only at past; omega),
    inv.stamp_origin, inv.stamp_unique, inv.fresh, fun k ck found => ?_, inv.cur_unique,
    inv.settled_before⟩
  have old := inv.calls_ok k ck found
  exact ⟨by have := old.invoked_lt; simp only; omega, old.invokedEpoch_le,
    fun p tgt => by have := old.target_lt p tgt; simp only; omega,
    statusOk_mono old.status_ok rfl rfl (Nat.le_refl _) (by simp)⟩

/-- A call entering on an allocated record, at a line with no settled result and no
`cur_epoch`, keeps the invariant. -/
theorem invoke (inv : EpochInv w) (targetOk : ∀ p, s.target = some p → p < w.allocated)
    (entry : s.settled w.writeEpoch = none) (noCur : ∀ p cur, s ≠ .casWriteEpoch p cur)
    (ok : StatusOk (w.invoke s) w.started w.epoch s) : EpochInv (w.invoke s) := by
  have old : ∀ {k ck}, w.calls k = some ck → (w.invoke s).calls k = some ck := fun {k ck} f => by
    show writeAt w.calls w.started _ k = some ck
    rw [writeAt_ne (Nat.ne_of_lt (inv.lt_started f))]
    exact f
  constructor
  case epoch_eq => exact inv.epoch_eq
  case stamp_le => exact inv.stamp_le
  case unallocated_zero => exact inv.unallocated_zero
  case stamp_unique => exact inv.stamp_unique
  case stamp_origin =>
    intro p stamped
    obtain ⟨k, ck, found, tgt, lt⟩ := inv.stamp_origin p stamped
    exact ⟨k, ck, old found, tgt, lt⟩
  case fresh =>
    intro k past
    have past : w.started + 1 ≤ k := past
    show writeAt w.calls w.started _ k = none
    rw [writeAt_ne (by omega)]
    exact inv.fresh k (by omega)
  case calls_ok =>
    intro k ck found
    rcases calls_invoke found with ⟨rfl, rfl⟩ | ⟨-, found⟩
    · exact ⟨by simp [EpochWorld.invoke], by simp [EpochWorld.invoke], targetOk, ok⟩
    · have prior := inv.calls_ok k ck found
      exact ⟨by have := prior.invoked_lt; simp only [EpochWorld.invoke]; omega,
        prior.invokedEpoch_le, prior.target_lt,
        statusOk_mono prior.status_ok rfl rfl (Nat.le_refl _) (by simp [EpochWorld.invoke])⟩
  case cur_unique =>
    intro k k' ck ck' p p' cur found cas found' cas'
    rcases calls_invoke found with ⟨-, rfl⟩ | ⟨-, before⟩
    · exact absurd cas (noCur p cur)
    rcases calls_invoke found' with ⟨-, rfl⟩ | ⟨-, after⟩
    · exact absurd cas' (noCur p' cur)
    exact inv.cur_unique k k' ck ck' p p' cur before cas after cas'
  case settled_before =>
    intro k ck v t k' ck' found settled found' later
    rcases calls_invoke found with ⟨-, rfl⟩ | ⟨-, before⟩
    · simp [EpochWorld.invoke, entry] at settled
    rcases calls_invoke found' with ⟨-, rfl⟩ | ⟨-, after⟩
    · -- The new call was invoked at the present epoch, past everything settled.
      exact (inv.settled_le before settled).1
    · exact inv.settled_before k ck v t k' ck' before settled after later

/-- A won CAS stamps record `p` with the caller's `cur_epoch`, which no record and no other call
holds, and the call returns. -/
theorem casWon (inv : EpochInv w) (call : w.calls id = some c) {p cur : Nat}
    (status : c.status = .casWriteEpoch p cur) (won : w.writeEpoch p = 0) :
    EpochInv { ({ w with writeEpoch := writeAt w.writeEpoch p cur } : EpochWorld).setStatus id
      (.committed (some p) w.clock) with clock := w.clock + 1 } := by
  have callOk := inv.calls_ok id c call
  have below := inv.lt_started call
  have curOk : c.invokedEpoch < cur ∧ cur ≤ w.epoch ∧ ∀ q, w.writeEpoch q ≠ cur := by
    simpa [status, StatusOk] using callOk.status_ok
  have p_lt : p < w.allocated := callOk.target_lt p (by simp [status, EpochStatus.target])
  -- Only record `p` changes, from 0 to `cur`.
  have stamp : ∀ q, writeAt w.writeEpoch p cur q = if q = p then cur else w.writeEpoch q :=
    fun _ => writeAt_apply
  constructor <;> dsimp only [EpochWorld.setStatus]
  case epoch_eq => exact inv.epoch_eq
  case stamp_le =>
    intro q
    rw [stamp]
    split
    · exact curOk.2.1
    · exact inv.stamp_le q
  case unallocated_zero =>
    intro q past
    rw [stamp, if_neg (show q ≠ p by omega)]
    exact inv.unallocated_zero q past
  case stamp_unique =>
    intro q q' stamped same
    rw [stamp, stamp] at same
    rw [stamp] at stamped
    split at same <;> split at same
    · subst_vars; rfl
    · exact absurd same.symm (curOk.2.2 q')
    · exact absurd same (curOk.2.2 q)
    · exact inv.stamp_unique q q' (by simpa [*] using stamped) same
  case stamp_origin =>
    intro q stamped
    by_cases same : q = p
    · subst same
      refine ⟨id, _, setStatus_calls_self call, rfl, ?_⟩
      rw [stamp, if_pos rfl]
      exact curOk.1
    · rw [stamp, if_neg same] at stamped ⊢
      obtain ⟨k, ck, found, tgt, lt⟩ := inv.stamp_origin q stamped
      have other : k ≠ id := by
        rintro rfl
        rw [call, Option.some.injEq] at found
        subst found
        simp only [status, EpochStatus.target, Option.some.injEq] at tgt
        exact same tgt.symm
      exact ⟨k, ck, by rw [writeAt_ne other]; exact found, tgt, lt⟩
  case fresh =>
    intro k past
    rw [writeAt_ne (by omega)]
    exact inv.fresh k past
  case calls_ok =>
    intro k ck found
    rcases calls_setStatus call found with ⟨rfl, rfl⟩ | ⟨other, found⟩
    · refine ⟨by have := callOk.invoked_lt; dsimp only; omega, callOk.invokedEpoch_le,
        fun q tgt => by cases tgt; exact p_lt, ?_⟩
      simp only [StatusOk, stamp, if_pos]
      omega
    · have old := inv.calls_ok k ck found
      refine ⟨by have := old.invoked_lt; dsimp only; omega, old.invokedEpoch_le, old.target_lt, ?_⟩
      have ok := old.status_ok
      cases st : ck.status with
      | casWriteEpoch p' cur' =>
        -- Another pending `cur_epoch` differs from this one.
        simp only [st, StatusOk] at ok ⊢
        refine ⟨ok.1, ok.2.1, fun q => ?_⟩
        rw [stamp]
        split
        · exact fun same => other (inv.cur_unique k id ck c p' p cur found (same ▸ st) call status)
        · exact ok.2.2 q
      | committed ptr t =>
        cases ptr with
        | none => trivial
        | some q =>
          simp only [st, StatusOk, stamp] at ok ⊢
          refine ⟨?_, by omega⟩
          split <;> omega
      | linearized e t =>
        simp only [st, StatusOk] at ok ⊢
        omega
      | linearizeReserve _ | linearizeReload => simpa [st, StatusOk] using ok
      | _ => simp [st, StatusOk]
  case cur_unique =>
    intro k k' ck ck' q q' cur' found cas found' cas'
    rcases calls_setStatus call found with ⟨rfl, rfl⟩ | ⟨-, before⟩
    · cases cas
    rcases calls_setStatus call found' with ⟨rfl, rfl⟩ | ⟨-, after⟩
    · cases cas'
    exact inv.cur_unique k k' ck ck' q q' cur' before cas after cas'
  case settled_before =>
    intro k ck v t k' ck' found settled found' later
    rcases calls_setStatus call found with ⟨rfl, rfl⟩ | ⟨other, before⟩
    · -- The call returns now; nothing was invoked after the present step.
      simp only [EpochStatus.settled, Option.some.injEq, Prod.mk.injEq] at settled
      rcases calls_setStatus call found' with ⟨same, rfl⟩ | ⟨-, after⟩
      · have := callOk.invoked_lt
        dsimp only at later
        omega
      · have := (inv.calls_ok k' ck' after).invoked_lt
        omega
    -- What another call settled does not involve record `p`, which was unstamped.
    have same : ck.status.settled (writeAt w.writeEpoch p cur) = ck.status.settled w.writeEpoch := by
      have ok := (inv.calls_ok k ck before).status_ok
      cases st : ck.status with
      | committed ptr t' =>
        cases ptr with
        | none => rfl
        | some q =>
          simp only [st, StatusOk] at ok
          simp only [EpochStatus.settled, stamp]
          split
          · subst_vars
            exact absurd won ok.1
          · rfl
      | _ => rfl
    rw [same] at settled
    rcases calls_setStatus call found' with ⟨rfl, rfl⟩ | ⟨-, after⟩
    · exact inv.settled_before k ck v t _ c before settled call later
    · exact inv.settled_before k ck v t k' ck' before settled after later

/-- A CAS of a `write_epoch` from 0, won or lost, and the return after it. -/
theorem casWriteEpoch (inv : EpochInv w) (call : w.calls id = some c) {p cur : Nat}
    (status : c.status = .casWriteEpoch p cur) :
    EpochInv { (w.casWriteEpoch p cur).setStatus id (.committed (some p) w.clock) with
      clock := (w.casWriteEpoch p cur).clock + 1 } := by
  by_cases won : w.writeEpoch p = 0
  · simpa [EpochWorld.casWriteEpoch, won] using inv.casWon call status won
  · -- A lost CAS changes nothing shared: the record was stamped already.
    have same : w.casWriteEpoch p cur = w := by simp [EpochWorld.casWriteEpoch, won]
    rw [same]
    refine inv.restatus call (by simp [status, EpochStatus.target]) ⟨won, by simp⟩
      (fun _ _ wrong => by cases wrong) (fun v t settled => ?_)
    simp only [EpochStatus.settled, Option.some.injEq, Prod.mk.injEq] at settled
    exact settled.2.symm

/-- Every step of a call in flight, short of wrapping the epoch, keeps the invariant. -/
theorem runCall {w' : EpochWorld} (inv : EpochInv w) (moved : w.runCall id = some w')
    (room : w'.NoWrap) : EpochInv w' := by
  obtain ⟨c, call, stepped⟩ := Option.bind_eq_some.mp moved
  obtain ⟨w'', step, rfl⟩ := Option.map_eq_some'.mp stepped
  have callOk := inv.calls_ok id c call
  have noCur : ∀ {s : EpochStatus}, (∀ p cur, s ≠ .casWriteEpoch p cur) →
      ∀ p cur, s = .casWriteEpoch p cur → ∀ k ck p', w.calls k = some ck →
        ck.status = .casWriteEpoch p' cur → k = id :=
    fun never p cur same => absurd same (never p cur)
  cases status : c.status with
  | fetchEpoch p =>
    -- The fetch-add hands out `epoch + 1`, above every stamp and every `cur_epoch` held.
    simp only [status, epochStep, Option.some.injEq] at step
    subst step
    have bound := inv.epoch_eq
    simp only [EpochWorld.NoWrap, EpochWorld.setStatus, EpochWorld.fetchAdd] at room
    have fits : w.epoch + 1 < wordSize := by omega
    have succ : epochSucc w.epoch = w.epoch + 1 := Nat.mod_eq_of_lt fits
    refine (inv.fetchAdd fits).restatus call (by simp [status, EpochStatus.target]) ?_ ?_
      (fun _ _ none => by cases none)
    · refine ⟨by have := callOk.invokedEpoch_le; simp only [succ]; omega, by simp [succ],
        fun q => ?_⟩
      have := inv.stamp_le q
      simp only [EpochWorld.fetchAdd, succ]
      omega
    · intro p' cur same k ck p'' found cas
      cases same
      have ok := (inv.calls_ok k ck found).status_ok
      simp only [cas, StatusOk, succ] at ok
      omega
  | casWriteEpoch p cur =>
    simp only [status, epochStep, Option.some.injEq] at step
    subst step
    exact inv.casWriteEpoch call status
  | helpRead ptr =>
    cases ptr with
    | none =>
      simp only [status, epochStep, Option.some.injEq] at step
      subst step
      exact inv.restatus call (by simp [status, EpochStatus.target]) trivial (noCur nofun)
        (fun _ _ none => by cases none)
    | some p =>
      simp only [status, epochStep] at step
      split at step <;> simp only [Option.some.injEq] at step <;> subst step
      · exact inv.restatus call (by simp [status, EpochStatus.target]) trivial (noCur nofun)
          (fun _ _ none => by cases none)
      · refine inv.restatus call (by simp [status, EpochStatus.target]) ⟨‹_›, by simp⟩
          (noCur nofun) (fun v t settled => ?_)
        simp only [EpochStatus.settled, Option.some.injEq, Prod.mk.injEq] at settled
        exact settled.2.symm
  | linearizeLoad =>
    simp only [status, epochStep, Option.some.injEq] at step
    subst step
    exact inv.restatus call (by simp [status, EpochStatus.target])
      ⟨callOk.invokedEpoch_le, Nat.le_refl _⟩ (noCur nofun) (fun _ _ none => by cases none)
  | linearizeReserve r =>
    -- The reservation made is the epoch read, at least the one at invocation.
    simp only [status, epochStep, Option.some.injEq] at step
    subst step
    have ok := callOk.status_ok
    simp only [status, StatusOk] at ok
    refine (inv.reserve call (by simp [status]) r).restatus call
      (by simp [status, EpochStatus.target]) ?_ (noCur nofun) (fun _ _ none => by cases none)
    simpa [StatusOk] using ok
  | linearizeReload =>
    have ok := callOk.status_ok
    simp only [status, StatusOk] at ok
    simp only [status, epochStep] at step
    split at step <;> simp only [Option.some.injEq] at step <;> subst step
    · exact inv.restatus call (by simp [status, EpochStatus.target])
        ⟨Nat.le_trans ok.1 ok.2, Nat.le_refl _⟩ (noCur nofun) (fun _ _ none => by cases none)
    · refine inv.restatus call (by simp [status, EpochStatus.target]) ?_ (noCur nofun)
        (fun v t settled => ?_)
      · exact ⟨by omega, Nat.le_refl _, by simp⟩
      · simp only [EpochStatus.settled, Option.some.injEq, Prod.mk.injEq] at settled
        exact settled.2.symm
  | committed => simp [status, epochStep] at step
  | linearized => simp [status, epochStep] at step

/-- Every step that leaves the epoch short of wrapping keeps the invariant. -/
theorem step {w' : EpochWorld} (inv : EpochInv w) (step : EpochStep w w') (room : w'.NoWrap) :
    EpochInv w' := by
  cases step with
  | alloc => exact inv.alloc
  | commitWrite p allocated =>
    exact inv.invoke (fun q tgt => by cases tgt; exact allocated) rfl nofun trivial
  | helpCommit ptr allocated => exact inv.invoke allocated rfl nofun trivial
  | startLinearizedOp => exact inv.invoke nofun rfl nofun trivial
  | run id moved => exact inv.runCall moved room

end EpochInv

/-- No step takes back a fetch-add or moves the starting epoch. -/
theorem EpochStep.increments_le {w w' : EpochWorld} (step : EpochStep w w') :
    w.increments ≤ w'.increments ∧ w'.initialEpoch = w.initialEpoch := by
  cases step with
  | run id moved =>
    obtain ⟨c, -, stepped⟩ := Option.bind_eq_some.mp moved
    obtain ⟨w'', step, rfl⟩ := Option.map_eq_some'.mp stepped
    cases status : c.status with
    | helpRead ptr =>
      cases ptr <;> simp only [status, epochStep] at step <;> (try split at step) <;>
        cases step <;> simp
    | linearizeReload =>
      simp only [status, epochStep] at step
      split at step <;> cases step <;> simp
    | _ =>
      simp only [status, epochStep] at step
      cases step <;> simp
  | _ => simp [EpochWorld.mmmAlloc, EpochWorld.invoke]

/-- The invariant holds in every reachable state where the epoch has not wrapped. -/
theorem epochInv_of_reachable {w : EpochWorld} (reach : EpochReachable w) (room : w.NoWrap) :
    EpochInv w := by
  induction reach with
  | init e0 _ => exact EpochInv.init e0
  | step _ step ih =>
    -- The earlier state had made no more fetch-adds, from the same start.
    obtain ⟨fewer, same⟩ := step.increments_le
    exact (ih (by unfold EpochWorld.NoWrap at *; omega)).step step room

/-- A run of the system, step after step. -/
def EpochRun : EpochWorld → EpochWorld → Prop :=
  Relation.ReflTransGen EpochStep

/-- A run from a reachable state stays among reachable states and only adds fetch-adds. -/
theorem EpochRun.reachable {w w' : EpochWorld} (reach : EpochReachable w) (run : EpochRun w w') :
    EpochReachable w' ∧ w.increments ≤ w'.increments ∧ w'.initialEpoch = w.initialEpoch := by
  induction run with
  | refl => exact ⟨reach, Nat.le_refl _, rfl⟩
  | tail _ step ih =>
    obtain ⟨fewer, same⟩ := step.increments_le
    exact ⟨ih.1.step step, Nat.le_trans ih.2.1 fewer, same.trans ih.2.2⟩

/-- A schedule that runs is a run of the system. -/
theorem EpochWorld.exec_run : ∀ {w w' : EpochWorld} (acts : List EpochAction),
    w.exec acts = some w' → EpochRun w w'
  | _, _, [], ran => by cases ran; exact .refl
  | w, _, .alloc :: rest, ran => .head (.alloc w) (exec_run rest ran)
  | w, _, .commitWrite p :: rest, ran => by
    simp only [EpochWorld.exec] at ran
    split at ran
    · exact .head (.commitWrite w p ‹_›) (exec_run rest ran)
    · cases ran
  | w, _, .helpCommit ptr :: rest, ran => by
    simp only [EpochWorld.exec] at ran
    split at ran
    · -- The guard checked the pointer, when not `NULL`, against the records allocated.
      rename_i guard
      refine .head (.helpCommit w ptr fun p named => ?_) (exec_run rest ran)
      subst named
      simpa using guard
    · cases ran
  | w, _, .startLinearizedOp :: rest, ran => .head (.startLinearizedOp w) (exec_run rest ran)
  | w, _, .run id :: rest, ran => by
    obtain ⟨w'', moved, rest_ran⟩ := Option.bind_eq_some.mp ran
    exact .head (.run id moved) (exec_run rest rest_ran)

/-- A schedule run from a reachable state ends in a reachable state. -/
theorem EpochWorld.exec_reachable {w w' : EpochWorld} {acts : List EpochAction}
    (reach : EpochReachable w) (ran : w.exec acts = some w') : EpochReachable w' :=
  (EpochRun.reachable reach (EpochWorld.exec_run acts ran)).1

/-- A stamped record keeps its stamp through any step. -/
theorem EpochStep.stamp_stable {w w' : EpochWorld} (inv : EpochInv w) (step : EpochStep w w')
    {p : Nat} (stamped : w.writeEpoch p ≠ 0) : w'.writeEpoch p = w.writeEpoch p := by
  cases step with
  | alloc =>
    -- The record allocated is unstamped, so it is another one.
    have other : p ≠ w.allocated := fun same => stamped (inv.unallocated_zero p (same ▸ Nat.le_refl _))
    exact writeAt_ne other
  | run id moved =>
    obtain ⟨c, -, stepped⟩ := Option.bind_eq_some.mp moved
    obtain ⟨w'', step, rfl⟩ := Option.map_eq_some'.mp stepped
    cases status : c.status with
    | casWriteEpoch q cur =>
      simp only [status, epochStep, Option.some.injEq] at step
      subst step
      simp only [EpochWorld.setStatus, EpochWorld.casWriteEpoch]
      split
      · exact writeAt_ne fun same => stamped (same ▸ ‹_›)
      · rfl
    | helpRead ptr =>
      cases ptr <;> simp only [status, epochStep] at step <;> (try split at step) <;>
        cases step <;> rfl
    | linearizeReload =>
      simp only [status, epochStep] at step
      split at step <;> cases step <;> rfl
    | _ =>
      simp only [status, epochStep] at step
      cases step <;> rfl
  | _ => rfl

/-- Over any run from a reachable state that leaves the epoch short of wrapping, a record's
`write_epoch` changes at most once, from 0 to a nonzero value; after a commit or help call on a
record returns, the record's `write_epoch` is nonzero and stays so; and no two records share a
nonzero `write_epoch`. -/
theorem commit_stamps_once {w w' : EpochWorld} (reach : EpochReachable w) (run : EpochRun w w')
    (room : w'.NoWrap) :
    (∀ p, w.writeEpoch p ≠ 0 → w'.writeEpoch p = w.writeEpoch p) ∧
    (∀ id c p t, w.calls id = some c → c.status = .committed (some p) t →
      w.writeEpoch p ≠ 0 ∧ w'.writeEpoch p = w.writeEpoch p) ∧
    (∀ p q, w'.writeEpoch p ≠ 0 → w'.writeEpoch p = w'.writeEpoch q → p = q) := by
  -- Every state of the run is reachable and has made no more fetch-adds than the last.
  have stable : ∀ p, w.writeEpoch p ≠ 0 → w'.writeEpoch p = w.writeEpoch p := by
    intro p stamped
    induction run with
    | refl => rfl
    | tail run step ih =>
      obtain ⟨reach', -, -⟩ := EpochRun.reachable reach run
      obtain ⟨fewer, same⟩ := step.increments_le
      have earlier := ih (by unfold EpochWorld.NoWrap at *; omega)
      have inv := epochInv_of_reachable reach' (by unfold EpochWorld.NoWrap at *; omega)
      rw [step.stamp_stable inv (earlier ▸ stamped), earlier]
  obtain ⟨reach', fewer, same⟩ := run.reachable reach
  have inv := epochInv_of_reachable reach (by unfold EpochWorld.NoWrap at *; omega)
  refine ⟨stable, fun id c p t call status => ?_, (epochInv_of_reachable reach' room).stamp_unique⟩
  have ok := (inv.calls_ok id c call).status_ok
  simp only [status, StatusOk] at ok
  exact ⟨ok.1, stable p ok.1⟩

/-- Record 0 is committed by its writer while a helper races it and loses, then record 1 is
committed; the run starts from the state where the writer and the helper are both in flight. -/
def helpedCommitSchedule : List EpochAction :=
  [.alloc, .alloc, .commitWrite 0, .run 0, .helpCommit (some 0), .run 1, .run 1]

/-- The rest of the run: the writer's CAS wins, the helper's loses, and record 1 is committed. -/
def helpedCommitRest : List EpochAction :=
  [.run 0, .run 1, .commitWrite 1, .run 2, .run 2]

/-- On the helped run each record is stamped once, with epochs of its own. -/
theorem helpedCommit_stamps_once :
    ∃ w w', (EpochWorld.init 5).exec helpedCommitSchedule = some w ∧
      w.exec helpedCommitRest = some w' ∧
      (∀ p, w.writeEpoch p ≠ 0 → w'.writeEpoch p = w.writeEpoch p) ∧
      (∀ id c p t, w.calls id = some c → c.status = .committed (some p) t →
        w.writeEpoch p ≠ 0 ∧ w'.writeEpoch p = w.writeEpoch p) ∧
      (∀ p q, w'.writeEpoch p ≠ 0 → w'.writeEpoch p = w'.writeEpoch q → p = q) :=
  ⟨_, _, rfl, rfl, commit_stamps_once
    (@EpochWorld.exec_reachable _ _ helpedCommitSchedule (.init 5 (by decide)) rfl)
    (EpochWorld.exec_run helpedCommitRest rfl) (by decide)⟩

/-- A reader that got epoch `e` from `mmm_start_linearized_op` sees as committed (a stamp at
most `e`) every record whose commit or help call returned before the reader was invoked, and as
not yet committed (a stamp above `e`, once stamped) every record whose commit and help calls were
all invoked after the reader returned. -/
theorem linearized_epoch_separates {w : EpochWorld} (reach : EpochReachable w) (room : w.NoWrap)
    {lin : Nat} {reader : EpochCall} {e tr : Nat} (found : w.calls lin = some reader)
    (returned : reader.status = .linearized e tr) :
    (∀ id c p t, w.calls id = some c → c.status = .committed (some p) t → t < reader.invokedAt →
      w.writeEpoch p ≤ e) ∧
    (∀ p, (∀ id c, w.calls id = some c → c.status.target = some p → tr < c.invokedAt) →
      w.writeEpoch p ≠ 0 → e < w.writeEpoch p) := by
  have inv := epochInv_of_reachable reach room
  have ok := (inv.calls_ok lin reader found).status_ok
  simp only [returned, StatusOk] at ok
  refine ⟨fun id c p t call status before => ?_, fun p later stamped => ?_⟩
  · -- The reader was invoked after the return, at an epoch no smaller than the stamp.
    have := inv.settled_before id c (w.writeEpoch p) t lin reader call
      (by simp [status, EpochStatus.settled]) found before
    omega
  · -- The stamp exceeds the epoch at which the stamping call was invoked, after the reader.
    obtain ⟨k, ck, call, target, lt⟩ := inv.stamp_origin p stamped
    have := inv.settled_before lin reader e tr k ck found
      (by simp [returned, EpochStatus.settled]) call (later k ck call target)
    omega

/-- A writer commits record 0; a reader then gets epoch 6; a second writer, invoked after the
reader returned, commits record 1. -/
def readerSchedule : List EpochAction :=
  [.alloc, .alloc, .commitWrite 0, .run 0, .run 0, .startLinearizedOp, .run 1, .run 1, .run 1,
    .commitWrite 1, .run 2, .run 2]

/-- On the reader run, epoch 6 separates record 0, committed before the reader, from record 1,
committed after it. -/
theorem readerRun_separates :
    ∃ w reader, (EpochWorld.init 5).exec readerSchedule = some w ∧ w.calls 1 = some reader ∧
      reader.status = .linearized 6 8 ∧
      (∀ id c p t, w.calls id = some c → c.status = .committed (some p) t →
        t < reader.invokedAt → w.writeEpoch p ≤ 6) ∧
      (∀ p, (∀ id c, w.calls id = some c → c.status.target = some p → 8 < c.invokedAt) →
        w.writeEpoch p ≠ 0 → 6 < w.writeEpoch p) :=
  ⟨_, _, rfl, rfl, rfl, @linearized_epoch_separates _
    (@EpochWorld.exec_reachable _ _ readerSchedule (.init 5 (by decide)) rfl) (by decide) 1 _ 6 8
    rfl rfl⟩

end Hatrack
