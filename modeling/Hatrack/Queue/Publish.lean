import Hatrack.Queue.Chain

/-! Published segments: the first segment and every successor a `next` pointer names. Each
allocated segment is published, or private to the enqueuer about to link it, or freed unpublished;
the retired segments are the chain up to the dequeue segment. -/

namespace Hatrack

variable {α : Type}

/-- Segment `n` is published: the first segment, or the successor some segment's `next` names. -/
def Published (w : World α) (n : Nat) : Prop :=
  n = 0 ∨ ∃ m, (w.segs m).next = some n

/-- Following `next` from `a` through the segments of `path`, in order, leads to `b`. -/
inductive SegPath (segs : Nat → QueueSegment α) : Nat → Nat → List Nat → Prop where
  /-- The empty path stays put. -/
  | nil (a : Nat) : SegPath segs a a []
  /-- One more segment before the rest of the path. -/
  | cons {a b c : Nat} {rest : List Nat} :
      (segs a).next = some b → SegPath segs b c rest → SegPath segs a c (a :: rest)

/-- The segment a call holds privately: an enqueuer's new segment until its `next` CAS
(line 218) decides whether it is linked or freed. -/
def CallStatus.privateSegment : CallStatus α → Option Nat
  | .enqueuing f => if f.pc = .casNext then some f.newSegment else none
  | _ => none

/-- What a call's locals say about the segment heap, by the line it stands at. -/
def SegCallOk (w : World α) (id : Nat) : CallStatus α → Prop
  | .enqueuing f =>
    (f.pc ≠ .readSegments → Published w f.segment) ∧
    (f.pc = .allocSegment → 0 < f.newSize) ∧
    (f.pc = .casNext → ¬ Published w f.newSegment ∧ f.newSegment ∉ w.freed ∧
      w.segs f.newSegment = enqueueSuccessor f id ∧ 0 < f.newSize) ∧
    (f.pc = .casSegments → (w.segs f.segment).next = some f.newSegment)
  | .dequeuing f =>
    (f.pc ≠ .readSegments → Published w f.segment ∧ f.segments.dequeueSegment = f.segment) ∧
    (f.pc = .casSegments → (w.segs f.segment).next = some f.newSegment)
  | _ => True

/-- Call `id` holds segment `n` privately. -/
def OwnsPrivate (w : World α) (id n : Nat) : Prop :=
  ∃ c, w.calls id = some c ∧ c.status.privateSegment = some n

/-- The invariant of the segment heap. -/
structure SegInv (w : World α) : Prop where
  enqueue_published : Published w w.queue.segments.enqueueSegment
  dequeue_published : Published w w.queue.segments.dequeueSegment
  next_published : ∀ m n, (w.segs m).next = some n → Published w m
  size_pos : ∀ n, Published w n → 0 < (w.segs n).size
  default_pos : 0 < w.queue.defaultSegmentSize
  freed_unpublished : ∀ n ∈ w.freed, ¬ Published w n ∧ n < w.allocated
  freed_nodup : w.freed.Nodup
  retired_path : SegPath w.segs 0 w.queue.segments.dequeueSegment w.retired
  allocated_cover : ∀ n < w.allocated, Published w n ∨ n ∈ w.freed ∨ ∃ id, OwnsPrivate w id n
  private_unique : ∀ id id' n, OwnsPrivate w id n → OwnsPrivate w id' n → id = id'
  calls_ok : ∀ id c, w.calls id = some c → SegCallOk w id c.status

section Published

variable {w w' : World α} {n k : Nat} {seg : QueueSegment α}

/-- Published segments are determined by the `next` pointers. -/
theorem published_congr (same : ∀ a, (w'.segs a).next = (w.segs a).next) :
    Published w' k ↔ Published w k := by
  simp only [Published, same]

/-- A successor some `next` names is published. -/
theorem published_of_next {m : Nat} (linked : (w.segs m).next = some n) : Published w n :=
  .inr ⟨m, linked⟩

/-- Rewriting a segment but not its `next` pointer leaves every `next` pointer as it was. -/
theorem setSeg_next (same : seg.next = (w.segs n).next) (a : Nat) :
    ((w.setSeg n seg).segs a).next = (w.segs a).next := by
  simp only [World.setSeg, writeAt_apply]
  split
  · subst a; exact same
  · rfl

/-- Rewriting a segment but not its `next` pointer publishes nothing new. -/
theorem published_setSeg (same : seg.next = (w.segs n).next) :
    Published (w.setSeg n seg) k ↔ Published w k :=
  published_congr (setSeg_next same)

/-- Rewriting the indices or cells of a segment publishes nothing new. -/
theorem published_rewriteSeg {e d : Nat} {cells : Nat → QueueItem α} :
    Published (w.setSeg n { w.segs n with enqueueIndex := e, dequeueIndex := d, cells }) k ↔
      Published w k :=
  published_setSeg rfl

/-- Linking segment `m` after a segment with no successor publishes `m` and nothing else. -/
theorem published_link (free : (w.segs n).next = none) {m : Nat} :
    Published (w.setSeg n { w.segs n with next := some m }) k ↔ Published w k ∨ k = m := by
  unfold Published
  simp only [World.setSeg, writeAt_apply]
  constructor
  · rintro (zero | ⟨j, linked⟩)
    · exact .inl (.inl zero)
    · split at linked
      · exact .inr (Option.some.inj linked).symm
      · exact .inl (.inr ⟨j, linked⟩)
  · rintro ((zero | ⟨j, linked⟩) | rfl)
    · exact .inl zero
    · refine .inr ⟨j, ?_⟩
      split
      · subst j; rw [free] at linked; cases linked
      · exact linked
    · exact .inr ⟨n, by simp⟩

/-- A path survives any change that keeps the links it follows. -/
theorem SegPath.mono {segs segs' : Nat → QueueSegment α}
    (stays : ∀ a b, (segs a).next = some b → (segs' a).next = some b)
    {a b : Nat} {path : List Nat} (walk : SegPath segs a b path) : SegPath segs' a b path := by
  induction walk with
  | nil a => exact .nil a
  | cons linked _ ih => exact .cons (stays _ _ linked) ih

/-- A path extends by the successor of its end. -/
theorem SegPath.snoc {segs : Nat → QueueSegment α} {a b c : Nat} {path : List Nat}
    (walk : SegPath segs a b path) (linked : (segs b).next = some c) :
    SegPath segs a c (path ++ [b]) := by
  induction walk with
  | nil a => exact .cons linked (.nil c)
  | cons step _ ih => exact .cons step (ih linked)

end Published

section Ownership

variable {w : World α} {id : Nat} {c : Call α} {s : CallStatus α}

/-- Only an enqueuer about to link owns a segment. -/
theorem privateSegment_enqueuing {f : EnqueueFrame α} (plain : f.pc ≠ .casNext) :
    (CallStatus.enqueuing f).privateSegment = none := by
  simp [CallStatus.privateSegment, plain]

/-- After call `id` changes status, it owns what its new status holds; every other call owns what
it owned. -/
theorem ownsPrivate_setStatus_iff (call : w.calls id = some c) {k n : Nat} :
    OwnsPrivate (w.setStatus id s) k n ↔ if k = id then s.privateSegment = some n
      else OwnsPrivate w k n := by
  unfold OwnsPrivate
  simp only [World.setStatus, writeAt_apply]
  split
  · simp [call]
  · exact Iff.rfl

/-- A call's new status that keeps what it holds privately moves no ownership. -/
theorem ownsPrivate_setStatus (call : w.calls id = some c)
    (keeps : s.privateSegment = c.status.privateSegment) {k n : Nat} :
    OwnsPrivate (w.setStatus id s) k n ↔ OwnsPrivate w k n := by
  rw [ownsPrivate_setStatus_iff call]
  split
  · subst k; simp [OwnsPrivate, call, keeps]
  · exact Iff.rfl

/-- A call whose new status holds nothing owns nothing, and every other call owns what it owned. -/
theorem ownsPrivate_setStatus_of_none {k n : Nat} (owns : OwnsPrivate (w.setStatus id s) k n)
    (call : w.calls id = some c) (holds : s.privateSegment = none) :
    k ≠ id ∧ OwnsPrivate w k n := by
  rw [ownsPrivate_setStatus_iff call] at owns
  split at owns
  · rw [holds] at owns; cases owns
  · exact ⟨‹_›, owns⟩

/-- A change of call `id`'s status leaves what the other calls own. -/
theorem ownsPrivate_setStatus_of_ne (call : w.calls id = some c) {k n : Nat} (other : k ≠ id)
    (owns : OwnsPrivate w k n) : OwnsPrivate (w.setStatus id s) k n := by
  rw [ownsPrivate_setStatus_iff call, if_neg other]
  exact owns

/-- What an enqueuer at the `next` CAS owns is the segment it allocated. -/
theorem ownsPrivate_casNext {f : EnqueueFrame α} (call : w.calls id = some c)
    (status : c.status = .enqueuing f) (pc : f.pc = .casNext) {n : Nat}
    (owns : OwnsPrivate w id n) : n = f.newSegment := by
  obtain ⟨c', call', held⟩ := owns
  rw [call] at call'
  cases call'
  simp only [status, CallStatus.privateSegment, pc, if_pos] at held
  exact (Option.some.inj held).symm

/-- A call's locals stay sound in a heap that publishes no fewer segments, drops no link, and
leaves the call's private segment unpublished, unfreed and as it was. -/
theorem SegCallOk.transfer {w' : World α} (ok : SegCallOk w id s)
    (pubMono : ∀ n, Published w n → Published w' n)
    (nextStays : ∀ a b, (w.segs a).next = some b → (w'.segs a).next = some b)
    (privateStays : ∀ n, s.privateSegment = some n →
      ¬ Published w' n ∧ (n ∈ w'.freed → n ∈ w.freed) ∧ w'.segs n = w.segs n) :
    SegCallOk w' id s := by
  cases s with
  | enqueuing f =>
    obtain ⟨onChain, sized, held, linked⟩ := ok
    refine ⟨fun pc => pubMono _ (onChain pc), sized, fun pc => ?_,
      fun pc => nextStays _ _ (linked pc)⟩
    obtain ⟨unpublished, notFreed, shape, pos⟩ := held pc
    obtain ⟨unpublished', freed', same⟩ :=
      privateStays f.newSegment (by simp [CallStatus.privateSegment, pc])
    exact ⟨unpublished', fun mem => notFreed (freed' mem), same ▸ shape, pos⟩
  | dequeuing f =>
    exact ⟨fun pc => ⟨pubMono _ (ok.1 pc).1, (ok.1 pc).2⟩, fun pc => nextStays _ _ (ok.2 pc)⟩
  | _ => trivial

/-- A private segment is not published. -/
theorem SegInv.private_unpublished (inv : SegInv w) {n : Nat} (owns : OwnsPrivate w id n) :
    ¬ Published w n := by
  obtain ⟨c, call, held⟩ := owns
  have ok := inv.calls_ok id c call
  cases status : c.status with
  | enqueuing f =>
    simp only [status, CallStatus.privateSegment] at held ok
    split at held
    · cases held
      exact (ok.2.2.1 ‹_›).1
    · cases held
  | _ => simp [status, CallStatus.privateSegment] at held

/-- A private segment has been allocated. -/
theorem ChainInv.private_lt (chain : ChainInv w) {n : Nat} (owns : OwnsPrivate w id n) :
    n < w.allocated := by
  obtain ⟨c, call, held⟩ := owns
  have bounds := chain.calls_lt id c call
  cases status : c.status with
  | enqueuing f =>
    simp only [status, CallStatus.privateSegment] at held bounds
    split at held
    · cases held
      exact bounds.2.1
    · cases held
  | _ => simp [status, CallStatus.privateSegment] at held

end Ownership

section Restatus

variable {w : World α} {id : Nat} {c : Call α} {s : CallStatus α}

/-- A call moving to a line whose locals are sound, holding what it held, keeps the invariant. -/
theorem SegInv.restatus (inv : SegInv w) (call : w.calls id = some c) (ok : SegCallOk w id s)
    (keeps : s.privateSegment = c.status.privateSegment) : SegInv (w.setStatus id s) := by
  have owns := fun {k n : Nat} => ownsPrivate_setStatus (k := k) (n := n) call keeps
  refine ⟨inv.enqueue_published, inv.dequeue_published, inv.next_published, inv.size_pos,
    inv.default_pos, inv.freed_unpublished, inv.freed_nodup, inv.retired_path,
    fun n below => ?_, fun k k' n mine theirs => inv.private_unique k k' n (owns.mp mine)
      (owns.mp theirs), fun k ck found => ?_⟩
  · rcases inv.allocated_cover n below with published | freed | ⟨k, mine⟩
    · exact .inl published
    · exact .inr (.inl freed)
    · exact .inr (.inr ⟨k, owns.mpr mine⟩)
  · rw [World.setStatus_calls call] at found
    split at found
    · subst k; cases found; exact ok
    · exact inv.calls_ok k ck found

/-- The clock plays no part in the invariant. -/
theorem SegInv.tick (inv : SegInv w) : SegInv w.tick :=
  ⟨inv.enqueue_published, inv.dequeue_published, inv.next_published, inv.size_pos,
    inv.default_pos, inv.freed_unpublished, inv.freed_nodup, inv.retired_path,
    inv.allocated_cover, inv.private_unique, inv.calls_ok⟩

end Restatus

section SharedUpdates

variable {w : World α}

/-- Rewriting a published segment's indices or cells keeps the invariant. -/
theorem SegInv.setSeg (inv : SegInv w) {n : Nat} {seg : QueueSegment α}
    (published : Published w n) (sameNext : seg.next = (w.segs n).next)
    (sameSize : seg.size = (w.segs n).size) : SegInv (w.setSeg n seg) := by
  have nexts := setSeg_next (w := w) sameNext
  have pub := fun {k : Nat} => published_setSeg (k := k) sameNext
  have stays : ∀ a b, (w.segs a).next = some b → ((w.setSeg n seg).segs a).next = some b :=
    fun a b linked => (nexts a).trans linked
  -- Private segments are unpublished, so none of them is `n`.
  have others : ∀ k m, OwnsPrivate w k m → (w.setSeg n seg).segs m = w.segs m := fun k m owns =>
    writeAt_ne fun same => inv.private_unpublished owns (same ▸ published)
  refine ⟨pub.mpr inv.enqueue_published, pub.mpr inv.dequeue_published,
    fun m j linked => pub.mpr (inv.next_published m j ((nexts m).symm.trans linked)),
    fun k pk => ?_, inv.default_pos,
    fun k freed => ⟨fun p => (inv.freed_unpublished k freed).1 (pub.mp p),
      (inv.freed_unpublished k freed).2⟩,
    inv.freed_nodup, inv.retired_path.mono stays, fun k below => ?_, inv.private_unique,
    fun k ck found => (inv.calls_ok k ck found).transfer (fun _ p => pub.mpr p) stays
      fun m held => ?_⟩
  · simp only [World.setSeg, writeAt_apply]
    split
    · subst k; rw [sameSize]; exact inv.size_pos _ (pub.mp pk)
    · exact inv.size_pos k (pub.mp pk)
  · rcases inv.allocated_cover k below with published | freed | owns
    · exact .inl (pub.mpr published)
    · exact .inr (.inl freed)
    · exact .inr (.inr owns)
  · have owns : OwnsPrivate w k m := ⟨ck, found, held⟩
    exact ⟨fun p => inv.private_unpublished owns (pub.mp p), id, others k m owns⟩

/-- Rewriting the indices or cells of a published segment keeps the invariant. -/
theorem SegInv.rewriteSeg (inv : SegInv w) {n : Nat} (published : Published w n)
    (enqueueIndex dequeueIndex : Nat) (cells : Nat → QueueItem α) :
    SegInv (w.setSeg n { w.segs n with enqueueIndex, dequeueIndex, cells }) :=
  inv.setSeg published rfl rfl

/-- Updating the counters of the queue record keeps the invariant. -/
theorem SegInv.setCounters (inv : SegInv w) (helpNeeded len : Int) :
    SegInv { w with queue := { w.queue with helpNeeded := helpNeeded, len := len } } :=
  ⟨inv.enqueue_published, inv.dequeue_published, inv.next_published, inv.size_pos,
    inv.default_pos, inv.freed_unpublished, inv.freed_nodup, inv.retired_path,
    inv.allocated_cover, inv.private_unique, inv.calls_ok⟩

/-- The claim log plays no part in the invariant. -/
theorem SegInv.setClaims (inv : SegInv w) (claims : List Claim) :
    SegInv { w with claims := claims } :=
  ⟨inv.enqueue_published, inv.dequeue_published, inv.next_published, inv.size_pos,
    inv.default_pos, inv.freed_unpublished, inv.freed_nodup, inv.retired_path,
    inv.allocated_cover, inv.private_unique, inv.calls_ok⟩

/-- Making a published segment the enqueue segment, with the dequeue segment unchanged, keeps the
invariant. -/
theorem SegInv.swingEnqueue (inv : SegInv w) {m : Nat} (published : Published w m) :
    SegInv { w with queue := { w.queue with
      segments := ⟨m, w.queue.segments.dequeueSegment⟩ } } :=
  ⟨published, inv.dequeue_published, inv.next_published, inv.size_pos, inv.default_pos,
    inv.freed_unpublished, inv.freed_nodup, inv.retired_path, inv.allocated_cover,
    inv.private_unique, inv.calls_ok⟩

/-- Moving the dequeue segment to its successor and retiring it keeps the invariant. -/
theorem SegInv.advanceDequeue (inv : SegInv w) {m : Nat}
    (linked : (w.segs w.queue.segments.dequeueSegment).next = some m) :
    SegInv { w with
      queue := { w.queue with segments := ⟨w.queue.segments.enqueueSegment, m⟩ }
      retired := w.retired ++ [w.queue.segments.dequeueSegment] } :=
  ⟨inv.enqueue_published, published_of_next linked, inv.next_published, inv.size_pos,
    inv.default_pos, inv.freed_unpublished, inv.freed_nodup, inv.retired_path.snoc linked,
    inv.allocated_cover, inv.private_unique, inv.calls_ok⟩

end SharedUpdates

section Successor

variable {w : World α} {id : Nat} {c : Call α} {f : EnqueueFrame α}

/-- Nothing links to the segment allocated next, and a fresh segment links nowhere. -/
theorem ChainInv.alloc_next (chain : ChainInv w) (seg : QueueSegment α) (fresh : seg.next = none)
    (a : Nat) : (writeAt w.segs w.allocated seg a).next = (w.segs a).next := by
  rw [writeAt_apply]
  split
  · subst a
    cases linked : (w.segs w.allocated).next with
    | none => exact fresh
    | some j => exact absurd (chain.next_lt _ j linked) (by omega)
  · rfl

/-- The segment allocated next is not published. -/
theorem ChainInv.fresh_unpublished (chain : ChainInv w) : ¬ Published w w.allocated := by
  rintro (zero | ⟨m, linked⟩)
  · have := chain.enqueue_lt; omega
  · have := chain.next_lt m _ linked; omega

/-- Allocating the successor (lines 211 to 215) hands it privately to the allocating call. -/
theorem SegInv.alloc (inv : SegInv w) (chain : ChainInv w) (call : w.calls id = some c)
    (status : c.status = .enqueuing f) (pc : f.pc = .allocSegment) :
    SegInv ({ w with
      segs := writeAt w.segs w.allocated (enqueueSuccessor f id)
      allocated := w.allocated + 1 }.setStatus id
      (.enqueuing { f with newSegment := w.allocated, pc := .casNext })) := by
  have ok : SegCallOk w id (.enqueuing f) := status ▸ inv.calls_ok id c call
  have nexts := chain.alloc_next (enqueueSuccessor f id) rfl
  have pub : ∀ {k : Nat}, Published { w with
      segs := writeAt w.segs w.allocated (enqueueSuccessor f id) } k ↔ Published w k :=
    published_congr nexts
  have fresh := chain.fresh_unpublished
  have old : ∀ n, n ≠ w.allocated →
      writeAt w.segs w.allocated (enqueueSuccessor f id) n = w.segs n := fun n => writeAt_ne
  have owns := fun {k n : Nat} => ownsPrivate_setStatus_iff (k := k) (n := n)
    (w := { w with segs := writeAt w.segs w.allocated (enqueueSuccessor f id)
                   allocated := w.allocated + 1 })
    (s := .enqueuing { f with newSegment := w.allocated, pc := .casNext }) call
  have before : ∀ k n, OwnsPrivate w k n → k ≠ id ∧ n < w.allocated := fun k n mine =>
    ⟨fun same => by
      obtain ⟨c', call', held⟩ := mine
      rw [same, call] at call'
      cases call'
      simp [status, CallStatus.privateSegment, pc] at held,
     chain.private_lt mine⟩
  refine ⟨pub.mpr inv.enqueue_published, pub.mpr inv.dequeue_published,
    fun m j linked => pub.mpr (inv.next_published m j ((nexts m).symm.trans linked)),
    fun k pk => ?_, inv.default_pos,
    fun k freed => ⟨fun p => (inv.freed_unpublished k freed).1 (pub.mp p),
      Nat.lt_succ_of_lt (inv.freed_unpublished k freed).2⟩,
    inv.freed_nodup, inv.retired_path.mono fun a b linked => (nexts a).trans linked,
    fun n below => ?_, fun k k' n mine theirs => ?_, fun k ck found => ?_⟩
  · -- A published segment is an old one.
    have published := pub.mp pk
    show 0 < (writeAt w.segs w.allocated (enqueueSuccessor f id) k).size
    rw [old k fun same => fresh (same ▸ published)]
    exact inv.size_pos k published
  · by_cases same : n = w.allocated
    · exact .inr (.inr ⟨id, owns.mpr (by simp [CallStatus.privateSegment, same])⟩)
    · have below : n < w.allocated + 1 := below
      rcases inv.allocated_cover n (by omega) with published | freed | ⟨k, mine⟩
      · exact .inl (pub.mpr published)
      · exact .inr (.inl freed)
      · exact .inr (.inr ⟨k, ownsPrivate_setStatus_of_ne call (before k n mine).1 mine⟩)
  · -- The fresh segment is the mover's alone; every older one keeps its owner.
    have mine := owns.mp mine
    have theirs := owns.mp theirs
    split at mine <;> split at theirs
    · subst k k'; rfl
    · have fresh : w.allocated = n := Option.some.inj mine
      exact absurd ((before k' n theirs).2) (by omega)
    · have fresh : w.allocated = n := Option.some.inj theirs
      exact absurd ((before k n mine).2) (by omega)
    · exact inv.private_unique k k' n mine theirs
  · simp only [World.setStatus, writeAt_apply] at found
    split at found
    · -- The mover now holds the fresh segment, exactly as it allocated it.
      subst k
      simp only [call, Option.map_some', Option.some.injEq] at found
      subst found
      obtain ⟨onChain, sized, -, -⟩ := ok
      refine ⟨fun _ => pub.mpr (onChain (by simp [pc])), nofun, fun _ => ?_, nofun⟩
      exact ⟨fun p => fresh (pub.mp p),
        fun mem => absurd (inv.freed_unpublished _ mem).2 (Nat.lt_irrefl _),
        writeAt_same, sized pc⟩
    · refine (inv.calls_ok k ck found).transfer (fun _ p => pub.mpr p)
        (fun a b linked => (nexts a).trans linked) fun n held => ?_
      have mine := before k n ⟨ck, found, held⟩
      exact ⟨fun p => inv.private_unpublished ⟨ck, found, held⟩ (pub.mp p), fun mem => mem,
        old n (by omega)⟩

/-- Winning the CAS of line 218 publishes the mover's private segment after its segment. -/
theorem SegInv.link (inv : SegInv w) (call : w.calls id = some c)
    (status : c.status = .enqueuing f) (pc : f.pc = .casNext)
    (free : (w.segs f.segment).next = none) :
    SegInv ((w.setSeg f.segment { w.segs f.segment with next := some f.newSegment }).setStatus id
      (.enqueuing { f with
        needToEnqueue := false, placed := ⟨f.newSegment, 0⟩, pc := .casSegments })) := by
  have ok : SegCallOk w id (.enqueuing f) := status ▸ inv.calls_ok id c call
  obtain ⟨onChain, -, held, -⟩ := ok
  have segPublished := onChain (by simp [pc])
  obtain ⟨unpublished, notFreed, shape, pos⟩ := held pc
  have pub := fun {k : Nat} => published_link (w := w) (k := k) (m := f.newSegment) free
  have mover : ∀ n, OwnsPrivate w id n → n = f.newSegment := fun n =>
    ownsPrivate_casNext call status pc
  have stays : ∀ a b, (w.segs a).next = some b →
      ((w.setSeg f.segment { w.segs f.segment with next := some f.newSegment }).segs a).next =
        some b := fun a b linked => by
    simp only [World.setSeg, writeAt_apply]
    split
    · subst a; rw [free] at linked; cases linked
    · exact linked
  refine ⟨pub.mpr (.inl inv.enqueue_published), pub.mpr (.inl inv.dequeue_published),
    fun m j linked => ?_, fun k pk => ?_, inv.default_pos,
    fun k freed => ⟨fun p => (pub.mp p).elim (inv.freed_unpublished k freed).1
      fun same => notFreed (same ▸ freed), (inv.freed_unpublished k freed).2⟩,
    inv.freed_nodup, inv.retired_path.mono stays, fun n below => ?_,
    fun k k' n mine theirs => inv.private_unique k k' n
      (ownsPrivate_setStatus_of_none mine call (privateSegment_enqueuing nofun)).2
      (ownsPrivate_setStatus_of_none theirs call (privateSegment_enqueuing nofun)).2,
    fun k ck found => ?_⟩
  · -- Only the mover's segment gained a link, and it is published.
    simp only [World.setStatus, World.setSeg, writeAt_apply] at linked
    split at linked
    · subst m; exact pub.mpr (.inl segPublished)
    · exact pub.mpr (.inl (inv.next_published m j linked))
  · -- The linked segment was built with a positive size; the others kept theirs.
    simp only [World.setStatus, World.setSeg, writeAt_apply]
    split
    · subst k; exact inv.size_pos _ segPublished
    · rcases pub.mp pk with published | rfl
      · exact inv.size_pos k published
      · rw [shape]; exact pos
  · rcases inv.allocated_cover n below with published | freed | ⟨k, mine⟩
    · exact .inl (pub.mpr (.inl published))
    · exact .inr (.inl freed)
    · by_cases same : k = id
      · subst k; exact .inl (pub.mpr (.inr (mover n mine)))
      · exact .inr (.inr ⟨k, ownsPrivate_setStatus_of_ne call same mine⟩)
  · simp only [World.setStatus, World.setSeg, writeAt_apply] at found
    split at found
    · -- The mover now points at the segment it linked.
      subst k
      simp only [call, Option.map_some', Option.some.injEq] at found
      subst found
      refine ⟨fun _ => pub.mpr (.inl segPublished), nofun, nofun, fun _ => ?_⟩
      show (writeAt w.segs f.segment _ f.segment).next = some f.newSegment
      rw [writeAt_same]
    · refine (inv.calls_ok k ck found).transfer (fun _ p => pub.mpr (.inl p)) stays
        fun n held => ?_
      have owns : OwnsPrivate w k n := ⟨ck, found, held⟩
      have other : n ≠ f.newSegment := fun same =>
        ‹¬k = id› (inv.private_unique k id n owns
          ⟨c, call, by simp [status, CallStatus.privateSegment, pc, same]⟩)
      have unpub := inv.private_unpublished owns
      exact ⟨fun p => (pub.mp p).elim unpub other, fun mem => mem,
        writeAt_ne fun same => unpub (same ▸ segPublished)⟩

/-- Losing the CAS of line 218 frees the mover's private segment unpublished (line 223). -/
theorem SegInv.free (inv : SegInv w) (chain : ChainInv w) (call : w.calls id = some c)
    (status : c.status = .enqueuing f) (pc : f.pc = .casNext) {winner : Nat}
    (taken : (w.segs f.segment).next = some winner) :
    SegInv ({ w with freed := w.freed ++ [f.newSegment] }.setStatus id
      (.enqueuing { f with newSegment := winner, needToEnqueue := true, pc := .casSegments })) := by
  have ok : SegCallOk w id (.enqueuing f) := status ▸ inv.calls_ok id c call
  obtain ⟨onChain, -, held, -⟩ := ok
  obtain ⟨unpublished, notFreed, -, -⟩ := held pc
  have mine : OwnsPrivate w id f.newSegment :=
    ⟨c, call, by simp [status, CallStatus.privateSegment, pc]⟩
  refine ⟨inv.enqueue_published, inv.dequeue_published, inv.next_published, inv.size_pos,
    inv.default_pos, fun k freed => ?_, ?_, inv.retired_path, fun n below => ?_,
    fun k k' n mine theirs => inv.private_unique k k' n
      (ownsPrivate_setStatus_of_none mine call (privateSegment_enqueuing nofun)).2
      (ownsPrivate_setStatus_of_none theirs call (privateSegment_enqueuing nofun)).2,
    fun k ck found => ?_⟩
  · rcases List.mem_append.mp freed with old | fresh
    · exact inv.freed_unpublished k old
    · rw [List.mem_singleton.mp fresh]; exact ⟨unpublished, chain.private_lt mine⟩
  · refine List.pairwise_append.mpr ⟨inv.freed_nodup, List.pairwise_singleton _ _, ?_⟩
    intro a old b fresh same
    rw [List.mem_singleton.mp fresh] at same
    exact notFreed (same ▸ old)
  · rcases inv.allocated_cover n below with published | freed | ⟨k, theirs⟩
    · exact .inl published
    · exact .inr (.inl (List.mem_append_left _ freed))
    · by_cases same : k = id
      · subst k
        rw [ownsPrivate_casNext call status pc theirs]
        exact .inr (.inl (List.mem_append_right _ (List.mem_singleton_self _)))
      · exact .inr (.inr ⟨k, ownsPrivate_setStatus_of_ne call same theirs⟩)
  · simp only [World.setStatus, writeAt_apply] at found
    split at found
    · -- The mover adopts the winner's segment.
      subst k
      simp only [call, Option.map_some', Option.some.injEq] at found
      subst found
      exact ⟨fun _ => onChain (by simp [pc]), nofun, nofun, fun _ => taken⟩
    · refine (inv.calls_ok k ck found).transfer (fun _ p => p) (fun _ _ linked => linked)
        fun n held => ?_
      have owns : OwnsPrivate w k n := ⟨ck, found, held⟩
      refine ⟨inv.private_unpublished owns, fun mem => ?_, rfl⟩
      rcases List.mem_append.mp mem with old | fresh
      · exact old
      · rw [List.mem_singleton.mp fresh] at owns
        exact absurd (inv.private_unique k id _ owns mine) ‹_›

end Successor

section Steps

variable {w : World α} {id : Nat} {c : Call α}

/-- Lines at which an enqueuer neither allocates, links nor swings the segment pointers. -/
def EnqueuePc.plain : EnqueuePc → Bool
  | .allocSegment | .casNext | .casSegments => false
  | _ => true

/-- At a plain line an enqueuer's locals are sound once its segment is published. -/
theorem segCallOk_plain {g : EnqueueFrame α} (published : Published w g.segment)
    (plain : g.pc.plain = true) : SegCallOk w id (.enqueuing g) := by
  refine ⟨fun _ => published, fun pc => ?_, fun pc => ?_, fun pc => ?_⟩ <;>
    simp [pc, EnqueuePc.plain] at plain

/-- The lines a fetch-add leads to are plain. -/
theorem afterFetch_plain (cfg : QueueConfig) (f : EnqueueFrame α) :
    (f.afterFetch cfg).pc.plain = true := by
  simp only [EnqueueFrame.afterFetch]
  split_ifs <;> rfl

/-- The lines a written cell leads to are plain. -/
theorem afterWrite_plain (f : EnqueueFrame α) : f.afterWrite.pc.plain = true := by
  simp only [EnqueueFrame.afterWrite]
  split_ifs <;> rfl

/-- The lines after the pointer CAS loop are plain. -/
theorem afterLink_plain (f : EnqueueFrame α) : f.afterLink.pc.plain = true := by
  simp only [EnqueueFrame.afterLink]
  split_ifs <;> rfl

/-- After the pointer CAS loop the call works in the segment it linked or adopted, or its own. -/
theorem afterLink_published {f : EnqueueFrame α} (own : Published w f.segment)
    (adopted : Published w f.newSegment) : Published w f.afterLink.segment := by
  simp only [EnqueueFrame.afterLink]
  split <;> assumption

/-- An enqueuer holding nothing that moves to sound locals holding nothing keeps the invariant. -/
theorem SegInv.moveEnqueuer (inv : SegInv w) (call : w.calls id = some c) {f g : EnqueueFrame α}
    (status : c.status = .enqueuing f) (was : f.pc ≠ .casNext) (ok : SegCallOk w id (.enqueuing g))
    (plain : g.pc ≠ .casNext) : SegInv (w.setStatus id (.enqueuing g)) :=
  inv.restatus call ok
    (by rw [status, privateSegment_enqueuing plain, privateSegment_enqueuing was])

/-- An enqueuer holding nothing that moves to a plain line in a published segment keeps the
invariant. -/
theorem SegInv.movePlain (inv : SegInv w) (call : w.calls id = some c) {f g : EnqueueFrame α}
    (status : c.status = .enqueuing f) (was : f.pc ≠ .casNext) (published : Published w g.segment)
    (plain : g.pc.plain = true) : SegInv (w.setStatus id (.enqueuing g)) :=
  inv.moveEnqueuer call status was (segCallOk_plain published plain) fun pc => by
    rw [pc] at plain; cases plain

/-- A dequeuer moving to sound locals keeps the invariant. -/
theorem SegInv.moveDequeuer (inv : SegInv w) (call : w.calls id = some c) {f g : DequeueFrame α}
    (status : c.status = .dequeuing f) (published : Published w g.segment)
    (agree : g.segments.dequeueSegment = g.segment)
    (linked : g.pc = .casSegments → (w.segs g.segment).next = some g.newSegment) :
    SegInv (w.setStatus id (.dequeuing g)) :=
  inv.restatus call ⟨fun _ => ⟨published, agree⟩, linked⟩ (by rw [status]; rfl)

/-- A call holding nothing that returns keeps the invariant. -/
theorem SegInv.returns (inv : SegInv w) (call : w.calls id = some c)
    (was : c.status.privateSegment = none) {s : CallStatus α} (returned : s.inFlight = false) :
    SegInv (w.setStatus id s) := by
  cases s with
  | enqueuing _ | dequeuing _ => cases returned
  | _ => exact inv.restatus call trivial (by rw [was]; rfl)

/-- Every step of `queue_enqueue` keeps the segment invariant. -/
theorem segInv_enqueueStep {cfg : QueueConfig} {w' : World α} {f : EnqueueFrame α}
    (inv : SegInv w) (chain : ChainInv w) (call : w.calls id = some c)
    (status : c.status = .enqueuing f) (step : queueEnqueueStep cfg w id f = some w') :
    SegInv w' := by
  have ok : SegCallOk w id (.enqueuing f) := status ▸ inv.calls_ok id c call
  obtain ⟨onChain, -, -, linked⟩ := ok
  -- The new locals are checked once the step's world is known, hence the tactic arguments.
  cases pc : f.pc <;> simp only [queueEnqueueStep, pc] at step
  case readSegments =>
    -- Line 156: the call starts in the enqueue segment, which is published.
    cases step
    exact inv.movePlain call status (by simp [pc]) (by exact inv.enqueue_published) (by rfl)
  case fetchIndex =>
    -- The fetch-add moves the enqueue index of a published segment.
    cases step
    have own := onChain (by simp [pc])
    exact (inv.rewriteSeg own _ _ _).movePlain call status (by simp [pc])
      (by exact published_rewriteSeg.mpr own) (by exact afterFetch_plain cfg _)
  case casCell =>
    have own := onChain (by simp [pc])
    split at step
    · split at step <;> cases step
      · -- Line 166: the item is written to a cell of a published segment.
        exact (inv.rewriteSeg own _ _ _).movePlain call status (by simp [pc])
          (by exact published_rewriteSeg.mpr own) (by exact afterWrite_plain _)
      · -- Line 176: a lost cell doubles the step, in the same segment.
        exact inv.movePlain call status (by simp [pc]) (by exact own) (by rfl)
    · cases step
  case addHelp =>
    -- Line 182: the help counter plays no part in the invariant.
    cases step
    exact (inv.setCounters (w.queue.helpNeeded + 1) w.queue.len).movePlain call status
      (by simp [pc]) (by exact onChain (by simp [pc])) (by rfl)
  case subHelp =>
    -- Lines 169 and 239: nor does giving the help request back.
    cases step
    exact (inv.setCounters (w.queue.helpNeeded - 1) w.queue.len).movePlain call status
      (by simp [pc]) (by exact onChain (by simp [pc])) (by rfl)
  case rereadHelped =>
    have own := onChain (by simp [pc])
    split at step <;> cases step
    · -- Line 186: another enqueuer swung the enqueue segment; follow it.
      exact inv.movePlain call status (by simp [pc]) (by exact inv.enqueue_published) (by rfl)
    · -- Line 192: the planned successor is twice the size of a published segment.
      exact inv.moveEnqueuer call status (by simp [pc])
        ⟨fun _ => own, fun _ => Nat.mul_pos (by decide) (inv.size_pos _ own), nofun, nofun⟩ nofun
  case reread =>
    split at step <;> cases step
    · -- Line 197: follow a newer enqueue segment.
      exact inv.movePlain call status (by simp [pc]) (by exact inv.enqueue_published) (by rfl)
    · -- The call stays in its own segment, on to read the help counter.
      exact inv.movePlain call status (by simp [pc]) (by exact onChain (by simp [pc])) (by rfl)
  case readHelp =>
    cases step
    have own := onChain (by simp [pc])
    refine inv.moveEnqueuer call status (by simp [pc]) ⟨fun _ => own, fun _ => ?_, nofun, nofun⟩
      nofun
    -- Lines 203 to 208: twice a published segment's size, or the default size.
    show 0 < if w.queue.helpNeeded ≠ 0 then 2 * (w.segs f.segment).size
      else w.queue.defaultSegmentSize
    split
    · exact Nat.mul_pos (by decide) (inv.size_pos _ own)
    · exact inv.default_pos
  case allocSegment =>
    -- Line 211: the successor is allocated and held privately by the call.
    cases step
    exact inv.alloc chain call status pc
  case casNext =>
    -- Line 218: the winner publishes its successor, a loser frees it (line 219).
    split at step <;> cases step
    · exact inv.link call status pc ‹_›
    · exact inv.free chain call status pc ‹_›
  case casSegments =>
    have own := onChain (by simp [pc])
    have adopted := published_of_next (linked pc)
    split at step
    · -- Line 230: the pointer CAS makes the published successor the enqueue segment.
      cases step
      have swung := inv.swingEnqueue adopted
      rw [‹w.queue.segments = f.segments›] at swung
      exact swung.movePlain call status (by simp [pc])
        (by exact afterLink_published own adopted) (by exact afterLink_plain _)
    · split at step <;> cases step
      · -- Line 232: another enqueuer swung it; the call goes on from the successor.
        exact inv.movePlain call status (by simp [pc])
          (by exact afterLink_published own adopted) (by exact afterLink_plain _)
      · -- Line 234: only the dequeue segment moved; the call retries with fresh pointers.
        exact inv.moveEnqueuer call status (by simp [pc])
          ⟨fun _ => own, nofun, nofun, fun _ => linked pc⟩ (by simp [pc])
  case addLen =>
    -- Lines 173 and 243: the call returns holding no private segment.
    cases step
    have idle : c.status.privateSegment = none := by
      rw [status]; exact privateSegment_enqueuing (by simp [pc])
    exact (inv.setCounters w.queue.helpNeeded (w.queue.len + 1)).returns call idle (by rfl)

/-- Every step of `queue_dequeue` keeps the segment invariant. -/
theorem segInv_dequeueStep {w' : World α} {f : DequeueFrame α} (inv : SegInv w)
    (call : w.calls id = some c) (status : c.status = .dequeuing f)
    (step : queueDequeueStep w id f = some w') : SegInv w' := by
  have ok : SegCallOk w id (.dequeuing f) := status ▸ inv.calls_ok id c call
  obtain ⟨onChain, linked⟩ := ok
  have idle : c.status.privateSegment = none := by rw [status]; rfl
  cases pc : f.pc <;> simp only [queueDequeueStep, pc] at step
  case readSegments =>
    cases step
    exact inv.moveDequeuer call status (by exact inv.dequeue_published) (by rfl) nofun
  case loadDequeueIndex =>
    cases step
    obtain ⟨own, agree⟩ := onChain (by simp [pc])
    exact inv.moveDequeuer call status (by exact own) (by exact agree) nofun
  case loadEnqueueIndex =>
    obtain ⟨own, agree⟩ := onChain (by simp [pc])
    split at step
    · cases step
      exact inv.moveDequeuer call status (by exact own) (by exact agree) nofun
    · split at step <;> cases step
      · exact inv.returns call idle (by rfl)
      · exact inv.moveDequeuer call status (by exact own) (by exact agree) nofun
  case fetchIndex =>
    -- The fetch-add moves the dequeue index of a published segment; claims are ghost data.
    obtain ⟨own, agree⟩ := onChain (by simp [pc])
    split at step <;> cases step
    · exact (inv.rewriteSeg own _ _ _).moveDequeuer call status
        (by exact published_rewriteSeg.mpr own) (by exact agree) nofun
    · exact ((inv.rewriteSeg own _ _ _).setClaims _).moveDequeuer call status
        (by exact published_rewriteSeg.mpr own) (by exact agree) nofun
  case casCell =>
    obtain ⟨own, agree⟩ := onChain (by simp [pc])
    split at step <;> cases step
    · exact (inv.rewriteSeg own _ _ _).moveDequeuer call status
        (by exact published_rewriteSeg.mpr own) (by exact agree) nofun
    · exact inv.moveDequeuer call status (by exact own) (by exact agree) nofun
  case subLen =>
    cases step
    exact (inv.setCounters w.queue.helpNeeded (w.queue.len - 1)).returns call idle (by rfl)
  case readNext =>
    obtain ⟨own, agree⟩ := onChain (by simp [pc])
    split at step <;> cases step
    · exact inv.returns call idle (by rfl)
    · exact inv.moveDequeuer call status (by exact own) (by exact agree) fun _ => ‹_›
  case casSegments =>
    obtain ⟨own, agree⟩ := onChain (by simp [pc])
    split at step
    · -- The winner moves the dequeue segment on and retires the old one.
      cases step
      have same : w.queue.segments = f.segments := ‹_›
      have advanced := inv.advanceDequeue (m := f.newSegment) (by rw [same, agree]; exact linked pc)
      rw [same, agree] at advanced
      exact advanced.moveDequeuer call status (by exact published_of_next (linked pc)) (by rfl)
        nofun
    · split at step <;> cases step
      · exact inv.moveDequeuer call status (by exact inv.dequeue_published) (by rfl) nofun
      · exact inv.moveDequeuer call status (by exact own) (by exact Decidable.of_not_not ‹_›)
          fun _ => linked pc

/-- A queue just set up satisfies the segment invariant. -/
theorem segInv_init {cfg : QueueConfig} {sizeLog : Nat}
    (init : queueInitSize cfg sizeLog = some w) :
    SegInv w := by
  unfold queueInitSize at init
  split at init
  · cases init
  · cases init
    -- One segment, no links and no calls.
    refine ⟨.inl rfl, .inl rfl, fun m n linked => ?_, fun n p => ?_, Nat.two_pow_pos _, nofun,
      List.nodup_nil, .nil 0, fun n below => .inl (.inl (by simp only at below; omega)),
      fun _ _ _ ⟨_, found, _⟩ => (by cases found), fun _ _ found => by cases found⟩
    · simp only at linked; split at linked <;> cases linked
    · rcases p with rfl | ⟨m, linked⟩
      · exact Nat.two_pow_pos _
      · simp only at linked; split at linked <;> cases linked

/-- Every step of the system keeps the segment invariant. -/
theorem segInv_step {cfg : QueueConfig} {w' : World α} (inv : SegInv w) (chain : ChainInv w)
    (fresh : w.calls w.started = none) (step : QueueStep cfg w w') : SegInv w' := by
  -- A new call starts at its first line holding nothing, in a slot no call held.
  have invoked : ∀ s : CallStatus α, SegCallOk w w.started s → s.privateSegment = none →
      SegInv (w.invoke s) := by
    intro s ok holds
    have owns : ∀ k n, OwnsPrivate (w.invoke s) k n ↔ OwnsPrivate w k n := by
      intro k n
      unfold OwnsPrivate
      simp only [World.invoke, writeAt_apply]
      split
      · subst k; simp [fresh, holds]
      · exact Iff.rfl
    refine ⟨inv.enqueue_published, inv.dequeue_published, inv.next_published, inv.size_pos,
      inv.default_pos, inv.freed_unpublished, inv.freed_nodup, inv.retired_path,
      fun n below => ?_, fun k k' n mine theirs => inv.private_unique k k' n
        ((owns k n).mp mine) ((owns k' n).mp theirs), fun k ck found => ?_⟩
    · rcases inv.allocated_cover n below with published | freed | ⟨k, mine⟩
      · exact .inl published
      · exact .inr (.inl freed)
      · exact .inr (.inr ⟨k, (owns k n).mpr mine⟩)
    · simp only [World.invoke, writeAt_apply] at found
      split at found
      · cases found
        subst k
        exact ok.transfer (fun _ p => p) (fun _ _ linked => linked) fun n held => by
          rw [holds] at held; cases held
      · exact inv.calls_ok k ck found
  cases step with
  | enqueue item => exact invoked _ ⟨fun h => absurd rfl h, nofun, nofun, nofun⟩ rfl
  | dequeue => exact invoked _ ⟨fun h => absurd rfl h, nofun⟩ rfl
  | run id moved =>
    unfold World.runCall at moved
    split at moved
    · obtain ⟨w'', step, rfl⟩ := Option.map_eq_some'.mp moved
      exact (segInv_enqueueStep inv chain ‹_› rfl step).tick
    · obtain ⟨w'', step, rfl⟩ := Option.map_eq_some'.mp moved
      exact (segInv_dequeueStep inv ‹_› rfl step).tick
    · cases moved

/-- The segment invariant holds in every reachable state. -/
theorem segInv_of_reachable {cfg : QueueConfig} (reach : QueueReachable cfg w) : SegInv w := by
  induction reach with
  | init _ init => exact segInv_init init
  | step reach step inv =>
    exact segInv_step inv (chainInv_of_reachable reach)
      (calls_eq_none_of_reachable reach _ (Nat.le_refl _)) step

end Steps

end Hatrack
