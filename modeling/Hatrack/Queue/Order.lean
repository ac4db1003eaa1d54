import Hatrack.Queue.Cells
import Hatrack.Queue.Cleanup

/-! Order along the segment chain: dequeuers are handed cells in chain order, and an enqueue call
writes past every item whose enqueue returned before it was invoked, so those items are taken
first. -/

namespace Hatrack

variable {α : Type}

/-- Every cell of segment `s` has been handed out by a dequeuer's fetch-add (line 284). -/
def Full (w : World α) (s : Nat) : Prop :=
  (w.segs s).size ≤ (w.segs s).dequeueIndex

/-- The lines from the reread that found the enqueue segment current to the pointer CAS (lines 203
to 235), where an enqueuer's copy of the segment pointers names its own segment. -/
def EnqueuePc.linking : EnqueuePc → Bool
  | .readHelp | .allocSegment | .casNext | .casSegments => true
  | _ => false

/-- What a call's locals and result say about the order of the chain, by the line it stands at. -/
def CallOrder (w : World α) (id : Nat) : CallStatus α → Prop
  | .enqueuing f =>
    -- An enqueuer works at or behind the enqueue segment, below the index its fetch-add returned.
    (f.pc ≠ .readSegments → f.segment ≤ w.queue.segments.enqueueSegment) ∧
    (f.pc = .casCell → f.curIx < (w.segs f.segment).enqueueIndex) ∧
    (f.pc.linking = true → f.segments.enqueueSegment = f.segment) ∧
    0 < f.step ∧
    -- Its item sits below the enqueue index, behind the enqueue segment once that has swung.
    (f.written = true → f.placed.index < (w.segs f.placed.segment).enqueueIndex ∧
      (f.pc = .casSegments → f.placed.segment = f.newSegment) ∧
      (f.pc ≠ .casSegments → f.placed.segment ≤ w.queue.segments.enqueueSegment))
  | .enqueued _ p _ =>
    p.segment ≤ w.queue.segments.enqueueSegment ∧ p.index < (w.segs p.segment).enqueueIndex
  | .dequeuing f =>
    -- Every segment before a dequeuer's is full, and so is its own once it looks for the next.
    (f.pc ≠ .readSegments → ∀ s, Published w s → s < f.segment → Full w s) ∧
    (f.pc = .loadEnqueueIndex → f.curIx ≤ (w.segs f.segment).dequeueIndex) ∧
    (f.pc = .readNext ∨ f.pc = .casSegments → Full w f.segment)
  | .found _ p r => ∃ t, (⟨id, p, t⟩ : Claim) ∈ w.claims ∧ t < r
  | .notFound _ => True

/-- Enqueue call status `s` works, or wrote its item, past cell `p` of the chain. -/
def CallStatus.Beyond (p : CellRef) : CallStatus α → Prop
  | .enqueuing f =>
    (f.pc ≠ .readSegments → p.segment ≤ f.segment) ∧
    (f.pc = .casCell → p.segment = f.segment → p.index < f.curIx) ∧
    (f.written = true → p.Before f.placed)
  | .enqueued _ q _ => p.Before q
  | _ => True

/-- The order invariant of the queue, with every stamp so far below `now`. -/
structure OrderInv (w : World α) (now : Nat) : Prop where
  gap : ∀ m c a, (w.segs m).next = some c → Published w a → m < a → c ≤ a
  complete : ∀ n i, Published w n → i < (w.segs n).dequeueIndex → i < (w.segs n).size →
    ∃ cl ∈ w.claims, cl.cell = ⟨n, i⟩
  claims_clock : ∀ cl ∈ w.claims, cl.time < now
  claims_ordered : ∀ cl ∈ w.claims, ∀ p, InChain w p → p.Before cl.cell →
    ∃ cl' ∈ w.claims, cl'.cell = p ∧ cl'.time < cl.time
  claims_invoked : ∀ cl ∈ w.claims, ∃ c, w.calls cl.dequeuer = some c ∧ c.invokedAt < cl.time
  calls_clock : ∀ id c, w.calls id = some c → c.invokedAt < now
  dequeue_behind : ∀ s, Published w s → s < w.queue.segments.dequeueSegment → Full w s
  calls_order : ∀ id c, w.calls id = some c → CallOrder w id c.status
  beyond : ∀ ex tx x px rx ey cy, w.calls ex = some ⟨tx, .enqueued x px rx⟩ →
    w.calls ey = some cy → rx < cy.invokedAt → cy.status.Beyond px

section Basics

variable {w w' : World α} {now : Nat}

/-- A full segment stays full while its size is kept and its dequeue index grows. -/
theorem Full.mono {s : Nat} (full : Full w s) (size : (w'.segs s).size = (w.segs s).size)
    (grows : (w.segs s).dequeueIndex ≤ (w'.segs s).dequeueIndex) : Full w' s := by
  unfold Full at *
  omega

/-- Every published segment is at or before the one with no successor yet. -/
theorem OrderInv.le_last (inv : OrderInv w now) (segInv : SegInv w) (chain : ChainInv w)
    {last : Nat} (pubLast : Published w last) (free : (w.segs last).next = none) :
    ∀ a, Published w a → a ≤ last := by
  intro a
  induction a using Nat.strong_induction_on with
  | _ a ih =>
    rintro (rfl | ⟨m, linked⟩)
    · exact Nat.zero_le _
    · -- `a` follows a published `m` at or before the last segment, and not the last itself.
      have atMost := ih m (chain.next_lt m a linked).1 (segInv.next_published m a linked)
      rcases Nat.lt_or_eq_of_le atMost with before | rfl
      · exact inv.gap m a last linked pubLast before
      · rw [free] at linked
        cases linked

/-- A cell before the one a call placed, for a call that works past the first. -/
theorem CallStatus.Beyond.before_placed {s : CallStatus α} {p q : CellRef} {x : α}
    (beyond : s.Beyond p) (placed : s.Placed x q) : p.Before q := by
  cases s with
  | enqueuing f =>
    obtain ⟨-, same, written⟩ := placed
    exact same ▸ beyond.2.2 written
  | enqueued y r _ =>
    obtain ⟨-, same⟩ := placed
    exact same ▸ beyond
  | _ => exact placed.elim

/-- What the invariant says of a cell returned by an enqueue before call `id` was invoked: `id`
works past it, and it lies behind the enqueue segment and below its segment's enqueue index. -/
theorem OrderInv.returnedBefore (inv : OrderInv w now) {id : Nat} {c : Call α}
    (call : w.calls id = some c) {ex tx rx : Nat} {x : α} {px : CellRef}
    (found : w.calls ex = some ⟨tx, .enqueued x px rx⟩) (before : rx < c.invokedAt) :
    c.status.Beyond px ∧ px.segment ≤ w.queue.segments.enqueueSegment ∧
      px.index < (w.segs px.segment).enqueueIndex :=
  ⟨inv.beyond ex tx x px rx id c found call before, inv.calls_order ex _ found⟩

/-- Later stamps keep the invariant. -/
theorem OrderInv.mono (inv : OrderInv w now) {now' : Nat} (later : now ≤ now') :
    OrderInv w now' :=
  { inv with
    claims_clock := fun cl mem => Nat.lt_of_lt_of_le (inv.claims_clock cl mem) later
    calls_clock := fun id c found => Nat.lt_of_lt_of_le (inv.calls_clock id c found) later }

/-- The clock itself plays no part in the invariant. -/
theorem OrderInv.tick (inv : OrderInv w now) : OrderInv w.tick now :=
  { inv with }

end Basics

section Transfer

variable {w w' : World α} {now : Nat}

/-- A call's order facts survive a change that publishes only segments past every published one,
keeps sizes and lets the indices of allocated segments, the enqueue segment and the claim log only
grow. -/
theorem CallOrder.transfer {id : Nat} {s : CallStatus α} (ok : CallOrder w id s)
    (segOk : SegCallOk w id s) (bounds : CallInBounds w.allocated s) (chain : ChainInv w)
    (enqueueGrows : w.queue.segments.enqueueSegment ≤ w'.queue.segments.enqueueSegment)
    (claims : ∀ cl ∈ w.claims, cl ∈ w'.claims)
    (pub : ∀ k, Published w' k → Published w k ∨ ∀ j, Published w j → j < k)
    (grows : ∀ n < w.allocated, (w'.segs n).size = (w.segs n).size ∧
      (w.segs n).enqueueIndex ≤ (w'.segs n).enqueueIndex ∧
      (w.segs n).dequeueIndex ≤ (w'.segs n).dequeueIndex) :
    CallOrder w' id s := by
  have full : ∀ n, n < w.allocated → Full w n → Full w' n := fun n lt full =>
    full.mono (grows n lt).1 (grows n lt).2.2
  have enqueueLt := chain.enqueue_lt
  cases s with
  | enqueuing f =>
    obtain ⟨behind, fetched, ptrs, stepPos, written⟩ := ok
    refine ⟨fun pc => (behind pc).trans enqueueGrows,
      fun pc => Nat.lt_of_lt_of_le (fetched pc) (grows _ bounds.1).2.1, ptrs, stepPos,
      fun wrote => ?_⟩
    obtain ⟨below, linking, swung⟩ := written wrote
    -- The placed segment is the new one during the pointer CAS, behind the enqueue segment after.
    have placedLt : f.placed.segment < w.allocated := by
      by_cases pc : f.pc = .casSegments
      · rw [linking pc]; exact bounds.2.1
      · exact Nat.lt_of_le_of_lt (swung pc) enqueueLt
    exact ⟨Nat.lt_of_lt_of_le below (grows _ placedLt).2.1, linking,
      fun pc => (swung pc).trans enqueueGrows⟩
  | enqueued x p r =>
    obtain ⟨behind, below⟩ := ok
    exact ⟨behind.trans enqueueGrows,
      Nat.lt_of_lt_of_le below (grows _ (Nat.lt_of_le_of_lt behind enqueueLt)).2.1⟩
  | dequeuing f =>
    obtain ⟨before, loaded, own⟩ := ok
    refine ⟨fun pc k published lt => ?_, fun pc => (loaded pc).trans (grows _ bounds.1).2.2,
      fun pc => full _ bounds.1 (own pc)⟩
    rcases pub k published with old | past
    · exact full _ (chain.published_lt old) (before pc k old lt)
    · exact absurd (past _ (segOk.1 pc).1) (Nat.lt_asymm lt)
  | found contents p r =>
    obtain ⟨t, mem, lt⟩ := ok
    exact ⟨t, claims _ mem, lt⟩
  | notFound r => trivial

/-- A change of the heap that publishes nothing new, keeps sizes, lets the indices of allocated
segments only grow, and moves a dequeue index only past the size of a full segment or by one past
a cell already claimed, keeps the invariant. -/
theorem OrderInv.congr (inv : OrderInv w now) (segInv : SegInv w) (chain : ChainInv w)
    (calls : w'.calls = w.calls) (claims : w'.claims = w.claims)
    (segments : w'.queue.segments = w.queue.segments)
    (nexts : ∀ a, (w'.segs a).next = (w.segs a).next)
    (grows : ∀ n < w.allocated, (w'.segs n).size = (w.segs n).size ∧
      (w.segs n).enqueueIndex ≤ (w'.segs n).enqueueIndex ∧
      (w.segs n).dequeueIndex ≤ (w'.segs n).dequeueIndex)
    (covered : ∀ n < w.allocated, (w'.segs n).dequeueIndex = (w.segs n).dequeueIndex ∨ Full w n ∨
      ((w'.segs n).dequeueIndex = (w.segs n).dequeueIndex + 1 ∧
        ∃ cl ∈ w.claims, cl.cell = ⟨n, (w.segs n).dequeueIndex⟩)) :
    OrderInv w' now := by
  have pub : ∀ k, Published w' k ↔ Published w k := fun k => published_congr nexts
  have inChain : ∀ p, InChain w' p → InChain w p := fun p ⟨published, below⟩ => by
    have published := (pub _).mp published
    exact ⟨published, (grows _ (chain.published_lt published)).1 ▸ below⟩
  refine ⟨fun m c a linked published lt => ?_, fun n i published below fits => ?_,
    fun cl mem => ?_, fun cl mem p ch before => ?_, fun cl mem => ?_, fun id c found => ?_,
    fun s published lt => ?_, fun id c found => ?_, fun ex tx x px rx ey cy found found' => ?_⟩
  · rw [nexts] at linked
    exact inv.gap m c a linked ((pub a).mp published) lt
  · -- A cell below a grown dequeue index lies below the old one, in a full segment, or was claimed.
    have published := (pub n).mp published
    have lt := chain.published_lt published
    rw [(grows n lt).1] at fits
    rw [claims]
    rcases covered n lt with same | full | ⟨bumped, cl, mem, cell⟩
    · exact inv.complete n i published (same ▸ below) fits
    · exact inv.complete n i published (Nat.lt_of_lt_of_le fits full) fits
    · rcases Nat.lt_or_ge i (w.segs n).dequeueIndex with old | new
      · exact inv.complete n i published old fits
      · obtain rfl : i = (w.segs n).dequeueIndex := by omega
        exact ⟨cl, mem, cell⟩
  · rw [claims] at mem
    exact inv.claims_clock cl mem
  · rw [claims] at mem ⊢
    exact inv.claims_ordered cl mem p (inChain p ch) before
  · rw [claims] at mem
    rw [calls]
    exact inv.claims_invoked cl mem
  · rw [calls] at found
    exact inv.calls_clock id c found
  · have published := (pub s).mp published
    have lt' := chain.published_lt published
    rw [segments] at lt
    exact (inv.dequeue_behind s published lt).mono (grows s lt').1 (grows s lt').2.2
  · rw [calls] at found
    exact (inv.calls_order id c found).transfer (segInv.calls_ok id c found)
      (chain.calls_lt id c found) chain (by rw [segments]) (by rw [claims]; exact fun _ mem => mem)
      (fun k published => .inl ((pub k).mp published)) grows
  · rw [calls] at found found'
    exact inv.beyond ex tx x px rx ey cy found found'

/-- A rewrite of the queue record that lets the enqueue segment only grow and leaves every
published segment before the dequeue segment full keeps the invariant; so do the release logs. -/
theorem OrderInv.setShared (inv : OrderInv w now) (segInv : SegInv w) (chain : ChainInv w)
    (q : Queue) (retired freed : List Nat)
    (grows : w.queue.segments.enqueueSegment ≤ q.segments.enqueueSegment)
    (behind : ∀ s, Published w s → s < q.segments.dequeueSegment → Full w s) :
    OrderInv { w with queue := q, retired := retired, freed := freed } now := by
  refine { inv with
    dequeue_behind := behind
    calls_order := fun id c found => ?_ }
  exact (inv.calls_order id c found).transfer (segInv.calls_ok id c found)
    (chain.calls_lt id c found) chain grows (fun _ mem => mem) (fun k published => .inl published)
    fun n _ => ⟨rfl, Nat.le_refl _, Nat.le_refl _⟩

/-- The counters of the queue record play no part in the invariant. -/
theorem OrderInv.setCounters (inv : OrderInv w now) (segInv : SegInv w) (chain : ChainInv w)
    (helpNeeded len : Int) (retired freed : List Nat) :
    OrderInv { w with queue := { w.queue with helpNeeded, len }, retired, freed } now :=
  inv.setShared segInv chain _ retired freed (Nat.le_refl _) inv.dequeue_behind

end Transfer

section Status

variable {w : World α} {now id : Nat} {c : Call α} {s : CallStatus α}

/-- A call moving to a status with sound order facts, working past every cell returned before it
was invoked, keeps the invariant, provided a return it makes is stamped no earlier than `now`. -/
theorem OrderInv.restatus (inv : OrderInv w now) (call : w.calls id = some c)
    (ok : CallOrder w id s)
    (beyond : ∀ ex tx x px rx, w.calls ex = some ⟨tx, .enqueued x px rx⟩ → rx < c.invokedAt →
      s.Beyond px)
    (stamp : ∀ x p r, s = .enqueued x p r → now ≤ r) :
    OrderInv (w.setStatus id s) now := by
  have calls : ∀ e, (w.setStatus id s).calls e =
      if e = id then some { c with status := s } else w.calls e :=
    World.setStatus_calls call
  -- Every call keeps its invocation stamp.
  have invoked : ∀ e ce, (w.setStatus id s).calls e = some ce →
      ∃ ce', w.calls e = some ce' ∧ ce'.invokedAt = ce.invokedAt := fun e ce found => by
    rw [calls] at found
    split at found
    · subst e; cases found; exact ⟨c, call, rfl⟩
    · exact ⟨ce, found, rfl⟩
  refine { inv with
    claims_invoked := fun cl mem => ?_
    calls_clock := fun e ce found => ?_
    calls_order := fun e ce found => ?_
    beyond := fun ex tx x px rx ey cy found found' before => ?_ }
  · obtain ⟨ce, found, early⟩ := inv.claims_invoked cl mem
    by_cases same : cl.dequeuer = id
    · rw [same, call] at found
      cases found
      exact ⟨{ c with status := s }, by rw [calls, if_pos same], early⟩
    · exact ⟨ce, by rw [calls, if_neg same, found], early⟩
  · obtain ⟨ce', found', same⟩ := invoked e ce found
    rw [← same]
    exact inv.calls_clock e ce' found'
  · rw [calls] at found
    split at found
    · subst e; cases found; exact ok
    · exact inv.calls_order e ce found
  · rw [calls] at found
    split at found
    · -- A call returning now returned after every call in the table was invoked.
      cases found
      obtain ⟨ce', found', same⟩ := invoked ey cy found'
      have := inv.calls_clock ey ce' found'
      have := stamp x px rx rfl
      omega
    · rw [calls] at found'
      split at found'
      · cases found'
        exact beyond ex tx x px rx found before
      · exact inv.beyond ex tx x px rx ey cy found found' before

/-- A new call starts with sound order facts and works past every cell returned so far. -/
theorem OrderInv.invoke (inv : OrderInv w w.clock) (fresh : w.calls w.started = none)
    (ok : CallOrder w w.started s) (beyond : ∀ p, s.Beyond p) (running : s.inFlight = true) :
    OrderInv (w.invoke s) (w.clock + 1) := by
  have calls : ∀ e, (w.invoke s).calls e =
      if e = w.started then some ⟨w.clock, s⟩ else w.calls e := fun e => writeAt_apply
  refine { inv.mono (Nat.le_succ _) with
    claims_invoked := fun cl mem => ?_
    calls_clock := fun e ce found => ?_
    calls_order := fun e ce found => ?_
    beyond := fun ex tx x px rx ey cy found found' before => ?_ }
  · obtain ⟨ce, found, early⟩ := inv.claims_invoked cl mem
    have other : cl.dequeuer ≠ w.started := fun same => by rw [same, fresh] at found; cases found
    exact ⟨ce, (calls _).trans ((if_neg other).trans found), early⟩
  · rw [calls] at found
    split at found
    · cases found; exact Nat.lt_succ_self _
    · exact Nat.lt_succ_of_lt (inv.calls_clock e ce found)
  · rw [calls] at found
    split at found
    · subst e; cases found; exact ok
    · exact inv.calls_order e ce found
  · rw [calls] at found found'
    split at found
    · cases found; cases running
    · split at found'
      · cases found'; exact beyond px
      · exact inv.beyond ex tx x px rx ey cy found found' before

end Status

section Heap

variable {w : World α} {now : Nat}

/-- Rewriting a segment's indices and cells keeps every full segment full while the dequeue index
does not shrink. -/
theorem Full.rewriteSeg {s n e d : Nat} {cells : Nat → QueueItem α} (full : Full w s)
    (grows : (w.segs n).dequeueIndex ≤ d) :
    Full (w.setSeg n { w.segs n with enqueueIndex := e, dequeueIndex := d, cells }) s := by
  unfold Full at *
  simp only [World.setSeg, writeAt_apply]
  split
  · subst s; exact Nat.le_trans full grows
  · exact full

/-- Rewriting a segment's indices and cells keeps the invariant when the enqueue index only grows
and the dequeue index stays, or moves on in a full segment, or moves by one past a claimed cell. -/
theorem OrderInv.rewriteSeg (inv : OrderInv w now) (segInv : SegInv w) (chain : ChainInv w)
    {n : Nat} (enqueueIndex dequeueIndex : Nat) (cells : Nat → QueueItem α)
    (enqueueGrows : (w.segs n).enqueueIndex ≤ enqueueIndex)
    (dequeueGrows : (w.segs n).dequeueIndex ≤ dequeueIndex)
    (covered : dequeueIndex = (w.segs n).dequeueIndex ∨ Full w n ∨
      (dequeueIndex = (w.segs n).dequeueIndex + 1 ∧
        ∃ cl ∈ w.claims, cl.cell = ⟨n, (w.segs n).dequeueIndex⟩)) :
    OrderInv (w.setSeg n { w.segs n with enqueueIndex, dequeueIndex, cells }) now := by
  refine inv.congr segInv chain rfl rfl rfl (setSeg_next rfl) (fun k _ => ?_) fun k _ => ?_
  · simp only [World.setSeg, writeAt_apply]
    split
    · subst k; exact ⟨rfl, enqueueGrows, dequeueGrows⟩
    · exact ⟨rfl, Nat.le_refl _, Nat.le_refl _⟩
  · simp only [World.setSeg, writeAt_apply]
    split
    · subst k; exact covered
    · exact .inl rfl

/-- Allocating a segment that links nowhere keeps the invariant. -/
theorem OrderInv.alloc (inv : OrderInv w now) (segInv : SegInv w) (chain : ChainInv w)
    (seg : QueueSegment α) (fresh : seg.next = none) :
    OrderInv { w with segs := writeAt w.segs w.allocated seg, allocated := w.allocated + 1 }
      now := by
  refine inv.congr segInv chain rfl rfl rfl (chain.alloc_next seg fresh) (fun k lt => ?_)
    fun k lt => ?_
  · dsimp only
    rw [writeAt_ne (Nat.ne_of_lt lt)]
    exact ⟨rfl, Nat.le_refl _, Nat.le_refl _⟩
  · dsimp only
    rw [writeAt_ne (Nat.ne_of_lt lt)]
    exact .inl rfl

/-- Logging the claim a dequeuer's fetch-add (line 284) makes on the cell at the dequeue index of a
published segment, below its size and after only full segments, keeps the invariant: every cell of
the chain before it was claimed at an earlier step. -/
theorem OrderInv.logClaim (inv : OrderInv w w.clock) (segInv : SegInv w) (chain : ChainInv w)
    {n : Nat} (below : (w.segs n).dequeueIndex < (w.segs n).size)
    (before : ∀ s, Published w s → s < n → Full w s) {d : Nat} {c : Call α}
    (call : w.calls d = some c) :
    OrderInv { w with claims := w.claims ++ [⟨d, ⟨n, (w.segs n).dequeueIndex⟩, w.clock⟩] }
      (w.clock + 1) := by
  have grown : ∀ cl ∈ w.claims, cl ∈ w.claims ++ [⟨d, ⟨n, (w.segs n).dequeueIndex⟩, w.clock⟩] :=
    fun cl mem => List.mem_append_left _ mem
  -- The cells before the claimed one lie in full segments or below its dequeue index.
  have earlier : ∀ p, InChain w p → p.Before ⟨n, (w.segs n).dequeueIndex⟩ →
      ∃ cl ∈ w.claims, cl.cell = p := by
    rintro ⟨k, i⟩ ⟨published, fits⟩ (lt | ⟨rfl, lt⟩)
    · exact inv.complete k i published (Nat.lt_of_lt_of_le fits (before k published lt)) fits
    · exact inv.complete _ i published lt fits
  refine { inv.mono (Nat.le_succ _) with
    complete := fun k i published lt fits => ?_
    claims_clock := fun cl mem => ?_
    claims_ordered := fun cl mem p ch lt => ?_
    claims_invoked := fun cl mem => ?_
    calls_order := fun e ce found => ?_ }
  · obtain ⟨cl, mem, cell⟩ := inv.complete k i published lt fits
    exact ⟨cl, grown cl mem, cell⟩
  · rcases List.mem_append.mp mem with old | new
    · exact Nat.lt_succ_of_lt (inv.claims_clock cl old)
    · rw [List.mem_singleton.mp new]; exact Nat.lt_succ_self _
  · rcases List.mem_append.mp mem with old | new
    · obtain ⟨cl', mem', cell, time⟩ := inv.claims_ordered cl old p ch lt
      exact ⟨cl', grown cl' mem', cell, time⟩
    · rw [List.mem_singleton.mp new] at lt ⊢
      obtain ⟨cl', mem', cell⟩ := earlier p ch lt
      exact ⟨cl', grown cl' mem', cell, inv.claims_clock cl' mem'⟩
  · rcases List.mem_append.mp mem with old | new
    · exact inv.claims_invoked cl old
    · rw [List.mem_singleton.mp new]; exact ⟨c, call, inv.calls_clock d c call⟩
  · exact (inv.calls_order e ce found).transfer (segInv.calls_ok e ce found)
      (chain.calls_lt e ce found) chain (Nat.le_refl _) grown (fun k published => .inl published)
      fun _ _ => ⟨rfl, Nat.le_refl _, Nat.le_refl _⟩

/-- Winning the `next` CAS (line 218) publishes a segment past every published one, with no cell
handed out yet; the invariant survives. -/
theorem OrderInv.link (inv : OrderInv w now) (segInv : SegInv w) (chain : ChainInv w)
    (cellInv : CellInv w) {n m : Nat} (published : Published w n) (free : (w.segs n).next = none)
    (after : n < m) (untouched : (w.segs m).dequeueIndex = 0) :
    OrderInv (w.setSeg n { w.segs n with next := some m }) now := by
  have last := inv.le_last segInv chain published free
  have pub := fun {k : Nat} => published_link (w := w) (k := k) (m := m) free
  -- Only the `next` pointer of segment `n` changes.
  have same : ∀ k, ((w.setSeg n { w.segs n with next := some m }).segs k).size = (w.segs k).size ∧
      ((w.setSeg n { w.segs n with next := some m }).segs k).enqueueIndex =
        (w.segs k).enqueueIndex ∧
      ((w.setSeg n { w.segs n with next := some m }).segs k).dequeueIndex =
        (w.segs k).dequeueIndex := fun k => by
    simp only [World.setSeg, writeAt_apply]
    split
    · subst k; exact ⟨rfl, rfl, rfl⟩
    · exact ⟨rfl, rfl, rfl⟩
  have full : ∀ k, Full w k → Full (w.setSeg n { w.segs n with next := some m }) k :=
    fun k full => full.mono (same k).1 (same k).2.2.ge
  refine { inv with
    gap := fun k j a linked published lt => ?_
    complete := fun k i published below fits => ?_
    claims_ordered := fun cl mem p ch lt => ?_
    dequeue_behind := fun k published lt => ?_
    calls_order := fun e ce found => ?_ }
  · simp only [World.setSeg, writeAt_apply] at linked
    split at linked
    · -- The new link: nothing published lies past `n` but `m` itself.
      subst k
      cases linked
      rcases pub.mp published with old | rfl
      · exact absurd (last a old) (Nat.not_le.mpr lt)
      · exact Nat.le_refl _
    · rcases pub.mp published with old | rfl
      · exact inv.gap k j a linked old lt
      · exact Nat.le_of_lt (Nat.lt_of_le_of_lt (last j (published_of_next linked)) after)
  · rw [(same k).2.2] at below
    rw [(same k).1] at fits
    rcases pub.mp published with old | rfl
    · exact inv.complete k i old below fits
    · rw [untouched] at below; exact absurd below (Nat.not_lt_zero _)
  · -- The new segment's cells come after every claimed cell.
    obtain ⟨⟨pubCell, -⟩, -⟩ := cellInv.claims_below cl mem
    obtain ⟨pubP, fits⟩ := ch
    rcases pub.mp pubP with old | fresh
    · exact inv.claims_ordered cl mem p ⟨old, (same _).1 ▸ fits⟩ lt
    · have := last _ pubCell
      rcases lt with lt | ⟨eq, -⟩ <;> omega
  · rcases pub.mp published with old | rfl
    · exact full k (inv.dequeue_behind k old lt)
    · change _ < w.queue.segments.dequeueSegment at lt
      have := last _ segInv.dequeue_published
      omega
  · exact (inv.calls_order e ce found).transfer (segInv.calls_ok e ce found)
      (chain.calls_lt e ce found) chain (Nat.le_refl _) (fun _ mem => mem)
      (fun k published => (pub.mp published).imp id fun (fresh : k = m) j old =>
        fresh ▸ Nat.lt_of_le_of_lt (last j old) after)
      fun k _ => ⟨(same k).1, (same k).2.1.ge, (same k).2.2.ge⟩

end Heap

section Moves

variable {w : World α} {now id : Nat} {c : Call α}

/-- A cell at or behind segment `s`, and below index `i` when in `s`, comes before cell `⟨s, i⟩`. -/
theorem CellRef.before_of_le {p : CellRef} {s i : Nat} (behind : p.segment ≤ s)
    (below : p.segment = s → p.index < i) : p.Before ⟨s, i⟩ := by
  rcases Nat.lt_or_eq_of_le behind with lt | same
  · exact .inl lt
  · exact .inr ⟨same, below same⟩

/-- What holds at each line a fetch-add leads to holds at the line it leads to. -/
theorem afterFetch_cases {cfg : QueueConfig} {f : EnqueueFrame α} (P : EnqueuePc → Prop)
    (cas : P .casCell) (help : P .addHelp) (reread : P .reread) : P (f.afterFetch cfg).pc := by
  simp only [EnqueueFrame.afterFetch]
  split_ifs <;> assumption

/-- What holds at each line a written cell leads to holds at the line it leads to. -/
theorem afterWrite_cases {f : EnqueueFrame α} (P : EnqueuePc → Prop) (sub : P .subHelp)
    (add : P .addLen) : P f.afterWrite.pc := by
  simp only [EnqueueFrame.afterWrite]
  split_ifs <;> assumption

/-- What holds at each line after the pointer CAS loop holds at the line it leads to. -/
theorem afterLink_cases {f : EnqueueFrame α} (P : EnqueuePc → Prop) (fetch : P .fetchIndex)
    (sub : P .subHelp) (add : P .addLen) : P f.afterLink.pc := by
  simp only [EnqueueFrame.afterLink]
  split_ifs <;> assumption

/-- At a line that is not a linking line, anything follows from it being one. -/
theorem EnqueuePc.unlinked {pc : EnqueuePc} {P : Prop} (off : pc.linking = false) :
    pc.linking = true → P := fun linking => by
  rw [off] at linking
  cases linking

/-- A frame that has written nothing proves anything of it having written. -/
theorem EnqueueFrame.unwritten {f : EnqueueFrame α} {P : Prop} (off : f.written = false) :
    f.written = true → P := fun wrote => by
  rw [off] at wrote
  cases wrote

/-- After the pointer CAS loop an enqueuer has written its item exactly when it had at the CAS. -/
theorem afterLink_written_of_casSegments {f : EnqueueFrame α} (pc : f.pc = .casSegments) :
    f.afterLink.written = f.written := by
  rw [afterLink_written]
  simp [EnqueueFrame.written, pc]

/-- After the pointer CAS loop (line 237) an enqueuer's locals are sound once the enqueue segment
has reached the segment the call linked or adopted. -/
theorem callOrder_afterLink {f : EnqueueFrame α} (pc : f.pc = .casSegments)
    (behind : f.segment ≤ f.newSegment) (stepPos : 0 < f.step)
    (reached : f.newSegment ≤ w.queue.segments.enqueueSegment)
    (written : f.written = true → f.placed.index < (w.segs f.placed.segment).enqueueIndex ∧
      f.placed.segment = f.newSegment) :
    CallOrder w id (.enqueuing f.afterLink) := by
  refine ⟨fun _ => ?_, fun atCas => absurd atCas (afterLink_cases (· ≠ .casCell) nofun nofun nofun),
    EnqueuePc.unlinked (afterLink_cases (·.linking = false) rfl rfl rfl), stepPos, fun wrote => ?_⟩
  · simp only [EnqueueFrame.afterLink]
    split <;> omega
  · rw [afterLink_written_of_casSegments pc] at wrote
    obtain ⟨below, linked⟩ := written wrote
    exact ⟨below, fun atCas => absurd atCas (afterLink_cases (· ≠ .casSegments) nofun nofun nofun),
      fun _ => show f.placed.segment ≤ _ from linked ▸ reached⟩

/-- After the pointer CAS loop an enqueuer still works past every cell it worked past. -/
theorem beyond_afterLink {f : EnqueueFrame α} {p : CellRef} (pc : f.pc = .casSegments)
    (behind : f.segment ≤ f.newSegment) (atOwn : p.segment ≤ f.segment)
    (placedAfter : f.written = true → p.Before f.placed) :
    (CallStatus.enqueuing f.afterLink).Beyond p := by
  refine ⟨fun _ => ?_, fun atCas => absurd atCas (afterLink_cases (· ≠ .casCell) nofun nofun nofun),
    fun wrote => placedAfter ?_⟩
  · simp only [EnqueueFrame.afterLink]
    split <;> omega
  · rwa [afterLink_written_of_casSegments pc] at wrote

/-- An enqueuer moving to locals with sound order facts, that work past every cell its old locals
worked past lying behind the enqueue segment and below its segment's enqueue index, keeps the
invariant; `w₁` is what the move's change of the heap made of `w`. -/
theorem OrderInv.moveEnqueuer {w₁ : World α} (inv : OrderInv w now) (inv₁ : OrderInv w₁ now)
    (calls : w₁.calls = w.calls) (call : w.calls id = some c) {f g : EnqueueFrame α}
    (status : c.status = .enqueuing f) (ok : CallOrder w₁ id (.enqueuing g))
    (beyond : ∀ p, (CallStatus.enqueuing f).Beyond p →
      p.segment ≤ w.queue.segments.enqueueSegment → p.index < (w.segs p.segment).enqueueIndex →
      (CallStatus.enqueuing g).Beyond p) :
    OrderInv (w₁.setStatus id (.enqueuing g)) now := by
  refine inv₁.restatus (calls ▸ call) ok (fun ex tx x px rx found before => ?_) nofun
  rw [calls] at found
  obtain ⟨past, behind, below⟩ := inv.returnedBefore call found before
  rw [status] at past
  exact beyond px past behind below

/-- An enqueuer stepping to another line of its own segment, with no cell CAS ahead and nothing
written, keeps the invariant; `w₁` is what the step made of the heap. -/
theorem OrderInv.stayEnqueuer {w₁ : World α} (inv : OrderInv w now) (inv₁ : OrderInv w₁ now)
    (calls : w₁.calls = w.calls) (ptrs : w₁.queue.segments = w.queue.segments)
    (call : w.calls id = some c) {f g : EnqueueFrame α} (status : c.status = .enqueuing f)
    (notRead : f.pc ≠ .readSegments) (same : g.segment = f.segment) (notCas : g.pc ≠ .casCell)
    (linked : g.pc.linking = true → g.segments.enqueueSegment = g.segment) (stepPos : 0 < g.step)
    (unwritten : g.written = false) : OrderInv (w₁.setStatus id (.enqueuing g)) now := by
  have behind := (status ▸ inv.calls_order id c call : CallOrder w id (.enqueuing f)).1 notRead
  refine inv.moveEnqueuer inv₁ calls call status ⟨fun _ => ?_, fun atCas => absurd atCas notCas,
    linked, stepPos, EnqueueFrame.unwritten unwritten⟩ fun p past _ _ =>
      ⟨fun _ => (past.1 notRead).trans_eq same.symm, fun atCas => absurd atCas notCas,
        EnqueueFrame.unwritten unwritten⟩
  rw [same, ptrs]
  exact behind

/-- An enqueuer adopting the current enqueue segment for its next fetch-add keeps the
invariant. -/
theorem OrderInv.followEnqueuer (inv : OrderInv w now) (call : w.calls id = some c)
    {f g : EnqueueFrame α} (status : c.status = .enqueuing f)
    (adopted : g.segment = w.queue.segments.enqueueSegment) (pc : g.pc = .fetchIndex)
    (stepPos : 0 < g.step) : OrderInv (w.setStatus id (.enqueuing g)) now := by
  have notCas : g.pc ≠ .casCell := by rw [pc]; nofun
  have unwritten : g.written = false := by rw [EnqueueFrame.written, pc]
  exact inv.moveEnqueuer inv rfl call status ⟨fun _ => adopted.le, fun atCas => absurd atCas notCas,
    EnqueuePc.unlinked (by rw [pc]; rfl), stepPos, EnqueueFrame.unwritten unwritten⟩
    fun p _ reached _ => ⟨fun _ => reached.trans_eq adopted.symm, fun atCas => absurd atCas notCas,
      EnqueueFrame.unwritten unwritten⟩

/-- A dequeuer moving to locals with sound order facts keeps the invariant. -/
theorem OrderInv.moveDequeuer (inv : OrderInv w now) (call : w.calls id = some c)
    {g : DequeueFrame α} (ok : CallOrder w id (.dequeuing g)) :
    OrderInv (w.setStatus id (.dequeuing g)) now :=
  inv.restatus call ok (fun _ _ _ _ _ _ _ => trivial) nofun

end Moves

section EnqueueLines

variable {cfg : QueueConfig} {w : World α} {id : Nat} {c : Call α} {f : EnqueueFrame α}

/-- The fetch-add on `enqueue_index` (lines 159, 177, 188, 199 and 248) leaves the index it
returned below the new enqueue index. -/
theorem OrderInv.fetchEnqueueIndex (inv : OrderInv w w.clock) (segInv : SegInv w)
    (chain : ChainInv w) (call : w.calls id = some c) (status : c.status = .enqueuing f)
    (pc : f.pc = .fetchIndex) :
    OrderInv ((w.setSeg f.segment { w.segs f.segment with
      enqueueIndex := (w.segs f.segment).enqueueIndex + f.step }).setStatus id
      (.enqueuing ({ f with curIx := (w.segs f.segment).enqueueIndex }.afterFetch cfg)))
      w.clock := by
  obtain ⟨behind, -, -, stepPos, -⟩ : CallOrder w id (.enqueuing f) :=
    status ▸ inv.calls_order id c call
  have notRead : f.pc ≠ .readSegments := by rw [pc]; nofun
  refine inv.moveEnqueuer (inv.rewriteSeg segInv chain
      ((w.segs f.segment).enqueueIndex + f.step) (w.segs f.segment).dequeueIndex
      (w.segs f.segment).cells (Nat.le_add_right _ _) (Nat.le_refl _) (.inl rfl)) rfl call status
      ⟨fun _ => behind notRead, fun _ => ?_,
        EnqueuePc.unlinked (afterFetch_cases (·.linking = false) rfl rfl rfl), stepPos,
        EnqueueFrame.unwritten (afterFetch_written cfg)⟩
      fun p past _ below => ⟨fun _ => past.1 notRead, fun _ same => same ▸ below,
        EnqueueFrame.unwritten (afterFetch_written cfg)⟩
  simp only [EnqueueFrame.afterFetch, World.setSeg, writeAt_same]
  omega

/-- Line 166: winning the cell CAS writes the item at the index the fetch-add returned, which
stands below the enqueue index. -/
theorem OrderInv.writeCell (inv : OrderInv w w.clock) (segInv : SegInv w) (chain : ChainInv w)
    (call : w.calls id = some c) (status : c.status = .enqueuing f) (pc : f.pc = .casCell) :
    OrderInv ((w.setSeg f.segment { w.segs f.segment with
      cells := writeAt (w.segs f.segment).cells f.curIx (.used f.item id) }).setStatus id
      (.enqueuing { f with placed := ⟨f.segment, f.curIx⟩ }.afterWrite)) w.clock := by
  obtain ⟨behind, fetched, -, stepPos, -⟩ : CallOrder w id (.enqueuing f) :=
    status ▸ inv.calls_order id c call
  have notRead : f.pc ≠ .readSegments := by rw [pc]; nofun
  refine inv.moveEnqueuer (inv.rewriteSeg segInv chain (w.segs f.segment).enqueueIndex
    (w.segs f.segment).dequeueIndex _ (Nat.le_refl _) (Nat.le_refl _) (.inl rfl)) rfl call
    status ⟨fun _ => behind notRead,
      fun atCas => absurd atCas (afterWrite_cases (· ≠ .casCell) nofun nofun),
      EnqueuePc.unlinked (afterWrite_cases (·.linking = false) rfl rfl), stepPos,
      fun _ => ⟨?_, fun atCas => absurd atCas (afterWrite_cases (· ≠ .casSegments) nofun nofun),
        fun _ => behind notRead⟩⟩
    fun p past _ _ => ⟨fun _ => past.1 notRead,
      fun atCas => absurd atCas (afterWrite_cases (· ≠ .casCell) nofun nofun),
      fun _ => CellRef.before_of_le (past.1 notRead) (past.2.1 pc)⟩
  simp only [EnqueueFrame.afterWrite, World.setSeg, writeAt_same]
  exact fetched pc

/-- Line 218: winning the `next` CAS puts the item in cell 0 of the successor, now linked past
the chain. -/
theorem OrderInv.linkSuccessor (inv : OrderInv w w.clock) (segInv : SegInv w)
    (chain : ChainInv w) (cellInv : CellInv w) (call : w.calls id = some c)
    (status : c.status = .enqueuing f) (pc : f.pc = .casNext)
    (free : (w.segs f.segment).next = none) :
    OrderInv ((w.setSeg f.segment { w.segs f.segment with next := some f.newSegment }).setStatus id
      (.enqueuing { f with
        needToEnqueue := false, placed := ⟨f.newSegment, 0⟩, pc := .casSegments })) w.clock := by
  obtain ⟨behind, -, ptrs, stepPos, -⟩ : CallOrder w id (.enqueuing f) :=
    status ▸ inv.calls_order id c call
  have segOk : SegCallOk w id (.enqueuing f) := status ▸ segInv.calls_ok id c call
  have bounds : CallInBounds w.allocated (.enqueuing f) := status ▸ chain.calls_lt id c call
  have after := bounds.2.2.2.2 pc
  have notRead : f.pc ≠ .readSegments := by rw [pc]; nofun
  obtain ⟨-, -, shape, -⟩ := segOk.2.2.1 pc
  refine inv.moveEnqueuer (inv.link segInv chain cellInv (segOk.1 notRead) free after
    (by rw [shape]; rfl)) rfl call status
    ⟨fun _ => behind notRead, nofun, fun _ => ptrs (by rw [pc]; rfl), stepPos,
      fun _ => ⟨?_, fun _ => rfl, fun swinging => absurd rfl swinging⟩⟩
    fun p past _ _ => ⟨fun _ => past.1 notRead, nofun,
      fun _ => .inl (Nat.lt_of_le_of_lt (past.1 notRead) after)⟩
  -- The successor's first cell is below its enqueue index of one.
  show 0 < (writeAt w.segs f.segment _ f.newSegment).enqueueIndex
  rw [writeAt_ne (Nat.ne_of_gt after), shape]
  exact Nat.one_pos

/-- At the pointer CAS (line 230) the call's segment links to the one it names, which lies past
it, and an item the call wrote sits there, below its enqueue index. -/
theorem CallOrder.atSwing (ok : CallOrder w id (.enqueuing f))
    (segOk : SegCallOk w id (.enqueuing f)) (chain : ChainInv w) (pc : f.pc = .casSegments) :
    (w.segs f.segment).next = some f.newSegment ∧ f.segment < f.newSegment ∧
      (f.written = true → f.placed.index < (w.segs f.placed.segment).enqueueIndex ∧
        f.placed.segment = f.newSegment) := by
  have next := segOk.2.2.2 pc
  exact ⟨next, (chain.next_lt _ _ next).1,
    fun wrote => ⟨(ok.2.2.2.2 wrote).1, (ok.2.2.2.2 wrote).2.1 pc⟩⟩

/-- Line 230: winning the pointer CAS moves the enqueue segment on to the successor of the
call's own. -/
theorem OrderInv.swingEnqueueSegment (inv : OrderInv w w.clock) (segInv : SegInv w)
    (chain : ChainInv w) (call : w.calls id = some c) (status : c.status = .enqueuing f)
    (pc : f.pc = .casSegments) (swung : w.queue.segments = f.segments) :
    OrderInv ({ w with queue := { w.queue with
      segments := ⟨f.newSegment, f.segments.dequeueSegment⟩ } }.setStatus id
      (.enqueuing f.afterLink)) w.clock := by
  have ok : CallOrder w id (.enqueuing f) := status ▸ inv.calls_order id c call
  obtain ⟨-, linkLt, inNew⟩ := ok.atSwing (status ▸ segInv.calls_ok id c call) chain pc
  have notRead : f.pc ≠ .readSegments := by rw [pc]; nofun
  have start : w.queue.segments.enqueueSegment = f.segment := by
    rw [swung, ok.2.2.1 (by rw [pc]; rfl)]
  exact inv.moveEnqueuer (inv.setShared segInv chain
    { w.queue with segments := ⟨f.newSegment, f.segments.dequeueSegment⟩ } w.retired w.freed
    (by rw [start]; exact linkLt.le)
    fun s published lt => inv.dequeue_behind s published (by rw [swung]; exact lt)) rfl call
    status (callOrder_afterLink pc linkLt.le ok.2.2.2.1 (Nat.le_refl _) inNew)
    fun p past _ _ => beyond_afterLink pc linkLt.le (past.1 notRead) past.2.2

/-- Lines 230 to 232, lost to an enqueuer that swung the enqueue segment past the call's own: it
has reached the successor at least, and the call goes on from there. -/
theorem OrderInv.adoptEnqueueSegment (inv : OrderInv w w.clock) (segInv : SegInv w)
    (chain : ChainInv w) (call : w.calls id = some c) (status : c.status = .enqueuing f)
    (pc : f.pc = .casSegments) (moved : w.queue.segments.enqueueSegment ≠ f.segment) :
    OrderInv (w.setStatus id
      (.enqueuing { f with segments := w.queue.segments, pc := .casSegments }.afterLink))
      w.clock := by
  have ok : CallOrder w id (.enqueuing f) := status ▸ inv.calls_order id c call
  obtain ⟨next, linkLt, inNew⟩ := ok.atSwing (status ▸ segInv.calls_ok id c call) chain pc
  have notRead : f.pc ≠ .readSegments := by rw [pc]; nofun
  have wroteNow : f.written = !f.needToEnqueue := by simp [EnqueueFrame.written, pc]
  have reached : f.newSegment ≤ w.queue.segments.enqueueSegment :=
    inv.gap _ _ _ next segInv.enqueue_published (Nat.lt_of_le_of_ne (ok.1 notRead) (Ne.symm moved))
  exact inv.moveEnqueuer inv rfl call status
    (callOrder_afterLink rfl linkLt.le ok.2.2.2.1 reached fun wrote => inNew (wroteNow.trans wrote))
    fun p past _ _ => beyond_afterLink rfl linkLt.le (past.1 notRead)
      fun wrote => past.2.2 (wroteNow.trans wrote)

/-- Line 234: lost while only the dequeue segment moved, the call retries the CAS with fresh
pointers. -/
theorem OrderInv.retrySwing (inv : OrderInv w w.clock) (segInv : SegInv w) (chain : ChainInv w)
    (call : w.calls id = some c) (status : c.status = .enqueuing f) (pc : f.pc = .casSegments)
    (current : w.queue.segments.enqueueSegment = f.segment) :
    OrderInv (w.setStatus id
      (.enqueuing { f with segments := w.queue.segments, pc := .casSegments })) w.clock := by
  have ok : CallOrder w id (.enqueuing f) := status ▸ inv.calls_order id c call
  obtain ⟨-, -, inNew⟩ := ok.atSwing (status ▸ segInv.calls_ok id c call) chain pc
  have notRead : f.pc ≠ .readSegments := by rw [pc]; nofun
  have wroteNow : f.written = !f.needToEnqueue := by simp [EnqueueFrame.written, pc]
  exact inv.moveEnqueuer inv rfl call status
    ⟨fun _ => ok.1 notRead, nofun, fun _ => current, ok.2.2.2.1,
      fun wrote => ⟨(inNew (wroteNow.trans wrote)).1,
        fun _ => (inNew (wroteNow.trans wrote)).2, fun swinging => absurd rfl swinging⟩⟩
    fun p past _ _ => ⟨fun _ => past.1 notRead, nofun,
      fun wrote => past.2.2 (wroteNow.trans wrote)⟩

/-- Lines 169 and 239: giving back the help request moves a counter only; the item stays
written. -/
theorem OrderInv.giveBackHelp (inv : OrderInv w w.clock) (segInv : SegInv w) (chain : ChainInv w)
    (call : w.calls id = some c) (status : c.status = .enqueuing f) (pc : f.pc = .subHelp) :
    OrderInv ({ w with queue := { w.queue with helpNeeded := w.queue.helpNeeded - 1 } }.setStatus
      id (.enqueuing { f with pc := .addLen })) w.clock := by
  obtain ⟨behind, -, -, stepPos, written⟩ : CallOrder w id (.enqueuing f) :=
    status ▸ inv.calls_order id c call
  have notRead : f.pc ≠ .readSegments := by rw [pc]; nofun
  have wrote : f.written = true := by simp [EnqueueFrame.written, pc]
  exact inv.moveEnqueuer (inv.setCounters segInv chain (w.queue.helpNeeded - 1) w.queue.len
    w.retired w.freed) rfl call status ⟨fun _ => behind notRead, nofun, nofun, stepPos,
      fun _ => ⟨(written wrote).1, nofun, fun _ => (written wrote).2.2 (by rw [pc]; nofun)⟩⟩
    fun p past _ _ => ⟨fun _ => past.1 notRead, nofun, fun _ => past.2.2 wrote⟩

/-- Lines 173 and 243: the call returns naming the cell it wrote, past every cell returned before
it started. -/
theorem OrderInv.returnEnqueued (inv : OrderInv w w.clock) (segInv : SegInv w)
    (chain : ChainInv w) (call : w.calls id = some c) (status : c.status = .enqueuing f)
    (pc : f.pc = .addLen) :
    OrderInv ({ w with queue := { w.queue with len := w.queue.len + 1 } }.setStatus id
      (.enqueued f.item f.placed w.clock)) w.clock := by
  obtain ⟨-, -, -, -, written⟩ : CallOrder w id (.enqueuing f) :=
    status ▸ inv.calls_order id c call
  have wrote : f.written = true := by simp [EnqueueFrame.written, pc]
  obtain ⟨below, -, swung⟩ := written wrote
  refine (inv.setCounters segInv chain w.queue.helpNeeded (w.queue.len + 1) w.retired
    w.freed).restatus call
    ⟨swung (by rw [pc]; nofun), below⟩ (fun ex tx x px rx found before => ?_)
    fun _ _ _ same => by cases same; exact Nat.le_refl _
  obtain ⟨past, -, -⟩ := inv.returnedBefore call found before
  rw [status] at past
  exact past.2.2 wrote

end EnqueueLines

section DequeueLines

variable {w : World α} {id : Nat} {c : Call α} {f : DequeueFrame α}

/-- Line 284: the fetch-add on `dequeue_index` hands out the cell at the old index, and the
claim is logged with the current step. -/
theorem OrderInv.claimCell (inv : OrderInv w w.clock) (segInv : SegInv w) (chain : ChainInv w)
    (call : w.calls id = some c) (status : c.status = .dequeuing f) (pc : f.pc = .fetchIndex)
    (fresh : (w.segs f.segment).dequeueIndex < (w.segs f.segment).size) :
    OrderInv ({ w.setSeg f.segment { w.segs f.segment with
        dequeueIndex := (w.segs f.segment).dequeueIndex + 1 } with
      claims := w.claims ++ [(⟨id, ⟨f.segment, (w.segs f.segment).dequeueIndex⟩, w.clock⟩ : Claim)]
      }.setStatus id
      (.dequeuing { f with curIx := (w.segs f.segment).dequeueIndex, pc := .casCell }))
      (w.clock + 1) := by
  have before := (status ▸ inv.calls_order id c call : CallOrder w id (.dequeuing f)).1
    (by rw [pc]; nofun)
  refine ((inv.logClaim segInv chain fresh before call).rewriteSeg
    (segInv.setClaims _) ⟨chain.next_lt, chain.enqueue_lt, chain.dequeue_lt, chain.calls_lt⟩
    (w.segs f.segment).enqueueIndex
    ((w.segs f.segment).dequeueIndex + 1) (w.segs f.segment).cells (Nat.le_refl _)
    (Nat.le_succ _) (.inr (.inr ⟨rfl, _, List.mem_append_right _ (List.mem_singleton_self _),
      rfl⟩))).moveDequeuer call ⟨fun _ s published lt => ?_, nofun, nofun⟩
  exact (before s (published_rewriteSeg.mp published) lt).rewriteSeg (Nat.le_succ _)

/-- Line 316: winning the pointer CAS moves the dequeue segment to the successor of a full
segment, which is retired (line 333). -/
theorem OrderInv.swingDequeueSegment (inv : OrderInv w w.clock) (segInv : SegInv w)
    (chain : ChainInv w) (call : w.calls id = some c) (status : c.status = .dequeuing f)
    (pc : f.pc = .casSegments) (swung : w.queue.segments = f.segments) :
    OrderInv ({ w with
        queue := { w.queue with segments := ⟨f.segments.enqueueSegment, f.newSegment⟩ }
        retired := w.retired ++ [f.segment] }.setStatus id
      (.dequeuing { f with
        segments := ⟨f.segments.enqueueSegment, f.newSegment⟩, segment := f.newSegment
        pc := .loadDequeueIndex })) w.clock := by
  obtain ⟨before, -, own⟩ : CallOrder w id (.dequeuing f) := status ▸ inv.calls_order id c call
  have next := (status ▸ segInv.calls_ok id c call : SegCallOk w id (.dequeuing f)).2 pc
  -- The segments before the successor are the full ones before the call's and its own.
  have behindNew : ∀ s, Published w s → s < f.newSegment → Full w s := fun s published lt => by
    rcases Nat.lt_trichotomy s f.segment with earlier | rfl | past
    · exact before (by rw [pc]; nofun) s published earlier
    · exact own (.inr pc)
    · exact absurd (inv.gap _ _ _ next published past) (Nat.not_le.mpr lt)
  exact (inv.setShared segInv chain
    { w.queue with segments := ⟨f.segments.enqueueSegment, f.newSegment⟩ }
    (w.retired ++ [f.segment]) w.freed
    (Nat.le_of_eq (congrArg QueueSegPtrs.enqueueSegment swung : _ = f.segments.enqueueSegment))
    behindNew).moveDequeuer call ⟨fun _ => behindNew, nofun, nofun⟩

end DequeueLines

section Steps

variable {w : World α} {id : Nat} {c : Call α}

/-- Every step of `queue_enqueue` keeps the order invariant. -/
theorem orderInv_enqueueStep {cfg : QueueConfig} {w' : World α} {f : EnqueueFrame α}
    (inv : OrderInv w w.clock) (segInv : SegInv w) (chain : ChainInv w) (cellInv : CellInv w)
    (call : w.calls id = some c) (status : c.status = .enqueuing f)
    (step : queueEnqueueStep cfg w id f = some w') : OrderInv w' w.clock := by
  obtain ⟨-, -, ptrs, stepPos, -⟩ : CallOrder w id (.enqueuing f) :=
    status ▸ inv.calls_order id c call
  -- Each line keeps the call at or behind the enqueue segment, working past what it worked past.
  cases pc : f.pc <;> simp only [queueEnqueueStep, pc] at step
  case readSegments =>
    -- Line 156: the call starts in the enqueue segment.
    cases step
    exact inv.followEnqueuer call status rfl rfl stepPos
  case addLen =>
    cases step
    exact inv.returnEnqueued segInv chain call status pc
  -- Past its first line the call never stands at line 156 again.
  all_goals have notRead : f.pc ≠ .readSegments := by rw [pc]; nofun
  case fetchIndex =>
    cases step
    exact inv.fetchEnqueueIndex segInv chain call status pc
  case casCell =>
    split at step
    · split at step <;> cases step
      · exact inv.writeCell segInv chain call status pc
      · -- Line 176: a lost cell doubles the step.
        exact inv.stayEnqueuer inv rfl rfl call status notRead rfl nofun nofun
          (Nat.mul_pos Nat.two_pos stepPos) rfl
    · cases step
  case addHelp =>
    -- Line 182: the help request moves a counter only.
    cases step
    exact inv.stayEnqueuer (inv.setCounters segInv chain (w.queue.helpNeeded + 1) w.queue.len
      w.retired w.freed) rfl rfl call status notRead rfl nofun nofun stepPos rfl
  case rereadHelped | reread =>
    split at step <;> cases step
    · -- Lines 186 and 197: another enqueuer swung the enqueue segment; follow it.
      exact inv.followEnqueuer call status rfl rfl stepPos
    · -- The enqueue segment is still the call's own: on to plan a successor.
      exact inv.stayEnqueuer inv rfl rfl call status notRead rfl nofun
        (fun _ => Decidable.of_not_not ‹_›) stepPos rfl
  case readHelp =>
    -- Line 203: the successor's size is read off the help counter.
    cases step
    exact inv.stayEnqueuer inv rfl rfl call status notRead rfl nofun
      (fun _ => ptrs (by rw [pc]; rfl)) stepPos rfl
  case allocSegment =>
    -- Line 211: the successor is allocated, private and linked nowhere.
    cases step
    exact inv.stayEnqueuer (inv.alloc segInv chain (enqueueSuccessor f id) rfl) rfl rfl call
      status notRead rfl nofun (fun _ => ptrs (by rw [pc]; rfl)) stepPos rfl
  case casNext =>
    split at step <;> cases step
    · exact inv.linkSuccessor segInv chain cellInv call status pc ‹_›
    · -- Lines 219 to 221: a loser frees its segment and adopts the winner.
      exact inv.stayEnqueuer (inv.setShared segInv chain w.queue w.retired
        (w.freed ++ [f.newSegment]) (Nat.le_refl _) inv.dequeue_behind) rfl rfl call status
        notRead rfl nofun (fun _ => ptrs (by rw [pc]; rfl)) stepPos rfl
  case casSegments =>
    split at step
    · cases step
      exact inv.swingEnqueueSegment segInv chain call status pc ‹_›
    · split at step <;> cases step
      · exact inv.adoptEnqueueSegment segInv chain call status pc ‹_›
      · exact inv.retrySwing segInv chain call status pc (Decidable.of_not_not ‹_›)
  case subHelp =>
    cases step
    exact inv.giveBackHelp segInv chain call status pc

/-- Every step of `queue_dequeue` keeps the order invariant; the claim of a fetch-add is stamped
with the current step, so the invariant holds with stamps below the next one. -/
theorem orderInv_dequeueStep {w' : World α} {f : DequeueFrame α}
    (inv : OrderInv w w.clock) (segInv : SegInv w) (chain : ChainInv w) (cellInv : CellInv w)
    (call : w.calls id = some c) (status : c.status = .dequeuing f)
    (step : queueDequeueStep w id f = some w') : OrderInv w' (w.clock + 1) := by
  obtain ⟨before, loaded, own⟩ : CallOrder w id (.dequeuing f) :=
    status ▸ inv.calls_order id c call
  have later := Nat.le_succ w.clock
  -- Each line keeps every segment before the dequeuer's full.
  cases pc : f.pc <;> simp only [queueDequeueStep, pc] at step
  case readSegments =>
    -- Line 267: the call starts in the dequeue segment.
    cases step
    refine OrderInv.mono ?_ later
    exact inv.moveDequeuer call ⟨fun _ => inv.dequeue_behind, nofun, nofun⟩
  case subLen =>
    cases step
    -- Line 297: the call returns the cell it claimed, at a step after the claim.
    have taking : c.status.Taking w id := cellInv.calls_taking id c call
    rw [status] at taking
    obtain ⟨⟨t, mem⟩, -, -⟩ := taking.2 pc
    refine OrderInv.mono ?_ later
    exact (inv.setCounters segInv chain w.queue.helpNeeded (w.queue.len - 1) w.retired
      w.freed).restatus call ⟨t, mem, inv.claims_clock _ mem⟩ (fun _ _ _ _ _ _ _ => trivial) nofun
  -- Past its first line the call never stands at line 267 again.
  all_goals have notRead : f.pc ≠ .readSegments := by rw [pc]; nofun
  case loadDequeueIndex =>
    -- Line 273: the index read is the dequeue index itself.
    cases step
    refine OrderInv.mono ?_ later
    exact inv.moveDequeuer call ⟨fun _ => before notRead, fun _ => Nat.le_refl _, nofun⟩
  case loadEnqueueIndex =>
    -- Lines 274 to 282: past the end the segment is full; below `head_ix` on to the fetch-add.
    refine OrderInv.mono ?_ later
    split at step
    · cases step
      exact inv.moveDequeuer call
        ⟨fun _ => before notRead, nofun, fun _ => Nat.le_trans ‹_› (loaded pc)⟩
    · split at step <;> cases step
      · exact inv.restatus call trivial (fun _ _ _ _ _ _ _ => trivial) nofun
      · exact inv.moveDequeuer call ⟨fun _ => before notRead, nofun, nofun⟩
  case fetchIndex =>
    split at step <;> cases step
    · -- A used-up segment: the fetch-add moves the index on past its size.
      rename_i used
      refine OrderInv.mono ?_ later
      refine (inv.rewriteSeg segInv chain (w.segs f.segment).enqueueIndex
        ((w.segs f.segment).dequeueIndex + 1) (w.segs f.segment).cells (Nat.le_refl _)
        (Nat.le_succ _) (.inr (.inl used))).moveDequeuer call
        ⟨fun _ s published lt => ?_, nofun, fun _ => ?_⟩
      · exact (before notRead s (published_rewriteSeg.mp published) lt).rewriteSeg (Nat.le_succ _)
      · exact (show Full w f.segment from used).rewriteSeg (Nat.le_succ _)
    · exact inv.claimCell segInv chain call status pc (Nat.lt_of_not_le ‹_›)
  case casCell =>
    refine OrderInv.mono ?_ later
    split at step <;> cases step
    · -- An empty cell is marked too slow (line 291) and the dequeuer goes round again.
      refine (inv.rewriteSeg segInv chain (w.segs f.segment).enqueueIndex
        (w.segs f.segment).dequeueIndex _ (Nat.le_refl _) (Nat.le_refl _) (.inl rfl)).moveDequeuer
        call ⟨fun _ s published lt => ?_, nofun, nofun⟩
      exact (before notRead s (published_rewriteSeg.mp published) lt).rewriteSeg (Nat.le_refl _)
    · exact inv.moveDequeuer call ⟨fun _ => before notRead, nofun, nofun⟩
  case readNext =>
    -- Lines 302 to 311: with no successor the call returns, otherwise it names the successor.
    refine OrderInv.mono ?_ later
    split at step <;> cases step
    · exact inv.restatus call trivial (fun _ _ _ _ _ _ _ => trivial) nofun
    · exact inv.moveDequeuer call ⟨fun _ => before notRead, nofun, fun _ => own (.inl pc)⟩
  case casSegments =>
    refine OrderInv.mono ?_ later
    split at step
    · cases step
      exact inv.swingDequeueSegment segInv chain call status pc ‹_›
    · split at step <;> cases step
      · -- Lines 320 to 324: another dequeuer moved the dequeue segment on; follow it.
        exact inv.moveDequeuer call ⟨fun _ => inv.dequeue_behind, nofun, nofun⟩
      · exact inv.moveDequeuer call ⟨fun _ => before notRead, nofun, fun _ => own (.inr pc)⟩

/-- A queue just set up satisfies the order invariant: one segment, no claims and no calls. -/
theorem orderInv_init {cfg : QueueConfig} {sizeLog : Nat}
    (init : queueInitSize cfg sizeLog = some w) : OrderInv w w.clock := by
  unfold queueInitSize at init
  split at init
  · cases init
  · cases init
    refine ⟨fun m _ _ linked => ?_, fun n i _ below _ => ?_, nofun, nofun, nofun,
      fun _ _ found => (by cases found), fun _ _ lt => absurd lt (Nat.not_lt_zero _),
      fun _ _ found => (by cases found), fun _ _ _ _ _ _ _ found => (by cases found)⟩
    · simp only at linked; split at linked <;> cases linked
    · simp only at below; split at below <;> exact absurd below (Nat.not_lt_zero _)

/-- Every step of the system keeps the order invariant. -/
theorem orderInv_step {cfg : QueueConfig} {w' : World α} (inv : OrderInv w w.clock)
    (segInv : SegInv w) (chain : ChainInv w) (cellInv : CellInv w)
    (fresh : w.calls w.started = none) (step : QueueStep cfg w w') : OrderInv w' w'.clock := by
  cases step with
  | enqueue item =>
    exact inv.invoke fresh ⟨fun idle => absurd rfl idle, nofun, nofun, Nat.one_pos, nofun⟩
      (fun _ => ⟨fun idle => absurd rfl idle, nofun, nofun⟩) rfl
  | dequeue =>
    exact inv.invoke fresh ⟨fun idle => absurd rfl idle, nofun, nofun⟩ (fun _ => trivial) rfl
  | run id moved =>
    unfold World.runCall at moved
    split at moved
    · obtain ⟨w'', step, rfl⟩ := Option.map_eq_some'.mp moved
      obtain ⟨-, -, -, clock, -⟩ := queueEnqueueStep_frame step
      show OrderInv w''.tick (w''.clock + 1)
      rw [clock]
      exact ((orderInv_enqueueStep inv segInv chain cellInv ‹_› rfl step).mono
        (Nat.le_succ _)).tick
    · obtain ⟨w'', step, rfl⟩ := Option.map_eq_some'.mp moved
      obtain ⟨-, -, -, clock, -⟩ := queueDequeueStep_frame step
      show OrderInv w''.tick (w''.clock + 1)
      rw [clock]
      exact (orderInv_dequeueStep inv segInv chain cellInv ‹_› rfl step).tick
    · cases moved

/-- The order invariant holds in every reachable state. -/
theorem orderInv_of_reachable {cfg : QueueConfig} (reach : QueueReachable cfg w) :
    OrderInv w w.clock := by
  induction reach with
  | init _ init => exact orderInv_init init
  | step reach step inv =>
    exact orderInv_step inv (segInv_of_reachable reach) (chainInv_of_reachable reach)
      (cellInv_of_reachable reach) (calls_eq_none_of_reachable reach _ (Nat.le_refl _)) step

end Steps

section Fifo

variable {w : World α}

/-- No cell comes before itself. -/
theorem CellRef.Before.ne {p q : CellRef} (before : p.Before q) : p ≠ q := by
  rintro rfl
  rcases before with lt | ⟨-, lt⟩ <;> exact Nat.lt_irrefl _ lt

/-- Items leave in the order their enqueues returned, in any interleaving. If the enqueue `ex` of
`x` returned (into cell `px`, at step `rx`) before the enqueue `ey` was invoked, and dequeue `d`
returned `ey`'s item `y` at step `rd`, then `x`'s cell was claimed by a dequeue invoked before `d`
returned, and any dequeue that returns `x` is another one, invoked before `d` returned. A single
consumer, whose dequeues never overlap, therefore receives one producer's items in order. -/
theorem queue_fifo {cfg : QueueConfig} (reach : QueueReachable cfg w)
    {ex ey d tx ty td rx rd : Nat} {x y : α} {px py : CellRef} {sy : CallStatus α}
    (xReturned : w.calls ex = some ⟨tx, .enqueued x px rx⟩)
    (yInvoked : w.calls ey = some ⟨ty, sy⟩) (returnedFirst : rx < ty)
    (yTaken : w.calls d = some ⟨td, .found (.used y ey) py rd⟩) :
    (∃ d' c', ClaimedBy w d' px ∧ w.calls d' = some c' ∧ c'.invokedAt < rd) ∧
    ∀ d'' t'' x'' p'' r'', w.calls d'' = some ⟨t'', .found (.used x'' ex) p'' r''⟩ →
      d'' ≠ d ∧ t'' < rd := by
  have cells := cellInv_of_reachable reach
  have order := orderInv_of_reachable reach
  -- `y` sits in the cell its enqueue wrote, which comes after `x`'s cell.
  obtain ⟨-, chainY, readY, -⟩ := cells.took ⟨td, rd, yTaken⟩
  obtain ⟨cy, foundY, placedY⟩ := cells.used_placed py y ey chainY readY
  rw [yInvoked] at foundY
  cases foundY
  have xFirst : px.Before py :=
    (order.beyond ex tx x px rx ey _ xReturned yInvoked returnedFirst).before_placed placedY
  -- `d` claimed `y`'s cell before it returned; `x`'s cell was claimed earlier still.
  obtain ⟨t, claimY, early⟩ := order.calls_order d _ yTaken
  obtain ⟨chainX, readX⟩ := cells.placed_used ex _ x px xReturned ⟨rfl, rfl⟩
  obtain ⟨cl, mem, cell, time⟩ := order.claims_ordered _ claimY px chainX xFirst
  obtain ⟨c', found', invoked⟩ := order.claims_invoked cl mem
  dsimp only at time
  have claimedX : ClaimedBy w cl.dequeuer px := ⟨cl.time, by rw [← cell]; exact mem⟩
  refine ⟨⟨cl.dequeuer, c', claimedX, found', by omega⟩, fun d'' t'' x'' p'' r'' took => ?_⟩
  -- A dequeue that returned `x` took `x`'s cell, so it is the one that claimed that cell.
  obtain ⟨mine, chainP, readP, -⟩ := cells.took ⟨t'', r'', took⟩
  obtain rfl := cells.writer_unique chainP chainX readP readX
  refine ⟨fun same => ?_, ?_⟩
  · subst same
    rw [yTaken] at took
    cases took
    exact xFirst.ne rfl
  · obtain rfl := cells.claimedBy_unique mine claimedX
    rw [found'] at took
    cases took
    dsimp only at invoked
    omega

/-- Two items enqueued one after the other, then two dequeues. -/
def fifoSchedule : List (QueueAction Nat) :=
  enqueueRun 0 0 ++ enqueueRun 1 1 ++ dequeueRun 2 ++ dequeueRun 3

/-- The run of `fifoSchedule` from a queue of two-cell segments. -/
def fifoRun : Option (World Nat) :=
  (queueInitSize smallConfig 0).bind fun w => w.exec smallConfig fifoSchedule

/-- In that run the second dequeue (call 3) returns the second item at step 23: the first item's
cell was claimed by a dequeue invoked before then, and every dequeue returning the first item is
another one invoked before then. -/
theorem fifoRun_fifo : ∃ w, fifoRun = some w ∧
    (∃ d' c', ClaimedBy w d' ⟨0, 0⟩ ∧ w.calls d' = some c' ∧ c'.invokedAt < 23) ∧
    ∀ d'' t'' x'' p'' r'', w.calls d'' = some ⟨t'', .found (.used x'' 0) p'' r''⟩ →
      d'' ≠ 3 ∧ t'' < 23 :=
  ⟨_, rfl, queue_fifo (@reachable_of_exec _ smallConfig 0 _ fifoSchedule rfl)
    (show _ = some ⟨0, .enqueued 0 ⟨0, 0⟩ 4⟩ by decide)
    (show _ = some ⟨5, .enqueued 1 ⟨0, 1⟩ 9⟩ by decide) (by decide)
    (show _ = some ⟨17, .found (.used 1 1) ⟨0, 1⟩ 23⟩ by decide)⟩

end Fifo

end Hatrack
