import Hatrack.Queue.Publish
import Mathlib.Data.List.Nodup

/-! The cells of the segment chain: each used cell holds the item of the enqueue call whose locals
still name it, each cell is handed out by at most one dequeuer's fetch-add, and a dequeuer takes
only the cell it was handed. -/

namespace Hatrack

variable {α : Type}

/-- The cell a reference names. -/
def World.cellAt (w : World α) (p : CellRef) : QueueItem α :=
  (w.segs p.segment).cells p.index

/-- A cell of the segment chain: in a published segment and below its size. -/
def InChain (w : World α) (p : CellRef) : Prop :=
  Published w p.segment ∧ p.index < (w.segs p.segment).size

/-- Dequeue call `d`'s fetch-add (line 284) handed it cell `p`. -/
def ClaimedBy (w : World α) (d : Nat) (p : CellRef) : Prop :=
  ∃ t, (⟨d, p, t⟩ : Claim) ∈ w.claims

/-- A `QUEUE_USED` cell. -/
def QueueItem.isUsed : QueueItem α → Bool
  | .used .. => true
  | _ => false

/-- An enqueuer whose item is in the chain: after its cell CAS (line 166) or its `next` CAS
(line 218) succeeded, until it returns. -/
def EnqueueFrame.written (f : EnqueueFrame α) : Bool :=
  match f.pc with
  | .subHelp | .addLen => true
  | .casSegments => !f.needToEnqueue
  | _ => false

/-- Call status `s` is that of an enqueue call that has written item `x` to cell `p`. -/
def CallStatus.Placed : CallStatus α → α → CellRef → Prop
  | .enqueuing f, x, p => f.item = x ∧ f.placed = p ∧ f.written = true
  | .enqueued y q _, x, p => y = x ∧ q = p
  | _, _, _ => False

/-- What a dequeue call's locals say about the cell it was handed, by the line it stands at. -/
def CallStatus.Taking (w : World α) (d : Nat) : CallStatus α → Prop
  | .dequeuing f =>
    (f.pc = .casCell → ClaimedBy w d ⟨f.segment, f.curIx⟩ ∧
      w.cellAt ⟨f.segment, f.curIx⟩ ≠ .tooSlow) ∧
    (f.pc = .subLen → ClaimedBy w d ⟨f.segment, f.curIx⟩ ∧
      w.cellAt ⟨f.segment, f.curIx⟩ = f.cellContents ∧ f.cellContents.isUsed = true)
  | .found contents p _ => ClaimedBy w d p ∧ w.cellAt p = contents ∧ contents.isUsed = true
  | _ => True

/-- The invariant of the cells of the chain and of the claims on them. -/
structure CellInv (w : World α) : Prop where
  used_placed : ∀ p x e, InChain w p → w.cellAt p = .used x e →
    ∃ c, w.calls e = some c ∧ c.status.Placed x p
  placed_used : ∀ e c x p, w.calls e = some c → c.status.Placed x p →
    InChain w p ∧ w.cellAt p = .used x e
  claims_nodup : (w.claims.map Claim.cell).Nodup
  claims_below : ∀ cl ∈ w.claims,
    InChain w cl.cell ∧ cl.cell.index < (w.segs cl.cell.segment).dequeueIndex
  tooSlow_claimed : ∀ p, InChain w p → w.cellAt p = .tooSlow → ∃ cl ∈ w.claims, cl.cell = p
  calls_taking : ∀ d c, w.calls d = some c → c.status.Taking w d

section Basics

variable {w w' : World α} {d : Nat} {s : CallStatus α}

/-- Reading a cell after one segment is replaced. -/
theorem cellAt_setSeg {n : Nat} {seg : QueueSegment α} {p : CellRef} :
    (w.setSeg n seg).cellAt p = if p.segment = n then seg.cells p.index else w.cellAt p := by
  simp only [World.cellAt, World.setSeg, writeAt_apply]
  split <;> rfl

/-- One dequeuer at most is handed each cell. -/
theorem CellInv.claimedBy_unique (inv : CellInv w) {d d' : Nat} {p : CellRef}
    (mine : ClaimedBy w d p) (theirs : ClaimedBy w d' p) : d = d' := by
  obtain ⟨t, mem⟩ := mine
  obtain ⟨t', mem'⟩ := theirs
  cases List.inj_on_of_nodup_map inv.claims_nodup mem mem' rfl
  rfl

/-- A dequeuer's claim on a cell survives a longer claim log and a cell that is either unchanged
or filled from empty with anything but the too-slow marker. -/
theorem CallStatus.Taking.mono (taking : s.Taking w d) (claims : ∀ cl ∈ w.claims, cl ∈ w'.claims)
    (cells : ∀ p, ClaimedBy w d p →
      w'.cellAt p = w.cellAt p ∨ (w.cellAt p = .empty ∧ w'.cellAt p ≠ .tooSlow)) :
    s.Taking w' d := by
  have claimed : ∀ p, ClaimedBy w d p → ClaimedBy w' d p := fun p ⟨t, mem⟩ => ⟨t, claims _ mem⟩
  -- A cell holding what the dequeuer read is not empty, so it is unchanged.
  have kept : ∀ p (x : QueueItem α), ClaimedBy w d p → w.cellAt p = x → x.isUsed = true →
      w'.cellAt p = x := fun p x mine read used => by
    rcases cells p mine with same | ⟨empty, -⟩
    · rw [same, read]
    · rw [read] at empty; subst empty; cases used
  cases s with
  | dequeuing f =>
    obtain ⟨atCas, atSub⟩ := taking
    refine ⟨fun pc => ?_, fun pc => ?_⟩
    · obtain ⟨mine, notSlow⟩ := atCas pc
      refine ⟨claimed _ mine, ?_⟩
      rcases cells _ mine with same | ⟨-, notSlow'⟩
      · rw [same]; exact notSlow
      · exact notSlow'
    · obtain ⟨mine, read, used⟩ := atSub pc
      exact ⟨claimed _ mine, kept _ _ mine read used, used⟩
  | found contents p _ =>
    obtain ⟨mine, read, used⟩ := taking
    exact ⟨claimed _ mine, kept _ _ mine read used, used⟩
  | _ => trivial

end Basics

section Written

variable {f g : EnqueueFrame α}

/-- The lines a fetch-add leads to come before the item is written. -/
theorem afterFetch_written (cfg : QueueConfig) : (f.afterFetch cfg).written = false := by
  simp only [EnqueueFrame.afterFetch, EnqueueFrame.written]
  split_ifs <;> rfl

/-- The lines after a successful cell CAS come after the item is written. -/
theorem afterWrite_written : f.afterWrite.written = true := by
  simp only [EnqueueFrame.afterWrite, EnqueueFrame.written]
  split_ifs <;> rfl

/-- After the pointer CAS loop the item is written unless the call must enqueue again. -/
theorem afterLink_written : f.afterLink.written = !f.needToEnqueue := by
  simp only [EnqueueFrame.afterLink, EnqueueFrame.written]
  split_ifs with again <;> simp [again]

/-- An enqueuer that has not written its item has placed nothing. -/
theorem placed_of_unwritten (unwritten : f.written = false) {x : α} {p : CellRef} :
    ¬ (CallStatus.enqueuing f).Placed x p := by
  rintro ⟨-, -, written⟩
  rw [unwritten] at written
  cases written

end Written

section Updates

variable {w : World α} {id : Nat} {c : Call α} {s : CallStatus α}

/-- A call moving to locals that place what the old ones placed, with a sound claim, keeps the
invariant. -/
theorem CellInv.restatus (inv : CellInv w) (call : w.calls id = some c)
    (samePlaced : ∀ x p, s.Placed x p ↔ c.status.Placed x p) (taking : s.Taking w id) :
    CellInv (w.setStatus id s) := by
  -- Only call `id` changes, and it places what it placed.
  have calls : ∀ e ce, (w.setStatus id s).calls e = some ce →
      ∃ ce', w.calls e = some ce' ∧ (∀ x p, ce.status.Placed x p ↔ ce'.status.Placed x p) ∧
        (e ≠ id → ce = ce') := by
    intro e ce found
    rw [World.setStatus_calls call] at found
    split at found
    · subst e; cases found
      exact ⟨c, call, samePlaced, fun other => absurd rfl other⟩
    · exact ⟨ce, found, fun _ _ => Iff.rfl, fun _ => rfl⟩
  refine ⟨fun p x e chain used => ?_, fun e ce x p found placed => ?_, inv.claims_nodup,
    inv.claims_below, inv.tooSlow_claimed, fun d cd found => ?_⟩
  · obtain ⟨ce, found, placed⟩ := inv.used_placed p x e chain used
    by_cases same : e = id
    · subst e
      rw [call] at found
      cases found
      exact ⟨{ c with status := s }, by rw [World.setStatus_calls call, if_pos rfl],
        (samePlaced x p).mpr placed⟩
    · exact ⟨ce, by rw [World.setStatus_calls call, if_neg same, found], placed⟩
  · obtain ⟨ce', found', same, -⟩ := calls e ce found
    exact inv.placed_used e ce' x p found' ((same x p).mp placed)
  · obtain ⟨cd', found', -, other⟩ := calls d cd found
    by_cases here : d = id
    · subst d
      rw [World.setStatus_calls call, if_pos rfl] at found
      cases found
      exact taking
    · rw [other here]
      exact inv.calls_taking d cd' found'

/-- The clock plays no part in the invariant. -/
theorem CellInv.tick (inv : CellInv w) : CellInv w.tick :=
  ⟨inv.used_placed, inv.placed_used, inv.claims_nodup, inv.claims_below, inv.tooSlow_claimed,
    inv.calls_taking⟩

/-- The queue record and the logs of released segments play no part in the invariant. -/
theorem CellInv.setShared (inv : CellInv w) (q : Queue) (retired freed : List Nat) :
    CellInv { w with queue := q, retired := retired, freed := freed } :=
  ⟨inv.used_placed, inv.placed_used, inv.claims_nodup, inv.claims_below, inv.tooSlow_claimed,
    inv.calls_taking⟩

/-- A change of the heap that publishes nothing new and keeps the cells and sizes of published
segments, their dequeue indices only growing, keeps the invariant. -/
theorem CellInv.congr {w' : World α} (inv : CellInv w) (calls : w'.calls = w.calls)
    (claims : w'.claims = w.claims) (pub : ∀ n, Published w' n ↔ Published w n)
    (kept : ∀ n, Published w n → (w'.segs n).cells = (w.segs n).cells ∧
      (w'.segs n).size = (w.segs n).size ∧ (w.segs n).dequeueIndex ≤ (w'.segs n).dequeueIndex) :
    CellInv w' := by
  have inChain : ∀ p, InChain w' p ↔ InChain w p := fun p => by
    refine ⟨fun ⟨published, below⟩ => ?_, fun ⟨published, below⟩ => ?_⟩
    · have published := (pub _).mp published
      exact ⟨published, (kept _ published).2.1 ▸ below⟩
    · exact ⟨(pub _).mpr published, (kept _ published).2.1.symm ▸ below⟩
  have cells : ∀ p, InChain w p → w'.cellAt p = w.cellAt p := fun p chain => by
    simp only [World.cellAt, (kept _ chain.1).1]
  refine ⟨fun p x e chain used => ?_, fun e ce x p found placed => ?_, claims ▸ inv.claims_nodup,
    fun cl mem => ?_, fun p chain slow => ?_, fun d cd found => ?_⟩
  · have chain := (inChain p).mp chain
    rw [calls]
    exact inv.used_placed p x e chain (cells p chain ▸ used)
  · rw [calls] at found
    obtain ⟨chain, used⟩ := inv.placed_used e ce x p found placed
    exact ⟨(inChain p).mpr chain, (cells p chain).trans used⟩
  · rw [claims] at mem
    obtain ⟨chain, below⟩ := inv.claims_below cl mem
    exact ⟨(inChain _).mpr chain, Nat.lt_of_lt_of_le below (kept _ chain.1).2.2⟩
  · have chain := (inChain p).mp chain
    rw [claims]
    exact inv.tooSlow_claimed p chain (cells p chain ▸ slow)
  · rw [calls] at found
    refine (inv.calls_taking d cd found).mono (fun cl mem => claims ▸ mem) fun p ⟨t, mem⟩ => ?_
    exact .inl (cells p (inv.claims_below _ mem).1)

/-- A fetch-add on the indices of a segment keeps the invariant when the dequeue index only
grows. -/
theorem CellInv.rewriteIndices (inv : CellInv w) {n : Nat}
    (enqueueIndex dequeueIndex : Nat) (grows : (w.segs n).dequeueIndex ≤ dequeueIndex) :
    CellInv (w.setSeg n { w.segs n with enqueueIndex, dequeueIndex }) := by
  refine inv.congr rfl rfl (fun k => published_setSeg rfl) fun k _ => ?_
  simp only [World.setSeg, writeAt_apply]
  split
  · subst k; exact ⟨rfl, rfl, grows⟩
  · exact ⟨rfl, rfl, Nat.le_refl _⟩

/-- Allocating a segment that links nowhere keeps the invariant: it is not published. -/
theorem CellInv.alloc (inv : CellInv w) (chain : ChainInv w) (seg : QueueSegment α)
    (fresh : seg.next = none) :
    CellInv { w with segs := writeAt w.segs w.allocated seg, allocated := w.allocated + 1 } := by
  refine inv.congr rfl rfl (fun k => published_congr (chain.alloc_next seg fresh))
    fun k published => ?_
  have other : k ≠ w.allocated := fun same => chain.fresh_unpublished (same ▸ published)
  dsimp only
  rw [writeAt_ne other]
  exact ⟨rfl, rfl, Nat.le_refl _⟩

/-- A dequeuer's fetch-add that hands it the cell at a published segment's dequeue index, below
the segment's size, keeps the invariant once the claim is logged. -/
theorem CellInv.claim (inv : CellInv w) {n : Nat} (published : Published w n)
    (below : (w.segs n).dequeueIndex < (w.segs n).size) (d t : Nat) :
    CellInv { w.setSeg n { w.segs n with dequeueIndex := (w.segs n).dequeueIndex + 1 } with
      claims := w.claims ++ [⟨d, ⟨n, (w.segs n).dequeueIndex⟩, t⟩] } := by
  have moved := inv.rewriteIndices (w.segs n).enqueueIndex
    ((w.segs n).dequeueIndex + 1) (Nat.le_succ _)
  -- Every earlier claim on the segment is below its old dequeue index.
  have fresh : (⟨n, (w.segs n).dequeueIndex⟩ : CellRef) ∉ w.claims.map Claim.cell := by
    intro mem
    obtain ⟨cl, mem, same⟩ := List.mem_map.mp mem
    have := (inv.claims_below cl mem).2
    rw [same] at this
    exact Nat.lt_irrefl _ this
  have chain : InChain w ⟨n, (w.segs n).dequeueIndex⟩ := ⟨published, below⟩
  have stays : Published (w.setSeg n { w.segs n with
      dequeueIndex := (w.segs n).dequeueIndex + 1 }) n := (published_setSeg (by rfl)).mpr published
  refine ⟨moved.used_placed, moved.placed_used, ?_, fun cl mem => ?_,
    fun p chain slow => ?_, fun d' cd found => ?_⟩
  · rw [List.map_append, List.nodup_append]
    refine ⟨inv.claims_nodup, List.nodup_singleton _, fun ⦃x⦄ old new => ?_⟩
    rw [List.mem_singleton.mp new] at old
    exact fresh old
  · rcases List.mem_append.mp mem with old | new
    · exact moved.claims_below cl old
    · rw [List.mem_singleton.mp new]
      refine ⟨⟨stays, ?_⟩, ?_⟩
      · show (w.segs n).dequeueIndex < (writeAt w.segs n _ n).size
        rw [writeAt_same]
        exact below
      · show (w.segs n).dequeueIndex < (writeAt w.segs n _ n).dequeueIndex
        rw [writeAt_same]
        exact Nat.lt_succ_self _
  · obtain ⟨cl, mem, same⟩ := moved.tooSlow_claimed p chain slow
    exact ⟨cl, List.mem_append_left _ mem, same⟩
  · exact (moved.calls_taking d' cd found).mono (fun cl mem => List.mem_append_left _ mem)
      fun _ _ => .inl rfl

end Updates

section Fill

variable {w : World α} {id : Nat} {c : Call α} {s : CallStatus α}

/-- Writing one cell of a segment changes that cell only. -/
theorem cellAt_fill {n i : Nat} {v : QueueItem α} {p : CellRef} :
    (w.setSeg n { w.segs n with cells := writeAt (w.segs n).cells i v }).cellAt p =
      if p = ⟨n, i⟩ then v else w.cellAt p := by
  obtain ⟨m, j⟩ := p
  rw [cellAt_setSeg]
  dsimp only
  by_cases same : m = n
  · subst m
    by_cases here : j = i
    · subst j; simp
    · rw [if_pos rfl, if_neg (by simp [here])]
      exact writeAt_ne here
  · rw [if_neg same, if_neg (by simp [same])]

/-- Writing a cell publishes nothing new. -/
theorem published_fill {n i k : Nat} {v : QueueItem α} :
    Published (w.setSeg n { w.segs n with cells := writeAt (w.segs n).cells i v }) k ↔
      Published w k :=
  published_setSeg rfl

/-- Writing a cell leaves the chain as it was. -/
theorem inChain_fill {n i : Nat} {v : QueueItem α} {p : CellRef} :
    InChain (w.setSeg n { w.segs n with cells := writeAt (w.segs n).cells i v }) p ↔
      InChain w p := by
  unfold InChain
  rw [published_fill]
  simp only [World.setSeg, writeAt_apply]
  split
  · subst n; exact Iff.rfl
  · exact Iff.rfl

/-- Filling an empty cell of the chain with `v` while call `id`, which had placed nothing, moves to
a status that places exactly what the filled cell shows it wrote, keeps the invariant: the
enqueuer's cell CAS (line 166) and the dequeuer's too-slow mark (line 291). -/
theorem CellInv.fill (inv : CellInv w) (call : w.calls id = some c) {n i : Nat}
    {v : QueueItem α} (chain : InChain w ⟨n, i⟩) (empty : w.cellAt ⟨n, i⟩ = .empty)
    (unplaced : ∀ x p, ¬ c.status.Placed x p)
    (placed : ∀ x p, s.Placed x p ↔ v = .used x id ∧ p = ⟨n, i⟩)
    (writer : ∀ x e, v = .used x e → e = id)
    (claimedSlow : v = .tooSlow → ClaimedBy w id ⟨n, i⟩)
    (idle : ∀ w' : World α, s.Taking w' id) :
    CellInv ((w.setSeg n { w.segs n with cells := writeAt (w.segs n).cells i v }).setStatus id
      s) := by
  have cells := fun {p : CellRef} => cellAt_fill (w := w) (n := n) (i := i) (v := v) (p := p)
  have inChain := fun {p : CellRef} => inChain_fill (w := w) (n := n) (i := i) (v := v) (p := p)
  have calls : ∀ e, ((w.setSeg n { w.segs n with cells := writeAt (w.segs n).cells i v }).setStatus
      id s).calls e = if e = id then some { c with status := s } else w.calls e :=
    World.setStatus_calls call
  refine ⟨fun p x e ch used => ?_, fun e ce x p found pl => ?_, inv.claims_nodup,
    fun cl mem => ?_, fun p ch slow => ?_, fun d cd found => ?_⟩
  · change (w.setSeg n _).cellAt p = _ at used
    rw [cells] at used
    split at used
    · -- The filled cell: its writer is the mover, which now places it.
      subst p
      have mover := writer x e used
      subst e
      exact ⟨_, (calls id).trans (if_pos rfl), (placed x _).mpr ⟨used, rfl⟩⟩
    · obtain ⟨ce, found, pl⟩ := inv.used_placed p x e (inChain.mp ch) used
      have other : e ≠ id := fun same => by
        subst same; rw [call] at found; cases found; exact unplaced x p pl
      exact ⟨ce, (calls e).trans ((if_neg other).trans found), pl⟩
  · rw [calls] at found
    split at found
    · subst e
      cases found
      obtain ⟨filled, rfl⟩ := (placed x p).mp pl
      refine ⟨inChain.mpr chain, ?_⟩
      change (w.setSeg n _).cellAt _ = _
      rw [cells, if_pos rfl, filled]
    · obtain ⟨ch, used⟩ := inv.placed_used e ce x p found pl
      have other : p ≠ ⟨n, i⟩ := fun same => by rw [same, empty] at used; cases used
      refine ⟨inChain.mpr ch, ?_⟩
      change (w.setSeg n _).cellAt _ = _
      rw [cells, if_neg other, used]
  · obtain ⟨ch, below⟩ := inv.claims_below cl mem
    refine ⟨inChain.mpr ch, ?_⟩
    simp only [World.setStatus, World.setSeg, writeAt_apply]
    split
    · subst n; exact below
    · exact below
  · change (w.setSeg n _).cellAt p = _ at slow
    rw [cells] at slow
    split at slow
    · subst p
      obtain ⟨t, mem⟩ := claimedSlow slow
      exact ⟨_, mem, rfl⟩
    · exact inv.tooSlow_claimed p (inChain.mp ch) slow
  · rw [calls] at found
    split at found
    · subst d; cases found; exact idle _
    · -- Another dequeuer's cell is not the filled one, or is filled with no too-slow marker.
      refine (inv.calls_taking d cd found).mono (fun _ mem => mem) fun p mine => ?_
      change (w.setSeg n _).cellAt p = _ ∨ (_ ∧ (w.setSeg n _).cellAt p ≠ _)
      rw [cells]
      split
      · subst p
        refine .inr ⟨empty, fun slow => ‹¬d = id› ?_⟩
        exact inv.claimedBy_unique mine (claimedSlow slow)
      · exact .inl rfl

/-- Linking a segment changes no cell, size or dequeue index. -/
theorem setNext_segs {n m k : Nat} :
    let seg := (w.setSeg n { w.segs n with next := some m }).segs k
    seg.cells = (w.segs k).cells ∧ seg.size = (w.segs k).size ∧
      seg.dequeueIndex = (w.segs k).dequeueIndex := by
  simp only [World.setSeg, writeAt_apply]
  split
  · subst k; exact ⟨rfl, rfl, rfl⟩
  · exact ⟨rfl, rfl, rfl⟩

/-- Linking a segment changes no cell. -/
theorem cellAt_link {n m : Nat} {p : CellRef} :
    (w.setSeg n { w.segs n with next := some m }).cellAt p = w.cellAt p :=
  congrFun (setNext_segs (w := w) (n := n) (m := m) (k := p.segment)).1 p.index

/-- Linking segment `m` after a segment with no successor adds `m`'s cells to the chain. -/
theorem inChain_link {n m : Nat} {p : CellRef} (free : (w.segs n).next = none) :
    InChain (w.setSeg n { w.segs n with next := some m }) p ↔
      InChain w p ∨ (p.segment = m ∧ p.index < (w.segs m).size) := by
  unfold InChain
  rw [published_link free, (setNext_segs (w := w) (n := n) (m := m) (k := p.segment)).2.1,
    or_and_right]
  exact or_congr_right ⟨fun ⟨fresh, below⟩ => ⟨fresh, fresh ▸ below⟩,
    fun ⟨fresh, below⟩ => ⟨fresh, fresh ▸ below⟩⟩

/-- The cells of the segment an enqueuer builds at lines 211 to 215: its item in cell 0, every
other cell empty. -/
theorem enqueueSuccessor_cells {f : EnqueueFrame α} {j : Nat} :
    (enqueueSuccessor f id).cells j = if j = 0 then .used f.item id else .empty := by
  simp only [enqueueSuccessor, writeAt_apply]

/-- Winning the `next` CAS (line 218) adds the linked segment to the chain, with the winner's item
in cell 0 and every other cell empty, and the winner's locals then name cell 0. -/
theorem CellInv.link (inv : CellInv w) (segInv : SegInv w) {f : EnqueueFrame α}
    (call : w.calls id = some c) (status : c.status = .enqueuing f) (pc : f.pc = .casNext)
    (free : (w.segs f.segment).next = none) :
    CellInv ((w.setSeg f.segment { w.segs f.segment with next := some f.newSegment }).setStatus id
      (.enqueuing { f with
        needToEnqueue := false, placed := ⟨f.newSegment, 0⟩, pc := .casSegments })) := by
  have ok : SegCallOk w id (.enqueuing f) := status ▸ segInv.calls_ok id c call
  obtain ⟨-, shape, pos⟩ := (ok.2.2.1 pc).2
  have inChain := fun {p : CellRef} => inChain_link (w := w) (m := f.newSegment) (p := p) free
  have fresh : ∀ j, w.cellAt ⟨f.newSegment, j⟩ = if j = 0 then .used f.item id else .empty :=
    fun j => by rw [World.cellAt, shape, enqueueSuccessor_cells]
  have calls : ∀ e, ((w.setSeg f.segment { w.segs f.segment with
      next := some f.newSegment }).setStatus id (.enqueuing { f with
        needToEnqueue := false, placed := ⟨f.newSegment, 0⟩, pc := .casSegments })).calls e =
      if e = id then some { c with status := .enqueuing { f with
        needToEnqueue := false, placed := ⟨f.newSegment, 0⟩, pc := .casSegments } }
      else w.calls e :=
    World.setStatus_calls call
  have unplaced : ∀ x p, ¬ c.status.Placed x p := fun x p => by
    rw [status]; exact placed_of_unwritten (by simp [EnqueueFrame.written, pc])
  refine ⟨fun p x e ch used => ?_, fun e ce x p found pl => ?_, inv.claims_nodup,
    fun cl mem => ?_, fun p ch slow => ?_, fun d cd found => ?_⟩
  · -- A used cell of the old chain was placed by a call other than the winner, which had placed
    -- nothing; cell 0 of the linked segment holds the winner's item.
    change (w.setSeg f.segment _).cellAt p = _ at used
    rw [cellAt_link] at used
    rcases inChain.mp ch with old | ⟨linked, -⟩
    · obtain ⟨ce, found, pl⟩ := inv.used_placed p x e old used
      have other : e ≠ id := fun same => by
        subst same; rw [call] at found; cases found; exact unplaced x p pl
      exact ⟨ce, (calls e).trans ((if_neg other).trans found), pl⟩
    · obtain ⟨m, j⟩ := p
      dsimp only at linked
      subst m
      rw [fresh] at used
      split at used
      · rename_i zero
        subst zero
        cases used
        exact ⟨_, (calls id).trans (if_pos rfl), rfl, rfl, rfl⟩
      · cases used
  · -- The winner's locals name cell 0 of the linked segment; every other call's cell is kept.
    rw [calls] at found
    split at found
    · subst e
      cases found
      obtain ⟨rfl, rfl, -⟩ := pl
      refine ⟨inChain.mpr (.inr ⟨rfl, by rw [shape]; exact pos⟩), ?_⟩
      exact cellAt_link.trans ((fresh 0).trans (if_pos rfl))
    · obtain ⟨ch, used⟩ := inv.placed_used e ce x p found pl
      exact ⟨inChain.mpr (.inl ch), cellAt_link.trans used⟩
  · -- Claims are on the old chain, below dequeue indices the link keeps.
    obtain ⟨ch, below⟩ := inv.claims_below cl mem
    exact ⟨inChain.mpr (.inl ch), (setNext_segs (w := w)).2.2 ▸ below⟩
  · -- The linked segment holds no too-slow marker.
    change (w.setSeg f.segment _).cellAt p = _ at slow
    rw [cellAt_link] at slow
    rcases inChain.mp ch with old | ⟨linked, -⟩
    · exact inv.tooSlow_claimed p old slow
    · obtain ⟨m, j⟩ := p
      dsimp only at linked
      subst m
      rw [fresh] at slow
      split at slow <;> cases slow
  · -- No cell a dequeuer may be taking changes.
    rw [calls] at found
    split at found
    · subst d; cases found; trivial
    · exact (inv.calls_taking d cd found).mono (fun _ mem => mem) fun p _ => .inl cellAt_link

end Fill

section Steps

variable {w : World α} {id : Nat} {c : Call α}

/-- An enqueuer moving to locals with the same item, the same placed cell and the same progress
keeps the invariant. -/
theorem CellInv.moveEnqueuer (inv : CellInv w) (call : w.calls id = some c) {f g : EnqueueFrame α}
    (status : c.status = .enqueuing f) (item : g.item = f.item) (placed : g.placed = f.placed)
    (written : g.written = f.written) : CellInv (w.setStatus id (.enqueuing g)) :=
  inv.restatus call
    (fun x p => by rw [status]; simp only [CallStatus.Placed, item, placed, written])
    trivial

/-- A dequeuer moving to locals with a sound claim keeps the invariant. -/
theorem CellInv.moveDequeuer (inv : CellInv w) (call : w.calls id = some c) {f g : DequeueFrame α}
    (status : c.status = .dequeuing f) (taking : (CallStatus.dequeuing g).Taking w id) :
    CellInv (w.setStatus id (.dequeuing g)) :=
  inv.restatus call (fun _ _ => by rw [status]; exact Iff.rfl) taking

/-- The enqueuer's cell CAS (line 166) on an empty cell of its segment writes its item there. -/
theorem CellInv.write (inv : CellInv w) (segInv : SegInv w) (call : w.calls id = some c)
    {f : EnqueueFrame α} (status : c.status = .enqueuing f) (pc : f.pc = .casCell)
    (fits : f.curIx < (w.segs f.segment).size) (empty : (w.segs f.segment).cells f.curIx = .empty) :
    CellInv ((w.setSeg f.segment { w.segs f.segment with
      cells := writeAt (w.segs f.segment).cells f.curIx (.used f.item id) }).setStatus id
      (.enqueuing { f with placed := ⟨f.segment, f.curIx⟩ }.afterWrite)) := by
  have ok : SegCallOk w id (.enqueuing f) := status ▸ segInv.calls_ok id c call
  refine inv.fill call ⟨ok.1 (by simp [pc]), fits⟩ empty (fun x p => ?_) (fun x p => ?_)
    (fun x e written => ?_) nofun fun _ => trivial
  · rw [status]; exact placed_of_unwritten (by simp [EnqueueFrame.written, pc])
  · -- The written cell is the one its locals now name.
    simp only [CallStatus.Placed, afterWrite_written, and_true, QueueItem.used.injEq, true_and]
    exact ⟨fun ⟨item, place⟩ => ⟨item, place.symm⟩, fun ⟨item, place⟩ => ⟨item, place.symm⟩⟩
  · cases written; rfl

/-- A dequeuer that finds its claimed cell empty marks it too slow (line 291). -/
theorem CellInv.mark (inv : CellInv w) (call : w.calls id = some c) {f : DequeueFrame α}
    (status : c.status = .dequeuing f) (pc : f.pc = .casCell)
    (empty : (w.segs f.segment).cells f.curIx = .empty) :
    CellInv ((w.setSeg f.segment { w.segs f.segment with
      cells := writeAt (w.segs f.segment).cells f.curIx .tooSlow }).setStatus id
      (.dequeuing { f with pc := .loadDequeueIndex })) := by
  have taking : c.status.Taking w id := inv.calls_taking id c call
  rw [status] at taking
  obtain ⟨claimed, -⟩ := taking.1 pc
  obtain ⟨t, mem⟩ := claimed
  refine inv.fill call (inv.claims_below _ mem).1 empty (fun x p => ?_) (fun x p => ?_) nofun
    (fun _ => ⟨t, mem⟩) fun _ => ⟨nofun, nofun⟩
  · rw [status]; exact nofun
  · exact iff_of_false nofun (fun ⟨marked, _⟩ => by cases marked)

/-- A dequeuer whose fetch-add hands it a cell below the segment's size logs the claim; the cell
is not yet marked too slow, since only its claimer marks it. -/
theorem CellInv.fetchClaim (inv : CellInv w) (segInv : SegInv w) (call : w.calls id = some c)
    {f : DequeueFrame α} (status : c.status = .dequeuing f) (pc : f.pc = .fetchIndex)
    (below : (w.segs f.segment).dequeueIndex < (w.segs f.segment).size) :
    CellInv ({ w.setSeg f.segment { w.segs f.segment with
        dequeueIndex := (w.segs f.segment).dequeueIndex + 1 } with
      claims := w.claims ++ [(⟨id, ⟨f.segment, (w.segs f.segment).dequeueIndex⟩, w.clock⟩ : Claim)]
      }.setStatus
      id (.dequeuing { f with curIx := (w.segs f.segment).dequeueIndex, pc := .casCell })) := by
  have ok : SegCallOk w id (.dequeuing f) := status ▸ segInv.calls_ok id c call
  have published := (ok.1 (by simp [pc])).1
  refine (inv.claim published below id w.clock).moveDequeuer call status ?_
  refine ⟨fun _ => ?_, nofun⟩
  refine ⟨⟨w.clock, List.mem_append_right _ (List.mem_singleton_self _)⟩, fun slow => ?_⟩
  -- A too-slow cell was claimed before, so lies below the dequeue index.
  change (w.setSeg f.segment _).cellAt _ = _ at slow
  rw [cellAt_setSeg, if_pos rfl] at slow
  obtain ⟨cl, mem, same⟩ :=
    inv.tooSlow_claimed ⟨f.segment, (w.segs f.segment).dequeueIndex⟩ ⟨published, below⟩ slow
  have := (inv.claims_below cl mem).2
  rw [same] at this
  exact Nat.lt_irrefl _ this

/-- An enqueue call returns (after line 173 or 243) naming the cell it wrote. -/
theorem CellInv.returnEnqueued (inv : CellInv w) (call : w.calls id = some c)
    {f : EnqueueFrame α} (status : c.status = .enqueuing f) (pc : f.pc = .addLen) (t : Nat) :
    CellInv (w.setStatus id (.enqueued f.item f.placed t)) := by
  refine inv.restatus call (fun x p => ?_) trivial
  rw [status]
  simp [CallStatus.Placed, EnqueueFrame.written, pc]

/-- A call that placed nothing returns with a status that places nothing and claims nothing. -/
theorem CellInv.returnIdle (inv : CellInv w) (call : w.calls id = some c) {f : DequeueFrame α}
    (status : c.status = .dequeuing f) (t : Nat) :
    CellInv (w.setStatus id (.notFound t)) :=
  inv.restatus call (fun _ _ => by rw [status]; exact Iff.rfl) trivial

/-- A dequeue call returns (line 297) the contents of the cell it claimed. -/
theorem CellInv.returnFound (inv : CellInv w) (call : w.calls id = some c) {f : DequeueFrame α}
    (status : c.status = .dequeuing f) (pc : f.pc = .subLen) (t : Nat) :
    CellInv (w.setStatus id (.found f.cellContents ⟨f.segment, f.curIx⟩ t)) := by
  have taking : c.status.Taking w id := inv.calls_taking id c call
  rw [status] at taking
  exact inv.restatus call (fun _ _ => by rw [status]; exact Iff.rfl) (taking.2 pc)

/-- Every step of `queue_enqueue` keeps the cell invariant. -/
theorem cellInv_enqueueStep {cfg : QueueConfig} {w' : World α} {f : EnqueueFrame α}
    (inv : CellInv w) (segInv : SegInv w) (chain : ChainInv w) (call : w.calls id = some c)
    (status : c.status = .enqueuing f) (step : queueEnqueueStep cfg w id f = some w') :
    CellInv w' := by
  -- Away from the two CAS that write an item, the item, its cell and the progress are kept.
  cases pc : f.pc <;> simp only [queueEnqueueStep, pc] at step
  case readSegments =>
    cases step
    exact inv.moveEnqueuer call status (by rfl) (by rfl) (by simp [EnqueueFrame.written, pc])
  case fetchIndex =>
    cases step
    exact (inv.rewriteIndices ((w.segs f.segment).enqueueIndex + f.step)
      (w.segs f.segment).dequeueIndex (Nat.le_refl _)).moveEnqueuer call status (by rfl) (by rfl)
      (by rw [afterFetch_written]; simp [EnqueueFrame.written, pc])
  case casCell =>
    split at step
    · split at step <;> cases step
      · exact inv.write segInv call status pc ‹_› ‹_›
      · exact inv.moveEnqueuer call status (by rfl) (by rfl) (by simp [EnqueueFrame.written, pc])
    · cases step
  case addHelp =>
    cases step
    exact (inv.setShared { w.queue with helpNeeded := w.queue.helpNeeded + 1 } w.retired
      w.freed).moveEnqueuer call status (by rfl) (by rfl) (by simp [EnqueueFrame.written, pc])
  case rereadHelped | reread =>
    split at step <;> cases step <;>
      exact inv.moveEnqueuer call status (by rfl) (by rfl) (by simp [EnqueueFrame.written, pc])
  case readHelp =>
    cases step
    exact inv.moveEnqueuer call status (by rfl) (by rfl) (by simp [EnqueueFrame.written, pc])
  case allocSegment =>
    cases step
    exact (inv.alloc chain (enqueueSuccessor f id) rfl).moveEnqueuer call status (by rfl) (by rfl)
      (by simp [EnqueueFrame.written, pc])
  case casNext =>
    split at step <;> cases step
    · exact inv.link segInv call status pc ‹_›
    · exact (inv.setShared w.queue w.retired (w.freed ++ [f.newSegment])).moveEnqueuer call status
        (by rfl) (by rfl) (by simp [EnqueueFrame.written, pc])
  case casSegments =>
    have written : f.written = !f.needToEnqueue := by simp [EnqueueFrame.written, pc]
    split at step
    · cases step
      exact (inv.setShared { w.queue with segments := ⟨f.newSegment, f.segments.dequeueSegment⟩ }
        w.retired w.freed).moveEnqueuer call status (by rfl) (by rfl)
        (by rw [afterLink_written, written])
    · split at step <;> cases step
      · exact inv.moveEnqueuer call status (by rfl) (by rfl) (by rw [afterLink_written, written])
      · exact inv.moveEnqueuer call status (by rfl) (by rfl) (by simp [EnqueueFrame.written, pc])
  case subHelp =>
    cases step
    exact (inv.setShared { w.queue with helpNeeded := w.queue.helpNeeded - 1 } w.retired
      w.freed).moveEnqueuer call status (by rfl) (by rfl) (by simp [EnqueueFrame.written, pc])
  case addLen =>
    cases step
    exact (inv.setShared { w.queue with len := w.queue.len + 1 } w.retired
      w.freed).returnEnqueued call status pc w.clock

/-- Every step of `queue_dequeue` keeps the cell invariant. -/
theorem cellInv_dequeueStep {w' : World α} {f : DequeueFrame α} (inv : CellInv w)
    (segInv : SegInv w) (call : w.calls id = some c) (status : c.status = .dequeuing f)
    (step : queueDequeueStep w id f = some w') : CellInv w' := by
  -- Away from its claim, a dequeuer's locals say nothing about cells.
  cases pc : f.pc <;> simp only [queueDequeueStep, pc] at step
  case readSegments | loadDequeueIndex =>
    cases step
    exact inv.moveDequeuer call status (by exact ⟨nofun, nofun⟩)
  case loadEnqueueIndex =>
    split at step
    · cases step
      exact inv.moveDequeuer call status (by exact ⟨nofun, nofun⟩)
    · split at step <;> cases step
      · exact inv.returnIdle call status w.clock
      · exact inv.moveDequeuer call status (by exact ⟨nofun, nofun⟩)
  case fetchIndex =>
    split at step <;> cases step
    · exact (inv.rewriteIndices (w.segs f.segment).enqueueIndex
        ((w.segs f.segment).dequeueIndex + 1) (Nat.le_succ _)).moveDequeuer call status
        (by exact ⟨nofun, nofun⟩)
    · exact inv.fetchClaim segInv call status pc (Nat.lt_of_not_le ‹_›)
  case casCell =>
    have taking : c.status.Taking w id := inv.calls_taking id c call
    rw [status] at taking
    obtain ⟨claimed, notSlow⟩ := taking.1 pc
    split at step <;> cases step
    · exact inv.mark call status pc ‹_›
    · -- The cell holds neither the empty marker nor the too-slow one: it holds an item.
      rename_i notEmpty
      refine inv.moveDequeuer call status ⟨nofun, fun _ => ⟨claimed, rfl, ?_⟩⟩
      cases read : (w.segs f.segment).cells f.curIx with
      | empty => exact (notEmpty read).elim
      | tooSlow => exact (notSlow read).elim
      | used => rfl
  case subLen =>
    cases step
    exact (inv.setShared { w.queue with len := w.queue.len - 1 } w.retired w.freed).returnFound
      call status pc w.clock
  case readNext =>
    split at step <;> cases step
    · exact inv.returnIdle call status w.clock
    · exact inv.moveDequeuer call status (by exact ⟨nofun, nofun⟩)
  case casSegments =>
    split at step
    · cases step
      exact (inv.setShared { w.queue with
        segments := ⟨f.segments.enqueueSegment, f.newSegment⟩ } (w.retired ++ [f.segment])
        w.freed).moveDequeuer call status (by exact ⟨nofun, nofun⟩)
    · split at step <;> cases step <;>
        exact inv.moveDequeuer call status (by exact ⟨nofun, nofun⟩)

/-- A queue just set up satisfies the cell invariant: every cell is empty and nothing is claimed. -/
theorem cellInv_init {cfg : QueueConfig} {sizeLog : Nat}
    (init : queueInitSize cfg sizeLog = some w) :
    CellInv w := by
  unfold queueInitSize at init
  split at init
  · cases init
  · cases init
    refine ⟨fun p x e _ used => ?_, fun _ _ _ _ found => (by cases found), List.nodup_nil,
      nofun, fun p _ slow => ?_, fun _ _ found => by cases found⟩
    · simp only [World.cellAt] at used; split at used <;> cases used
    · simp only [World.cellAt] at slow; split at slow <;> cases slow

/-- A new call that places nothing and holds no claim keeps the invariant. -/
theorem CellInv.invoke (inv : CellInv w) (fresh : w.calls w.started = none) {s : CallStatus α}
    (unplaced : ∀ x p, ¬ s.Placed x p) (idle : ∀ w' : World α, s.Taking w' w.started) :
    CellInv (w.invoke s) := by
  have calls : ∀ e, (w.invoke s).calls e =
      if e = w.started then some ⟨w.clock, s⟩ else w.calls e := fun e => writeAt_apply
  refine ⟨fun p x e ch used => ?_, fun e ce x p found pl => ?_, inv.claims_nodup,
    inv.claims_below, inv.tooSlow_claimed, fun d cd found => ?_⟩
  · obtain ⟨ce, found, pl⟩ := inv.used_placed p x e ch used
    have other : e ≠ w.started := fun same => by rw [same, fresh] at found; cases found
    exact ⟨ce, (calls e).trans ((if_neg other).trans found), pl⟩
  · rw [calls] at found
    split at found
    · cases found; exact (unplaced x p pl).elim
    · exact inv.placed_used e ce x p found pl
  · rw [calls] at found
    split at found
    · subst d; cases found; exact idle _
    · exact inv.calls_taking d cd found

/-- Every step of the system keeps the cell invariant. -/
theorem cellInv_step {cfg : QueueConfig} {w' : World α} (inv : CellInv w) (segInv : SegInv w)
    (chain : ChainInv w) (fresh : w.calls w.started = none) (step : QueueStep cfg w w') :
    CellInv w' := by
  cases step with
  | enqueue item =>
    exact inv.invoke fresh (fun _ _ => placed_of_unwritten (by rfl)) fun _ => trivial
  | dequeue => exact inv.invoke fresh (fun _ _ => nofun) fun _ => ⟨nofun, nofun⟩
  | run id moved =>
    unfold World.runCall at moved
    split at moved
    · obtain ⟨w'', step, rfl⟩ := Option.map_eq_some'.mp moved
      exact (cellInv_enqueueStep inv segInv chain ‹_› rfl step).tick
    · obtain ⟨w'', step, rfl⟩ := Option.map_eq_some'.mp moved
      exact (cellInv_dequeueStep inv segInv ‹_› rfl step).tick
    · cases moved

/-- The cell invariant holds in every reachable state. -/
theorem cellInv_of_reachable {cfg : QueueConfig} (reach : QueueReachable cfg w) : CellInv w := by
  induction reach with
  | init _ init => exact cellInv_init init
  | step reach step inv =>
    exact cellInv_step inv (segInv_of_reachable reach) (chainInv_of_reachable reach)
      (calls_eq_none_of_reachable reach _ (Nat.le_refl _)) step

end Steps

section NoDuplicates

variable {w : World α}

/-- The item a `queue_enqueue` call was passed. -/
def CallStatus.enqueueItem : CallStatus α → Option α
  | .enqueuing f => some f.item
  | .enqueued x _ _ => some x
  | _ => none

/-- Dequeue call `d` returned `found = true` with `contents`, taken from cell `p`. -/
def TookFrom (w : World α) (d : Nat) (contents : QueueItem α) (p : CellRef) : Prop :=
  ∃ t r, w.calls d = some ⟨t, .found contents p r⟩

/-- A call places at most one item, in at most one cell. -/
theorem CallStatus.Placed.unique {s : CallStatus α} {x x' : α} {p p' : CellRef}
    (placed : s.Placed x p) (placed' : s.Placed x' p') : x = x' ∧ p = p' := by
  cases s with
  | enqueuing f => exact ⟨placed.1.symm.trans placed'.1, placed.2.1.symm.trans placed'.2.1⟩
  | enqueued y q _ => exact ⟨placed.1.symm.trans placed'.1, placed.2.symm.trans placed'.2⟩
  | _ => exact placed.elim

/-- A call that placed an item is an enqueue call passed that item. -/
theorem CallStatus.Placed.enqueueItem {s : CallStatus α} {x : α} {p : CellRef}
    (placed : s.Placed x p) : s.enqueueItem = some x := by
  cases s with
  | enqueuing f => exact congrArg some placed.1
  | enqueued y q _ => exact congrArg some placed.1
  | _ => exact placed.elim

/-- What a dequeue that found an item took: a used cell of the chain, still holding the item. -/
theorem CellInv.took (inv : CellInv w) {d : Nat} {contents : QueueItem α} {p : CellRef}
    (took : TookFrom w d contents p) :
    ClaimedBy w d p ∧ InChain w p ∧ w.cellAt p = contents ∧ contents.isUsed = true := by
  obtain ⟨t, r, call⟩ := took
  obtain ⟨claimed, read, used⟩ := inv.calls_taking d _ call
  obtain ⟨t', mem⟩ := claimed
  exact ⟨⟨t', mem⟩, (inv.claims_below _ mem).1, read, used⟩

/-- Two cells of the chain written by one enqueue call are one cell. -/
theorem CellInv.writer_unique (inv : CellInv w) {p p' : CellRef} {x x' : α} {e : Nat}
    (chain : InChain w p) (chain' : InChain w p') (used : w.cellAt p = .used x e)
    (used' : w.cellAt p' = .used x' e) : p = p' := by
  obtain ⟨c, call, placed⟩ := inv.used_placed p x e chain used
  obtain ⟨c', call', placed'⟩ := inv.used_placed p' x' e chain' used'
  rw [call] at call'
  cases call'
  exact (placed.unique placed').2

/-- In every reachable state of any interleaving: a dequeue that returned an item took it from a
cell of the chain holding the item of an enqueue call; no two dequeues returned the item of one
enqueue call; an enqueue call's item is in at most one cell of the chain; and no two dequeues
took one cell. -/
theorem queue_items_unique {cfg : QueueConfig} (reach : QueueReachable cfg w) :
    (∀ d contents p, TookFrom w d contents p →
      ∃ x e c, contents = .used x e ∧ InChain w p ∧ w.calls e = some c ∧
        c.status.enqueueItem = some x) ∧
    (∀ d d' x x' e p p', TookFrom w d (.used x e) p → TookFrom w d' (.used x' e) p' → d = d') ∧
    (∀ p p' x x' e, InChain w p → InChain w p' → w.cellAt p = .used x e →
      w.cellAt p' = .used x' e → p = p') ∧
    (∀ d d' contents contents' p, TookFrom w d contents p → TookFrom w d' contents' p → d = d') := by
  have inv := cellInv_of_reachable reach
  refine ⟨fun d contents p took => ?_, fun d d' x x' e p p' took took' => ?_,
    fun p p' x x' e => inv.writer_unique, fun d d' _ _ p took took' =>
      inv.claimedBy_unique (inv.took took).1 (inv.took took').1⟩
  · -- The cell holds the item its writer placed there.
    obtain ⟨-, chain, read, used⟩ := inv.took took
    cases contents with
    | used x e =>
      obtain ⟨c, call, placed⟩ := inv.used_placed p x e chain read
      exact ⟨x, e, c, rfl, chain, call, placed.enqueueItem⟩
    | _ => cases used
  · -- Both cells hold the item of one enqueue call, so they are one cell, taken once.
    obtain ⟨claimed, chain, read, -⟩ := inv.took took
    obtain ⟨claimed', chain', read', -⟩ := inv.took took'
    have same := inv.writer_unique chain chain' read read'
    subst same
    exact inv.claimedBy_unique claimed claimed'

/-- The run in which an item is stranded behind a stale loop bound still returns each enqueued
item at most once, and only from the cell its enqueuer wrote. -/
theorem staleBoundRun_items_unique : ∃ w, staleBoundRun = some w ∧
    (∀ d contents p, TookFrom w d contents p →
      ∃ x e c, contents = .used x e ∧ InChain w p ∧ w.calls e = some c ∧
        c.status.enqueueItem = some x) ∧
    (∀ d d' x x' e p p', TookFrom w d (.used x e) p → TookFrom w d' (.used x' e) p' → d = d') ∧
    (∀ p p' x x' e, InChain w p → InChain w p' → w.cellAt p = .used x e →
      w.cellAt p' = .used x' e → p = p') ∧
    (∀ d d' contents contents' p, TookFrom w d contents p → TookFrom w d' contents' p → d = d') :=
  ⟨_, rfl, queue_items_unique (@reachable_of_exec _ smallConfig 0 _ staleBoundSchedule rfl)⟩

end NoDuplicates

end Hatrack
