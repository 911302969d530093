import Libsqfs.BulkdataPacking

/-! What the fragment blocks are made of. `Laid` says it of one state, `Settled`
that a stage leaves it alone, `Later` what can never change again. -/
namespace Libsqfs
namespace Bulkdata

def pieceSizes (bd : Bulkdata) (pieces : List Nat) : Nat :=
  (pieces.map fun p => (bd.chunk p).data.size).sum

def assignedPieces (bd : Bulkdata) : List Nat :=
  (List.range bd.count).filter fun c =>
    (bd.chunk c).kind = .fragmentPiece ∧ ChunkState.assigned.value ≤ (bd.chunk c).state.value

def blockPieces (bd : Bulkdata) : List Nat :=
  (List.range bd.fragmentBlockCount).flatMap fun f => (bd.fragmentBlock f).pieces

structure Laid (bd : Bulkdata) : Prop where
  order : bd.blockPieces = bd.assignedPieces
  sizes : ∀ f, f < bd.fragmentBlockCount →
    (bd.fragmentBlock f).size = bd.pieceSizes (bd.fragmentBlock f).pieces
  offsets : ∀ f, f < bd.fragmentBlockCount → ∀ before p after,
    (bd.fragmentBlock f).pieces = before ++ p :: after →
      (bd.chunk p).offset = some (bd.pieceSizes before)

structure Settled (bd next : Bulkdata) : Prop where
  count : next.fragmentBlockCount = bd.fragmentBlockCount
  blocks : ∀ f, (next.fragmentBlock f).pieces = (bd.fragmentBlock f).pieces ∧
    (next.fragmentBlock f).size = (bd.fragmentBlock f).size
  offset : ∀ d, (next.chunk d).offset = (bd.chunk d).offset
  assigned : ∀ d, (bd.chunk d).kind = .fragmentPiece →
    (3 ≤ (bd.chunk d).state.value ↔ 3 ≤ (next.chunk d).state.value)

section
variable {r : Rule} {first limit : Nat} {bd next : Bulkdata} {c d f : Nat}

theorem Touch.settled (touch : Touch bd next c) : Settled bd next where
  count := touch.count
  blocks := touch.packed
  offset d := by
    by_cases own : d = c
    · subst own; exact touch.offset
    · rw [touch.others d own]
  assigned d piece := by
    by_cases own : d = c
    · subst own; exact touch.assigned (by rw [piece]; simp)
    · rw [touch.others d own]

theorem Settled.pieceSizes (frame : Frame bd next) (pieces : List Nat) :
    next.pieceSizes pieces = bd.pieceSizes pieces := by
  simp only [Bulkdata.pieceSizes, frame.data]

/- The step lemma for the stages that assign no piece. -/
theorem Laid.settled (laid : Laid bd) (frame : Frame bd next) (settled : Settled bd next) :
    Laid next where
  order := by
    have blocks : next.blockPieces = bd.blockPieces := by
      simp only [blockPieces, settled.count, settled.blocks]
    have assigned : next.assignedPieces = bd.assignedPieces := by
      rw [assignedPieces, assignedPieces, frame.count]
      refine List.filter_congr fun d _ => ?_
      rw [frame.kind]
      by_cases piece : (bd.chunk d).kind = .fragmentPiece
      · simp only [piece, true_and]
        exact decide_eq_decide.mpr (settled.assigned d piece).symm
      · simp [piece]
    rw [blocks, assigned, laid.order]
  sizes f below := by
    rw [settled.count] at below
    rw [(settled.blocks f).1, (settled.blocks f).2, Settled.pieceSizes frame]
    exact laid.sizes f below
  offsets f below before p after shape := by
    rw [settled.count] at below
    rw [(settled.blocks f).1] at shape
    rw [settled.offset, Settled.pieceSizes frame]
    exact laid.offsets f below before p after shape

theorem assignedUpTo {e : Nat} (bound : e ≤ bd.count)
    (before : ∀ d, d < e → (bd.chunk d).kind = .fragmentPiece → 3 ≤ (bd.chunk d).state.value)
    (after : ∀ d, e ≤ d → d < bd.count → (bd.chunk d).kind = .fragmentPiece →
      (bd.chunk d).state.value < 3) :
    bd.assignedPieces = (List.range e).filter fun c => (bd.chunk c).kind = .fragmentPiece := by
  obtain ⟨rest, same⟩ := Nat.exists_eq_add_of_le bound
  have low : (List.range e).filter (fun c => (bd.chunk c).kind = .fragmentPiece ∧
      ChunkState.assigned.value ≤ (bd.chunk c).state.value) =
      (List.range e).filter fun c => (bd.chunk c).kind = .fragmentPiece := by
    refine List.filter_congr fun d member => decide_eq_decide.mpr ⟨And.left, fun piece => ⟨piece, ?_⟩⟩
    exact before d (List.mem_range.mp member) piece
  rw [assignedPieces, same, List.range_add, List.filter_append, low]
  refine (List.append_right_eq_self).mpr (List.filter_eq_nil_iff.mpr fun d member => ?_)
  obtain ⟨k, below, rfl⟩ := List.mem_map.mp member
  have inside := List.mem_range.mp below
  intro both
  obtain ⟨piece, high⟩ := of_decide_eq_true both
  exact absurd high (Nat.not_le.mpr (after (e + k) (by omega) (by omega) piece))

theorem Packing.assignedPieces {e : Nat} (packing : Packing r first bd e) :
    bd.assignedPieces = (List.range e).filter fun c => (bd.chunk c).kind = .fragmentPiece :=
  assignedUpTo packing.bound (fun d below piece => packing.before d below (by rw [piece]; simp))
    fun d above below piece => packing.after d above below (by rw [piece]; simp)

theorem Laid.joined {old : FragmentBlock} {flush : Bool} (laid : Laid bd)
    (packing : Packing r first bd c) (inside : c < bd.count)
    (piece : (bd.chunk c).kind = .fragmentPiece) (join : Joined bd next c f old flush)
    (count : next.fragmentBlockCount = f + 1)
    (place : f = bd.fragmentBlockCount ∧ old = ⟨0, [], .init⟩ ∨
      f + 1 = bd.fragmentBlockCount ∧ old = bd.fragmentBlock f) : Laid next := by
  have frame := join.frame
  have own : next.fragmentBlock f = {old with
      pieces := old.pieces ++ [c], size := old.size + (bd.chunk c).data.size} := by
    rw [join.blocks, if_pos rfl]
  have others {g} (away : g ≠ f) : next.fragmentBlock g = bd.fragmentBlock g := by
    rw [join.blocks, if_neg away]
  have sizes : old.size = bd.pieceSizes old.pieces := by
    rcases place with ⟨_, rfl⟩ | ⟨last, rfl⟩
    · rfl
    · exact laid.sizes f (by omega)
  have offsets (before p after) (shape : old.pieces = before ++ p :: after) :
      (bd.chunk p).offset = some (bd.pieceSizes before) := by
    rcases place with ⟨_, rfl⟩ | ⟨last, rfl⟩
    · simp at shape
    · exact laid.offsets f (by omega) before p after shape
  have earlier {g} (below : g < f) : g < bd.fragmentBlockCount := by
    rcases place with ⟨last, _⟩ | ⟨last, _⟩ <;> omega
  have moved {p} (away : p ≠ c) : (next.chunk p).offset = (bd.chunk p).offset := by
    rw [join.others p away]
  have blocks : bd.blockPieces =
      ((List.range f).flatMap fun g => (bd.fragmentBlock g).pieces) ++ old.pieces := by
    rcases place with ⟨last, rfl⟩ | ⟨last, rfl⟩
    · rw [blockPieces, ← last]
      exact (List.append_nil _).symm
    · rw [blockPieces, ← last, List.range_succ, List.flatMap_append, List.flatMap_singleton]
  constructor
  · have assigned : next.assignedPieces = bd.assignedPieces ++ [c] := by
      have high : 3 ≤ (next.chunk c).state.value := by
        rw [join.own]
        cases flush <;> simp [ChunkState.value]
      have grown : next.assignedPieces =
          (List.range (c + 1)).filter fun d => (next.chunk d).kind = .fragmentPiece := by
        refine assignedUpTo (by rw [frame.count]; omega) (fun d below kind => ?_)
          fun d above below kind => ?_
        · by_cases same : d = c
          · subst same; exact high
          · rw [frame.kind] at kind
            rw [join.others d same]
            exact packing.before d (by omega) (by rw [kind]; simp)
        · rw [frame.count] at below
          rw [frame.kind] at kind
          rw [join.others d (by omega)]
          exact packing.after d (by omega) below (by rw [kind]; simp)
      simp only [frame.kind] at grown
      rw [grown, packing.assignedPieces, List.range_succ, List.filter_append]
      simp [piece]
    rw [assigned, ← laid.order, blocks, blockPieces, count, List.range_succ, List.flatMap_append,
      List.flatMap_singleton, own, List.append_assoc]
    congr 1
    refine List.flatMap_congr fun g member => ?_
    rw [others (Nat.ne_of_lt (List.mem_range.mp member))]
  · intro g below
    rw [count] at below
    by_cases last : g = f
    · subst last
      rw [own, Settled.pieceSizes frame]
      simp [pieceSizes, sizes]
    · rw [others last, Settled.pieceSizes frame]
      exact laid.sizes g (earlier (by omega))
  · intro g below before p after shape
    rw [count] at below
    rw [Settled.pieceSizes frame]
    by_cases last : g = f
    · subst last
      rw [own] at shape
      rcases List.eq_nil_or_concat after with rfl | ⟨more, b, rfl⟩
      · obtain ⟨same, mine⟩ := List.append_inj' shape rfl
        obtain rfl : c = p := List.singleton_inj.mp mine
        rw [join.own, ← same, ← sizes]
      · rw [List.concat_eq_append, ← List.cons_append, ← List.append_assoc] at shape
        have whole := (List.append_inj' shape rfl).1
        have member : p ∈ old.pieces := by rw [whole]; simp
        have lt : p < c := by
          rcases place with ⟨_, rfl⟩ | ⟨last, rfl⟩
          · cases member
          · exact (packing.members g (by omega) p member).1
        rw [moved (by omega)]
        exact offsets before p more whole
    · rw [others last] at shape
      have member : p ∈ (bd.fragmentBlock g).pieces := by rw [shape]; simp
      have lt := (packing.members g (earlier (by omega)) p member).1
      rw [moved (by omega)]
      exact laid.offsets g (earlier (by omega)) before p after shape

theorem Laid.grown {kind : ChunkKind} {data : DataPiece} (laid : Laid bd) (packed : Packed r first limit bd)
    (grown : Grown bd next kind data) : Laid next := by
  obtain ⟨e, packing⟩ := packed.packing
  have inside {f p} (below : f < bd.fragmentBlockCount) (member : p ∈ (bd.fragmentBlock f).pieces) :
      p < bd.count := by
    have := (packing.members f below p member).1
    have := packing.bound
    omega
  have chunk {d} (below : d < bd.count) : (next.chunk d).kind = (bd.chunk d).kind ∧
      (next.chunk d).state = (bd.chunk d).state ∧ (next.chunk d).data = (bd.chunk d).data ∧
      (next.chunk d).offset = (bd.chunk d).offset := by
    rw [grown.old d below]
    exact ⟨rfl, rfl, rfl, rfl⟩
  have sizes {pieces : List Nat} (below : ∀ p ∈ pieces, p < bd.count) :
      next.pieceSizes pieces = bd.pieceSizes pieces := by
    have same := List.map_congr_left (l := pieces) (f := fun p => (next.chunk p).data.size)
      (g := fun p => (bd.chunk p).data.size) fun p member => by rw [(chunk (below p member)).2.2.1]
    rw [Bulkdata.pieceSizes, same, Bulkdata.pieceSizes]
  constructor
  · have blocks : next.blockPieces = bd.blockPieces := by
      simp only [blockPieces, grown.fragmentBlock, grown.fragmentBlockCount]
    have assigned : next.assignedPieces = bd.assignedPieces := by
      have new : (next.chunk bd.count).state = .none := by rw [grown.new]; rfl
      rw [assignedPieces, grown.count, List.range_succ, List.filter_append, assignedPieces]
      have last : [bd.count].filter (fun c => (next.chunk c).kind = .fragmentPiece ∧
          ChunkState.assigned.value ≤ (next.chunk c).state.value) = [] := by
        simp [new, ChunkState.value]
      rw [last, List.append_nil]
      refine List.filter_congr fun d member => ?_
      obtain ⟨kind, state, _⟩ := chunk (List.mem_range.mp member)
      rw [kind, state]
    rw [blocks, assigned, laid.order]
  · intro f below
    rw [grown.fragmentBlockCount] at below
    rw [grown.fragmentBlock, sizes fun p member => inside below member]
    exact laid.sizes f below
  · intro f below before p after shape
    rw [grown.fragmentBlockCount] at below
    rw [grown.fragmentBlock] at shape
    have member {q} (listed : q ∈ before ++ p :: after) : q < bd.count :=
      inside below (shape ▸ listed)
    rw [(chunk (member (by simp))).2.2.2, sizes fun q listed => member (List.mem_append_left _ listed)]
    exact laid.offsets f below before p after shape

end
end Bulkdata

namespace Plan

def Fits (r : Rule) (p : Plan) : Prop :=
  (∀ content ∈ p.contents, content.length ≤ r.blockSize) ∧
    ∀ content, p.current = some content → content.length ≤ r.blockSize

theorem fitsFlushed {r : Rule} {p : Plan} (fits : Fits r p) (i : Item) : Fits r (p.flushFor r i) := by
  by_cases flushes : p.Flushes r i
  · obtain ⟨content, current⟩ := flushesCurrent flushes
    rw [flushForFlushes flushes current]
    refine ⟨fun c member => ?_, fun c none => by cases none⟩
    rcases List.mem_append.mp member with old | new
    · exact fits.1 c old
    · rw [List.mem_singleton.mp new]
      exact fits.2 content current
  · rw [flushForFits flushes]
    exact fits

theorem stepFits {r : Rule} {p : Plan} {i : Item} (fits : Fits r p)
    (small : i.kind = .fragmentPiece → i.data.size ≤ r.blockSize) : Fits r (p.step r i) := by
  cases kind : i.kind with
  | fullBlock =>
    obtain ⟨contents, current, _⟩ := @stepFull r p i kind
    unfold Fits
    rw [contents, current]
    exact fits
  | closingPiece =>
    obtain ⟨contents, current, _⟩ := @stepClosing r p i kind
    unfold Fits
    rw [contents, current]
    exact ⟨(fitsFlushed fits i).1, fun c none => by cases none⟩
  | fragmentPiece =>
    rw [stepPiece kind]
    refine ⟨(fitsFlushed fits i).1, fun content same => ?_⟩
    have bytes : i.data.pread.length ≤ i.data.size := List.length_take_le _ _
    have room := small kind
    simp only [add, Option.some.injEq] at same
    rw [← same, List.length_append]
    by_cases flushes : p.Flushes r i
    · obtain ⟨old, current⟩ := flushesCurrent flushes
      rw [flushForFlushes flushes current]
      simp only [Option.getD_none, List.length_nil]
      omega
    · rw [flushForFits flushes]
      cases current : p.current with
      | none => simp only [Option.getD_none, List.length_nil]; omega
      | some old =>
        have full := (Bulkdata.flushesPiece kind current).not.mp flushes
        simp only [Option.getD_some]
        omega

theorem upToFits {r : Rule} {size n : Nat} {item : Nat → Item}
    (small : ∀ c, c < n → (item c).kind = .fragmentPiece → (item c).data.size ≤ r.blockSize) :
    Fits r (upTo r size item n) := by
  induction n with
  | zero => exact ⟨fun c member => (by cases member), fun c none => (by cases none)⟩
  | succ n ih =>
    exact stepFits (ih fun c below => small c (by omega)) (small n (by omega))

end Plan

namespace Bulkdata

section
variable {r : Rule} {first limit : Nat} {bd next : Bulkdata} {c d f : Nat}

theorem Packing.fits {e : Nat} (packing : Packing r first bd e)
    (small : ∀ c, c < bd.count → (bd.chunk c).kind = .fragmentPiece →
      (bd.chunk c).data.size ≤ r.blockSize) (below : f < bd.fragmentBlockCount) :
    (bd.fragmentBlock f).size ≤ r.blockSize := by
  have bound := packing.bound
  obtain ⟨contents, current⟩ := @Plan.upToFits r first e bd.item fun c lt => small c (by omega)
  rw [packing.sizes f below]
  unfold contentAt
  cases found : (bd.plan r first e).contents[f]? with
  | some content => exact contents content (List.mem_of_getElem? found)
  | none =>
    cases shape : (bd.plan r first e).current with
    | none => exact Nat.zero_le _
    | some content => exact current content shape

/-! ### What a stage can do to the fragment blocks -/

/- `unflushed`: the stage is not the one that compresses a fragment block. `shut`:
a block that is to be flushed gets no more pieces. -/
structure Packs (bd next : Bulkdata) : Prop where
  laid : Laid bd → Laid next
  unflushed : ∀ d, next.Flusher d → 4 ≤ (next.chunk d).state.value → 4 ≤ (bd.chunk d).state.value
  shut : ∀ d f, d < bd.count → bd.Flusher d → bd.flushed d = .ok f →
    (next.fragmentBlock f).pieces = (bd.fragmentBlock f).pieces

theorem Touch.packs (touch : Touch bd next c)
    (high : bd.Flusher c → 4 ≤ (next.chunk c).state.value → 4 ≤ (bd.chunk c).state.value) :
    Packs bd next where
  laid laid := laid.settled touch.frame touch.settled
  unflushed d flusher := by
    by_cases own : d = c
    · subst own; exact high ((touch.flusher d).mp flusher)
    · rw [touch.others d own]; exact id
  shut d f _ _ _ := (touch.packed f).1

theorem Passed.packs {state : ChunkState} (passed : Passed bd next c state)
    (rank : (bd.chunk c).state.value ≤ state.value)
    (assigned : (bd.chunk c).kind ≠ .fullBlock →
      (3 ≤ (bd.chunk c).state.value ↔ 3 ≤ state.value))
    (high : 4 ≤ state.value → 4 ≤ (bd.chunk c).state.value) : Packs bd next :=
  (passed.touch rank assigned).packs fun _ => by rw [passed.chunk, if_pos rfl]; exact high

theorem Packed.flushed (packed : Packed r first limit bd) {e : Nat} (packing : Packing r first bd e)
    (inside : d < bd.count) (flusher : bd.Flusher d) (flushed : bd.flushed d = .ok f) :
    d < e ∧ f < (bd.plan r first e).contents.length := by
  have holds := packed.holds d inside
  obtain ⟨high, flushes⟩ := holds.flusher flusher
  obtain ⟨content, current⟩ := Plan.flushesCurrent flushes
  have early : d < e := by
    by_contra late
    have := packing.after d (by omega) inside flusher.1
    omega
  have found := Plan.contentsFlushed flushes current early
  have number : (bd.plan r first d).contents.length = f :=
    Except.ok.inj ((holds.flushed flusher).symm.trans flushed)
  refine ⟨early, ?_⟩
  rw [← number]
  exact (List.getElem?_eq_some_iff.mp found).1

theorem Packed.assignPacks {blockSize : Nat} {allocated : Bool} (packed : Packed r first limit bd)
    (rule : r.blockSize = blockSize) (inside : c < bd.count)
    (piece : (bd.chunk c).kind = .fragmentPiece) (assigned : bd.PrevAssigned c)
    (ok : bd.fragmentPieceAssign blockSize allocated c = .ok (next, true)) : Packs bd next := by
  obtain ⟨state, packing, f, old, flush, join, count, place, flushes, number, _⟩ :=
    packed.assignJoins rule inside piece assigned ok
  refine ⟨fun laid => laid.joined packing inside piece join count place, fun d flusher high => ?_,
    fun d g inside' flusher flushed => ?_⟩
  · by_cases own : d = c
    · subst own
      have flag := flusher.2
      rw [join.own] at flag high
      simp only at flag high
      rw [if_pos flag] at high
      exact absurd high (by decide)
    · rwa [join.others d own] at high
  · have below := (packed.flushed packing inside' flusher flushed).2
    have grown := (Plan.flushForContents r (bd.plan r first c) (bd.item c)).1
    have le : (bd.plan r first c).contents.length ≤ f := by
      rw [number, grown, List.length_append]
      omega
    rw [join.blocks, if_neg (by omega)]

theorem closingAssignPacks (closing : (bd.chunk c).kind = .closingPiece)
    (ok : bd.closingPieceAssign c = .ok next) : Packs bd next := by
  obtain ⟨_, _, rest⟩ := bindOk ok
  obtain ⟨mid, shape, frame, others, own, blocks, count⟩ : ∃ mid : Bulkdata,
      next = mid.pieceAssigned c ∧ Frame bd mid ∧ (∀ d, d ≠ c → mid.chunk d = bd.chunk d) ∧
      (mid.chunk c).offset = (bd.chunk c).offset ∧
      mid.fragmentBlock = bd.fragmentBlock ∧ mid.fragmentBlockCount = bd.fragmentBlockCount := by
    have shape := (Except.ok.inj rest).symm
    split at shape
    · exact ⟨_, shape, frameSet bd c rfl rfl rfl rfl (fun _ => rfl) id,
        fun d other => by simp [Bulkdata.set, other], by simp [Bulkdata.set], rfl, rfl⟩
    · exact ⟨bd, shape, .refl bd, fun _ _ => rfl, rfl, rfl, rfl⟩
  subst shape
  have chunk (d) (other : d ≠ c) : (mid.pieceAssigned c).chunk d = bd.chunk d := by
    rw [pieceAssignedChunk, if_neg other, others d other]
  have blocks' := (pieceAssignedBlocks mid c).1.trans blocks
  have settled : Settled bd (mid.pieceAssigned c) := by
    refine ⟨(pieceAssignedBlocks mid c).2.trans count, fun f => by rw [blocks']; exact ⟨rfl, rfl⟩,
      fun d => ?_, fun d piece => ?_⟩
    · by_cases same : d = c
      · subst same
        rw [pieceAssignedChunk, if_pos rfl, own]
      · rw [chunk d same]
    · rw [chunk d fun same => by rw [same, closing] at piece; cases piece]
  refine ⟨fun laid => laid.settled (frame.trans (framePieceAssigned mid c)) settled,
    fun d flusher high => ?_, fun d f _ _ _ => by rw [blocks']⟩
  by_cases same : d = c
  · subst same
    have flag := flusher.2
    rw [pieceAssignedChunk, if_pos rfl] at flag high
    simp only at flag high
    rw [if_pos flag] at high
    exact absurd high (by decide)
  · rwa [chunk d same] at high

end
end Bulkdata
end Libsqfs
