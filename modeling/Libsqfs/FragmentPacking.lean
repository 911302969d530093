import Libsqfs.NextFit
import Libsqfs.PipelineFragments
import Libsqfs.Reproducible

/-! The fragment blocks of a whole image are the bins of a next-fit packing of the tails
of its files, so that no way of packing them needs half as many blocks. -/
namespace Libsqfs
open Transition

def Bulkdata.packedSizes (bd : Bulkdata) : List (List Nat) :=
  (List.range bd.fragmentBlockCount).map fun f => (bd.fragmentBlock f).pieces.map fun c => (bd.chunk c).data.size

namespace Plan
open NextFit

def tailPieces (items : List Item) : List Item := items.filter fun i => i.kind = .fragmentPiece

def content (bin : List Item) : Bytes := bin.flatMap fun i => i.data.pread

/- The bins of a plan are its fragment blocks, the open one last. -/
structure Binned (r : Rule) (p : Plan) (items : List Item) : Prop where
  blocks : p.contents ++ p.current.toList =
    (bins (fun i : Item => i.data.size) r.blockSize (tailPieces items)).map content
  opened : p.current = none → p.contents = []

section
variable {r : Rule} {p : Plan} {items : List Item} {i : Item} {size : Nat}

theorem tailPiecesSnoc (items : List Item) (i : Item) :
    tailPieces (items ++ [i]) = tailPieces items ++ if i.kind = .fragmentPiece then [i] else [] := by
  rw [tailPieces, List.filter_append, List.filter_singleton, Bool.cond_decide]
  rfl

theorem contentSnoc (bin : List Item) (i : Item) : content (bin ++ [i]) = content bin ++ i.data.pread := by
  simp [content]

theorem contentLength {bin : List Item} (whole : ∀ x ∈ bin, x.data.pread.length = x.data.size) :
    (content bin).length = load (fun i : Item => i.data.size) bin := by
  rw [content, List.length_flatMap, load]
  exact congrArg List.sum (List.map_congr_left whole)

theorem Binned.first (binned : Binned r p items) (none : tailPieces items = []) (piece : i.kind = .fragmentPiece) :
    Binned r (p.step r i) (items ++ [i]) := by
  obtain ⟨blocks, _⟩ := binned
  rw [none] at blocks
  obtain ⟨contents, current⟩ := List.append_eq_nil_iff.mp (blocks.trans rfl)
  have empty : p.current = Option.none := by
    cases shape : p.current with
    | none => rfl
    | some _ => rw [shape] at current; cases current
  have fits : ¬ p.Flushes r i := by
    unfold Flushes
    rw [piece, empty]
    exact id
  refine ⟨?_, fun missing => ?_⟩
  · rw [tailPiecesSnoc, if_pos piece, none, stepPiece piece, flushForFits fits, add]
    simp [contents, empty, bins, GreedyRuns.runs, GreedyRuns.runsFrom, content]
  · rw [stepPiece piece] at missing
    cases missing

/- A later one grows the last bin where it fits, which is when the block is not flushed. -/
theorem Binned.piece (binned : Binned r p items) (some : tailPieces items ≠ []) (piece : i.kind = .fragmentPiece)
    (whole : ∀ x ∈ tailPieces items, x.data.pread.length = x.data.size) : Binned r (p.step r i) (items ++ [i]) := by
  obtain ⟨front, last, old, new⟩ :=
    @GreedyRuns.runsSnoc _ (fits (fun i : Item => i.data.size) r.blockSize) _ some i
  obtain ⟨blocks, opened⟩ := binned
  rw [bins, old, List.map_append, List.map_singleton] at blocks
  obtain ⟨inside, current⟩ : p.contents = front.map content ∧ p.current = .some (content last) := by
    cases shape : p.current with
    | none =>
      rw [shape, opened shape] at blocks
      exact absurd blocks.symm (by simp)
    | some held =>
      rw [shape] at blocks
      obtain ⟨contents, same⟩ := List.append_inj' blocks rfl
      exact ⟨contents, congrArg Option.some (List.singleton_inj.mp same)⟩
  have length : (content last).length = load (fun i : Item => i.data.size) last := by
    refine contentLength fun x member => whole x ?_
    rw [← @GreedyRuns.runsFlatten _ (fits (fun i : Item => i.data.size) r.blockSize) (tailPieces items), old]
    exact List.mem_flatten.mpr ⟨last, List.mem_append_right _ (List.mem_singleton_self last), member⟩
  have flushes : p.Flushes r i ↔ ¬ fits (fun i : Item => i.data.size) r.blockSize last i = true := by
    unfold Flushes
    rw [piece, current, fits, decide_eq_true_eq, ← length]
    exact not_le.symm
  refine ⟨?_, fun missing => ?_⟩
  · rw [tailPiecesSnoc, if_pos piece, bins, new, stepPiece piece, add]
    by_cases fit : fits (fun i : Item => i.data.size) r.blockSize last i = true
    · rw [if_pos fit, flushForFits (fun flush => flushes.mp flush fit), inside, current]
      simp [contentSnoc]
    · rw [if_neg fit, flushForFlushes (flushes.mpr fit) current]
      simp [inside, content]
  · rw [stepPiece piece] at missing
    cases missing

theorem Binned.full (binned : Binned r p items) (full : i.kind = .fullBlock) : Binned r (p.step r i) (items ++ [i]) := by
  obtain ⟨contents, current, _⟩ := @stepFull r p i full
  refine ⟨?_, fun missing => ?_⟩
  · rw [tailPiecesSnoc, if_neg (by rw [full]; decide), List.append_nil, contents, current]
    exact binned.blocks
  · rw [contents]
    exact binned.opened (current ▸ missing)

theorem sequentialSnoc (r : Rule) (size : Nat) (items : List Item) (i : Item) :
    sequential r size (items ++ [i]) = (sequential r size items).step r i := by
  rw [sequential, List.foldl_append]
  rfl

theorem sequentialBinned (r : Rule) (size : Nat) (unclosed : ∀ x ∈ items, x.kind ≠ .closingPiece)
    (whole : ∀ x ∈ items, x.data.pread.length = x.data.size) : Binned r (sequential r size items) items := by
  induction items using List.reverseRecOn with
  | nil => exact ⟨rfl, fun _ => rfl⟩
  | append_singleton items i ih =>
    have binned := ih (fun x member => unclosed x (List.mem_append_left _ member))
      (fun x member => whole x (List.mem_append_left _ member))
    rw [sequentialSnoc]
    cases kind : i.kind with
    | fullBlock => exact binned.full kind
    | closingPiece => exact absurd kind (unclosed i (List.mem_append_right _ (List.mem_singleton_self i)))
    | fragmentPiece =>
      by_cases none : tailPieces items = []
      · exact binned.first none kind
      · exact binned.piece none kind fun x member =>
          whole x (List.mem_append_left _ (List.mem_of_mem_filter member))

theorem closedBins {close : Item} (closing : close.kind = .closingPiece)
    (unclosed : ∀ x ∈ items, x.kind ≠ .closingPiece) (whole : ∀ x ∈ items, x.data.pread.length = x.data.size) :
    (sequential r size (items ++ [close])).contents =
      (bins (fun i : Item => i.data.size) r.blockSize (tailPieces items)).map content := by
  rw [sequentialSnoc, ← (sequentialBinned r size unclosed whole).blocks, (stepClosing closing).1, (flushForContents _ _ _).1]
  congr 1
  cases current : (sequential r size items).current with
  | none => exact ite_self []
  | some held =>
    have flushes : (sequential r size items).Flushes r close := by
      unfold Flushes
      rw [closing, current]
      trivial
    exact if_pos flushes

end
end Plan

namespace Inodes

section
variable {fragments : FragmentsOption} {blockSize chunks : Nat} {data : Bytes} {t t' : Inodes} {attr : InodeAttr}
  {items : List Item} {env after : Env}

theorem blockItemsTails (data : Bytes) (blockSize n : Nat) : Plan.tailPieces (blockItems blockSize data n) = [] := by
  refine List.filter_eq_nil_iff.mpr fun x member => ?_
  obtain ⟨k, _, rfl⟩ := List.mem_map.mp member
  simp

theorem fileItemsTails : (Plan.tailPieces (fileItems fragments blockSize data)).map (fun i => i.data.size) =
    if (slicing fragments blockSize data.length).2 = 0 then [] else [(slicing fragments blockSize data.length).2] := by
  have blocks := blockItemsTails data blockSize (slicing fragments blockSize data.length).1
  rw [Plan.tailPieces] at blocks
  rw [fileItems, Plan.tailPieces, List.filter_append, blocks, tailItems]
  split <;> rfl

/- A creation that fails has submitted no tail. -/
theorem failedTails (failed : t.regularInodeCreate fragments blockSize chunks attr (some data) env = (none, items, t', after)) :
    Plan.tailPieces items = [] := by
  have blocks (before : Env) :
      Plan.tailPieces (submitBlocks data blockSize (List.range (slicing fragments blockSize data.length).1) before).2.1 = [] := by
    have listed := (submitBlocksPrefix data blockSize (List.range (slicing fragments blockSize data.length).1) before).subset
    refine List.filter_eq_nil_iff.mpr fun x member => ?_
    exact List.filter_eq_nil_iff.mp (blockItemsTails data blockSize _) x (listed member)
  simp only [regularInodeCreate] at failed
  split at failed
  · cases failed
    rfl
  · split at failed
    · cases failed
      rfl
    · split at failed
      · cases failed
        exact blocks _
      · split at failed
        · cases failed
        · split at failed
          · cases failed
            exact blocks _
          · cases failed

end
end Inodes

namespace Session
open Image

def fileTail (config : BuilderConfig) : (Call × Bool) ⊕ Label → Option Nat
  | .inl (.regular _ (some data), true) =>
    let tail := (Inodes.slicing config.fragments config.blockSize data.length).2
    if tail = 0 then none else some tail
  | _ => none

def tails (config : BuilderConfig) (trace : List (Event Session ((Call × Bool) ⊕ Label))) : List Nat :=
  (labels trace).filterMap (fileTail config)

def tailSizes (items : List Item) : List Nat := (Plan.tailPieces items).map fun i => i.data.size

section
variable {o : ImageConfig} {config : BuilderConfig} {s next : Session} {l : (Call × Bool) ⊕ Label} {b after : Builder}
  {trace : List (Event Session ((Call × Bool) ⊕ Label))} {compressBlocks compressFragments : Bool} {size : Nat} {env : Env}

theorem tailSizesAppend (items more : List Item) : tailSizes (items ++ more) = tailSizes items ++ tailSizes more := by
  simp only [tailSizes, Plan.tailPieces, List.filter_append, List.map_append]

theorem callTails {c : Call × Bool} (taken : b.Step config c after) :
    tailSizes after.items = tailSizes b.items ++ (fileTail config (.inl c)).toList := by
  obtain ⟨c, ok⟩ := c
  have result := taken.2
  cases c with
  | regular attr data =>
    have items := congrArg (fun r : Bool × Builder => r.2.items) result
    have good := congrArg Prod.fst result
    dsimp only [Builder.run] at items good
    rw [← items, tailSizesAppend]
    congr 1
    cases data with
    | none => rfl
    | some data =>
      cases made : b.inodes.regularInodeCreate config.fragments config.blockSize b.items.length attr (some data) b.env with
      | mk i? rest =>
        obtain ⟨items, t, env⟩ := rest
        rw [made] at good
        cases i? with
        | none =>
          cases good
          rw [tailSizes, Inodes.failedTails made]
          rfl
        | some i =>
          obtain rfl : ok = true := good.symm
          rw [(Inodes.createdFile made).1, tailSizes, Inodes.fileItemsTails, fileTail]
          split <;> rfl
  | _ =>
    cases result
    exact (List.append_nil _).symm

theorem recordTails (b : Builder) (l : Label) : tailSizes (record b l).items = tailSizes b.items := by
  cases l with
  | «seal» => exact (tailSizesAppend _ _).trans (List.append_nil _)
  | _ => rfl

theorem runTails (run : Run (Step o config) (init config compressBlocks compressFragments size env) trace s) :
    tailSizes s.builder.items = tails config trace := by
  have free : Obeys (fun _ _ => True) trace := fun _ _ => trivial
  refine Run.history (I := fun trace s => tailSizes s.builder.items = tails config trace) rfl ?_ run free
  intro trace s l next known _ taken
  have grown : tails config (trace ++ [⟨s, l, next⟩]) = tails config trace ++ (fileTail config l).toList := by
    rw [tails, labelsSnoc, List.filterMap_append, List.filterMap_cons, List.filterMap_nil]
    cases fileTail config l <;> rfl
  rw [grown, ← known]
  cases taken with
  | call free idle other taken => exact callTails taken
  | setRoot idle missing taken => exact callTails taken
  | setRootFails => exact (List.append_nil _).symm
  | submit => exact (List.append_nil _).symm
  | work other root busy taken => exact (recordTails _ _).trans (List.append_nil _).symm

theorem packedFlatten {bd : Bulkdata} (order : bd.blockPieces = bd.assignedPieces)
    (isOver : ∀ c, c < bd.count → (bd.chunk c).state = .finished) :
    bd.packedSizes.flatten = tailSizes ((List.range bd.count).map bd.item) := by
  have listed : bd.assignedPieces = (List.range bd.count).filter fun c => (bd.chunk c).kind = .fragmentPiece := by
    refine List.filter_congr fun c inside => decide_eq_decide.mpr ⟨And.left, fun piece => ⟨piece, ?_⟩⟩
    rw [isOver c (List.mem_range.mp inside)]
    decide
  calc bd.packedSizes.flatten = bd.blockPieces.map fun c => (bd.chunk c).data.size := by
        simp only [Bulkdata.packedSizes, Bulkdata.blockPieces, List.flatMap, List.map_flatten, List.map_map,
          Function.comp_def]
    _ = tailSizes ((List.range bd.count).map bd.item) := by
        rw [order, listed, tailSizes, Plan.tailPieces, List.filter_map, List.map_map]
        rfl

/- The fragment blocks that any run ends up with are the bins of a next-fit packing, and so
fewer than twice those of any packing. -/
theorem fragmentsPacked (later : o.later ≠ [])
    (run : Run (Step o config) (init config compressBlocks compressFragments size env) trace s)
    (calm : ∀ l ∈ labels trace, Calm l) (reached : s.image.api = .later o.later true)
    (positive : 0 < config.blockSize) (same : o.blockSize = config.blockSize) :
    s.image.bd.packedSizes = NextFit.bins id config.blockSize (tails config trace) ∧
      NextFit.Packing config.blockSize (tails config trace) s.image.bd.packedSizes ∧
      ∀ packing, NextFit.Packing config.blockSize (tails config trace) packing →
        s.image.bd.fragmentBlockCount ≤ 2 * packing.length - 1 := by
  obtain ⟨events, calls, b, apart⟩ := apartRun later run calm
  obtain ⟨buffered, agrees, _⟩ := apart.agrees
  obtain ⟨sound, _, progress⟩ := laidRun apart.image apart.begun.clean agrees
  obtain ⟨done, _⟩ := apart.begun.realizes apart.image agrees reached
  have isOver (c : Nat) (inside : c < s.image.bd.count) : (s.image.bd.chunk c).state = .finished :=
    (sound.chunks.located.finished c inside).mpr (by omega)
  obtain ⟨limit, follows, laid, _⟩ := progress.resolve_left (by
    rintro ⟨t, c, here⟩
    obtain ⟨inside, ready, _⟩ := sound.chunks.located.held t c (by simp [holders, here, Pc.held])
    exact ready.1 (isOver c inside))
  obtain ⟨items, listed, member, last⟩ := apart.gathered (apart.begun.opened _ reached).2
  have closed := piecesClosed listed member last
  have readable (x : Item) (inside : x ∈ Plan.tailPieces (Image.submitted (labels events))) :
      Inodes.Readable config.blockSize x.data := by
    obtain ⟨inside, piece⟩ := List.mem_filter.mp inside
    rcases runFitting positive run x (items ▸ inside) with closing | readable
    · rw [closing] at piece
      cases of_decide_eq_true piece
    · exact readable
  have sizes : tailSizes (Image.submitted (labels events)) = tails config trace := by
    rw [items, runTails run]
  have tailed : Plan.tailPieces (pieces (Image.submitted (labels events))) =
      Plan.tailPieces (Image.submitted (labels events)) := by
    conv_rhs => rw [closed, Plan.tailPiecesSnoc]
    exact (List.append_nil _).symm
  -- the plan closes one block for each bin
  have binned := @Plan.closedBins (o.rule buffered compressBlocks compressFragments)
    (pieces (Image.submitted (labels events))) size ⟨.closingPiece, ⟨[], 0, 0⟩⟩ rfl
    (fun x inside => of_decide_eq_true (List.mem_filter.mp inside).2) fun x inside => by
      obtain ⟨inside, unclosed⟩ := List.mem_filter.mp inside
      rcases runFitting positive run x (items ▸ inside) with closing | readable
      · exact absurd closing (of_decide_eq_true unclosed)
      · exact readable.whole
  rw [← closed, Plan.upToSequential _ listed, tailed] at binned
  have shut : (s.image.bd.plan (o.rule buffered compressBlocks compressFragments) size s.image.bd.count).current = none :=
    Plan.upToClosed listed member rfl last
  have blocks := (follows.finalBlocks isOver shut).trans binned
  have sums : s.image.bd.packedSizes.map List.sum =
      (NextFit.bins id config.blockSize (tails config trace)).map List.sum := by
    have pieceWhole {f p : Nat} (below : f < s.image.bd.fragmentBlockCount)
        (inside : p ∈ (s.image.bd.fragmentBlock f).pieces) :
        (s.image.bd.chunk p).data.size = (s.image.bd.chunk p).data.pread.length := by
      obtain ⟨e, packing⟩ := follows.packed.packing
      obtain ⟨early, piece, _⟩ := packing.members f below p inside
      refine (readable (s.image.bd.item p) (List.mem_filter.mpr ⟨?_, decide_eq_true piece⟩)).whole.symm
      rw [listed]
      exact List.mem_map_of_mem (List.mem_range.mpr (Nat.lt_of_lt_of_le early packing.bound))
    calc s.image.bd.packedSizes.map List.sum = ((List.range s.image.bd.fragmentBlockCount).map fun f =>
          ((s.image.bd.fragmentBlock f).pieces.map fun p => (s.image.bd.chunk p).data.pread).flatten).map List.length := by
          rw [Bulkdata.packedSizes, List.map_map, List.map_map]
          refine List.map_congr_left fun f below => ?_
          rw [Function.comp_apply, Function.comp_apply, List.length_flatten, List.map_map]
          exact congrArg List.sum (List.map_congr_left fun p inside => pieceWhole (List.mem_range.mp below) inside)
      _ = (NextFit.bins (fun i : Item => i.data.size) o.blockSize
          (Plan.tailPieces (Image.submitted (labels events)))).map (NextFit.load fun i : Item => i.data.size) := by
          rw [blocks, List.map_map]
          refine List.map_congr_left fun bin member => Plan.contentLength fun x inside => (readable x ?_).whole
          rw [← @GreedyRuns.runsFlatten _ (NextFit.fits (fun i : Item => i.data.size) o.blockSize)
            (Plan.tailPieces (Image.submitted (labels events)))]
          exact List.mem_flatten.mpr ⟨bin, member, inside⟩
      _ = (NextFit.bins id config.blockSize (tails config trace)).map List.sum := by
          rw [← sizes, tailSizes, NextFit.binsSizes, List.map_map, same]
          rfl
  have whole : s.image.bd.packedSizes = NextFit.bins id config.blockSize (tails config trace) := by
    have flat := packedFlatten laid.order isOver
    rw [← listed, sizes] at flat
    refine NextFit.binsKnown (fun n member => ?_) (flat.trans (GreedyRuns.runsFlatten _).symm) sums
    rw [flat, ← sizes] at member
    obtain ⟨x, inside, rfl⟩ := List.mem_map.mp member
    exact (readable x inside).positive
  have small (n : Nat) (member : n ∈ tails config trace) : n ≤ config.blockSize := by
    rw [← sizes] at member
    obtain ⟨x, inside, rfl⟩ := List.mem_map.mp member
    exact (readable x inside).bound
  refine ⟨whole, ?_, fun packing packed => ?_⟩
  · have packed := @NextFit.binsPacking _ id _ _ small
    rw [List.map_id, ← whole] at packed
    simpa only [List.map_id_fun, id_eq, List.map_id'] using packed
  · have count := congrArg List.length whole
    rw [Bulkdata.packedSizes, List.length_map, List.length_range] at count
    rw [count]
    exact @NextFit.binsTwice _ id _ _ _ (by rwa [List.map_id])

/- A tail of three bytes and one of two do not share a block of four. -/
theorem filedPacked : ∃ (trace : List (Event Session ((Call × Bool) ⊕ Label))) (s : Session),
    tails Assembly.filedConfig trace = [3, 2] ∧ s.image.bd.packedSizes = [[3], [2]] ∧
      ∀ packing, NextFit.Packing 4 [3, 2] packing → s.image.bd.fragmentBlockCount ≤ 2 * packing.length - 1 := by
  obtain ⟨_, _, done⟩ := Assembly.filedAlone Assembly.filedImage.threadConfig rfl rfl
  obtain ⟨trace, b, prepared, _, _, calls⟩ := done.prepared
  obtain ⟨_, run⟩ := prepared.run
  have called : fileTail Assembly.filedConfig = fun l => (callLabel l).bind fun c => fileTail Assembly.filedConfig (.inl c) := by
    funext l
    rcases l with ⟨c, ok⟩ | l
    · cases c <;> cases ok <;> rfl
    · rfl
  have listed : tails Assembly.filedConfig trace = [3, 2] := by
    rw [tails, called, ← List.filterMap_filterMap, calls]
    decide
  have later : Assembly.filedImage.threadConfig.later ≠ [] := by simp [Assembly.threadConfig, Assembly.operations]
  obtain ⟨sizes, _, bound⟩ := fragmentsPacked later run prepared.calm prepared.reached (by decide) rfl
  have own : Assembly.filedImage.builderConfig = Assembly.filedConfig := rfl
  rw [own, listed] at sizes bound
  exact ⟨trace, _, listed, sizes.trans (by decide), bound⟩

end
end Session
end Libsqfs
