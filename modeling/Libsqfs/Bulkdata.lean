import Mathlib.Logic.Function.Basic
import Libsqfs.Env

/-! src/bulkdata.c: chunks, fragment blocks, work queues and the stage functions.
A pointer to a chunk or fragment block is its number: the chain of chunks is
0, 1, .., count-1, so `prev` and `next` are the neighbouring numbers. -/
namespace Libsqfs

inductive ChunkState where
  | none | read | deduplicated | assigned | writable | finished
  deriving DecidableEq, Repr

def ChunkState.value : ChunkState → Nat
  | none => 0
  | read => 1
  | deduplicated => 2
  | assigned => 3
  | writable => 4
  | finished => 5

inductive ChunkKind where
  | fullBlock | fragmentPiece | closingPiece
  deriving DecidableEq, Repr

structure DataPiece where
  data : Bytes
  size : Nat
  offset : Nat
  deriving DecidableEq, Repr

def DataPiece.pread (p : DataPiece) : Bytes := Bytes.slice p.data p.offset p.size

structure ImageBlock where
  offset : Option Nat
  size : Nat
  data : Option Bytes
  compressed : Bool
  deriving DecidableEq, Repr

def ImageBlock.init : ImageBlock := ⟨none, 0, none, false⟩

structure Chunk where
  kind : ChunkKind
  state : ChunkState
  data : DataPiece
  cachedData : Option Bytes
  dst : ImageBlock
  prevPiece : Option Nat
  nextPiece : Option Nat
  offset : Option Nat
  fragmentBlock : Option Nat
  flushPreviousBlock : Bool
  deriving DecidableEq, Repr

def Chunk.create (kind : ChunkKind) (data : DataPiece) : Chunk :=
  ⟨kind, .none, data, none, .init, none, none, none, none, false⟩

structure FragmentBlock where
  size : Nat
  pieces : List Nat
  dst : ImageBlock
  deriving DecidableEq, Repr

inductive Workq where
  | readq | dedupq | assignq | compressq | writeq
  deriving DecidableEq, Repr

def Workq.state : Workq → ChunkState
  | readq => .none
  | dedupq => .read
  | assignq => .deduplicated
  | compressq => .assigned
  | writeq => .writable

structure Bulkdata where
  chunk : Nat → Chunk
  count : Nat
  finished : Nat
  fragmentBlock : Nat → FragmentBlock
  fragmentBlockCount : Nat
  lastPiece : Option Nat
  workq : Workq → List Nat
  mayAddChunks : Bool
  aborted : Bool
  compressBlocks : Bool
  compressFragments : Bool

inductive Fault where
  | assertion | nullPointer
  deriving DecidableEq, Repr

def assert (p : Prop) [Decidable p] : Except Fault Unit :=
  if p then .ok () else .error .assertion

def deref {α : Type} : Option α → Except Fault α
  | some a => .ok a
  | none => .error .nullPointer

namespace Bulkdata

def init (compressBlocks compressFragments : Bool) : Bulkdata where
  chunk _ := .create .fullBlock ⟨[], 0, 0⟩
  count := 0
  finished := 0
  fragmentBlock _ := ⟨0, [], .init⟩
  fragmentBlockCount := 0
  lastPiece := none
  workq _ := []
  mayAddChunks := true
  aborted := false
  compressBlocks := compressBlocks
  compressFragments := compressFragments

def set (bd : Bulkdata) (c : Nat) (chunk : Chunk) : Bulkdata :=
  {bd with chunk := Function.update bd.chunk c chunk}

def setState (bd : Bulkdata) (c : Nat) (state : ChunkState) : Bulkdata :=
  bd.set c {bd.chunk c with state := state}

def setFragmentBlock (bd : Bulkdata) (f : Nat) (block : FragmentBlock) : Bulkdata :=
  {bd with fragmentBlock := Function.update bd.fragmentBlock f block}

def pushFront (bd : Bulkdata) (q : Workq) (c : Nat) : Bulkdata :=
  {bd with workq := Function.update bd.workq q (c :: bd.workq q)}

def pushBack (bd : Bulkdata) (q : Workq) (c : Nat) : Bulkdata :=
  {bd with workq := Function.update bd.workq q (bd.workq q ++ [c])}

def pop (bd : Bulkdata) (q : Workq) : Option (Nat × Bulkdata) :=
  match bd.workq q with
  | [] => none
  | c :: rest => some (c, {bd with workq := Function.update bd.workq q rest})

def PrevFinished (bd : Bulkdata) (c : Nat) : Prop :=
  c = 0 ∨ (bd.chunk (c - 1)).state = .finished

def PrevAssigned (bd : Bulkdata) (c : Nat) : Prop :=
  ∀ p, (bd.chunk c).prevPiece = some p → ChunkState.assigned.value ≤ (bd.chunk p).state.value

instance (bd : Bulkdata) (c : Nat) : Decidable (bd.PrevFinished c) :=
  inferInstanceAs (Decidable (_ ∨ _))

instance (bd : Bulkdata) (c : Nat) : Decidable (bd.PrevAssigned c) :=
  match h : (bd.chunk c).prevPiece with
  | none => .isTrue (fun p same => by rw [h] at same; cases same)
  | some p =>
    if assigned : ChunkState.assigned.value ≤ (bd.chunk p).state.value then
      .isTrue (fun p' same => by rw [h] at same; cases same; exact assigned)
    else .isFalse (fun all => assigned (all p h))

def chunkDoReadStart (bd : Bulkdata) (c : Nat) : Except Fault Unit := do
  assert ((bd.chunk c).state = .none)
  assert ((bd.chunk c).data.size ≠ 0)

def chunkDoReadEnd (bd : Bulkdata) (c : Nat) : Bulkdata :=
  (bd.set c {bd.chunk c with cachedData := some (bd.chunk c).data.pread, state := .read}).pushFront
    .dedupq c

def chunkDoDeduplicate (bd : Bulkdata) (c : Nat) : Except Fault Bulkdata := do
  assert ((bd.chunk c).state = .read)
  return (bd.setState c .deduplicated).pushFront .assignq c

def chunkDoAssign (bd : Bulkdata) (c : Nat) : Except Fault Bulkdata := do
  assert ((bd.chunk c).state = .deduplicated)
  return (bd.setState c .assigned).pushFront .compressq c

def chunkTryWriteout (bd : Bulkdata) (c : Nat) : Bulkdata :=
  if (bd.chunk c).state ≠ .writable then bd
  else if ¬ bd.PrevFinished c then bd
  else bd.pushFront .writeq c

def pushNextWritable (bd : Bulkdata) (c : Nat) : Bulkdata :=
  if c + 1 < bd.count ∧ (bd.chunk (c + 1)).state = .writable then bd.pushFront .writeq (c + 1)
  else bd

/- The flag tells whether the condition variable is broadcast. -/
def chunkMarkFinished (bd : Bulkdata) (c : Nat) : Except Fault (Bulkdata × Bool) := do
  assert (bd.PrevFinished c)
  let bd := (bd.setState c .finished).pushNextWritable c
  let bd := {bd with finished := bd.finished + 1}
  return (bd, bd.finished = bd.count)

/- What was compressed is kept in `data` until it has been written. The result
of malloc is not looked at: false is returned for an empty block only, and without
a buffer the compressor is asked all the same. Only where it then answers 0 is the
null pointer not followed, and the block is one of no bytes. -/
def imageBlockCompress (compress : Bool → Bytes → Option Bytes) (allocated : Bool) (dst : ImageBlock)
    (src : Bytes) : Except Fault (Option ImageBlock) :=
  if src.length = 0 then .ok none
  else match compress allocated src with
    | some z =>
      if allocated || z.isEmpty then .ok (some {dst with data := some z, compressed := true, size := z.length})
      else .error .nullPointer
    | none =>
      if allocated then .ok (some {dst with data := some src, compressed := false, size := src.length})
      else .error .nullPointer

def imageBlockUncompressed (allocated : Bool) (dst : ImageBlock) (src : Bytes) :
    Except Fault (Option ImageBlock) :=
  if src.length = 0 then .ok none
  else if !allocated then .error .nullPointer
  else .ok (some {dst with data := some src, compressed := false, size := src.length})

def imageBlockStore (compressing : Bool) (compress : Bool → Bytes → Option Bytes) (allocated : Bool)
    (dst : ImageBlock) (src : Bytes) : Except Fault (Option ImageBlock) :=
  if compressing then imageBlockCompress compress allocated dst src
  else imageBlockUncompressed allocated dst src

def fragmentBlockCreate (bd : Bulkdata) (allocated : Bool) : Option (Nat × Bulkdata) :=
  if allocated then
    some (bd.fragmentBlockCount,
      {bd.setFragmentBlock bd.fragmentBlockCount ⟨0, [], .init⟩ with
        fragmentBlockCount := bd.fragmentBlockCount + 1})
  else none

def fragmentBlockAddPiece (bd : Bulkdata) (f c : Nat) : Bulkdata :=
  let block := bd.fragmentBlock f
  (bd.set c {bd.chunk c with fragmentBlock := some f, offset := some block.size}).setFragmentBlock f
    {block with pieces := block.pieces ++ [c], size := block.size + (bd.chunk c).data.size}

def fragmentPieceDeduplicate (bd : Bulkdata) (c : Nat) : Except Fault Bulkdata := do
  assert ((bd.chunk c).state = .read)
  let bd := bd.setState c .deduplicated
  if ¬ bd.PrevAssigned c then return bd
  else return bd.pushFront .assignq c

def pieceAssigned (bd : Bulkdata) (c : Nat) : Bulkdata :=
  if (bd.chunk c).flushPreviousBlock then (bd.setState c .assigned).pushFront .compressq c
  else (bd.setState c .writable).chunkTryWriteout c

def pushNextPiece (bd : Bulkdata) (c : Nat) : Bulkdata :=
  match (bd.chunk c).nextPiece with
  | none => bd
  | some n => if (bd.chunk n).state = .deduplicated then bd.pushFront .assignq n else bd

/- The block of the previous piece if there is room in it. Otherwise that block
is to be flushed at this piece. -/
def previousBlock (blockSize : Nat) (bd : Bulkdata) (c : Nat) :
    Except Fault (Option Nat × Bulkdata) :=
  match (bd.chunk c).prevPiece with
  | none => .ok (none, bd)
  | some p => do
    let f ← deref (bd.chunk p).fragmentBlock
    if blockSize < (bd.fragmentBlock f).size + (bd.chunk c).data.size then
      return (none, bd.set c {bd.chunk c with flushPreviousBlock := true})
    else return (some f, bd)

def fragmentPieceAssign (blockSize : Nat) (allocated : Bool) (bd : Bulkdata) (c : Nat) :
    Except Fault (Bulkdata × Bool) := do
  assert ((bd.chunk c).state = .deduplicated)
  let (target, bd) ← bd.previousBlock blockSize c
  match target with
  | some f => return (((bd.fragmentBlockAddPiece f c).pieceAssigned c).pushNextPiece c, true)
  | none => match bd.fragmentBlockCreate allocated with
    | none => return (bd, false)
    | some (f, bd) => return (((bd.fragmentBlockAddPiece f c).pieceAssigned c).pushNextPiece c, true)

def closingPieceAssign (bd : Bulkdata) (c : Nat) : Except Fault Bulkdata := do
  assert ((bd.chunk c).state = .deduplicated)
  let bd := if (bd.chunk c).prevPiece.isSome then
    bd.set c {bd.chunk c with flushPreviousBlock := true} else bd
  return bd.pieceAssigned c

def closingPieceRead (bd : Bulkdata) (c : Nat) : Bulkdata :=
  (bd.setState c .read).pushFront .dedupq c

/- The fragment block to be flushed at a piece. -/
def flushed (bd : Bulkdata) (c : Nat) : Except Fault Nat := do
  let p ← deref (bd.chunk c).prevPiece
  deref (bd.chunk p).fragmentBlock

def fragmentPieceCompressStart (bd : Bulkdata) (c : Nat) : Except Fault Unit := do
  assert ((bd.chunk c).state = .assigned)
  assert ((bd.chunk c).flushPreviousBlock = true)
  let _ ← bd.flushed c

def copyPieces (bd : Bulkdata) : List Nat → Except Fault Bytes
  | [] => .ok []
  | p :: rest => do
    let bytes ← deref (bd.chunk p).cachedData
    let more ← bd.copyPieces rest
    return bytes ++ more

def freePieces (bd : Bulkdata) (pieces : List Nat) : Bulkdata :=
  {bd with chunk := fun p =>
    if p ∈ pieces then {bd.chunk p with cachedData := none} else bd.chunk p}

/- False when the block was not compressed: out of memory is flagged. -/
def fragmentPieceCompressEnd (compress : Bool → Bytes → Option Bytes) (allocated : Bool) (bd : Bulkdata)
    (c : Nat) : Except Fault (Bulkdata × Bool) := do
  let f ← bd.flushed c
  let block := bd.fragmentBlock f
  let buffer ← bd.copyPieces block.pieces
  let bd := bd.freePieces block.pieces
  match ← imageBlockStore bd.compressFragments compress allocated block.dst buffer with
  | none => return (bd, false)
  | some dst =>
    let bd := bd.setFragmentBlock f {block with dst := dst}
    return ((bd.setState c .writable).chunkTryWriteout c, true)

def fullBlockCompressStart (bd : Bulkdata) (c : Nat) : Except Fault Unit :=
  assert ((bd.chunk c).state = .assigned)

def fullBlockCompressEnd (compress : Bool → Bytes → Option Bytes) (allocated : Bool) (bd : Bulkdata)
    (c : Nat) : Except Fault (Bulkdata × Bool) := do
  let chunk := bd.chunk c
  let src ← deref chunk.cachedData
  match ← imageBlockStore bd.compressBlocks compress allocated chunk.dst src with
  | none => return (bd, false)
  | some dst =>
    let bd := bd.set c {chunk with dst := dst, cachedData := none, state := .writable}
    return (bd.chunkTryWriteout c, true)

inductive Target where
  | own | fragment (f : Nat)
  deriving DecidableEq, Repr

def target (bd : Bulkdata) (c : Nat) : Except Fault (Option Target) :=
  match (bd.chunk c).kind with
  | .fullBlock => .ok (some .own)
  | _ => if (bd.chunk c).flushPreviousBlock then (bd.flushed c).map fun f => some (.fragment f)
    else .ok none

def block (bd : Bulkdata) (c : Nat) : Target → ImageBlock
  | .own => (bd.chunk c).dst
  | .fragment f => (bd.fragmentBlock f).dst

def setBlock (bd : Bulkdata) (c : Nat) (dst : ImageBlock) : Target → Bulkdata
  | .own => bd.set c {bd.chunk c with dst := dst}
  | .fragment f => bd.setFragmentBlock f {bd.fragmentBlock f with dst := dst}

/- pick the first chunk not yet claimed by any other thread -/
def popNext (bd : Bulkdata) : Option (Workq × Nat × Bulkdata) :=
  [Workq.writeq, .compressq, .assignq, .dedupq, .readq].findSome? fun q =>
    (bd.pop q).map fun (c, bd) => (q, c, bd)

def enqueueChunkLocked (bd : Bulkdata) (chunk : Chunk) : Bulkdata :=
  {bd.set bd.count chunk with count := bd.count + 1}.pushBack .readq bd.count

def enqueuePieceLocked (bd : Bulkdata) (chunk : Chunk) : Bulkdata :=
  let n := bd.count
  let last := bd.lastPiece
  let bd := bd.enqueueChunkLocked {chunk with prevPiece := last}
  let bd := match last with
    | none => bd
    | some p => bd.set p {bd.chunk p with nextPiece := some n}
  {bd with lastPiece := some n}

def submit (bd : Bulkdata) (kind : ChunkKind) (data : DataPiece) : Bulkdata :=
  match kind with
  | .fullBlock => bd.enqueueChunkLocked (.create .fullBlock data)
  | kind => bd.enqueuePieceLocked (.create kind data)

def sealed (bd : Bulkdata) : Bulkdata :=
  {bd.submit .closingPiece ⟨[], 0, 0⟩ with mayAddChunks := false}

def abort (bd : Bulkdata) : Bulkdata :=
  {bd with mayAddChunks := false, aborted := true, workq := fun _ => []}

def Leaves (bd : Bulkdata) : Prop :=
  bd.finished = bd.count ∧ bd.mayAddChunks = false ∨ bd.aborted = true

instance (bd : Bulkdata) : Decidable bd.Leaves := inferInstanceAs (Decidable (_ ∨ _))

end Bulkdata
end Libsqfs
