import Libsqfs.Bulkdata
import Libsqfs.Transition

/-! The threads of an image over the bulk data: workers in
libsqfs_bulkdata_process, the one thread that uses the image (thread 0: it
submits chunks and runs libsqfs_image_finalize, where it becomes a worker), and
calls of libsqfs_image_abort from any thread. One step is what a thread does
between two points where another can interfere: a critical section of the bulk
data lock, or a part of one, the work done without the lock being joined to the
section that publishes it. -/
namespace Libsqfs

inductive ImageState where
  | building | fatalError | finalized
  deriving DecidableEq, Repr

/- Where a thread is in libsqfs_bulkdata_process, or in the calls that flag an
error and abort; these carry the chunk whose operation failed. -/
inductive Pc where
  | out
  | opening
  | locking
  | loop
  | waiting
  | popped (q : Workq) (c : Nat)
  | reading (c : Nat)
  | compressing (c : Nat)
  | writing (c : Nat)
  | flagging (c : Option Nat)
  | aborting (c : Option Nat)
  | failed
  | gone
  deriving DecidableEq, Repr

/- The operations of libsqfs_image_finalize after the bulk data. -/
inductive Later where
  | serialize | inodeTable | dirTable | fragmentTable | exportTable | idTable | xattrTable
  | compressorOptions | superblock
  deriving DecidableEq, Repr

/- Where thread 0 is in libsqfs_image_finalize. -/
inductive Api where
  | outside
  | entered
  | seal (again : Bool)
  | closing (again : Bool)
  | processing
  | later (rest : List Later) (success : Bool)
  | returning
  deriving DecidableEq, Repr

/- The compressor is told whether there is a buffer for its output. -/
structure ImageConfig where
  blockSize : Nat
  compress : Bool → Bytes → Option Bytes
  later : List Later
  padding : Bool

structure Image where
  bd : Bulkdata
  lock : Option Nat
  pc : Nat → Pc
  api : Api
  root : Bool
  state : ImageState
  size : Nat
  written : List Medium.Write
  fault : Option Fault

inductive Label where
  | submit (kind : ChunkKind) (data : DataPiece)
  | seal
  | flag (t : Nat)
  | abort (t : Nat)
  | enter
  | returned (v : ImageState)
  | later (op : Later)
  | conclude
  | thread (t : Nat)
  deriving DecidableEq, Repr

namespace Image

def init (compressBlocks compressFragments : Bool) (size : Nat) : Image where
  bd := .init compressBlocks compressFragments
  lock := none
  pc _ := .out
  api := .outside
  root := false
  state := .building
  size := size
  written := []
  fault := none

/- What a stage that was begun under the lock comes to: it returned true, it
released the lock to work on the chunk, or it could not allocate. -/
inductive Turn where
  | again (bd : Bulkdata) (broadcast : Bool)
  | released (bd : Bulkdata) (size : Nat) (pc : Pc)
  | outOfMemory (bd : Bulkdata)

open Bulkdata in
def stage (o : ImageConfig) (allocated : Bool) (bd : Bulkdata) (size : Nat) (q : Workq) (c : Nat) :
    Except Fault Turn :=
  match q, (bd.chunk c).kind with
  | .readq, .closingPiece => .ok (.again (bd.closingPieceRead c) false)
  | .readq, _ => (bd.chunkDoReadStart c).map fun _ => .released bd size (.reading c)
  | .dedupq, .fullBlock => (bd.chunkDoDeduplicate c).map fun bd => .again bd false
  | .dedupq, _ => (bd.fragmentPieceDeduplicate c).map fun bd => .again bd false
  | .assignq, .fullBlock => (bd.chunkDoAssign c).map fun bd => .again bd false
  | .assignq, .fragmentPiece => (bd.fragmentPieceAssign o.blockSize allocated c).map fun (bd, ok) =>
      if ok then .again bd false else .outOfMemory bd
  | .assignq, .closingPiece => (bd.closingPieceAssign c).map fun bd => .again bd false
  | .compressq, .fullBlock =>
      (bd.fullBlockCompressStart c).map fun _ => .released bd size (.compressing c)
  | .compressq, _ =>
      (bd.fragmentPieceCompressStart c).map fun _ => .released bd size (.compressing c)
  | .writeq, _ => do
      assert ((bd.chunk c).state = .writable)
      match ← bd.target c with
      | some t =>
        let dst := bd.block c t
        return .released (bd.setBlock c {dst with offset := some size} t) (size + dst.size) (.writing c)
      | none => (bd.chunkMarkFinished c).map fun (bd, all) => .again bd all

open Bulkdata in
def compressEnd (o : ImageConfig) (allocated : Bool) (bd : Bulkdata) (c : Nat) :
    Except Fault (Bulkdata × Bool) :=
  match (bd.chunk c).kind with
  | .fullBlock => bd.fullBlockCompressEnd o.compress allocated c
  | _ => bd.fragmentPieceCompressEnd o.compress allocated c

open Bulkdata in
/- After a complete pwrite: the write made and what the lock is taken again for. -/
def writeEnd (bd : Bulkdata) (c : Nat) : Except Fault (Medium.Write × Bulkdata × Bool) := do
  let t ← deref (← bd.target c)
  let dst := bd.block c t
  let offset ← deref dst.offset
  let data ← deref dst.data
  let (bd, all) ← (bd.setBlock c {dst with data := none} t).chunkMarkFinished c
  return ((offset, data), bd, all)

def wakeAll (pc : Nat → Pc) : Nat → Pc := fun t => if pc t = .waiting then .locking else pc t

/- pthread_cond_signal: one of the waiting threads, if there is any. -/
inductive Signal (pc : Nat → Pc) : (Nat → Pc) → Prop where
  | wake {t} (waits : pc t = .waiting) : Signal pc (Function.update pc t .locking)
  | idle (nobody : ∀ t, pc t ≠ .waiting) : Signal pc pc

def Free (s : Image) : Prop := s.api = .outside ∧ s.pc 0 = .out

def goto (s : Image) (t : Nat) (pc : Pc) : Image := {s with pc := Function.update s.pc t pc}

inductive Move (o : ImageConfig) (s : Image) : Label → Image → Prop where
  -- calls made by thread 0
  | submit {kind data pc} (free : s.Free) (unlocked : s.lock = none) (own : kind ≠ .closingPiece)
      (signal : Signal s.pc pc) :
      Move o s (.submit kind data) {s with bd := s.bd.submit kind data, pc := pc}
  | spawn {t} (free : s.Free) (new : s.pc t = .out) (other : t ≠ 0) :
      Move o s (.thread t) (s.goto t .opening)
  | setRoot (free : s.Free) (building : s.state = .building) (missing : s.root = false) :
      Move o s (.thread 0) {s with root := true}
  | enter (free : s.Free) (building : s.state = .building) :
      Move o s .enter {s with api := .entered}
  | refuse (free : s.Free) (isOver : s.state ≠ .building) : Move o s (.returned s.state) s
  -- libsqfs_image_finalize
  | rootMissing (here : s.api = .entered) (missing : s.root = false) :
      Move o s (.thread 0) ({s with api := .later o.later false}.goto 0 (.flagging none))
  | rootFound (here : s.api = .entered) (found : s.root = true) :
      Move o s (.thread 0) {s with api := .seal false}
  | sealNeeded {again} (here : s.api = .seal again) (unlocked : s.lock = none)
      (adding : s.bd.mayAddChunks = true) : Move o s (.thread 0) {s with api := .closing again}
  | sealed (here : s.api = .seal false) (unlocked : s.lock = none)
      (done : s.bd.mayAddChunks = false) : Move o s (.thread 0) {s with api := .seal true}
  | sealedAgain (here : s.api = .seal true) (unlocked : s.lock = none)
      (done : s.bd.mayAddChunks = false) :
      Move o s (.thread 0) ({s with api := .processing}.goto 0 .locking)
  | closingFails (here : s.api = .closing false) :
      Move o s (.thread 0) {s with api := .later o.later false}
  -- libsqfs_bulkdata_finish does not look at what sealing returned
  | closingFailsAgain (here : s.api = .closing true) :
      Move o s (.thread 0) ({s with api := .processing}.goto 0 .locking)
  | closingQueued {pc pc'} (here : s.api = .closing false) (unlocked : s.lock = none)
      (first : Signal s.pc pc) (second : Signal pc pc') :
      Move o s .seal {s with bd := s.bd.sealed, pc := pc', api := .seal true}
  | closingQueuedAgain {pc pc'} (here : s.api = .closing true) (unlocked : s.lock = none)
      (first : Signal s.pc pc) (second : Signal pc pc') :
      Move o s .seal ({s with bd := s.bd.sealed, pc := pc', api := .processing}.goto 0 .locking)
  | processed (here : s.api = .processing) (left : s.pc 0 = .gone) :
      Move o s (.thread 0) ({s with api := .later o.later true}.goto 0 .out)
  -- the result of libsqfs_inode_serialize is not looked at
  | later {op rest ok} (here : s.api = .later (op :: rest) true) :
      Move o s (.later op) {s with api := .later rest (ok || op == .serialize)}
  | truncateFails (here : s.api = .later [] true) (padding : o.padding = true) :
      Move o s (.returned .building) {s with api := .outside}
  | conclude (here : s.api = .later [] true) :
      Move o s .conclude {s with state := .finalized, api := .returning}
  | concludeFailed {rest} (here : s.api = .later rest false) (idle : s.pc 0 = .out) :
      Move o s (.thread 0) ({s with api := .returning}.goto 0 (.flagging none))
  | returns (here : s.api = .returning) (idle : s.pc 0 = .out) :
      Move o s (.returned s.state) {s with api := .outside}
  -- any thread in libsqfs_bulkdata_process
  | opened {t} (here : s.pc t = .opening) : Move o s (.thread t) (s.goto t .locking)
  | openFails {t} (here : s.pc t = .opening) : Move o s (.thread t) (s.goto t (.flagging none))
  | locked {t} (here : s.pc t = .locking) (unlocked : s.lock = none) :
      Move o s (.thread t) ({s with lock := some t}.goto t .loop)
  | pop {t q c bd} (here : s.pc t = .loop) (next : s.bd.popNext = some (q, c, bd)) :
      Move o s (.thread t) ({s with bd := bd}.goto t (.popped q c))
  | again {t q c allocated bd all} (here : s.pc t = .popped q c)
      (result : stage o allocated s.bd s.size q c = .ok (.again bd all)) :
      Move o s (.thread t)
        ({s with bd := bd, pc := if all then wakeAll s.pc else s.pc}.goto t .loop)
  | released {t q c allocated bd size pc} (here : s.pc t = .popped q c)
      (result : stage o allocated s.bd s.size q c = .ok (.released bd size pc)) :
      Move o s (.thread t) ({s with bd := bd, size := size, lock := none}.goto t pc)
  | outOfMemory {t q c allocated bd} (here : s.pc t = .popped q c)
      (result : stage o allocated s.bd s.size q c = .ok (.outOfMemory bd)) :
      Move o s (.thread t) ({s with bd := bd, lock := none}.goto t (.flagging (some c)))
  | stageFault {t q c allocated f} (here : s.pc t = .popped q c)
      (result : stage o allocated s.bd s.size q c = .error f) :
      Move o s (.thread t) {s with fault := some f}
  | read {t c} (here : s.pc t = .reading c) (unlocked : s.lock = none)
      (whole : (s.bd.chunk c).data.pread.length = (s.bd.chunk c).data.size) :
      Move o s (.thread t) ({s with bd := s.bd.chunkDoReadEnd c, lock := some t}.goto t .loop)
  | readFails {t c} (here : s.pc t = .reading c) :
      Move o s (.thread t) (s.goto t (.flagging (some c)))
  | compressed {t c allocated bd} (here : s.pc t = .compressing c) (unlocked : s.lock = none)
      (result : compressEnd o allocated s.bd c = .ok (bd, true)) :
      Move o s (.thread t) ({s with bd := bd, lock := some t}.goto t .loop)
  | compressFails {t c allocated bd} (here : s.pc t = .compressing c)
      (result : compressEnd o allocated s.bd c = .ok (bd, false)) :
      Move o s (.thread t) ({s with bd := bd}.goto t (.flagging (some c)))
  | compressFault {t c allocated f} (here : s.pc t = .compressing c)
      (result : compressEnd o allocated s.bd c = .error f) :
      Move o s (.thread t) {s with fault := some f}
  | written {t c write bd all} (here : s.pc t = .writing c) (unlocked : s.lock = none)
      (result : writeEnd s.bd c = .ok (write, bd, all)) :
      Move o s (.thread t) ({s with
        bd := bd
        written := s.written ++ [write]
        pc := if all then wakeAll s.pc else s.pc
        lock := some t}.goto t .loop)
  | writeFails {t c} (here : s.pc t = .writing c) :
      Move o s (.thread t) (s.goto t (.flagging (some c)))
  | writeFault {t c f} (here : s.pc t = .writing c) (unlocked : s.lock = none)
      (result : writeEnd s.bd c = .error f) : Move o s (.thread t) {s with fault := some f}
  | leave {t} (here : s.pc t = .loop) (empty : s.bd.popNext = none) (leaves : s.bd.Leaves) :
      Move o s (.thread t) ({s with lock := none}.goto t .gone)
  | wait {t} (here : s.pc t = .loop) (empty : s.bd.popNext = none) (stays : ¬ s.bd.Leaves) :
      Move o s (.thread t) ({s with lock := none}.goto t .waiting)
  | spurious {t} (here : s.pc t = .waiting) : Move o s (.thread t) (s.goto t .locking)
  -- libsqfs_image_abort, and what every failed operation does
  | abortCall {t} (here : s.pc t = .out) (outside : t = 0 → s.api = .outside) :
      Move o s (.thread t) (s.goto t (.flagging none))
  | flag {t c} (here : s.pc t = .flagging c) :
      Move o s (.flag t) ({s with state := .fatalError}.goto t (.aborting c))
  | abort {t c} (here : s.pc t = .aborting c) (unlocked : s.lock = none) :
      Move o s (.abort t) ({s with bd := s.bd.abort, pc := wakeAll s.pc}.goto t
        (if c = none then .out else .failed))
  | leaveFailed {t} (here : s.pc t = .failed) (unlocked : s.lock = none) (leaves : s.bd.Leaves) :
      Move o s (.thread t) (s.goto t .gone)
  | waitFailed {t} (here : s.pc t = .failed) (unlocked : s.lock = none) (stays : ¬ s.bd.Leaves) :
      Move o s (.thread t) (s.goto t .waiting)

/- A fault ends the process. -/
def Step (o : ImageConfig) (s : Image) (l : Label) (next : Image) : Prop :=
  s.fault = none ∧ Move o s l next

end Image
end Libsqfs
