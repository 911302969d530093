import Libsqfs.BulkdataPlan
import Libsqfs.IdTable
import Libsqfs.LinkedList

/-! The inodes of an image and the calls that build the tree: src/inodes.c and
the create functions of src/directory.c, src/regular.c and src/special.c. A
pointer to an inode is its place in the list of inodes, a pointer to a directory
entry the number of entries that were made before it. -/
namespace Libsqfs
open Metatable (uint)

structure DirectoryEntry where
  prev : Option Nat
  next : Option Nat
  name : Bytes
  inode : Nat
  serialno : Nat
  offset : Nat
  directoryTableEntry : MetatableEntry
  encodedSize : Nat
  encodedData : Option Bytes
  deriving DecidableEq, Repr

/- `firstIndexed` is the list that starts there and goes on with next_indexed. -/
structure DirectoryInode where
  parent : Option Nat
  first : Option Nat
  last : Option Nat
  indexedCount : Nat
  firstIndexed : List Nat
  dirTableEntry : MetatableEntry
  encodedEntriesSize : Nat
  deriving DecidableEq, Repr

/- `blocks` and `tailPiece` are chunks of the bulk data. -/
structure RegularInode where
  fileSize : Nat
  sparseSize : Nat
  blocks : List Nat
  tailPiece : Option Nat
  deriving DecidableEq, Repr

inductive DeviceType where
  | chr | blk
  deriving DecidableEq, Repr

/- What an inode is besides struct libsqfs_inode, by its virtual method table. -/
inductive InodeBody where
  | regular (reg : RegularInode)
  | directory (dir : DirectoryInode)
  | symlink (name : Bytes)
  | device (type : DeviceType) (major minor : Nat)
  | fifo
  deriving DecidableEq, Repr

structure Inode where
  attr : InodeAttr
  nlink : Nat
  inodeTableEntry : MetatableEntry
  inodeNumber : Nat
  encodedType : Nat
  encodedBaseType : Nat
  body : InodeBody
  deriving DecidableEq, Repr

def DirectoryInode.create : DirectoryInode := ⟨none, none, none, 0, [], ⟨0, 0⟩, 0⟩

namespace Inode

def IsDirectory (x : Inode) : Prop := ∃ dir, x.body = .directory dir

instance (x : Inode) : Decidable x.IsDirectory :=
  match h : x.body with
  | .directory dir => .isTrue ⟨dir, h⟩
  | .regular _ | .symlink _ | .device .. | .fifo =>
    .isFalse fun ⟨dir, same⟩ => by rw [h] at same; cases same

def dir (x : Inode) : DirectoryInode :=
  match x.body with
  | .directory dir => dir
  | _ => .create

def setDir (x : Inode) (dir : DirectoryInode) : Inode := {x with body := .directory dir}

end Inode

/- The part of struct libsqfs_image that holds the tree. `begun` is history: the
directories libsqfs_directory_serialize was called for. -/
structure Inodes where
  inode : Nat → Inode
  count : Nat
  entry : Nat → DirectoryEntry
  entryCount : Nat
  root : Option Nat
  inodeTable : Metatable
  dirTable : Metatable
  begun : List Nat

def DirectoryEntry.create (name : Bytes) (inode : Nat) : DirectoryEntry :=
  ⟨none, none, name, inode, 0, 0, ⟨0, 0⟩, 0, none⟩

/- strcmp compares the characters as unsigned char. -/
def strcmp (a b : Bytes) : Ordering := compare a b

inductive FragmentsOption where
  | never | small | always
  deriving DecidableEq, Repr

namespace Inodes

def setInode (t : Inodes) (i : Nat) (x : Inode) : Inodes :=
  {t with inode := Function.update t.inode i x}

def setEntry (t : Inodes) (e : Nat) (x : DirectoryEntry) : Inodes :=
  {t with entry := Function.update t.entry e x}

/- The inodes start out with block and offset -1. -/
def init (inodeCompressor : Option Compressor) : Inodes where
  inode _ := ⟨⟨0, 0, 0, 0, 0, 0, none⟩, 0, ⟨2 ^ 32 - 1, 2 ^ 32 - 1⟩, 0, 0, 0, .fifo⟩
  count := 0
  entry _ := .create [] 0
  entryCount := 0
  root := none
  inodeTable := .init inodeCompressor
  dirTable := .init inodeCompressor
  begun := []

def inodeInit (t : Inodes) (attr : InodeAttr) (body : InodeBody) : Nat × Inodes :=
  (t.count, {t.setInode t.count
    ⟨attr, 0, ⟨2 ^ 32 - 1, 2 ^ 32 - 1⟩, uint (t.count + 1), 0, 0, body⟩ with count := t.count + 1})

def directoryInodeCreate (t : Inodes) (attr : InodeAttr) (env : Env) : Option Nat × Inodes × Env :=
  let (allocated, env) := env.malloc
  if !allocated then (none, t, env) else
  let (i, t) := t.inodeInit attr (.directory .create)
  (some i, t, env)

def symlinkInodeCreate (t : Inodes) (attr : InodeAttr) (name : Bytes) (env : Env) :
    Option Nat × Inodes × Env :=
  let (allocated, env) := env.malloc
  if !allocated then (none, t, env) else
  let (copied, env) := env.malloc
  if !copied then (none, t, env) else
  let (i, t) := t.inodeInit attr (.symlink name)
  (some i, t, env)

def deviceInodeCreate (t : Inodes) (attr : InodeAttr) (type : UInt8) (major minor : Nat) (env : Env) :
    Option Nat × Inodes × Env :=
  let known : Option DeviceType := if type = 99 then some .chr else if type = 98 then some .blk else none
  match known with
  | none => (none, t, env)
  | some type =>
    let (allocated, env) := env.malloc
    if !allocated then (none, t, env) else
    let (i, t) := t.inodeInit attr (.device type (uint major) (uint minor))
    (some i, t, env)

def fifoInodeCreate (t : Inodes) (attr : InodeAttr) (env : Env) : Option Nat × Inodes × Env :=
  let (allocated, env) := env.malloc
  if !allocated then (none, t, env) else
  let (i, t) := t.inodeInit attr .fifo
  (some i, t, env)

/-! ### Regular files -/

def slicing (fragments : FragmentsOption) (blockSize fileSize : Nat) : Nat × Nat :=
  match fragments with
  | .never => ((fileSize + blockSize - 1) / blockSize, 0)
  | .small =>
    if fileSize < blockSize then (0, fileSize) else ((fileSize + blockSize - 1) / blockSize, 0)
  | .always => (fileSize / blockSize, fileSize % blockSize)

def blockPiece (data : Bytes) (blockSize n : Nat) : DataPiece :=
  ⟨data, if data.length - n * blockSize < blockSize then data.length - n * blockSize else blockSize,
    n * blockSize⟩

/- False when a chunk could not be allocated; those before it stay submitted. -/
def submitBlocks (data : Bytes) (blockSize : Nat) : List Nat → Env → Bool × List Item × Env
  | [], env => (true, [], env)
  | n :: rest, env =>
    let (allocated, env) := env.malloc
    if !allocated then (false, [], env) else
    let (ok, items, env) := submitBlocks data blockSize rest env
    (ok, ⟨.fullBlock, blockPiece data blockSize n⟩ :: items, env)

/- `data` is none where the size of the source cannot be found out, and `chunks`
is the number of chunks of the bulk data. The items are what is submitted. -/
def regularInodeCreate (fragments : FragmentsOption) (blockSize chunks : Nat) (t : Inodes)
    (attr : InodeAttr) (data : Option Bytes) (env : Env) : Option Nat × List Item × Inodes × Env :=
  match data with
  | none => (none, [], t, env)
  | some data =>
    let (nblocks, tailSize) := slicing fragments blockSize data.length
    let (allocated, env) := env.malloc
    if !allocated then (none, [], t, env) else
    let (listed, env) := env.malloc
    if !listed then (none, [], t, env) else
    let (ok, items, env) := submitBlocks data blockSize (List.range nblocks) env
    let blocks := List.range' chunks items.length
    let reg : RegularInode := ⟨data.length, 0, blocks, none⟩
    if !ok then (none, items, (t.inodeInit attr (.regular reg)).2, env) else
    if tailSize = 0 then
      let (i, t) := t.inodeInit attr (.regular reg)
      (some i, items, t, env)
    else
      let (created, env) := env.malloc
      if !created then (none, items, (t.inodeInit attr (.regular reg)).2, env) else
      let (i, t) := t.inodeInit attr
        (.regular {reg with tailPiece := some (chunks + items.length)})
      (some i, items ++ [⟨.fragmentPiece, ⟨data, tailSize, data.length - tailSize⟩⟩], t, env)

/-! ### Directories -/

def entries (t : Inodes) (d : Nat) : List Nat :=
  LinkedList.follow (fun e => (t.entry e).next) t.entryCount (t.inode d).dir.first

/- The search for the place of a name: the entries passed and the one it goes
before. -/
def insertionPoint (t : Inodes) (name : Bytes) : List Nat → Option Nat → Option Nat × Option Nat
  | [], insertAfter => (insertAfter, none)
  | e :: rest, insertAfter =>
    if strcmp name (t.entry e).name = .gt then t.insertionPoint name rest (some e)
    else (insertAfter, some e)

def linkEntry (t : Inodes) (d e : Nat) (insertAfter insertBefore : Option Nat) : Inodes :=
  let t := t.setEntry e {t.entry e with prev := insertAfter, next := insertBefore}
  let t := match insertAfter with
    | some a => t.setEntry a {t.entry a with next := some e}
    | none => t.setInode d ((t.inode d).setDir {(t.inode d).dir with first := some e})
  match insertBefore with
  | some b => t.setEntry b {t.entry b with prev := some e}
  | none => t.setInode d ((t.inode d).setDir {(t.inode d).dir with last := some e})

/- A directory is claimed for its parent before anything can fail. -/
def claimParent (t : Inodes) (parent i : Nat) : Inodes :=
  let t := t.setInode i ((t.inode i).setDir {(t.inode i).dir with parent := some parent})
  t.setInode parent {t.inode parent with nlink := (t.inode parent).nlink + 1}

def insertEntry (t : Inodes) (parent : Nat) (name : Bytes) (i : Nat) : Inodes :=
  let e := t.entryCount
  let t := {t.setEntry e (.create name i) with entryCount := e + 1}
  let t := t.setInode i {t.inode i with nlink := (t.inode i).nlink + 1}
  let (insertAfter, insertBefore) := t.insertionPoint name (t.entries parent) none
  t.linkEntry parent e insertAfter insertBefore

def directoryAddEntry (t : Inodes) (parent : Nat) (name : Bytes) (i : Nat) (env : Env) :
    Bool × Inodes × Env :=
  if (t.inode i).IsDirectory ∧ (t.inode i).dir.parent.isSome then (false, t, env) else
  let t := if (t.inode i).IsDirectory then t.claimParent parent i else t
  let (allocated, env) := env.malloc
  if !allocated then (false, t, env) else
  let (copied, env) := env.malloc
  if !copied then (false, t, env) else
  (true, t.insertEntry parent name i, env)

def directoryInodeLookup (t : Inodes) (d : Nat) (name : Bytes) : Option Nat :=
  ((t.entries d).find? fun e => strcmp (t.entry e).name name = .eq).map fun e => (t.entry e).inode

def setRoot (t : Inodes) (root : Nat) : Bool × Inodes :=
  if t.root.isSome then (false, t) else
  (true, {t.setInode root {t.inode root with nlink := (t.inode root).nlink + 1} with root := some root})

end Inodes
end Libsqfs
