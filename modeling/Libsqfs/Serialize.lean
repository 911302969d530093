import Libsqfs.DirectoryEncode

/-! Writing the tree to the inode table and the directory table: the serialize
functions of src/directory.c, src/regular.c and src/special.c. -/
namespace Libsqfs
open Metatable (uint)
open Bytes (put)

def dirType : Nat := 1
def fileType : Nat := 2
def symlinkType : Nat := 3
def blkdevType : Nat := 4
def chrdevType : Nat := 5
def fifoType : Nat := 6
def ldirType : Nat := 8
def lregType : Nat := 9
def lblkdevType : Nat := 11
def lchrdevType : Nat := 12
def lfifoType : Nat := 13

def uintMax : Nat := 2 ^ 32 - 1
def ushrtMax : Nat := 2 ^ 16 - 1

/- Where the bulk data went: `dst` of a full block, whose offset is -1 until it is written,
and the fragment block of a piece with the place in it. -/
structure StoredBlock where
  offset : Int
  size : Nat
  compressed : Bool
  deriving DecidableEq, Repr

structure StoredPiece where
  fragment : Nat
  offset : Nat
  deriving DecidableEq, Repr

/- `stale` is what fresh memory holds where the encoder has not written yet. -/
structure SerializeConfig where
  host : Bytes.Host
  stale : Nat
  block : Nat → StoredBlock
  piece : Nat → StoredPiece

def inodeHeader (host : Bytes.Host) (x : Inode) (type : Nat) : Bytes :=
  put host 2 type ++ put host 2 x.attr.mode ++ put host 2 x.attr.mappedUid ++
    put host 2 x.attr.mappedGid ++ put host 4 (x.attr.ctime % 2 ^ 32).toNat ++ put host 4 x.inodeNumber

def xattrField (host : Bytes.Host) (x : Inode) : Bytes := put host 4 (x.attr.xattrset.getD uintMax)

namespace Inodes

/- The position is taken before the first byte is appended. -/
def writeRecord (t : Inodes) (i type baseType : Nat) (pieces : List Bytes) (env : Env) :
    Bool × Inodes × Env :=
  let t := t.setInode i {t.inode i with
    encodedType := type
    encodedBaseType := baseType
    inodeTableEntry := t.inodeTable.position}
  let (ok, table, env) := Metatable.appendEach pieces t.inodeTable env
  (ok, {t with inodeTable := table}, env)

end Inodes

/-! ### Regular files -/

def regularType (o : SerializeConfig) (x : Inode) (reg : RegularInode) : Nat :=
  if reg.sparseSize ≠ 0 ∨ x.nlink ≠ 1 ∨ reg.fileSize > uintMax then lregType
  else if x.attr.xattrset.isSome then lregType
  else match reg.blocks with
    | [] => fileType
    | c :: _ => if (o.block c).offset > uintMax then lregType else fileType

def startBlock (o : SerializeConfig) (reg : RegularInode) : Nat :=
  match reg.blocks with
  | [] => 0
  | c :: _ => ((o.block c).offset % 2 ^ 64).toNat

def tailFragment (o : SerializeConfig) (reg : RegularInode) : Nat × Nat :=
  match reg.tailPiece with
  | some c => ((o.piece c).fragment, (o.piece c).offset)
  | none => (uintMax, 0)

def regularHeader (o : SerializeConfig) (x : Inode) (reg : RegularInode) : Bytes :=
  if regularType o x reg = fileType then
    inodeHeader o.host x fileType ++ put o.host 4 (startBlock o reg) ++
      put o.host 4 (tailFragment o reg).1 ++ put o.host 4 (tailFragment o reg).2 ++
      put o.host 4 reg.fileSize
  else
    inodeHeader o.host x lregType ++ put o.host 8 (startBlock o reg) ++ put o.host 8 reg.fileSize ++
      put o.host 8 reg.sparseSize ++ put o.host 4 x.nlink ++ put o.host 4 (tailFragment o reg).1 ++
      put o.host 4 (tailFragment o reg).2 ++ xattrField o.host x

/- COMPRESSED_BIT_BLOCK actually means "uncompressed". -/
def blockInfo (block : StoredBlock) : Nat :=
  if block.compressed then uint block.size else uint block.size ||| 2 ^ 24

def blockList (o : SerializeConfig) (reg : RegularInode) : Bytes :=
  reg.blocks.flatMap fun c => put o.host 4 (blockInfo (o.block c))

def rdev (major minor : Nat) : Nat :=
  uint (major <<< 8) ||| (minor &&& 0xff) ||| uint ((minor &&& 0xffffff00) <<< 12)

def deviceTypes : DeviceType → Nat × Nat
  | .chr => (chrdevType, lchrdevType)
  | .blk => (blkdevType, lblkdevType)

namespace Inodes

def regularInodeSerialize (o : SerializeConfig) (t : Inodes) (i : Nat) (reg : RegularInode) (env : Env) :
    Bool × Inodes × Env :=
  t.writeRecord i (regularType o (t.inode i) reg) fileType
    [regularHeader o (t.inode i) reg, blockList o reg] env

/-! ### Symlinks, devices and fifos -/

def symlinkInodeSerialize (o : SerializeConfig) (t : Inodes) (i : Nat) (name : Bytes) (env : Env) :
    Bool × Inodes × Env :=
  t.writeRecord i symlinkType symlinkType
    [inodeHeader o.host (t.inode i) symlinkType ++ put o.host 4 (t.inode i).nlink ++
      put o.host 4 name.length, name] env

def deviceInodeSerialize (o : SerializeConfig) (t : Inodes) (i : Nat) (type : DeviceType)
    (major minor : Nat) (env : Env) : Bool × Inodes × Env :=
  match (t.inode i).attr.xattrset with
  | none => t.writeRecord i (deviceTypes type).1 (deviceTypes type).1
      [inodeHeader o.host (t.inode i) (deviceTypes type).1 ++ put o.host 4 (t.inode i).nlink ++
        put o.host 4 (rdev major minor)] env
  | some _ => t.writeRecord i (deviceTypes type).2 (deviceTypes type).1
      [inodeHeader o.host (t.inode i) (deviceTypes type).2 ++ put o.host 4 (t.inode i).nlink ++
        put o.host 4 (rdev major minor) ++ xattrField o.host (t.inode i)] env

def fifoInodeSerialize (o : SerializeConfig) (t : Inodes) (i : Nat) (env : Env) : Bool × Inodes × Env :=
  match (t.inode i).attr.xattrset with
  | none => t.writeRecord i fifoType fifoType
      [inodeHeader o.host (t.inode i) fifoType ++ put o.host 4 (t.inode i).nlink] env
  | some _ => t.writeRecord i lfifoType fifoType
      [inodeHeader o.host (t.inode i) lfifoType ++ put o.host 4 (t.inode i).nlink ++
        xattrField o.host (t.inode i)] env

/-! ### Directories -/

def listed (t : Inodes) (e : Nat) : Listed :=
  let x := t.inode (t.entry e).inode
  ⟨(t.entry e).name, x.inodeTableEntry, x.inodeNumber, x.encodedBaseType⟩

def keepEncoded (t : Inodes) : List Nat → List EncodedEntry → Inodes
  | e :: rest, y :: done =>
    keepEncoded (t.setEntry e {t.entry e with
      serialno := y.serialno
      offset := y.offset
      encodedSize := y.encodedSize
      encodedData := some y.encodedData}) rest done
  | _, _ => t

/- The second loop of libsqfs_directory_encode. The flag tells the first turn,
which fills in the place of the listing. -/
def appendEntries (d : Nat) : List Nat → Bool → Inodes → Env → Bool × Inodes × Env
  | [], _, t, env => (true, t, env)
  | e :: rest, first, t, env =>
    let t := t.setEntry e {t.entry e with directoryTableEntry := t.dirTable.position}
    match t.dirTable.append ((t.entry e).encodedData.getD []) env with
    | (false, table, env) => (false, {t with dirTable := table}, env)
    | (true, table, env) =>
      let t := {t with dirTable := table}
      let t := if first then t.setInode d ((t.inode d).setDir {(t.inode d).dir with
          dirTableEntry := (t.entry e).directoryTableEntry})
        else t
      let t := t.setEntry e {t.entry e with encodedData := none}
      appendEntries d rest false t env

def directoryEncode (o : SerializeConfig) (t : Inodes) (d : Nat) (env : Env) : Bool × Inodes × Env :=
  let es := t.entries d
  let (ok, enc, env) := encodeEntries o.host o.stale (es.map t.listed) env
  let t := t.keepEncoded es enc.done
  let t := t.setInode d ((t.inode d).setDir {(t.inode d).dir with
    firstIndexed := enc.indexed.filterMap fun n => es[n]?
    indexedCount := (t.inode d).dir.indexedCount + enc.indexed.length})
  if !ok then (false, t, env) else
  let t := t.setInode d ((t.inode d).setDir {(t.inode d).dir with
    encodedEntriesSize := enc.offset
    dirTableEntry := ⟨0, 0⟩})
  appendEntries d es true t env

def pruneAfter (serialno : Nat → Nat) : Nat → List Nat → List Nat
  | _, [] => []
  | current, next :: rest =>
    if serialno next - serialno current > 128 then next :: pruneAfter serialno next rest
    else pruneAfter serialno current rest

/- The first indexed entry is always skipped. -/
def pruneIndex (t : Inodes) (d : Nat) : Inodes :=
  let dir := (t.inode d).dir
  let kept := match dir.firstIndexed with
    | [] => []
    | first :: rest => pruneAfter (fun e => (t.entry e).serialno) first rest
  t.setInode d ((t.inode d).setDir {dir with
    firstIndexed := kept
    indexedCount := dir.indexedCount - (dir.firstIndexed.length - kept.length)})

def directoryType (x : Inode) (dir : DirectoryInode) : Nat :=
  if x.attr.xattrset.isSome then ldirType
  else if dir.indexedCount ≠ 0 ∨ dir.encodedEntriesSize > ushrtMax - 3 then ldirType
  else dirType

def parentNumber (t : Inodes) (dir : DirectoryInode) : Nat :=
  match dir.parent with
  | some p => (t.inode p).inodeNumber
  | none => t.count + 1

def directoryHeader (host : Bytes.Host) (t : Inodes) (x : Inode) (dir : DirectoryInode) : Bytes :=
  if directoryType x dir = dirType then
    inodeHeader host x dirType ++ put host 4 dir.dirTableEntry.block ++ put host 4 x.nlink ++
      put host 2 (dir.encodedEntriesSize + 3) ++ put host 2 dir.dirTableEntry.offset ++
      put host 4 (t.parentNumber dir)
  else
    inodeHeader host x ldirType ++ put host 4 x.nlink ++ put host 4 (dir.encodedEntriesSize + 3) ++
      put host 4 dir.dirTableEntry.block ++ put host 4 (t.parentNumber dir) ++
      put host 2 dir.indexedCount ++ put host 2 dir.dirTableEntry.offset ++ xattrField host x

def indexRecord (host : Bytes.Host) (x : DirectoryEntry) : Bytes :=
  put host 4 x.offset ++ put host 4 x.directoryTableEntry.block ++ put host 4 (sizetSub x.name.length 1)

def indexRecords (host : Bytes.Host) (t : Inodes) (dir : DirectoryInode) : List Bytes :=
  dir.firstIndexed.flatMap fun e => [indexRecord host (t.entry e), (t.entry e).name]

def directoryInodeEncode (o : SerializeConfig) (t : Inodes) (d : Nat) (env : Env) : Bool × Inodes × Env :=
  let x := t.inode d
  let index := if directoryType x x.dir = dirType then [] else t.indexRecords o.host x.dir
  t.writeRecord d (directoryType x x.dir) dirType (directoryHeader o.host t x x.dir :: index) env

def directoryWrite (o : SerializeConfig) (t : Inodes) (d : Nat) (env : Env) : Bool × Inodes × Env :=
  match t.directoryEncode o d env with
  | (false, t, env) => (false, t, env)
  | (true, t, env) => (t.pruneIndex d).directoryInodeEncode o d env

/- none: the calls nest deeper than the fuel allows. -/
abbrev Serialized := Option (Bool × Inodes × Env)

def serializeEach (serialize : Inodes → Nat → Env → Serialized) : List Nat → Inodes → Env → Serialized
  | [], t, env => some (true, t, env)
  | i :: rest, t, env =>
    match serialize t i env with
    | none => none
    | some (false, t, env) => some (false, t, env)
    | some (true, t, env) => serializeEach serialize rest t env

def inodeSerialize (o : SerializeConfig) : Nat → Inodes → Nat → Env → Serialized
  | 0, _, _, _ => none
  | fuel + 1, t, i, env =>
    if (t.inode i).encodedType ≠ 0 then some (true, t, env) else
    match (t.inode i).body with
    | .directory _ =>
      let t := {t with begun := t.begun ++ [i]}
      match serializeEach (inodeSerialize o fuel) ((t.entries i).map fun e => (t.entry e).inode) t env with
      | none => none
      | some (false, t, env) => some (false, t, env)
      | some (true, t, env) => some (t.directoryWrite o i env)
    | .regular reg => some (t.regularInodeSerialize o i reg env)
    | .symlink name => some (t.symlinkInodeSerialize o i name env)
    | .device type major minor => some (t.deviceInodeSerialize o i type major minor env)
    | .fifo => some (t.fifoInodeSerialize o i env)

def inodeEncode (o : SerializeConfig) (t : Inodes) (i : Nat) (env : Env) : Bool × Inodes × Env :=
  match (t.inode i).body with
  | .regular reg => t.regularInodeSerialize o i reg env
  | .directory _ => t.directoryInodeEncode o i env
  | .symlink name => t.symlinkInodeSerialize o i name env
  | .device type major minor => t.deviceInodeSerialize o i type major minor env
  | .fifo => t.fifoInodeSerialize o i env

end Inodes
end Libsqfs
