import Libsqfs.SerializeFrame

/-! Reading an inode record by the format. The stored type chooses the layout. -/
namespace Libsqfs
open Bytes (field take? put)
open Metatable (uint)

inductive RecordData where
  | regular (fileSize startBlock : Nat) (fragment : Option (Nat × Nat)) (blocks : List (Nat × Bool))
  | directory (startBlock offset size parent : Nat)
  | symlink (target : Bytes)
  | device (type : DeviceType) (rdev : Nat)
  | fifo
  deriving DecidableEq, Repr

structure InodeRecord where
  mode : Nat
  uid : Nat
  guid : Nat
  mtime : Nat
  inodeNumber : Nat
  nlink : Nat
  xattr : Option Nat
  data : RecordData
  deriving DecidableEq, Repr

/- Ids and fragments use -1 for none. -/
def unlessMax (n : Nat) : Option Nat := if n = uintMax then none else some n

def blockCount (blockSize fileSize fragment : Nat) : Nat :=
  if fragment = uintMax then (fileSize + blockSize - 1) / blockSize else fileSize / blockSize

def readBlocks : Nat → Bytes → Option (List (Nat × Bool) × Bytes)
  | 0, raw => some ([], raw)
  | n + 1, raw => do
    let (info, raw) ← field 4 raw
    let (rest, raw) ← readBlocks n raw
    some ((info % 2 ^ 24, !info.testBit 24) :: rest, raw)

abbrev RecordBody := Nat × Option Nat × RecordData

def readRegular (blockSize : Nat) (raw : Bytes) : Option (RecordBody × Bytes) := do
  let (startBlock, raw) ← field 4 raw
  let (fragment, raw) ← field 4 raw
  let (offset, raw) ← field 4 raw
  let (fileSize, raw) ← field 4 raw
  let (blocks, raw) ← readBlocks (blockCount blockSize fileSize fragment) raw
  some ((1, none, .regular fileSize startBlock ((unlessMax fragment).map fun f => (f, offset)) blocks), raw)

def readLargeRegular (blockSize : Nat) (raw : Bytes) : Option (RecordBody × Bytes) := do
  let (startBlock, raw) ← field 8 raw
  let (fileSize, raw) ← field 8 raw
  let (_, raw) ← field 8 raw
  let (nlink, raw) ← field 4 raw
  let (fragment, raw) ← field 4 raw
  let (offset, raw) ← field 4 raw
  let (xattr, raw) ← field 4 raw
  let (blocks, raw) ← readBlocks (blockCount blockSize fileSize fragment) raw
  some ((nlink, unlessMax xattr,
    .regular fileSize startBlock ((unlessMax fragment).map fun f => (f, offset)) blocks), raw)

def readDirectory (raw : Bytes) : Option (RecordBody × Bytes) := do
  let (startBlock, raw) ← field 4 raw
  let (nlink, raw) ← field 4 raw
  let (fileSize, raw) ← field 2 raw
  let (offset, raw) ← field 2 raw
  let (parent, raw) ← field 4 raw
  some ((nlink, none, .directory startBlock offset (fileSize - 3) parent), raw)

/- The index records that follow are not read here. -/
def readLargeDirectory (raw : Bytes) : Option (RecordBody × Bytes) := do
  let (nlink, raw) ← field 4 raw
  let (fileSize, raw) ← field 4 raw
  let (startBlock, raw) ← field 4 raw
  let (parent, raw) ← field 4 raw
  let (_, raw) ← field 2 raw
  let (offset, raw) ← field 2 raw
  let (xattr, raw) ← field 4 raw
  some ((nlink, unlessMax xattr, .directory startBlock offset (fileSize - 3) parent), raw)

def readSymlink (raw : Bytes) : Option (RecordBody × Bytes) := do
  let (nlink, raw) ← field 4 raw
  let (size, raw) ← field 4 raw
  let (target, raw) ← take? size raw
  some ((nlink, none, .symlink target), raw)

def readDevice (type : DeviceType) (extended : Bool) (raw : Bytes) : Option (RecordBody × Bytes) := do
  let (nlink, raw) ← field 4 raw
  let (rdev, raw) ← field 4 raw
  if extended then
    let (xattr, raw) ← field 4 raw
    some ((nlink, unlessMax xattr, .device type rdev), raw)
  else some ((nlink, none, .device type rdev), raw)

def readFifo (extended : Bool) (raw : Bytes) : Option (RecordBody × Bytes) := do
  let (nlink, raw) ← field 4 raw
  if extended then
    let (xattr, raw) ← field 4 raw
    some ((nlink, unlessMax xattr, .fifo), raw)
  else some ((nlink, none, .fifo), raw)

def readBody (blockSize type : Nat) (raw : Bytes) : Option (RecordBody × Bytes) :=
  match type with
  | 1 => readDirectory raw
  | 2 => readRegular blockSize raw
  | 3 => readSymlink raw
  | 4 => readDevice .blk false raw
  | 5 => readDevice .chr false raw
  | 6 => readFifo false raw
  | 8 => readLargeDirectory raw
  | 9 => readLargeRegular blockSize raw
  | 11 => readDevice .blk true raw
  | 12 => readDevice .chr true raw
  | 13 => readFifo true raw
  | _ => none

def readInode (blockSize : Nat) (raw : Bytes) : Option (InodeRecord × Bytes) := do
  let (type, raw) ← field 2 raw
  let (mode, raw) ← field 2 raw
  let (uid, raw) ← field 2 raw
  let (guid, raw) ← field 2 raw
  let (mtime, raw) ← field 4 raw
  let (inodeNumber, raw) ← field 4 raw
  let ((nlink, xattr, data), raw) ← readBody blockSize type raw
  some (⟨mode, uid, guid, mtime, inodeNumber, nlink, xattr, data⟩, raw)

/-! ### What was stored -/

structure Inode.Typed (x : Inode) : Prop where
  mode : x.attr.mode < 2 ^ 16
  mappedUid : x.attr.mappedUid < 2 ^ 16
  mappedGid : x.attr.mappedGid < 2 ^ 16
  xattrset : ∀ id, x.attr.xattrset = some id → id < 2 ^ 31
  inodeNumber : x.inodeNumber < 2 ^ 32
  nlink : x.nlink < 2 ^ 32

structure RegularInode.Sliced (o : SerializeConfig) (fragments : FragmentsOption) (blockSize : Nat)
    (reg : RegularInode) : Prop where
  fileSize : reg.fileSize < 2 ^ 63
  blocks : reg.blocks.length = (Inodes.slicing fragments blockSize reg.fileSize).1
  tail : reg.tailPiece.isSome ↔ (Inodes.slicing fragments blockSize reg.fileSize).2 ≠ 0
  sizes : ∀ c ∈ reg.blocks, (o.block c).size < 2 ^ 24
  offsets : ∀ c ∈ reg.blocks, 0 ≤ (o.block c).offset ∧ (o.block c).offset < 2 ^ 63
  pieces : ∀ c, reg.tailPiece = some c → (o.piece c).fragment < 2 ^ 32 - 1 ∧ (o.piece c).offset < 2 ^ 32

structure DirectoryInode.Sized (dir : DirectoryInode) : Prop where
  size : dir.encodedEntriesSize < 2 ^ 32 - 3
  indexed : dir.indexedCount ≤ 65535
  block : dir.dirTableEntry.block < 2 ^ 32
  offset : dir.dirTableEntry.offset < metadataSize

def InodeBody.Fits (o : SerializeConfig) (fragments : FragmentsOption) (blockSize : Nat) :
    InodeBody → Prop
  | .regular reg => reg.Sliced o fragments blockSize
  | .directory dir => dir.Sized
  | .symlink name => name.length < 2 ^ 32
  | .device .. | .fifo => True

namespace Inodes

def bodyData (o : SerializeConfig) (t : Inodes) : InodeBody → RecordData
  | .regular reg => .regular reg.fileSize (startBlock o reg)
      (reg.tailPiece.map fun c => ((o.piece c).fragment, (o.piece c).offset))
      (reg.blocks.map fun c => ((o.block c).size, (o.block c).compressed))
  | .directory dir => .directory dir.dirTableEntry.block dir.dirTableEntry.offset
      dir.encodedEntriesSize (uint (t.parentNumber dir))
  | .symlink name => .symlink name
  | .device type major minor => .device type (rdev major minor)
  | .fifo => .fifo

/- Symlinks never carry xattrs. -/
def recorded (o : SerializeConfig) (t : Inodes) (x : Inode) : InodeRecord where
  mode := x.attr.mode
  uid := x.attr.mappedUid
  guid := x.attr.mappedGid
  mtime := (x.attr.ctime % 2 ^ 32).toNat
  inodeNumber := x.inodeNumber
  nlink := x.nlink
  xattr := match x.body with
    | .symlink _ => none
    | _ => x.attr.xattrset
  data := t.bodyData o x.body

end Inodes

section
variable {host : Bytes.Host} {o : SerializeConfig} {x : Inode} {blockSize : Nat}

theorem readInodeHeader (typed : x.Typed) {type : Nat} (small : type < 2 ^ 16) {raw rest : Bytes}
    {nlink : Nat} {xattr : Option Nat} {data : RecordData}
    (body : readBody blockSize type raw = some ((nlink, xattr, data), rest)) :
    readInode blockSize (inodeHeader host x type ++ raw) =
      some (⟨x.attr.mode, x.attr.mappedUid, x.attr.mappedGid, (x.attr.ctime % 2 ^ 32).toNat,
        x.inodeNumber, nlink, xattr, data⟩, rest) := by
  obtain ⟨mode, uid, gid, _, number, _⟩ := typed
  have time : (x.attr.ctime % 2 ^ 32).toNat < 256 ^ 4 := by omega
  have number' : x.inodeNumber < 256 ^ 4 := number
  have small' : type < 256 ^ 2 := small
  have mode' : x.attr.mode < 256 ^ 2 := mode
  have uid' : x.attr.mappedUid < 256 ^ 2 := uid
  have gid' : x.attr.mappedGid < 256 ^ 2 := gid
  simp only [readInode, inodeHeader, Bytes.putLe, List.append_assoc, bind, Option.bind_some,
    Bytes.fieldBounded small', Bytes.fieldBounded mode', Bytes.fieldBounded uid',
    Bytes.fieldBounded gid', Bytes.fieldBounded time, Bytes.fieldBounded number', body]

theorem xattrBack (host : Bytes.Host) (typed : x.Typed) (rest : Bytes) :
    field 4 (xattrField host x ++ rest) = some (x.attr.xattrset.getD uintMax, rest) ∧
      unlessMax (x.attr.xattrset.getD uintMax) = x.attr.xattrset := by
  cases set : x.attr.xattrset with
  | none =>
    refine ⟨?_, rfl⟩
    rw [xattrField, set, Bytes.putLe]
    exact Bytes.fieldBounded (by decide) rest
  | some id =>
    have small := typed.xattrset id set
    have small' : id < 256 ^ 4 := Nat.lt_trans small (by decide)
    have other : id ≠ uintMax := by unfold uintMax; omega
    refine ⟨?_, if_neg other⟩
    rw [xattrField, set, Bytes.putLe]
    exact Bytes.fieldBounded small' rest

theorem readSymlinkAppend (typed : x.Typed) {name : Bytes} (fits : name.length < 2 ^ 32) (rest : Bytes) :
    readSymlink (put host 4 x.nlink ++ (put host 4 name.length ++ (name ++ rest))) =
      some ((x.nlink, none, .symlink name), rest) := by
  have nlink : x.nlink < 256 ^ 4 := typed.nlink
  have size : name.length < 256 ^ 4 := fits
  simp only [readSymlink, Bytes.putLe, bind, Option.bind_some, Bytes.fieldBounded nlink,
    Bytes.fieldBounded size, Bytes.takeAppend]

theorem rdevSmall (major minor : Nat) : rdev major minor < 2 ^ 32 := by
  unfold rdev
  refine Nat.or_lt_two_pow (Nat.or_lt_two_pow ?_ ?_) ?_
  · exact Nat.mod_lt _ (by decide)
  · exact Nat.lt_of_le_of_lt Nat.and_le_right (by decide)
  · exact Nat.mod_lt _ (by decide)

theorem readDeviceAppend (typed : x.Typed) (type : DeviceType) (major minor : Nat) (rest : Bytes) :
    readDevice type false (put host 4 x.nlink ++ (put host 4 (rdev major minor) ++ rest)) =
        some ((x.nlink, none, .device type (rdev major minor)), rest) ∧
      readDevice type true (put host 4 x.nlink ++ (put host 4 (rdev major minor) ++
          (xattrField host x ++ rest))) =
        some ((x.nlink, x.attr.xattrset, .device type (rdev major minor)), rest) := by
  have nlink : x.nlink < 256 ^ 4 := typed.nlink
  have small : rdev major minor < 256 ^ 4 := rdevSmall major minor
  obtain ⟨stored, back⟩ := xattrBack host typed rest
  simp [readDevice, Bytes.fieldBounded nlink, Bytes.fieldBounded small, stored, back]

theorem readFifoAppend (typed : x.Typed) (rest : Bytes) :
    readFifo false (put host 4 x.nlink ++ rest) = some ((x.nlink, none, .fifo), rest) ∧
      readFifo true (put host 4 x.nlink ++ (xattrField host x ++ rest)) =
        some ((x.nlink, x.attr.xattrset, .fifo), rest) := by
  have nlink : x.nlink < 256 ^ 4 := typed.nlink
  obtain ⟨stored, back⟩ := xattrBack host typed rest
  simp [readFifo, Bytes.fieldBounded nlink, stored, back]

/-! ### Regular files -/

theorem blockInfoBack {block : StoredBlock} (small : block.size < 2 ^ 24) :
    blockInfo block < 256 ^ 4 ∧ blockInfo block % 2 ^ 24 = block.size ∧
      (blockInfo block).testBit 24 = !block.compressed := by
  have whole : uint block.size = block.size := Nat.mod_eq_of_lt (by omega)
  unfold blockInfo
  rw [whole]
  cases block.compressed with
  | true =>
    rw [if_pos rfl]
    exact ⟨by omega, Nat.mod_eq_of_lt small, Nat.testBit_lt_two_pow small⟩
  | false =>
    have bits := Nat.two_pow_add_eq_or_of_lt small 1
    rw [Nat.mul_one] at bits
    rw [if_neg (by simp), Nat.lor_comm, ← bits]
    refine ⟨by omega, by omega, ?_⟩
    rw [Nat.testBit_two_pow_add_eq, Nat.testBit_lt_two_pow small]

theorem readBlocksAppend (o : SerializeConfig) {blocks : List Nat}
    (small : ∀ c ∈ blocks, (o.block c).size < 2 ^ 24) (rest : Bytes) :
    readBlocks blocks.length (blocks.flatMap (fun c => put o.host 4 (blockInfo (o.block c))) ++ rest) =
      some (blocks.map fun c => ((o.block c).size, (o.block c).compressed), rest) := by
  induction blocks with
  | nil => rfl
  | cons c more ih =>
    obtain ⟨fits, size, flag⟩ := blockInfoBack (small c (by simp))
    have others := ih fun d member => small d (List.mem_cons_of_mem _ member)
    simp only [Bytes.putLe] at others
    simp only [List.length_cons, readBlocks, List.flatMap_cons, List.append_assoc, Bytes.putLe,
      Bytes.fieldBounded fits, others, size, flag, bind, Option.bind_some, Bool.not_not, List.map_cons]

/- The reader's rule finds the blocks that the slicing made. -/
theorem slicedCount {fragments : FragmentsOption} {reg : RegularInode} (positive : 0 < blockSize)
    (sliced : reg.Sliced o fragments blockSize) :
    blockCount blockSize reg.fileSize (tailFragment o reg).1 = reg.blocks.length := by
  rw [sliced.blocks]
  cases piece : reg.tailPiece with
  | none =>
    have noTail : (Inodes.slicing fragments blockSize reg.fileSize).2 = 0 := by
      by_contra tail
      have some := sliced.tail.mpr tail
      rw [piece] at some
      cases some
    have max : (tailFragment o reg).1 = uintMax := by simp [tailFragment, piece]
    rw [max, blockCount, if_pos rfl]
    cases fragments with
    | never => rfl
    | small =>
      simp only [Inodes.slicing] at noTail ⊢
      split
      · rename_i short
        rw [if_pos short] at noTail
        simp only at noTail
        rw [noTail, Nat.div_eq_of_lt (by omega)]
      · rfl
    | always =>
      have divides : reg.fileSize % blockSize = 0 := noTail
      have whole := Nat.div_add_mod reg.fileSize blockSize
      rw [divides, Nat.add_zero] at whole
      have above : reg.fileSize + blockSize - 1 =
          blockSize - 1 + blockSize * (reg.fileSize / blockSize) := by omega
      simp only [Inodes.slicing]
      rw [above, Nat.add_mul_div_left _ _ positive, Nat.div_eq_of_lt (by omega), Nat.zero_add]
  | some c =>
    have tail := sliced.tail.mp (by rw [piece]; rfl)
    have indexed := (sliced.pieces c piece).1
    have other : (tailFragment o reg).1 ≠ uintMax := by
      simp only [tailFragment, piece]
      unfold uintMax
      omega
    rw [blockCount, if_neg other]
    cases fragments with
    | never => exact absurd rfl tail
    | small =>
      simp only [Inodes.slicing] at tail ⊢
      split
      · rename_i short
        exact Nat.div_eq_of_lt short
      · rename_i long
        rw [if_neg long] at tail
        exact absurd rfl tail
    | always => rfl

theorem tailBack {fragments : FragmentsOption} {reg : RegularInode}
    (sliced : reg.Sliced o fragments blockSize) :
    (tailFragment o reg).1 < 256 ^ 4 ∧ (tailFragment o reg).2 < 256 ^ 4 ∧
      ((unlessMax (tailFragment o reg).1).map fun f => (f, (tailFragment o reg).2)) =
        reg.tailPiece.map fun c => ((o.piece c).fragment, (o.piece c).offset) := by
  unfold tailFragment
  cases piece : reg.tailPiece with
  | none => exact ⟨(by decide : uintMax < 256 ^ 4), (by decide : 0 < 256 ^ 4), rfl⟩
  | some c =>
    obtain ⟨fragment, offset⟩ := sliced.pieces c piece
    have other : (o.piece c).fragment ≠ uintMax := by unfold uintMax; omega
    refine ⟨by simp only; omega, offset, ?_⟩
    simp only [unlessMax, if_neg other, Option.map_some]

theorem startBlockSmall {fragments : FragmentsOption} {reg : RegularInode}
    (sliced : reg.Sliced o fragments blockSize) : startBlock o reg < 2 ^ 63 := by
  unfold startBlock
  cases shape : reg.blocks with
  | nil => exact Nat.two_pow_pos 63
  | cons c more =>
    have bound := sliced.offsets c (by rw [shape]; simp)
    dsimp only
    omega

/- The short form is chosen only for what it can hold. -/
theorem shortRegular {fragments : FragmentsOption} {reg : RegularInode} (sliced : reg.Sliced o fragments blockSize)
    (short : regularType o x reg = fileType) :
    x.nlink = 1 ∧ reg.fileSize < 2 ^ 32 ∧ x.attr.xattrset = none ∧ startBlock o reg < 2 ^ 32 := by
  unfold regularType at short
  split at short
  · cases short
  · rename_i plain
    push Not at plain
    obtain ⟨_, nlink, size⟩ := plain
    split at short
    · cases short
    · rename_i bare
      have start : startBlock o reg < 2 ^ 32 := by
        unfold startBlock
        split at short
        · exact Nat.two_pow_pos 32
        · rename_i shape
          have bound := sliced.offsets _ (by rw [shape]; exact List.mem_cons_self)
          split at short
          · cases short
          · rename_i near
            unfold uintMax at near
            omega
      unfold uintMax at size
      exact ⟨nlink, by omega, Option.not_isSome_iff_eq_none.mp bare, start⟩

theorem regularTypes (o : SerializeConfig) (x : Inode) (reg : RegularInode) :
    regularType o x reg = fileType ∨ regularType o x reg = lregType := by
  unfold regularType
  split
  · exact .inr rfl
  · split
    · exact .inr rfl
    · split
      · exact .inl rfl
      · split
        · exact .inr rfl
        · exact .inl rfl

theorem readRegularAppend {fragments : FragmentsOption} {reg : RegularInode} (typed : x.Typed)
    (positive : 0 < blockSize) (sliced : reg.Sliced o fragments blockSize)
    (body : x.body = .regular reg) (t : Inodes) (rest : Bytes) :
    readInode blockSize (regularHeader o x reg ++ (blockList o reg ++ rest)) =
      some (t.recorded o x, rest) := by
  obtain ⟨fragment, offset, tail⟩ := tailBack sliced
  have count := slicedCount positive sliced
  have blocks := readBlocksAppend o sliced.sizes rest
  have start := startBlockSmall sliced
  have recorded : t.recorded o x = ⟨x.attr.mode, x.attr.mappedUid, x.attr.mappedGid,
      (x.attr.ctime % 2 ^ 32).toNat, x.inodeNumber, x.nlink, x.attr.xattrset,
      .regular reg.fileSize (startBlock o reg)
        (reg.tailPiece.map fun c => ((o.piece c).fragment, (o.piece c).offset))
        (reg.blocks.map fun c => ((o.block c).size, (o.block c).compressed))⟩ := by
    simp only [Inodes.recorded, body, Inodes.bodyData]
  have fragment' : (tailFragment o reg).1 < 256 ^ 4 := fragment
  rw [recorded]
  rcases regularTypes o x reg with short | long
  · obtain ⟨nlink, size, bare, near⟩ := shortRegular sliced short
    have near' : startBlock o reg < 256 ^ 4 := near
    have size' : reg.fileSize < 256 ^ 4 := size
    rw [regularHeader, if_pos short]
    simp only [List.append_assoc]
    rw [nlink, bare]
    refine readInodeHeader typed (by decide) ?_
    simp only [readBody, fileType, readRegular, Bytes.putLe, bind, Option.bind_some,
      Bytes.fieldBounded near', Bytes.fieldBounded fragment', Bytes.fieldBounded offset,
      Bytes.fieldBounded size', count]
    simp only [blockList, blocks, tail, Option.bind_some]
  · have nlink : x.nlink < 256 ^ 4 := typed.nlink
    have start' : startBlock o reg < 256 ^ 8 := Nat.lt_trans start (by decide)
    have size' : reg.fileSize < 256 ^ 8 := Nat.lt_trans sliced.fileSize (by decide)
    have other : regularType o x reg ≠ fileType := by rw [long]; decide
    obtain ⟨stored, back⟩ := xattrBack o.host typed (blockList o reg ++ rest)
    rw [regularHeader, if_neg other]
    simp only [List.append_assoc]
    refine readInodeHeader typed (by decide) ?_
    simp only [readBody, lregType, readLargeRegular, Bytes.putLe, bind, Option.bind_some,
      Bytes.fieldBounded start', Bytes.fieldBounded size', Bytes.fieldAppend 8,
      Bytes.fieldBounded nlink, Bytes.fieldBounded fragment', Bytes.fieldBounded offset, stored, count]
    simp only [blockList, blocks, tail, back, Option.bind_some]

/-! ### Directories -/

theorem readDirectoryAppend {dir : DirectoryInode} (typed : x.Typed) (sized : dir.Sized)
    (body : x.body = .directory dir) (t : Inodes) (rest : Bytes) :
    readInode blockSize (Inodes.directoryHeader o.host t x dir ++ rest) = some (t.recorded o x, rest) := by
  obtain ⟨size, indexed, block, offset⟩ := sized
  have nlink : x.nlink < 256 ^ 4 := typed.nlink
  have block' : dir.dirTableEntry.block < 256 ^ 4 := block
  have offset' : dir.dirTableEntry.offset < 256 ^ 2 := Nat.lt_trans offset (by decide)
  have recorded : t.recorded o x = ⟨x.attr.mode, x.attr.mappedUid, x.attr.mappedGid,
      (x.attr.ctime % 2 ^ 32).toNat, x.inodeNumber, x.nlink, x.attr.xattrset,
      .directory dir.dirTableEntry.block dir.dirTableEntry.offset dir.encodedEntriesSize
        (uint (t.parentNumber dir))⟩ := by
    simp only [Inodes.recorded, body, Inodes.bodyData]
  rw [recorded, Inodes.directoryHeader]
  split
  · rename_i short
    simp only [List.append_assoc]
    unfold Inodes.directoryType at short
    split at short
    · cases short
    · rename_i bare
      split at short
      · cases short
      · rename_i small
        push Not at small
        unfold ushrtMax at small
        have size' : dir.encodedEntriesSize + 3 < 256 ^ 2 := by omega
        rw [Option.not_isSome_iff_eq_none.mp bare]
        refine readInodeHeader typed (by decide) ?_
        simp only [readBody, dirType, readDirectory, Bytes.putLe, bind, Option.bind_some,
          Bytes.fieldBounded block', Bytes.fieldBounded nlink, Bytes.fieldBounded size',
          Bytes.fieldBounded offset', Bytes.fieldAppend 4, Nat.add_sub_cancel]
        rfl
  · have size' : dir.encodedEntriesSize + 3 < 256 ^ 4 := by omega
    obtain ⟨stored, back⟩ := xattrBack o.host typed rest
    simp only [List.append_assoc]
    refine readInodeHeader typed (by decide) ?_
    simp only [readBody, ldirType, readLargeDirectory, Bytes.putLe, bind, Option.bind_some,
      Bytes.fieldBounded block', Bytes.fieldBounded nlink, Bytes.fieldBounded size',
      Bytes.fieldBounded offset', Bytes.fieldAppend 4, Bytes.fieldAppend 2, stored, back,
      Nat.add_sub_cancel]
    rfl

/-! ### Symlinks, devices and fifos -/

theorem readSymlinkRecord (o : SerializeConfig) (blockSize : Nat) (typed : x.Typed) {name : Bytes}
    (fits : name.length < 2 ^ 32) (body : x.body = .symlink name) (t : Inodes) (rest : Bytes) :
    readInode blockSize (inodeHeader o.host x symlinkType ++
      (put o.host 4 x.nlink ++ (put o.host 4 name.length ++ (name ++ rest)))) =
        some (t.recorded o x, rest) := by
  have recorded : t.recorded o x = ⟨x.attr.mode, x.attr.mappedUid, x.attr.mappedGid,
      (x.attr.ctime % 2 ^ 32).toNat, x.inodeNumber, x.nlink, none, .symlink name⟩ := by
    simp only [Inodes.recorded, body, Inodes.bodyData]
  rw [recorded]
  exact readInodeHeader typed (by decide) (readSymlinkAppend typed fits rest)

theorem readDeviceRecord (o : SerializeConfig) (blockSize : Nat) (typed : x.Typed) {type : DeviceType}
    {major minor : Nat} (body : x.body = .device type major minor) (t : Inodes) (rest : Bytes) :
    match x.attr.xattrset with
    | none => readInode blockSize (inodeHeader o.host x (deviceTypes type).1 ++
        (put o.host 4 x.nlink ++ (put o.host 4 (rdev major minor) ++ rest))) =
          some (t.recorded o x, rest)
    | some _ => readInode blockSize (inodeHeader o.host x (deviceTypes type).2 ++
        (put o.host 4 x.nlink ++ (put o.host 4 (rdev major minor) ++ (xattrField o.host x ++ rest)))) =
          some (t.recorded o x, rest) := by
  have recorded : t.recorded o x = ⟨x.attr.mode, x.attr.mappedUid, x.attr.mappedGid,
      (x.attr.ctime % 2 ^ 32).toNat, x.inodeNumber, x.nlink, x.attr.xattrset,
      .device type (rdev major minor)⟩ := by
    simp only [Inodes.recorded, body, Inodes.bodyData]
  obtain ⟨short, long⟩ := @readDeviceAppend o.host x typed type major minor rest
  rw [recorded]
  cases set : x.attr.xattrset with
  | none =>
    refine readInodeHeader typed ?_ ?_ <;> cases type
    · decide
    · decide
    · exact short
    · exact short
  | some id =>
    rw [set] at long
    refine readInodeHeader typed ?_ ?_ <;> cases type
    · decide
    · decide
    · exact long
    · exact long

theorem readFifoRecord (o : SerializeConfig) (blockSize : Nat) (typed : x.Typed) (body : x.body = .fifo)
    (t : Inodes) (rest : Bytes) :
    match x.attr.xattrset with
    | none => readInode blockSize (inodeHeader o.host x fifoType ++ (put o.host 4 x.nlink ++ rest)) =
        some (t.recorded o x, rest)
    | some _ => readInode blockSize (inodeHeader o.host x lfifoType ++
        (put o.host 4 x.nlink ++ (xattrField o.host x ++ rest))) = some (t.recorded o x, rest) := by
  have recorded : t.recorded o x = ⟨x.attr.mode, x.attr.mappedUid, x.attr.mappedGid,
      (x.attr.ctime % 2 ^ 32).toNat, x.inodeNumber, x.nlink, x.attr.xattrset, .fifo⟩ := by
    simp only [Inodes.recorded, body, Inodes.bodyData]
  obtain ⟨short, long⟩ := @readFifoAppend o.host x typed rest
  rw [recorded]
  cases set : x.attr.xattrset with
  | none => exact readInodeHeader typed (by decide) short
  | some id =>
    rw [set] at long
    exact readInodeHeader typed (by decide) long

end

/-! ### The records of the table -/

namespace Inodes
open Metatable
variable {decompress : Bytes → Option Bytes} {o : SerializeConfig} {t t' : Inodes} {i : Nat}
  {stream : Bytes} {env env' : Env}

/- The record of an inode tells all that was stored about it. -/
theorem recordReadsBack {fragments : FragmentsOption} {blockSize : Nat}
    (holds : Holds decompress t.inodeTable stream) (typed : (t.inode i).Typed)
    (positive : 0 < blockSize)
    (fits : (t.inode i).body.Fits o fragments blockSize)
    (ok : t.inodeEncode o i env = (true, t', env')) :
    ∃ record index, Holds decompress t'.inodeTable (stream ++ (record ++ index)) ∧
      (¬ (t.inode i).IsDirectory → index = []) ∧
      (t'.inode i).inodeTableEntry = t.inodeTable.position ∧
      ∀ rest, readInode blockSize (record ++ rest) = some (t.recorded o (t.inode i), rest) := by
  have plain {type baseType : Nat} {pieces : List Bytes}
      (written : t.writeRecord i type baseType pieces env = (true, t', env'))
      (read : ∀ rest, readInode blockSize (pieces.flatten ++ rest) =
        some (t.recorded o (t.inode i), rest)) :
      ∃ record index, Holds decompress t'.inodeTable (stream ++ (record ++ index)) ∧
        (¬ (t.inode i).IsDirectory → index = []) ∧
        (t'.inode i).inodeTableEntry = t.inodeTable.position ∧
        ∀ rest, readInode blockSize (record ++ rest) = some (t.recorded o (t.inode i), rest) := by
    obtain ⟨after, place, -⟩ := writeRecordSpec holds written
    exact ⟨pieces.flatten, [], by simpa using after, fun _ => rfl, place, read⟩
  cases body : (t.inode i).body with
  | regular reg =>
    rw [body] at fits
    simp only [inodeEncode, body] at ok
    refine plain ok fun rest => ?_
    have read := readRegularAppend typed positive fits body t rest
    simpa using read
  | directory dir =>
    rw [body] at fits
    simp only [inodeEncode, body, directoryInodeEncode] at ok
    obtain ⟨after, place, -⟩ := writeRecordSpec holds ok
    have own : (t.inode i).dir = dir := by simp only [Inode.dir, body]
    rw [own, List.flatten_cons] at after
    exact ⟨_, _, after, fun other => absurd ⟨dir, body⟩ other, place, readDirectoryAppend typed fits body t⟩
  | symlink name =>
    rw [body] at fits
    simp only [inodeEncode, body] at ok
    refine plain ok fun rest => ?_
    have read := readSymlinkRecord o blockSize typed fits body t rest
    simpa using read
  | device type major minor =>
    simp only [inodeEncode, body, deviceInodeSerialize] at ok
    have read := readDeviceRecord o blockSize typed body t
    cases set : (t.inode i).attr.xattrset with
    | none =>
      simp only [set] at ok read
      refine plain ok fun rest => ?_
      simpa using read rest
    | some id =>
      simp only [set] at ok read
      refine plain ok fun rest => ?_
      simpa using read rest
  | fifo =>
    simp only [inodeEncode, body, fifoInodeSerialize] at ok
    have read := readFifoRecord o blockSize typed body t
    cases set : (t.inode i).attr.xattrset with
    | none =>
      simp only [set] at ok read
      refine plain ok fun rest => ?_
      simpa using read rest
    | some id =>
      simp only [set] at ok read
      refine plain ok fun rest => ?_
      simpa using read rest

def sixBytes : Inodes :=
  ((Inodes.init none).regularInodeCreate .always 4 0 ⟨0, 0, 0o644, -1, 3, 4, some 2⟩
    (some [1, 2, 3, 4, 5, 6]) .fresh).2.2.1

def sixBytesStored : SerializeConfig := ⟨.big, 0, fun _ => ⟨96, 3, true⟩, fun _ => ⟨5, 1⟩⟩

theorem sixBytesReadBack : ∃ record : Bytes,
    Holds (fun _ => none) (sixBytes.inodeEncode sixBytesStored 0 .fresh).2.1.inodeTable record ∧
      readInode 4 record = some (⟨0o644, 3, 4, 2 ^ 32 - 1, 1, 0, some 2,
        .regular 6 96 (some (5, 1)) [(3, true)]⟩, []) := by
  have inode : sixBytes.inode 0 = ⟨⟨0, 0, 0o644, -1, 3, 4, some 2⟩, 0, ⟨2 ^ 32 - 1, 2 ^ 32 - 1⟩, 1, 0, 0,
      .regular ⟨6, 0, [0], some 1⟩⟩ := rfl
  have typed : (sixBytes.inode 0).Typed := by
    rw [inode]
    constructor <;> simp
  have sliced : (sixBytes.inode 0).body.Fits sixBytesStored .always 4 := by
    rw [inode]
    constructor <;> simp [slicing, sixBytesStored]
  obtain ⟨record, index, holds, none, -, back⟩ := @recordReadsBack (fun _ => none) sixBytesStored sixBytes
    _ 0 [] .fresh _ .always 4 (initHolds fun c none => nomatch none) typed (by decide) sliced rfl
  rw [none (by rw [inode]; exact fun ⟨dir, same⟩ => nomatch same), List.append_nil] at holds
  have read := back []
  rw [List.append_nil] at read
  exact ⟨record, holds, read⟩

/-! ### Regular files as they are created -/

/-! ### A target that the size field cannot count -/

/- Of such a target the record says that it is empty. -/
theorem wrappedTarget {name : Bytes} (wraps : name.length % 2 ^ 32 = 0) (nonempty : name ≠ [])
    (blockSize : Nat) (empty : t.inodeTable = .init none) (typed : (t.inode i).Typed)
    (body : (t.inode i).body = .symlink name) :
    (t.inodeEncode o i .fresh).1 = true ∧
      ¬ ∃ record index, Holds decompress (t.inodeEncode o i .fresh).2.1.inodeTable (record ++ index) ∧
        (¬ (t.inode i).IsDirectory → index = []) ∧
        ∀ rest, readInode blockSize (record ++ rest) = some (t.recorded o (t.inode i), rest) := by
  have start : Holds decompress (Metatable.init none) [] := initHolds fun c none => nomatch none
  obtain ⟨pieces, shape⟩ : ∃ pieces, pieces = [inodeHeader o.host (t.inode i) symlinkType ++
      put o.host 4 (t.inode i).nlink ++ put o.host 4 name.length, name] := ⟨_, rfl⟩
  obtain ⟨ok, -, after⟩ := appendEachGranted pieces start (fun _ => rfl : Env.fresh.Granting)
  have encoded : (t.inodeEncode o i .fresh).1 = (appendEach pieces (.init none) .fresh).1 ∧
      (t.inodeEncode o i .fresh).2.1.inodeTable = (appendEach pieces (.init none) .fresh).2.1 := by
    simp only [inodeEncode, body, symlinkInodeSerialize, writeRecord, setInode, empty, ← shape]
    exact ⟨trivial, trivial⟩
  refine ⟨encoded.1.trans ok, ?_⟩
  rintro ⟨record, index, holds, other, back⟩
  rw [encoded.2] at holds
  have none : index = [] := other fun directory => by
    obtain ⟨dir, same⟩ := directory
    rw [body] at same
    cases same
  have same : record = pieces.flatten := by
    have stream := holds.stream.trans after.stream.symm
    rwa [none, List.append_nil, List.nil_append] at stream
  have nlink : (t.inode i).nlink < 256 ^ 4 := typed.nlink
  have size : Bytes.le 4 name.length = Bytes.le 4 0 := by
    rw [← Bytes.leMod, show name.length % 256 ^ 4 = 0 from wraps]
  have lost : readInode blockSize record = some (⟨(t.inode i).attr.mode, (t.inode i).attr.mappedUid,
      (t.inode i).attr.mappedGid, ((t.inode i).attr.ctime % 2 ^ 32).toNat, (t.inode i).inodeNumber,
      (t.inode i).nlink, .none, .symlink []⟩, name) := by
    rw [same, shape]
    simp only [List.flatten_cons, List.flatten_nil, List.append_nil, List.append_assoc]
    refine readInodeHeader typed (by decide) ?_
    simp only [readBody, symlinkType, readSymlink, Bytes.putLe, size, bind, Option.bind_some,
      Bytes.fieldBounded nlink, Bytes.fieldBounded (by decide : 0 < 256 ^ 4)]
    rfl
  have whole := back []
  rw [List.append_nil, lost] at whole
  exact nonempty (congrArg Prod.snd (Option.some.inj whole))

def longTarget : Bytes := List.replicate (2 ^ 32) 97

theorem longTargetSize : longTarget.length = 2 ^ 32 := List.length_replicate

def linked (target : Bytes) : Inodes :=
  ((Inodes.init none).symlinkInodeCreate ⟨0, 0, 0o777, 0, 0, 0, none⟩ target .fresh).2.1

def unstored : SerializeConfig := ⟨.little, 0, fun _ => ⟨0, 0, false⟩, fun _ => ⟨0, 0⟩⟩

theorem linkedInode (target : Bytes) : (linked target).inode 0 =
    ⟨⟨0, 0, 0o777, 0, 0, 0, none⟩, 0, ⟨2 ^ 32 - 1, 2 ^ 32 - 1⟩, 1, 0, 0, .symlink target⟩ := rfl

theorem linkedTyped (target : Bytes) : ((linked target).inode 0).Typed := by
  rw [linkedInode]
  constructor <;> simp

theorem longTargetLost :
    (longTarget.length = 2 ^ 32 ∧ ((linked longTarget).inode 0).body = .symlink longTarget) ∧
      ((linked longTarget).inodeEncode unstored 0 .fresh).1 = true ∧
      ¬ ∃ record index, Holds (fun _ => none)
          ((linked longTarget).inodeEncode unstored 0 .fresh).2.1.inodeTable (record ++ index) ∧
        (¬ ((linked longTarget).inode 0).IsDirectory → index = []) ∧
        ∀ rest, readInode 4096 (record ++ rest) =
          some ((linked longTarget).recorded unstored ((linked longTarget).inode 0), rest) := by
  have size := longTargetSize
  have wraps : longTarget.length % 2 ^ 32 = 0 := by rw [size, Nat.mod_self]
  have nonempty : longTarget ≠ [] := List.ne_nil_of_length_pos (by rw [size]; decide)
  generalize longTarget = target at size wraps nonempty
  have body : ((linked target).inode 0).body = .symlink target := rfl
  exact ⟨⟨size, body⟩, wrappedTarget wraps nonempty 4096 rfl (linkedTyped target) body⟩

end Inodes
end Libsqfs
