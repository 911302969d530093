import Libsqfs.Compressors
import Libsqfs.IdTable
import Libsqfs.Superblock
import Libsqfs.XattrCodec

/-! The records of the image against their declarations in src/squashfs_fs.h: what a
host of either byte order leaves in memory for the fields. -/
namespace Libsqfs
open Bytes (put le)

/-! ### Inode headers -/

namespace Inodes

def symlinkHeader (host : Bytes.Host) (x : Inode) (name : Bytes) : Bytes :=
  inodeHeader host x symlinkType ++ put host 4 x.nlink ++ put host 4 name.length

def deviceHeader (host : Bytes.Host) (x : Inode) (type : DeviceType) (major minor : Nat) : Bytes :=
  match x.attr.xattrset with
  | none => inodeHeader host x (deviceTypes type).1 ++ put host 4 x.nlink ++ put host 4 (rdev major minor)
  | some _ => inodeHeader host x (deviceTypes type).2 ++ put host 4 x.nlink ++ put host 4 (rdev major minor) ++
      xattrField host x

def fifoHeader (host : Bytes.Host) (x : Inode) : Bytes :=
  match x.attr.xattrset with
  | none => inodeHeader host x fifoType ++ put host 4 x.nlink
  | some _ => inodeHeader host x lfifoType ++ put host 4 x.nlink ++ xattrField host x

def bodyHeader (o : SerializeConfig) (t : Inodes) (x : Inode) : Bytes :=
  match x.body with
  | .regular reg => regularHeader o x reg
  | .directory _ => directoryHeader o.host t x x.dir
  | .symlink name => symlinkHeader o.host x name
  | .device type major minor => deviceHeader o.host x type major minor
  | .fifo => fifoHeader o.host x

/- It is what the serialize functions append first. -/
theorem headerWritten (o : SerializeConfig) (t : Inodes) (i : Nat) (env : Env) :
    ∃ type baseType more, t.inodeEncode o i env =
      t.writeRecord i type baseType (t.bodyHeader o (t.inode i) :: more) env := by
  unfold inodeEncode bodyHeader
  cases body : (t.inode i).body with
  | regular reg => exact ⟨_, _, _, rfl⟩
  | directory dir => exact ⟨_, _, _, rfl⟩
  | symlink name => exact ⟨_, _, _, rfl⟩
  | device type major minor =>
    simp only [deviceInodeSerialize, deviceHeader]
    cases (t.inode i).attr.xattrset <;> exact ⟨_, _, _, rfl⟩
  | fifo =>
    simp only [fifoInodeSerialize, fifoHeader]
    cases (t.inode i).attr.xattrset <;> exact ⟨_, _, _, rfl⟩

end Inodes

/-! ### Records and their fields -/

structure Field where
  width : Nat
  value : Nat
  deriving DecidableEq, Repr

inductive Record where
  | superblock (image : Assembly) (root : Inode) (size : Nat)
  | inode (o : SerializeConfig) (t : Inodes) (x : Inode)
  | blockList (o : SerializeConfig) (reg : RegularInode)
  | dirHeader (count startBlock inodeNumber : Nat)
  | dirEntry (x : Listed) (base : Nat)
  | dirIndex (x : DirectoryEntry)
  | fragmentEntry (dst : ImageBlock)
  | metablockHeader (block : Metablock)
  | indexTable (base : Nat) (blocks : List Metablock)
  | xattrEntry (xattr : Xattr)
  | xattrVal (xattr : Xattr)
  | xattrId (set : Xattrset)
  | xattrTable (tab : XattrTable)
  | idTable (ids : List UInt32)
  | exportTable (t : Inodes)
  | optionSize (data : Bytes)
  | xzOptions (dictionarySize flags : Nat)

def baseFields (x : Inode) (type : Nat) : List Field :=
  [⟨2, type⟩, ⟨2, x.attr.mode⟩, ⟨2, x.attr.mappedUid⟩, ⟨2, x.attr.mappedGid⟩,
    ⟨4, (x.attr.ctime % 2 ^ 32).toNat⟩, ⟨4, x.inodeNumber⟩]

def xattrFields (x : Inode) : List Field := [⟨4, x.attr.xattrset.getD uintMax⟩]

def regularFields (o : SerializeConfig) (x : Inode) (reg : RegularInode) : List Field :=
  if regularType o x reg = fileType then
    baseFields x fileType ++ [⟨4, startBlock o reg⟩, ⟨4, (tailFragment o reg).1⟩, ⟨4, (tailFragment o reg).2⟩,
      ⟨4, reg.fileSize⟩]
  else
    baseFields x lregType ++ [⟨8, startBlock o reg⟩, ⟨8, reg.fileSize⟩, ⟨8, reg.sparseSize⟩, ⟨4, x.nlink⟩,
      ⟨4, (tailFragment o reg).1⟩, ⟨4, (tailFragment o reg).2⟩] ++ xattrFields x

def directoryFields (t : Inodes) (x : Inode) (dir : DirectoryInode) : List Field :=
  if Inodes.directoryType x dir = dirType then
    baseFields x dirType ++ [⟨4, dir.dirTableEntry.block⟩, ⟨4, x.nlink⟩, ⟨2, dir.encodedEntriesSize + 3⟩,
      ⟨2, dir.dirTableEntry.offset⟩, ⟨4, t.parentNumber dir⟩]
  else
    baseFields x ldirType ++ [⟨4, x.nlink⟩, ⟨4, dir.encodedEntriesSize + 3⟩, ⟨4, dir.dirTableEntry.block⟩,
      ⟨4, t.parentNumber dir⟩, ⟨2, dir.indexedCount⟩, ⟨2, dir.dirTableEntry.offset⟩] ++ xattrFields x

def specialFields (x : Inode) (plain extended : Nat) (more : List Field) : List Field :=
  match x.attr.xattrset with
  | none => baseFields x plain ++ ⟨4, x.nlink⟩ :: more
  | some _ => baseFields x extended ++ ⟨4, x.nlink⟩ :: more ++ xattrFields x

def bodyFields (o : SerializeConfig) (t : Inodes) (x : Inode) : List Field :=
  match x.body with
  | .regular reg => regularFields o x reg
  | .directory _ => directoryFields t x x.dir
  | .symlink name => baseFields x symlinkType ++ [⟨4, x.nlink⟩, ⟨4, name.length⟩]
  | .device type major minor =>
    specialFields x (deviceTypes type).1 (deviceTypes type).2 [⟨4, rdev major minor⟩]
  | .fifo => specialFields x fifoType lfifoType []

def superblockFields (image : Assembly) (root : Inode) (size : Nat) : List Field :=
  [⟨4, 0x73717368⟩, ⟨4, image.inodes.count⟩, ⟨4, image.creationTime⟩, ⟨4, image.options.blockSize⟩,
    ⟨4, image.bulkdata.fragmentBlockCount⟩, ⟨2, image.options.compressorId⟩, ⟨2, image.options.blockSizeLog⟩,
    ⟨2, image.flags⟩, ⟨2, image.idtable.ids.length⟩, ⟨2, 4⟩, ⟨2, 0⟩, ⟨8, Assembly.encodedInode root⟩, ⟨8, size⟩,
    ⟨8, Assembly.location image.idtable.offset⟩, ⟨8, Assembly.location image.xattrTable.offset⟩,
    ⟨8, Assembly.location image.inodes.inodeTable.offset⟩, ⟨8, Assembly.location image.inodes.dirTable.offset⟩,
    ⟨8, Assembly.location image.fragTableLoc⟩, ⟨8, Assembly.location image.exportOffset⟩]

namespace Record

def fields : Record → List Field
  | superblock image root size => superblockFields image root size
  | inode o t x => bodyFields o t x
  | blockList o reg => reg.blocks.map fun c => ⟨4, blockInfo (o.block c)⟩
  | dirHeader count startBlock inodeNumber => [⟨4, count⟩, ⟨4, startBlock⟩, ⟨4, inodeNumber⟩]
  | dirEntry x base =>
    [⟨2, x.place.offset⟩, ⟨2, uintSub x.inodeNumber base⟩, ⟨2, x.type⟩, ⟨2, sizetSub x.name.length 1⟩]
  | dirIndex x => [⟨4, x.offset⟩, ⟨4, x.directoryTableEntry.block⟩, ⟨4, sizetSub x.name.length 1⟩]
  | fragmentEntry dst =>
    [⟨8, Assembly.location dst.offset⟩,
      ⟨4, if dst.compressed then Metatable.uint dst.size else Metatable.uint dst.size ||| 2 ^ 24⟩, ⟨4, 0⟩]
  | metablockHeader block => [⟨2, Metatable.header block⟩]
  | indexTable base blocks => blocks.map fun block => ⟨8, base + block.offset⟩
  | xattrEntry xattr => [⟨2, xattr.domain.code⟩, ⟨2, xattr.suffix.length⟩]
  | xattrVal xattr => [⟨4, xattr.value.length⟩]
  | xattrId set => [⟨8, Xattrset.reference set.storedPos⟩, ⟨4, set.attrs.length⟩, ⟨4, set.storedSize⟩]
  | xattrTable tab => [⟨8, tab.xattrData.offset.getD 0⟩, ⟨4, tab.nids⟩, ⟨4, 0⟩]
  | idTable ids => ids.map fun id => ⟨4, id.toNat⟩
  | exportTable t => (Assembly.inodeMap t).map fun value => ⟨8, value⟩
  | optionSize data => [⟨2, data.length ||| 2 ^ 15⟩]
  | xzOptions dictionarySize flags => [⟨4, dictionarySize⟩, ⟨4, flags⟩]

def tail : Record → Bytes
  | dirEntry x _ => x.name
  | _ => []

def bytes (host : Bytes.Host) : Record → Bytes
  | superblock image root size => image.superblock host root size
  | inode o t x => t.bodyHeader {o with host := host} x
  | blockList o reg => Libsqfs.blockList {o with host := host} reg
  | dirHeader count startBlock inodeNumber => Libsqfs.dirHeader host count startBlock inodeNumber
  | dirEntry x base => Libsqfs.dirEntry host x base
  | dirIndex x => Inodes.indexRecord host x
  | fragmentEntry dst => Assembly.fragmentEntry host dst
  | metablockHeader block => Bytes.store host 2 (Bytes.cpuToLe host 2 (Metatable.header block))
  | indexTable base blocks => Metatable.indexTable host base blocks
  | xattrEntry xattr => xattr.entry host
  | xattrVal xattr => xattr.val host
  | xattrId set => set.descriptor host
  | xattrTable tab => tab.header host
  | idTable ids => IdTable.encode host ids
  | exportTable t => (Assembly.exportEntries host t).flatten
  | optionSize data => put host 2 (data.length ||| 2 ^ 15)
  | xzOptions dictionarySize flags => xzOptionData host dictionarySize flags

/- On every host the little endian bytes of the fields, one behind the other. -/
def Portable (r : Record) : Prop :=
  ∀ host, r.bytes host = r.fields.flatMap (fun f => le f.width f.value) ++ r.tail

end Record

/-! ### Encoded at the width of the field -/

section
variable {host : Bytes.Host}

theorem arrayBytes {width : Nat} (values : List Nat) :
    (values.map (put host width)).flatten =
      (values.map fun value => (⟨width, value⟩ : Field)).flatMap fun f => le f.width f.value := by
  induction values with
  | nil => rfl
  | cons value rest ih => simp only [List.map_cons, List.flatten_cons, List.flatMap_cons, ih, Bytes.putLe]

theorem bodyPortable (o : SerializeConfig) (t : Inodes) (x : Inode) :
    t.bodyHeader {o with host := host} x = (bodyFields o t x).flatMap fun f => le f.width f.value := by
  unfold Inodes.bodyHeader bodyFields
  cases x.body with
  | regular reg =>
    have type : regularType {o with host := host} x reg = regularType o x reg := rfl
    have start : startBlock {o with host := host} reg = startBlock o reg := rfl
    have piece : tailFragment {o with host := host} reg = tailFragment o reg := rfl
    simp only [regularHeader, regularFields, type, start, piece]
    split <;> simp [inodeHeader, baseFields, xattrFields, xattrField]
  | directory dir =>
    simp only [Inodes.directoryHeader, directoryFields]
    split <;> simp [inodeHeader, baseFields, xattrFields, xattrField]
  | symlink name => simp [Inodes.symlinkHeader, inodeHeader, baseFields]
  | device type major minor =>
    simp only [Inodes.deviceHeader, specialFields]
    cases x.attr.xattrset <;> simp [inodeHeader, baseFields, xattrFields, xattrField]
  | fifo =>
    simp only [Inodes.fifoHeader, specialFields]
    cases x.attr.xattrset <;> simp [inodeHeader, baseFields, xattrFields, xattrField]

theorem otherPortable {r : Record} (other : ∀ xattr, r ≠ .xattrEntry xattr) : r.Portable := by
  intro host
  cases r with
  | superblock image root size =>
    simp only [Record.bytes, Record.fields, Record.tail, Assembly.superblock, superblockFields, Bytes.putLe,
      List.flatMap_cons, List.flatMap_nil, List.append_nil, List.append_assoc]
  | inode o t x =>
    exact (bodyPortable o t x).trans (List.append_nil _).symm
  | blockList o reg => simp [Record.bytes, Record.fields, Record.tail, blockList, List.flatMap_map]
  | dirHeader => simp [Record.bytes, Record.fields, Record.tail, dirHeader]
  | dirEntry => simp [Record.bytes, Record.fields, Record.tail, dirEntry]
  | dirIndex => simp [Record.bytes, Record.fields, Record.tail, Inodes.indexRecord]
  | fragmentEntry => simp [Record.bytes, Record.fields, Record.tail, Assembly.fragmentEntry]
  | metablockHeader => simp [Record.bytes, Record.fields, Record.tail]
  | indexTable => simp [Record.bytes, Record.fields, Record.tail, Metatable.indexTable, List.flatMap_map]
  | xattrEntry xattr => exact absurd rfl (other xattr)
  | xattrVal => simp [Record.bytes, Record.fields, Record.tail, Xattr.val]
  | xattrId => simp [Record.bytes, Record.fields, Record.tail, Xattrset.descriptor]
  | xattrTable =>
    have zero : Bytes.store host 4 0 = le 4 0 := by cases host <;> rfl
    simp [Record.bytes, Record.fields, Record.tail, XattrTable.header, zero]
  | idTable => simp [Record.bytes, Record.fields, Record.tail, IdTable.encode, List.flatMap_map]
  | exportTable t =>
    simp only [Record.bytes, Record.fields, Record.tail, Assembly.exportEntries, List.append_nil]
    exact arrayBytes _
  | optionSize => simp [Record.bytes, Record.fields, Record.tail]
  | xzOptions => simp [Record.bytes, Record.fields, Record.tail, xzOptionData]

theorem xattrPortableIff {xattr : Xattr} (code : xattr.domain.code < 2 ^ 16) (size : xattr.suffix.length < 2 ^ 16) :
    (Record.xattrEntry xattr).Portable ↔ xattr.domain.code = 0 ∧ xattr.suffix = [] := by
  have code : xattr.domain.code < 256 ^ 2 := code
  have size : xattr.suffix.length < 256 ^ 2 := size
  have plain : (Record.xattrEntry xattr).fields.flatMap (fun f => le f.width f.value) ++
      (Record.xattrEntry xattr).tail = le 2 xattr.domain.code ++ le 2 xattr.suffix.length := by
    simp [Record.fields, Record.tail]
  have high : xattr.entry .big = le 2 0 ++ le 2 0 := by
    rw [entryBig, Nat.div_eq_of_lt code, Nat.div_eq_of_lt size]
  rw [Record.Portable, plain, ← List.length_eq_zero_iff]
  constructor
  · intro portable
    have same : le 2 0 ++ le 2 0 = le 2 xattr.domain.code ++ le 2 xattr.suffix.length := high ▸ portable .big
    obtain ⟨first, second⟩ := List.append_inj same (by simp)
    have first := congrArg Bytes.readLE first
    have second := congrArg Bytes.readLE second
    rw [Bytes.readLeBounded code, Bytes.readLeBounded (by decide)] at first
    rw [Bytes.readLeBounded size, Bytes.readLeBounded (by decide)] at second
    exact ⟨first.symm, second.symm⟩
  · rintro ⟨first, second⟩ host
    cases host with
    | little =>
      have wide : (256 : Nat) ^ 2 ≤ 256 ^ 4 := by decide
      rw [Record.bytes, entryLittle, Nat.mod_eq_of_lt (code.trans_le wide), Nat.mod_eq_of_lt (size.trans_le wide)]
    | big => rw [Record.bytes, high, first, second]

/- Of the values only those of an xattr entry have to fit their fields. -/
theorem portableIff {r : Record}
    (fits : ∀ xattr, r = .xattrEntry xattr → xattr.domain.code < 2 ^ 16 ∧ xattr.suffix.length < 2 ^ 16) :
    r.Portable ↔ ∀ xattr, r = .xattrEntry xattr → xattr.domain.code = 0 ∧ xattr.suffix = [] := by
  constructor
  · rintro portable xattr rfl
    obtain ⟨code, size⟩ := fits xattr rfl
    exact (xattrPortableIff code size).mp portable
  · intro plain
    by_cases entry : ∃ xattr, r = .xattrEntry xattr
    · obtain ⟨xattr, rfl⟩ := entry
      obtain ⟨code, size⟩ := fits xattr rfl
      exact (xattrPortableIff code size).mpr (plain xattr rfl)
    · exact otherPortable fun xattr same => entry ⟨xattr, same⟩

/- An entry whose inode number is below that of its header, and one that is swapped. -/
theorem entriesPortable : (Record.dirEntry ⟨[97], ⟨0, 32⟩, 1, 2⟩ 7).Portable ∧
    ¬ (Record.xattrEntry (XattrTable.sampleXattr [])).Portable := by
  refine ⟨(portableIff fun xattr same => ?_).mpr fun xattr same => ?_, fun portable => ?_⟩
  · cases same
  · cases same
  · obtain ⟨_, empty⟩ := (portableIff fun xattr same => by cases same; decide).mp portable _ rfl
    cases empty

theorem nameSwapped : (XattrTable.sampleXattr []).domain.code < 2 ^ 16 ∧ (XattrTable.sampleXattr []).suffix.length < 2 ^ 16 ∧
    (Record.xattrEntry (XattrTable.sampleXattr [])).bytes .little = [0, 0, 1, 0] ∧
    (Record.xattrEntry (XattrTable.sampleXattr [])).bytes .big = [0, 0, 0, 0] :=
  ⟨by decide, by decide, rfl, rfl⟩

end
end Libsqfs
