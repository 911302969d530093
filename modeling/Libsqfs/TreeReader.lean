import Libsqfs.ImageLayout
import Libsqfs.TreeRecords
import Libsqfs.Unfolding

/-! Reading the tree back: from the place of a record to the inode, and from a directory
over its listing to the places of the records that its entries lead to. -/
namespace Libsqfs
open Relation Metatable Unfolding
open Bytes (field put)

structure Node where
  type : Nat
  mode : Nat
  uid : Nat
  guid : Nat
  mtime : Nat
  inodeNumber : Nat
  deriving DecidableEq, Repr

structure Link where
  name : Bytes
  inodeNumber : Nat
  type : Nat
  deriving DecidableEq, Repr

/- The extended types are counted on behind the basic ones. -/
def basicType (type : Nat) : Nat := if 7 < type then type - 7 else type

def readNode (raw : Bytes) : Option (Nat × Node) := do
  let (type, raw) ← field 2 raw
  let (mode, raw) ← field 2 raw
  let (uid, raw) ← field 2 raw
  let (guid, raw) ← field 2 raw
  let (mtime, raw) ← field 4 raw
  let (inodeNumber, _) ← field 4 raw
  some (type, ⟨basicType type, mode, uid, guid, mtime, inodeNumber⟩)

def recordSize (type : Nat) : Nat := if type = dirType then 32 else 40

def listingOf : RecordBody → Option (MetatableEntry × Nat)
  | (_, _, .directory startBlock offset size _) => some (⟨startBlock, offset⟩, size)
  | _ => none

def readListingPlace (type : Nat) (raw : Bytes) : Option (MetatableEntry × Nat) := do
  let (body, _) ← if type = dirType then readDirectory raw else readLargeDirectory raw
  listingOf body

def readView (decompress : Bytes → Option Bytes) (inodes dirs : Bytes) : View MetatableEntry Node Link := fun place => do
  let head ← FramedStream.readAt (readMetablock decompress) inodes place.block place.offset 16
  let (type, node) ← readNode head
  if node.type = dirType then
    let raw ← FramedStream.readAt (readMetablock decompress) inodes place.block place.offset (recordSize type)
    let (listing, size) ← readListingPlace type (raw.drop 16)
    let raw ← FramedStream.readAt (readMetablock decompress) dirs listing.block listing.offset size
    let entries ← readListing raw
    some (node, entries.map fun x => (⟨x.name, x.inodeNumber, x.type⟩, x.place))
  else some (node, [])

def Inode.node (x : Inode) : Node where
  type := baseType x
  mode := x.attr.mode
  uid := x.attr.mappedUid
  guid := x.attr.mappedGid
  mtime := (x.attr.ctime % 2 ^ 32).toNat
  inodeNumber := x.inodeNumber

namespace Inodes

def link (t : Inodes) (x : Bytes × Nat) : Link := ⟨x.1, (t.inode x.2).inodeNumber, baseType (t.inode x.2)⟩

def view (t : Inodes) : View Nat Node Link := fun i =>
  some ((t.inode i).node, (t.listing i).map fun x => (t.link x, x.2))

end Inodes

structure InodeAttr.Narrow (attr : InodeAttr) : Prop where
  mode : attr.mode < 2 ^ 16
  mappedUid : attr.mappedUid < 2 ^ 16
  mappedGid : attr.mappedGid < 2 ^ 16

namespace Metatable

def Finds (decompress : Bytes → Option Bytes) (medium : Bytes) (tab : Metatable) (stream : Bytes) : Prop :=
  ∀ place bytes k n, Inodes.PlacedAt decompress tab stream place bytes k → n ≤ bytes.length →
    FramedStream.readAt (readMetablock decompress) medium place.block place.offset n = some (bytes.take n)

end Metatable

section
variable {decompress : Bytes → Option Bytes} {o : SerializeConfig} {x y : Inode} {host : Bytes.Host}

theorem basicRecordType (o : SerializeConfig) (x : Inode) :
    basicType (recordType o x) = baseType x ∧ recordType o x < 2 ^ 16 := by
  unfold recordType baseType
  cases x.body with
  | regular reg => rcases regularTypes o x reg with same | same <;> simp only [same] <;> decide
  | directory dir =>
    rcases (Inodes.headerType o.host (.init none) x dir).2 with same | same <;> simp only [same] <;> decide
  | symlink name =>
    dsimp only
    decide
  | device type major minor => cases type <;> dsimp only [deviceTypes] <;> split <;> decide
  | fifo =>
    dsimp only
    split <;> decide

theorem baseTypeDirectory (x : Inode) : baseType x = dirType ↔ x.IsDirectory := by
  unfold baseType Inode.IsDirectory
  cases x.body with
  | device type major minor => cases type <;> simp [deviceTypes, dirType, chrdevType, blkdevType]
  | _ => simp [dirType, fileType, symlinkType, fifoType]

theorem baseTypeKept (kept : x.Kept y) : baseType y = baseType x := by
  obtain ⟨_, _, _, body⟩ := kept
  unfold baseType
  cases left : x.body <;> cases right : y.body <;> simp_all [InodeBody.built]

theorem nodeKept (kept : x.Kept y) : y.node = x.node := by
  unfold Inode.node
  rw [baseTypeKept kept, kept.1, kept.2.2.1]

theorem readNodeHeader (host : Bytes.Host) (narrow : x.attr.Narrow) (number : x.inodeNumber < 2 ^ 32) {type : Nat}
    (small : type < 2 ^ 16) (basic : basicType type = baseType x) :
    readNode (inodeHeader host x type) = some (type, x.node) := by
  obtain ⟨mode, uid, gid⟩ := narrow
  have time : (x.attr.ctime % 2 ^ 32).toNat < 256 ^ 4 := by omega
  have number' : x.inodeNumber < 256 ^ 4 := number
  have small' : type < 256 ^ 2 := small
  have mode' : x.attr.mode < 256 ^ 2 := mode
  have uid' : x.attr.mappedUid < 256 ^ 2 := uid
  have gid' : x.attr.mappedGid < 256 ^ 2 := gid
  have last := Bytes.fieldBounded number' []
  rw [List.append_nil] at last
  simp only [readNode, inodeHeader, Bytes.putLe, List.append_assoc, bind, Option.bind_some, Bytes.fieldBounded small',
    Bytes.fieldBounded mode', Bytes.fieldBounded uid', Bytes.fieldBounded gid', Bytes.fieldBounded time, last, basic,
    Inode.node]

theorem readDirectoryHeader (host : Bytes.Host) (t : Inodes) (x : Inode) {dir : DirectoryInode}
    (size : dir.encodedEntriesSize < 2 ^ 32 - 3) :
    (t.directoryHeader host x dir).length = recordSize (Inodes.directoryType x dir) ∧
      readListingPlace (Inodes.directoryType x dir) ((t.directoryHeader host x dir).drop 16) =
        some (⟨dir.dirTableEntry.block % 256 ^ 4, dir.dirTableEntry.offset % 256 ^ 2⟩, dir.encodedEntriesSize) := by
  have front (type : Nat) : (inodeHeader host x type).length = 16 := by simp [inodeHeader]
  have last (value : Nat) : field 4 (Bytes.le 4 value) = some (value % 256 ^ 4, []) := by
    have all := Bytes.fieldAppend 4 value []
    rwa [List.append_nil] at all
  rw [Inodes.directoryHeader]
  split
  · rename_i short
    have small : dir.encodedEntriesSize + 3 < 256 ^ 2 := by
      unfold Inodes.directoryType at short
      split at short
      · cases short
      · split at short
        · cases short
        · rename_i fits
          push Not at fits
          unfold ushrtMax at fits
          omega
    refine ⟨by rw [short]; simp [front, recordSize], ?_⟩
    simp only [List.append_assoc]
    rw [List.drop_left' (front _), readListingPlace, if_pos short]
    simp only [readDirectory, Bytes.putLe, bind, Option.bind_some, Bytes.fieldBounded small,
      Bytes.fieldAppend 4, Bytes.fieldAppend 2, last, listingOf, Nat.add_sub_cancel]
  · rename_i long
    have large : dir.encodedEntriesSize + 3 < 256 ^ 4 := by omega
    refine ⟨by rw [recordSize, if_neg long]; simp [front, xattrField], ?_⟩
    simp only [List.append_assoc]
    rw [List.drop_left' (front _), readListingPlace, if_neg long]
    simp only [readLargeDirectory, Bytes.putLe, xattrField, bind, Option.bind_some,
      Bytes.fieldBounded large, Bytes.fieldAppend 4, Bytes.fieldAppend 2, last, listingOf, Nat.add_sub_cancel]

theorem prefixTake {l bytes : Bytes} {n : Nat} (front : l <+: bytes) (length : l.length = n) :
    n ≤ bytes.length ∧ bytes.take n = l := by
  obtain ⟨more, rfl⟩ := front
  exact ⟨by rw [List.length_append]; omega, List.take_left' length⟩

namespace Inodes
variable {built u : Inodes} {records : List (Nat × Bytes)} {lists inodes dirs : Bytes} {i d e : Nat}

theorem Archive.entry (archive : Archive decompress o built u records lists) (marked : u.Marked d)
    (member : e ∈ built.entries d) : u.Marked (built.entry e).inode ∧ built.pair e ∈ built.listing d ∧
      u.listed e = ⟨(built.entry e).name, (u.inode (built.entry e).inode).inodeTableEntry,
        (built.inode (built.entry e).inode).inodeNumber, baseType (built.inode (built.entry e).inode)⟩ := by
  have inside : built.pair e ∈ built.listing d := List.mem_map_of_mem member
  have below := archive.closed d (built.entry e).inode marked ⟨_, inside, rfl⟩
  obtain ⟨_, _, name, inode⟩ := archive.framed.entry e
  have kept := archive.framed.inode (built.entry e).inode
  refine ⟨below, inside, ?_⟩
  simp only [Inodes.listed, name, inode, (archive.placed.types _ below).2, baseTypeKept kept, kept.2.2.1]

theorem Archive.typed (archive : Archive decompress o built u records lists) (marked : u.Marked d)
    (member : e ∈ built.entries d) (number : ∀ i, u.Marked i → (built.inode i).inodeNumber < 2 ^ 32)
    (names : ∀ x ∈ built.listing d, 1 ≤ x.1.length ∧ x.1.length ≤ 65536) : (u.listed e).Typed := by
  obtain ⟨below, inside, same⟩ := archive.entry marked member
  obtain ⟨k, _, at'⟩ := archive.placed.record _ below
  have place := at'.place
  have small : baseType (built.inode (built.entry e).inode) < 2 ^ 16 := by
    rw [← (basicRecordType o _).1, basicType]
    have := (basicRecordType o (built.inode (built.entry e).inode)).2
    split <;> omega
  rw [same]
  refine ⟨names _ inside, ?_, ?_, number _ below, small⟩
  · rw [place]
    exact Nat.mod_lt _ (by decide)
  · rw [place]
    exact Nat.mod_lt _ (by decide)

theorem Archive.readListing (archive : Archive decompress o built u records lists) (marked : u.Marked d)
    (number : ∀ i, u.Marked i → (built.inode i).inodeNumber < 2 ^ 32)
    (names : ∀ x ∈ built.listing d, 1 ≤ x.1.length ∧ x.1.length ≤ 65536) :
    Libsqfs.readListing (listingData o.host u d).flatten = some ((built.entries d).map u.listed) := by
  have same := archive.framed.entries d
  have whole := (@listingFrom u d [] (u.listingRuns d) o.host rfl []).2.2 fun e member =>
    archive.typed marked (same ▸ member) number names
  rw [listingRunsFlatten, same] at whole
  exact whole

/- The places lead from inode to inode as the tree does. -/
theorem Archive.viewed (archive : Archive decompress o built u records lists) (linkage : built.Linkage)
    (findsInodes : Finds decompress inodes u.inodeTable (recordBytes records)) (findsLists : Finds decompress dirs u.dirTable lists)
    (narrow : (built.inode i).attr.Narrow) (number : ∀ i, u.Marked i → (built.inode i).inodeNumber < 2 ^ 32)
    (names : ∀ x ∈ built.listing i, 1 ≤ x.1.length ∧ x.1.length ≤ 65536)
    (size : (u.inode i).dir.encodedEntriesSize < 2 ^ 32 - 3) (marked : u.Marked i) :
    readView decompress inodes dirs (u.inode i).inodeTableEntry = some ((built.inode i).node,
      (built.listing i).map fun x => (built.link x, (u.inode x.2).inodeTableEntry)) := by
  obtain ⟨pre, bytes, post, shape⟩ := archive.split marked
  obtain ⟨at', front, _⟩ := archive.order pre i bytes post shape
  have kept := archive.framed.inode i
  obtain ⟨basic, small⟩ := basicRecordType o (u.inode i)
  obtain ⟨room, head⟩ := prefixTake ((frontHeader o u (u.inode i)).trans front)
    (show _ = 16 by simp [inodeHeader])
  have read := findsInodes _ _ _ _ at' room
  have node := readNodeHeader o.host (x := u.inode i) (by rw [kept.1]; exact narrow)
    (by rw [kept.2.2.1]; exact number i marked) small basic
  rw [head] at read
  rw [nodeKept kept] at node
  simp only [readView, read, node, bind, Option.bind_some]
  have class' : (built.inode i).node.type = dirType ↔ (u.inode i).IsDirectory := by
    rw [← nodeKept kept]
    exact baseTypeDirectory _
  by_cases is : (u.inode i).IsDirectory
  · obtain ⟨dir, body⟩ := is
    have is : (u.inode i).IsDirectory := ⟨dir, body⟩
    have own : (u.inode i).dir = dir := by simp only [Inode.dir, body]
    have header : u.front o (u.inode i) = directoryHeader o.host u (u.inode i) dir := by simp only [Inodes.front, body]
    have type : recordType o (u.inode i) = directoryType (u.inode i) dir := by simp only [recordType, body]
    rw [own] at size
    obtain ⟨length, located⟩ := readDirectoryHeader o.host u (u.inode i) size
    obtain ⟨room', whole⟩ := prefixTake (header ▸ front) length
    have record := findsInodes _ _ _ _ at' room'
    have listed := archive.listed i marked is
    rw [own] at listed
    rw [if_pos (class'.mpr is), type, record, Option.bind_some, whole, located, Option.bind_some]
    have found : FramedStream.readAt (readMetablock decompress) dirs (dir.dirTableEntry.block % 256 ^ 4)
        (dir.dirTableEntry.offset % 256 ^ 2) dir.encodedEntriesSize = some (listingData o.host u i).flatten := by
      rw [listed.size]
      by_cases none : u.entries i = []
      · have empty : listingData o.host u i = [] := by
          rw [listingData, listingRuns, none]
          rfl
        rw [empty]
        rfl
      · obtain ⟨k, _, there⟩ := listed.listing none
        have lists := findsLists _ _ _ _ there (Nat.le_refl _)
        have block : dir.dirTableEntry.block < 256 ^ 4 := by
          rw [there.place]
          exact Nat.mod_lt _ (by decide)
        have offset : dir.dirTableEntry.offset < 256 ^ 2 := by
          rw [there.place]
          exact Nat.lt_trans (Nat.mod_lt k (by decide)) (by decide)
        rw [List.take_length] at lists
        rw [Nat.mod_eq_of_lt block, Nat.mod_eq_of_lt offset, lists]
    rw [found, Option.bind_some, archive.readListing marked number names, Option.bind_some]
    have entries : ((built.entries i).map u.listed).map (fun x => ((⟨x.name, x.inodeNumber, x.type⟩ : Link), x.place)) =
        (built.listing i).map fun x => (built.link x, (u.inode x.2).inodeTableEntry) := by
      rw [Inodes.listing, List.map_map, List.map_map]
      refine List.map_congr_left fun e member => ?_
      simp only [Function.comp_apply, (archive.entry marked member).2.2]
      rfl
    rw [entries]
  · rw [if_neg (mt class'.mp is), linkage.noListing fun directory => is ((archive.framed.inode i).isDirectory.mpr directory.2)]
    rfl

end Inodes

end
end Libsqfs
