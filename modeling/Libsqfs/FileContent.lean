import Libsqfs.FileItems
import Libsqfs.FileReader
import Libsqfs.Layout

/-! A file is read from the medium of a finished run as it was given, whatever the
threads did and whatever else was stored. -/
namespace Libsqfs
open Transition Metatable
open Bytes (field put)

namespace Image
open Bulkdata

/-! ### Where the chunks are -/

section
variable {r : Rule} {size n c f : Nat} {item : Nat → Item} {s : Image} {host : Bytes.Host}

theorem extentFields {b : ImageBlock} {extent : Extent} (same : b.extent = some extent) :
    b.offset = some extent.offset ∧ b.size = extent.size ∧ b.compressed = extent.compressed := by
  obtain ⟨offset, found, rfl⟩ := Option.map_eq_some_iff.mp same
  exact ⟨found, rfl, rfl⟩

theorem Realizes.place (realizes : Realizes s (Plan.upTo r size item n)) (inside : c < n) :
    (s.bd.chunk c).place = some ((Plan.upTo r size item c).place r (item c)) := by
  have at' := congrArg (fun l => l[c]?) realizes.places
  have length := congrArg List.length realizes.places
  rw [List.length_map, List.length_map, List.length_range, Plan.placesLength] at length
  simp only [List.getElem?_map, List.getElem?_range (show c < s.bd.count by omega), Plan.placesAt inside,
    Option.map_some, Option.some.injEq] at at'
  exact at'

theorem Realizes.block (realizes : Realizes s (Plan.upTo r size item n)) (inside : c < n)
    (full : (item c).kind = .fullBlock) : (s.bd.chunk c).dst.offset = some (Plan.upTo r size item c).size ∧
      (s.bd.chunk c).dst.size = (Plan.blockExtent r size item c).size ∧
      (s.bd.chunk c).dst.compressed = (Plan.blockExtent r size item c).compressed := by
  have place := realizes.place inside
  have own : (Plan.upTo r size item c).place r (item c) = .block (Plan.blockExtent r size item c) := by
    simp only [Plan.place, full, Plan.blockExtent, Plan.placesLength]
  rw [own, Chunk.place] at place
  split at place
  · obtain ⟨extent, found, same⟩ := Option.map_eq_some_iff.mp place
    cases same
    exact extentFields found
  · obtain ⟨_, _, rest⟩ := Option.bind_eq_some_iff.mp place
    obtain ⟨_, _, same⟩ := Option.map_eq_some_iff.mp rest
    cases same
  · cases place

theorem Realizes.piece (realizes : Realizes s (Plan.upTo r size item n)) (inside : c < n)
    (piece : (item c).kind = .fragmentPiece) :
    (s.bd.chunk c).fragmentBlock = some ((Plan.upTo r size item c).flushFor r (item c)).room.1 ∧
      (s.bd.chunk c).offset = some ((Plan.upTo r size item c).flushFor r (item c)).room.2 := by
  have place := realizes.place inside
  have own : (Plan.upTo r size item c).place r (item c) =
      .piece ((Plan.upTo r size item c).flushFor r (item c)).room.1
        ((Plan.upTo r size item c).flushFor r (item c)).room.2 := by
    simp only [Plan.place, piece]
  rw [own, Chunk.place] at place
  split at place
  · obtain ⟨_, _, same⟩ := Option.map_eq_some_iff.mp place
    cases same
  · obtain ⟨_, fragment, rest⟩ := Option.bind_eq_some_iff.mp place
    obtain ⟨_, offset, same⟩ := Option.map_eq_some_iff.mp rest
    cases same
    exact ⟨fragment, offset⟩
  · cases place

theorem Realizes.fragment (realizes : Realizes s (Plan.upTo r size item n)) {extent : Extent}
    (found : (Plan.upTo r size item n).fragments[f]? = some extent) : f < s.bd.fragmentBlockCount ∧
      (s.bd.fragmentBlock f).dst.extent = some extent := by
  have at' := congrArg (fun l => l[f]?) realizes.fragments
  have length := congrArg List.length realizes.fragments
  have below := (List.getElem?_eq_some_iff.mp found).1
  rw [List.length_map, List.length_map, List.length_range] at length
  have inside : f < s.bd.fragmentBlockCount := by omega
  simp only [List.getElem?_map, List.getElem?_range inside, found, Option.map_some, Option.some.injEq] at at'
  exact ⟨inside, at'⟩

end
end Image

/-! ### The entries of the fragment table -/

section
variable {decompress : Bytes → Option Bytes} {host : Bytes.Host} {log : List Medium.Write} {table f : Nat}

theorem fragmentEntryRead {dst : ImageBlock} {extent : Extent} (same : dst.extent = some extent)
    (small : extent.size < 2 ^ 24) (below : extent.offset < 2 ^ 64)
    (found : lookupRecord decompress log table 16 f = some (Assembly.fragmentEntry host dst)) :
    readFragment decompress log table f = readStored decompress log extent.offset extent.size extent.compressed := by
  obtain ⟨offset, size, compressed⟩ := Image.extentFields same
  obtain ⟨fits, length, flag⟩ := @blockInfoBack ⟨extent.offset, extent.size, extent.compressed⟩ small
  have below' : extent.offset < 256 ^ 8 := below
  have info : (if dst.compressed then uint dst.size else uint dst.size ||| 2 ^ 24) =
      blockInfo ⟨extent.offset, extent.size, extent.compressed⟩ := by
    rw [size, compressed]
    rfl
  have raw : Assembly.fragmentEntry host dst = Bytes.le 8 extent.offset ++
      (Bytes.le 4 (blockInfo ⟨extent.offset, extent.size, extent.compressed⟩) ++ Bytes.le 4 0) := by
    rw [Assembly.fragmentEntry, info, offset, Assembly.location, Option.getD_some]
    simp only [Bytes.putLe, List.append_assoc]
  simp only [readFragment, found, raw, bind, Option.bind_some, Bytes.fieldBounded below', Bytes.fieldBounded fits, length,
    flag, Bool.not_not]

theorem fragmentEntriesSized (host : Bytes.Host) (bd : Bulkdata) :
    ∀ entry ∈ Assembly.fragmentEntries host bd, entry.length = 16 := by
  intro entry member
  obtain ⟨f, _, rfl⟩ := List.mem_map.mp member
  simp [Assembly.fragmentEntry]

end

/-! ### The contents of one file -/

section
variable {α : Type} {n : Nat} {f : Nat → α} {before l after : List α}

theorem middleValues (shape : (List.range n).map f = before ++ l ++ after) :
    l = (List.range' before.length l.length).map f ∧ before.length + l.length ≤ n := by
  have lengths := congrArg List.length shape
  simp only [List.length_map, List.length_range, List.length_append] at lengths
  refine ⟨List.ext_getElem (by simp) fun i left right => ?_, by omega⟩
  have own := congrArg (fun x => x[before.length + i]?) shape
  simp only [List.append_assoc, List.getElem?_append_right (Nat.le_add_right _ i), Nat.add_sub_cancel_left,
    List.getElem?_append_left left, List.getElem?_map, List.getElem?_range (show before.length + i < n by omega),
    Option.map_some, List.getElem?_eq_getElem left, Option.some.injEq] at own
  simpa using own.symm

end

namespace Inodes
variable {fragments : FragmentsOption} {blockSize n m : Nat} {data : Bytes} {item : Nat → Item}

theorem slicingRest (some : (slicing fragments blockSize n).2 ≠ 0) :
    (slicing fragments blockSize n).2 = n % blockSize := by
  cases fragments with
  | never => exact absurd rfl some
  | small =>
    simp only [slicing] at some ⊢
    split
    · rename_i short
      exact (Nat.mod_eq_of_lt short).symm
    · rename_i long
      rw [if_neg long] at some
      exact absurd rfl some
  | always => rfl

structure Stands (fragments : FragmentsOption) (blockSize : Nat) (data : Bytes) (item : Nat → Item) (n first : Nat) : Prop where
  blocks : blockItems blockSize data (slicing fragments blockSize data.length).1 =
    (List.range' first (slicing fragments blockSize data.length).1).map item
  inside : first + (slicing fragments blockSize data.length).1 ≤ n
  tail : (slicing fragments blockSize data.length).2 ≠ 0 → first + (slicing fragments blockSize data.length).1 < n ∧
    item (first + (slicing fragments blockSize data.length).1) =
      ⟨.fragmentPiece, ⟨data, (slicing fragments blockSize data.length).2,
        data.length - (slicing fragments blockSize data.length).2⟩⟩

theorem itemsStand {before after : List Item}
    (shape : (List.range n).map item = before ++ fileItems fragments blockSize data ++ after) :
    Stands fragments blockSize data item n before.length := by
  obtain ⟨same, inside⟩ := middleValues shape
  have counted : (blockItems blockSize data (slicing fragments blockSize data.length).1).length =
      (slicing fragments blockSize data.length).1 := by simp [blockItems]
  have size : (fileItems fragments blockSize data).length = (slicing fragments blockSize data.length).1 +
      (tailItems data (slicing fragments blockSize data.length).2).length := by
    rw [fileItems, List.length_append, counted]
  rw [size] at same inside
  rw [← List.range'_append_1, List.map_append, fileItems] at same
  obtain ⟨blocks, tail⟩ := List.append_inj same (by simp [counted])
  refine ⟨blocks, by omega, fun some => ?_⟩
  have one : tailItems data (slicing fragments blockSize data.length).2 = [_] := if_neg some
  rw [one] at tail inside
  refine ⟨by rw [List.length_singleton] at inside; omega, ?_⟩
  exact (List.singleton_inj.mp tail).symm

end Inodes

namespace Image
open Bulkdata

section
variable {r : Rule} {size n first f : Nat} {item : Nat → Item} {s : Image} {decompress : Bytes → Option Bytes}
  {log : List Medium.Write} {fragments : FragmentsOption} {data : Bytes} {o : FinalizeConfig} {table : Nat}

/- The blocks of the file as its record lists them. -/
theorem Realizes.blocksRead (realizes : Realizes s (Plan.upTo r size item n)) (restores : Plan.Restores r decompress)
    (keeps : Plan.Keeps log (Plan.upTo r size item n) size) (positive : 0 < r.blockSize) (below : s.size < 2 ^ 63)
    (stands : Inodes.Stands fragments r.blockSize data item n first) :
    readExtents decompress log
        (startBlock (Assembly.serializeConfig o s.bd) (Inodes.fileInode fragments r.blockSize data first))
        ((Inodes.fileInode fragments r.blockSize data first).blocks.map fun c =>
          (((Assembly.serializeConfig o s.bd).block c).size, ((Assembly.serializeConfig o s.bd).block c).compressed)) =
      some (data.take ((Inodes.slicing fragments r.blockSize data.length).1 * r.blockSize)) := by
  generalize count : (Inodes.slicing fragments r.blockSize data.length).1 = k
  obtain ⟨blocks, inside, _⟩ := stands
  rw [count] at blocks inside
  have own (c : Nat) (low : first ≤ c) (high : c < first + k) : (item c).kind = .fullBlock ∧
      0 < (item c).data.pread.length ∧ (item c).data.pread.length ≤ r.blockSize := by
    have member : item c ∈ Inodes.blockItems r.blockSize data k := by
      rw [blocks]
      exact List.mem_map_of_mem (List.mem_range'_1.mpr ⟨low, high⟩)
    have listed : item c ∈ Inodes.fileItems fragments r.blockSize data := by
      rw [Inodes.fileItems, count]
      exact List.mem_append_left _ member
    obtain ⟨_, _, same⟩ := List.mem_map.mp member
    have readable := (Inodes.fileItemsReadable positive listed).2
    exact ⟨by rw [← same], by rw [readable.whole]; exact readable.positive, by rw [readable.whole]; exact readable.bound⟩
  have read := Plan.extentsRead restores keeps inside own
  have bytes := Inodes.blockItemsBytes data r.blockSize k
  rw [blocks, List.flatMap_map] at bytes
  rw [bytes] at read
  have listed : ((Inodes.fileInode fragments r.blockSize data first).blocks.map fun c =>
      (((Assembly.serializeConfig o s.bd).block c).size, ((Assembly.serializeConfig o s.bd).block c).compressed)) =
        (List.range' first k).map fun c =>
          ((Plan.blockExtent r size item c).size, (Plan.blockExtent r size item c).compressed) := by
    simp only [Inodes.fileInode, count]
    refine List.map_congr_left fun c member => ?_
    obtain ⟨low, high⟩ := List.mem_range'_1.mp member
    obtain ⟨_, size', compressed⟩ := realizes.block (show c < n by omega) (own c low high).1
    rw [← size', ← compressed]
    rfl
  rw [listed]
  cases k with
  | zero => exact read
  | succ k =>
    have start : startBlock (Assembly.serializeConfig o s.bd) (Inodes.fileInode fragments r.blockSize data first) =
        (Plan.upTo r size item first).size := by
      obtain ⟨offset, _⟩ := realizes.block (show first < n by omega) (own first (le_refl _) (by omega)).1
      have bound := @Plan.sizesGrow r size item _ _ (show first ≤ n by omega)
      have whole := realizes.size
      simp only [startBlock, Inodes.fileInode, count, List.range'_succ, Assembly.serializeConfig, offset, Option.elim_some,
        Int.ofNat_eq_natCast]
      omega
    rw [start]
    exact read

theorem Realizes.fragmentRead {host : Bytes.Host} (realizes : Realizes s (Plan.upTo r size item n))
    (restores : Plan.Restores r decompress) (keeps : Plan.Keeps log (Plan.upTo r size item n) size)
    (small : r.blockSize < 2 ^ 24) (below : s.size < 2 ^ 63)
    (fits : ∀ c, c < n → (item c).kind = .fragmentPiece → (item c).data.size ≤ r.blockSize)
    (entries : ∀ f entry, (Assembly.fragmentEntries host s.bd)[f]? = some entry →
      Metatable.lookupRecord decompress log table 16 f = some entry)
    {content : Bytes} (found : (Plan.upTo r size item n).contents[f]? = some content) (some : 0 < content.length) :
    readFragment decompress log table f = .some content := by
  obtain ⟨c, extent, fragment, length, compressed, above, within, bytes⟩ := Plan.fragmentWritten found
  obtain ⟨inside, same⟩ := realizes.fragment fragment
  have bound := (Plan.upToFits fits).1 content (List.mem_of_getElem? found)
  obtain ⟨shorter, back⟩ := restores.fragment c content log extent.offset some bound
  have size' := realizes.size
  have entry : (Assembly.fragmentEntries host s.bd)[f]? =
      .some (Assembly.fragmentEntry host (s.bd.fragmentBlock f).dst) := by
    rw [Assembly.fragmentEntries, List.getElem?_map, List.getElem?_range inside, Option.map_some]
  rw [fragmentEntryRead same (by omega) (by omega) (entries f _ entry), length, compressed]
  refine back ?_
  rw [← length, keeps _ _ above within, bytes]

theorem Realizes.tailRead {host : Bytes.Host} (realizes : Realizes s (Plan.upTo r size item n))
    (restores : Plan.Restores r decompress) (keeps : Plan.Keeps log (Plan.upTo r size item n) size)
    (closed : (Plan.upTo r size item n).current = none) (small : r.blockSize < 2 ^ 24) (below : s.size < 2 ^ 63)
    (fits : ∀ c, c < n → (item c).kind = .fragmentPiece → (item c).data.size ≤ r.blockSize)
    (entries : ∀ f entry, (Assembly.fragmentEntries host s.bd)[f]? = some entry →
      Metatable.lookupRecord decompress log table 16 f = some entry)
    (stands : Inodes.Stands fragments r.blockSize data item n first) :
    readTail decompress log table ((Inodes.fileInode fragments r.blockSize data first).tailPiece.map fun c =>
        (((Assembly.serializeConfig o s.bd).piece c).fragment, ((Assembly.serializeConfig o s.bd).piece c).offset))
        (data.length % r.blockSize) =
      some (data.drop (data.length - (Inodes.slicing fragments r.blockSize data.length).2)) := by
  by_cases whole : (Inodes.slicing fragments r.blockSize data.length).2 = 0
  · have none : (Inodes.fileInode fragments r.blockSize data first).tailPiece = none := if_pos whole
    rw [none, whole, Nat.sub_zero, List.drop_length]
    rfl
  have own' : (Inodes.fileInode fragments r.blockSize data first).tailPiece =
      some (first + (Inodes.slicing fragments r.blockSize data.length).1) := if_neg whole
  rw [own']
  obtain ⟨inside, own⟩ := stands.tail whole
  have rest := Inodes.slicingRest whole
  have within := @Inodes.slicingTail fragments r.blockSize data.length
  generalize first + (Inodes.slicing fragments r.blockSize data.length).1 = c at own inside ⊢
  have piece : (item c).kind = .fragmentPiece := by rw [own]
  have bytes : (item c).data.pread = data.drop (data.length - (Inodes.slicing fragments r.blockSize data.length).2) := by
    have short : (data.drop (data.length - (Inodes.slicing fragments r.blockSize data.length).2)).length ≤
        (Inodes.slicing fragments r.blockSize data.length).2 := by
      rw [List.length_drop]
      omega
    rw [own, DataPiece.pread, Bytes.slice, List.take_of_length_le short]
  have length : (item c).data.pread.length = data.length % r.blockSize := by
    rw [bytes, List.length_drop, ← rest]
    omega
  obtain ⟨fragment, offset⟩ := realizes.piece inside piece
  obtain ⟨content, before, after, shape, place, found⟩ := Plan.pieceWritten piece inside closed
  have some : 0 < content.length := by
    rw [shape, List.length_append, List.length_append, length, ← rest]
    omega
  have read := realizes.fragmentRead restores keeps small below fits entries found some
  have cut : Bytes.slice content ((Plan.upTo r size item c).flushFor r (item c)).room.2 (data.length % r.blockSize) =
      (item c).data.pread := by
    rw [shape, ← place, ← length]
    exact Bytes.sliceMiddle _ _ _
  rw [← bytes]
  simp only [Option.map_some, Assembly.serializeConfig, fragment, offset, Option.getD_some, readTail, read, bind,
    Option.bind_some, cut, if_pos length]

/- A file whose chunks are in the chain is read as it was given. -/
theorem Realizes.contentRead {host : Bytes.Host} {t : Inodes} (realizes : Realizes s (Plan.upTo r size item n))
    (restores : Plan.Restores r decompress) (keeps : Plan.Keeps log (Plan.upTo r size item n) size)
    (closed : (Plan.upTo r size item n).current = none) (positive : 0 < r.blockSize) (small : r.blockSize < 2 ^ 24)
    (below : s.size < 2 ^ 63)
    (fits : ∀ c, c < n → (item c).kind = .fragmentPiece → (item c).data.size ≤ r.blockSize)
    (entries : ∀ f entry, (Assembly.fragmentEntries host s.bd)[f]? = some entry →
      Metatable.lookupRecord decompress log table 16 f = some entry)
    (stands : Inodes.Stands fragments r.blockSize data item n first) :
    readContent decompress log table r.blockSize (t.bodyData (Assembly.serializeConfig o s.bd)
      (.regular (Inodes.fileInode fragments r.blockSize data first))) = some data := by
  have front := realizes.blocksRead (o := o) restores keeps positive below stands
  have tail := realizes.tailRead (o := o) restores keeps closed small below fits entries stands
  have fileSize : (Inodes.fileInode fragments r.blockSize data first).fileSize = data.length := rfl
  obtain ⟨reach, exact'⟩ := @Inodes.slicingWhole fragments r.blockSize positive data.length
  have within := @Inodes.slicingTail fragments r.blockSize data.length
  simp only [Inodes.bodyData, readContent, fileSize, front, tail, bind, Option.bind_some, Option.some.injEq]
  by_cases whole : (Inodes.slicing fragments r.blockSize data.length).2 = 0
  · rw [List.take_of_length_le (by omega), whole, Nat.sub_zero, List.drop_length, List.append_nil]
  · rw [exact' whole, List.take_append_drop]

theorem Realizes.sliced (realizes : Realizes s (Plan.upTo r size item n)) (saves : Plan.Saves r)
    (closed : (Plan.upTo r size item n).current = none) (positive : 0 < r.blockSize) (small : r.blockSize < 2 ^ 24)
    (below : s.size < 2 ^ 63) (numbered : s.bd.fragmentBlockCount < 2 ^ 32)
    (fits : ∀ c, c < n → (item c).kind = .fragmentPiece → (item c).data.size ≤ r.blockSize)
    (length : data.length < 2 ^ 63) (stands : Inodes.Stands fragments r.blockSize data item n first) :
    (Inodes.fileInode fragments r.blockSize data first).Sliced (Assembly.serializeConfig o s.bd) fragments r.blockSize := by
  have block (c : Nat) (member : c ∈ (Inodes.fileInode fragments r.blockSize data first).blocks) :
      (0 ≤ ((Assembly.serializeConfig o s.bd).block c).offset ∧ ((Assembly.serializeConfig o s.bd).block c).offset ≤ s.size) ∧
        ((Assembly.serializeConfig o s.bd).block c).size ≤ r.blockSize := by
    obtain ⟨blocks, inside, _⟩ := stands
    obtain ⟨low, high⟩ := List.mem_range'_1.mp member
    have one : item c ∈ Inodes.blockItems r.blockSize data (Inodes.slicing fragments r.blockSize data.length).1 := by
      rw [blocks]
      exact List.mem_map_of_mem member
    have readable := (@Inodes.fileItemsReadable fragments _ _ positive _ (List.mem_append_left _ one)).2
    obtain ⟨_, _, same⟩ := List.mem_map.mp one
    obtain ⟨offset, size', _⟩ := realizes.block (show c < n by omega) (by rw [← same])
    have stored := saves c (item c).data.pread (by rw [readable.whole]; exact readable.positive)
      (by rw [readable.whole]; exact readable.bound)
    have whole := readable.whole
    have bound := readable.bound
    simp only [Assembly.serializeConfig, offset, Option.elim_some, size', realizes.size]
    refine ⟨⟨Int.natCast_nonneg _, Int.ofNat_le.mpr (Plan.sizesGrow (by omega))⟩, ?_⟩
    simp only [Plan.blockExtent, Plan.extent]
    omega
  refine ⟨length, List.length_range', ?_, fun c member => ?_, fun c member => ?_, fun c own => ?_⟩
  · simp only [Inodes.fileInode]
    split <;> simp_all
  · have := (block c member).2
    omega
  · have := (block c member).1
    omega
  · simp only [Inodes.fileInode] at own
    split at own
    · cases own
    · rename_i some
      obtain rfl := Option.some.inj own
      obtain ⟨inside, same⟩ := stands.tail some
      have piece : (item (first + (Inodes.slicing fragments r.blockSize data.length).1)).kind = .fragmentPiece := by rw [same]
      obtain ⟨fragment, offset⟩ := realizes.piece inside piece
      obtain ⟨content, before, after, shape, place, found⟩ := Plan.pieceWritten piece inside closed
      obtain ⟨_, _, known, _⟩ := Plan.fragmentWritten found
      have number := (realizes.fragment known).1
      have bound := (Plan.upToFits fits).1 content (List.mem_of_getElem? found)
      have longer := congrArg List.length shape
      simp only [List.length_append] at longer
      simp only [Assembly.serializeConfig, fragment, offset, Option.getD_some]
      omega

end
end Image

/-! ### The record -/

section
variable {o : SerializeConfig} {x : Inode} {blockSize : Nat} {fragments : FragmentsOption} {reg : RegularInode}

/- What a record of a file says about its contents, whatever the other fields hold. -/
theorem regularContents (t : Inodes) (positive : 0 < blockSize) (sliced : reg.Sliced o fragments blockSize)
    (rest : Bytes) : ∃ inode, readInode blockSize (regularHeader o x reg ++ (blockList o reg ++ rest)) =
      some (inode, rest) ∧ inode.data = t.bodyData o (.regular reg) := by
  obtain ⟨fragment, offset, tail⟩ := tailBack sliced
  have count := slicedCount positive sliced
  have blocks := readBlocksAppend o sliced.sizes rest
  have start := startBlockSmall sliced
  have fragment' : (tailFragment o reg).1 < 256 ^ 4 := fragment
  rcases regularTypes o x reg with short | long
  · obtain ⟨_, size, _, near⟩ := shortRegular sliced short
    have near' : startBlock o reg < 256 ^ 4 := near
    have size' : reg.fileSize < 256 ^ 4 := size
    have type : fileType < 256 ^ 2 := by decide
    simp only [regularHeader, if_pos short, inodeHeader, List.append_assoc, readInode, Bytes.putLe, bind,
      Option.bind_some, Bytes.fieldBounded type, Bytes.fieldAppend 2, Bytes.fieldAppend 4 (x.attr.ctime % 2 ^ 32).toNat,
      Bytes.fieldAppend 4 x.inodeNumber]
    simp only [readBody, fileType, readRegular, bind, Option.bind_some, Bytes.fieldBounded near',
      Bytes.fieldBounded fragment', Bytes.fieldBounded offset, Bytes.fieldBounded size', count]
    simp only [blockList, blocks, tail, Option.bind_some]
    exact ⟨_, rfl, rfl⟩
  · have start' : startBlock o reg < 256 ^ 8 := Nat.lt_trans start (by decide)
    have size' : reg.fileSize < 256 ^ 8 := Nat.lt_trans sliced.fileSize (by decide)
    have other : regularType o x reg ≠ fileType := by rw [long]; decide
    have type : lregType < 256 ^ 2 := by decide
    simp only [regularHeader, if_neg other, inodeHeader, List.append_assoc, readInode, Bytes.putLe, bind,
      Option.bind_some, Bytes.fieldBounded type, Bytes.fieldAppend 2, Bytes.fieldAppend 4 (x.attr.ctime % 2 ^ 32).toNat,
      Bytes.fieldAppend 4 x.inodeNumber]
    simp only [readBody, lregType, readLargeRegular, xattrField, Bytes.putLe, bind, Option.bind_some,
      Bytes.fieldBounded start', Bytes.fieldBounded size', Bytes.fieldAppend 8, Bytes.fieldAppend 4 x.nlink,
      Bytes.fieldBounded fragment', Bytes.fieldBounded offset, Bytes.fieldAppend 4 (x.attr.xattrset.getD uintMax), count]
    simp only [blockList, blocks, tail, Option.bind_some]
    exact ⟨_, rfl, rfl⟩

end
end Libsqfs
