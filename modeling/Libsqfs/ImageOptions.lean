import Libsqfs.DataSource
import Libsqfs.ImageContents

/-! The options of an image as their setters leave them (src/image.c), and what the
superblock of a finished image says of it. -/
namespace Libsqfs
open Transition

def LibraryCompressor.id : LibraryCompressor → Nat
  | .null => 0
  | .zlib => 1
  | .lzma => 2
  | .xz => 4
  | .zstd => 6

theorem LibraryCompressor.idBound (compressor : LibraryCompressor) : compressor.id ≤ 6 := by
  cases compressor <;> decide

structure Options extends ImageOptions where
  creationTime : Nat
  creationTimeSet : Bool
  deriving DecidableEq, Repr

namespace Options

/- The default compressor is a matter of how the library was built. -/
def defaults (compressor : LibraryCompressor) : Options where
  inodeCompression := true
  dataCompression := true
  fragmentCompression := true
  fragments := .small
  exportable := false
  compressorId := compressor.id
  padding := true
  creationTimeSet := false
  creationTime := 0
  blockSizeLog := 17
  blockSize := 1 <<< 17

/- while ((block_size >>= 1)) block_size_log ++ -/
def shifts : Nat → Nat → Nat
  | 0, _ => 0
  | fuel + 1, blockSize => if blockSize >>> 1 = 0 then 0 else shifts fuel (blockSize >>> 1) + 1

/- The difference wraps where the size is 0. -/
def setBlockSize (o : Options) (blockSize : Nat) : Options :=
  if blockSize &&& uint64 (blockSize + (2 ^ 64 - 1)) ≠ 0 then o
  else if blockSize < 4096 ∨ 1048576 < blockSize then o
  else {o with blockSize := blockSize, blockSizeLog := shifts 64 blockSize}

def setCompressor (o : Options) (compressor : LibraryCompressor) (copied : Bool) : Options :=
  if copied then {o with compressorId := compressor.id} else o

end Options

inductive OptionCall where
  | setInodeCompression (compress : Bool)
  | setDataCompression (compress : Bool)
  | setFragmentCompression (compress : Bool)
  | setExportable (exportable : Bool)
  | setPadding (padding : Bool)
  | setCreationTime (creationTime : UInt32)
  | setFragmentOption (fragments : FragmentsOption)
  | setBlockSize (blockSize : UInt64)
  | setCompressor (compressor : LibraryCompressor) (copied : Bool)
  deriving DecidableEq, Repr

namespace OptionCall

def run (o : Options) : OptionCall → Options
  | .setInodeCompression compress => {o with inodeCompression := compress}
  | .setDataCompression compress => {o with dataCompression := compress}
  | .setFragmentCompression compress => {o with fragmentCompression := compress}
  | .setExportable exportable => {o with exportable := exportable}
  | .setPadding padding => {o with padding := padding}
  | .setCreationTime creationTime => {o with creationTime := creationTime.toNat, creationTimeSet := true}
  | .setFragmentOption fragments => {o with fragments := fragments}
  | .setBlockSize blockSize => o.setBlockSize blockSize.toNat
  | .setCompressor compressor copied => o.setCompressor compressor copied

def runAll (o : Options) (calls : List OptionCall) : Options := calls.foldl run o

end OptionCall

namespace Options

structure Sound (o : Options) : Prop where
  power : o.blockSize = 2 ^ o.blockSizeLog
  low : 12 ≤ o.blockSizeLog
  high : o.blockSizeLog ≤ 20
  compressor : o.compressorId ≤ 6
  time : o.creationTime < 2 ^ 32

section
variable {o : Options}

theorem shiftsPower {fuel k : Nat} (enough : k < fuel) : shifts fuel (2 ^ k) = k := by
  induction fuel generalizing k with
  | zero => exact absurd enough (Nat.not_lt_zero k)
  | succ fuel ih =>
    cases k with
    | zero => rfl
    | succ k =>
      have half : 2 ^ (k + 1) >>> 1 = 2 ^ k := by
        rw [Nat.shiftRight_eq_div_pow, Nat.pow_succ]
        exact Nat.mul_div_cancel _ (by decide)
      rw [shifts, half, if_neg (Nat.two_pow_pos k).ne', ih (by omega)]

theorem setBlockSizeSound (sound : Sound o) (blockSize : UInt64) : Sound (o.setBlockSize blockSize.toNat) := by
  unfold setBlockSize
  split
  · exact sound
  · rename_i power
    split
    · exact sound
    · rename_i range
      have below := blockSize.toNat_lt
      have wrapped : uint64 (blockSize.toNat + (2 ^ 64 - 1)) = blockSize.toNat - 1 := by
        unfold uint64
        omega
      rw [not_not, wrapped] at power
      obtain ⟨k, shape⟩ := (Nat.and_sub_one_eq_zero_iff_isPowerOfTwo (by omega)).mp power
      have low : 12 ≤ k := by
        by_contra small
        have : 2 ^ k ≤ 2 ^ 11 := Nat.pow_le_pow_right (by decide) (by omega)
        omega
      have high : k ≤ 20 := by
        by_contra large
        have : 2 ^ 21 ≤ 2 ^ k := Nat.pow_le_pow_right (by decide) (by omega)
        omega
      have log : shifts 64 blockSize.toNat = k := by
        rw [shape]
        exact shiftsPower (by omega)
      exact ⟨by rw [log]; exact shape, by rw [log]; exact low, by rw [log]; exact high, sound.compressor, sound.time⟩

theorem runSound (sound : Sound o) (call : OptionCall) : Sound (call.run o) := by
  cases call with
  | setBlockSize blockSize => exact setBlockSizeSound sound blockSize
  | setCreationTime creationTime =>
    exact ⟨sound.power, sound.low, sound.high, sound.compressor, creationTime.toNat_lt⟩
  | setCompressor compressor copied =>
    simp only [OptionCall.run, setCompressor]
    split
    · exact ⟨sound.power, sound.low, sound.high, compressor.idBound, sound.time⟩
    · exact sound
  | _ => exact ⟨sound.power, sound.low, sound.high, sound.compressor, sound.time⟩

theorem defaultsSound (compressor : LibraryCompressor) : Sound (defaults compressor) :=
  ⟨rfl, (by decide : 12 ≤ 17), (by decide : 17 ≤ 20), compressor.idBound, (by decide : 0 < 2 ^ 32)⟩

theorem runAllSound (sound : Sound o) (calls : List OptionCall) : Sound (OptionCall.runAll o calls) := by
  induction calls generalizing o with
  | nil => exact sound
  | cons call rest ih => exact ih (runSound sound call)

end
end Options

/-! ### The superblock -/

structure Super where
  magic : Nat
  inodes : Nat
  mkfsTime : Nat
  blockSize : Nat
  fragments : Nat
  compression : Nat
  blockLog : Nat
  flags : Nat
  noIds : Nat
  major : Nat
  minor : Nat
  deriving DecidableEq, Repr

def superField (log : List Medium.Write) (place width : Nat) : Nat := Bytes.readLE (Medium.read log place width)

def readSuper (log : List Medium.Write) : Super where
  magic := superField log 0 4
  inodes := superField log 4 4
  mkfsTime := superField log 8 4
  blockSize := superField log 12 4
  fragments := superField log 16 4
  compression := superField log 20 2
  blockLog := superField log 22 2
  flags := superField log 24 2
  noIds := superField log 26 2
  major := superField log 28 2
  minor := superField log 30 2

namespace Super

def fragmentsOption (sb : Super) : FragmentsOption :=
  if sb.flags.testBit 4 then .never else if sb.flags.testBit 5 then .always else .small

/- What was compressed is told by what was not. Padding leaves no trace. -/
def options (sb : Super) (padding : Bool) : ImageOptions where
  inodeCompression := !sb.flags.testBit 0
  dataCompression := !sb.flags.testBit 1
  fragmentCompression := !sb.flags.testBit 3
  fragments := sb.fragmentsOption
  exportable := sb.flags.testBit 7
  compressorId := sb.compression
  padding := padding
  blockSize := sb.blockSize
  blockSizeLog := sb.blockLog

def optionData (sb : Super) : Bool := sb.flags.testBit 10

end Super

namespace Assembly

def frontFields (image : Assembly) : List (Nat × Nat) :=
  [(4, 0x73717368), (4, image.inodes.count), (4, image.creationTime), (4, image.options.blockSize),
    (4, image.bulkdata.fragmentBlockCount), (2, image.options.compressorId), (2, image.options.blockSizeLog),
    (2, image.flags), (2, image.idtable.ids.length), (2, 4), (2, 0)]

section
variable {host : Bytes.Host} {image next last : Assembly} {env after : Env} {op : Later} {ok : Bool} {depth : Nat}
  {o : FinalizeConfig} {root : Inode} {log : List Medium.Write} {size : Nat}

theorem superblockFront (host : Bytes.Host) (image : Assembly) (root : Inode) (size : Nat) : ∃ back : Bytes,
    superblock host image root size = (image.frontFields.map fun f => Bytes.put host f.1 f.2).flatten ++ back := by
  refine ⟨((encodedInode root :: lastFields image size).map (Bytes.put host 8)).flatten, ?_⟩
  simp only [superblock, frontFields, lastFields, List.map_cons, List.map_nil, List.flatten_cons, List.flatten_nil,
    List.append_nil, List.append_assoc]

theorem frontRead {before rest : List (Nat × Nat)} {width value place : Nat}
    (shape : image.frontFields = before ++ (width, value) :: rest) (sum : (before.map Prod.fst).sum = place) :
    superField (log ++ [(0, superblock host image root size)]) place width = value % 256 ^ width := by
  obtain ⟨back, front⟩ := superblockFront host image root size
  have widths (l : List (Nat × Nat)) : ((l.map fun f => Bytes.put host f.1 f.2).flatten).length = (l.map Prod.fst).sum := by
    rw [List.length_flatten, List.map_map]
    exact congrArg List.sum (List.map_congr_left fun f _ => by simp)
  have inside : place + width ≤ 96 := by
    have total := congrArg (fun l : List (Nat × Nat) => (l.map Prod.fst).sum) shape
    simp only [frontFields, List.map_cons, List.map_nil, List.sum_cons, List.sum_nil, List.map_append, List.sum_append, sum]
      at total
    omega
  have whole := Medium.readWritten log 0 (superblock host image root size)
  rw [superblockLength] at whole
  have part := Medium.readSlice (log ++ [(0, superblock host image root size)]) 0 inside
  have middle := Bytes.sliceMiddle (before.map fun f => Bytes.put host f.1 f.2).flatten (Bytes.put host width value)
    ((rest.map fun f => Bytes.put host f.1 f.2).flatten ++ back)
  have length : (Bytes.put host width value).length = width := by simp
  rw [widths, sum, length] at middle
  rw [superField, ← Nat.zero_add place, part, whole, front, shape, List.map_append, List.map_cons, List.flatten_append,
    List.flatten_cons, List.append_assoc, List.append_assoc, middle, Bytes.putLe, Bytes.readLeMod]

theorem superRead : readSuper (log ++ [(0, superblock host image root size)]) =
    ⟨0x73717368, image.inodes.count % 2 ^ 32, image.creationTime % 2 ^ 32, image.options.blockSize % 2 ^ 32,
      image.bulkdata.fragmentBlockCount % 2 ^ 32, image.options.compressorId % 2 ^ 16, image.options.blockSizeLog % 2 ^ 16,
      image.flags % 2 ^ 16, image.idtable.ids.length % 2 ^ 16, 4, 0⟩ := by
  have read (i : Nat) {place width value : Nat} (found : image.frontFields.drop i = (width, value) :: image.frontFields.drop (i + 1))
      (sum : ((image.frontFields.take i).map Prod.fst).sum = place) :
      superField (log ++ [(0, superblock host image root size)]) place width = value % 256 ^ width := by
    have shape := List.take_append_drop i image.frontFields
    rw [found] at shape
    exact frontRead shape.symm sum
  simp only [readSuper, Super.mk.injEq]
  exact ⟨read 0 rfl rfl, read 1 rfl rfl, read 2 rfl rfl, read 3 rfl rfl, read 4 rfl rfl, read 5 rfl rfl, read 6 rfl rfl,
    read 7 rfl rfl, read 8 rfl rfl, read 9 rfl rfl, read 10 rfl rfl⟩

theorem performTime (ran : image.perform o depth env op = some (ok, next, after)) : next.creationTime = image.creationTime := by
  replace ran := (performed.mp ran).1
  cases op with
  | serialize =>
    simp only [operate, Option.bind_eq_some_iff, Option.map_eq_some_iff] at ran
    obtain ⟨root, _, serialized, _, same⟩ := ran
    cases same
    rfl
  | fragmentTable =>
    simp only [operate, writeFragmentTable] at ran
    split at ran <;> cases ran <;> rfl
  | xattrTable | superblock =>
    obtain ⟨_, _, same⟩ := Option.map_eq_some_iff.mp ran
    cases same
    rfl
  | _ =>
    cases ran
    rfl

theorem flagsRead (image : Assembly) (sb : Super) (flags : sb.flags = image.flags % 2 ^ 16) :
    (!sb.flags.testBit 0) = image.options.inodeCompression ∧ (!sb.flags.testBit 1) = image.options.dataCompression ∧
      (!sb.flags.testBit 3) = image.options.fragmentCompression ∧ sb.fragmentsOption = image.options.fragments ∧
      sb.flags.testBit 7 = image.options.exportable ∧ sb.optionData = image.compressorOptionData.isSome := by
  simp only [Super.fragmentsOption, Super.optionData, flags, Assembly.flags]
  generalize image.options.inodeCompression = inode
  generalize image.options.dataCompression = data
  generalize image.options.fragmentCompression = fragment
  generalize image.options.fragments = fragments
  generalize image.options.exportable = exportable
  generalize image.compressorOptionData.isSome = given
  cases fragments <;> revert inode data fragment exportable given <;> decide

structure Described (image : Assembly) (sb : Super) : Prop where
  format : sb.magic = 0x73717368 ∧ sb.major = 4 ∧ sb.minor = 0
  options : sb.options image.options.padding = image.options
  optionData : sb.optionData = image.compressorOptionData.isSome
  block : sb.blockSize = 2 ^ sb.blockLog ∧ 12 ≤ sb.blockLog ∧ sb.blockLog ≤ 20
  time : sb.mkfsTime = image.creationTime
  inodes : image.inodes.count < 2 ^ 32 → sb.inodes = image.inodes.count
  fragments : image.bulkdata.fragmentBlockCount < 2 ^ 32 → sb.fragments = image.bulkdata.fragmentBlockCount
  ids : sb.noIds = image.idtable.ids.length ↔ image.idtable.ids.length < 2 ^ 16

theorem superDescribed {options : Options} (sound : options.Sound) (same : image.options = options.toImageOptions)
    (time : image.creationTime < 2 ^ 32) :
    Described image (readSuper (log ++ [(0, superblock host image root size)])) := by
  obtain ⟨power, low, high, compressor, _⟩ := sound
  have block : image.options.blockSize = 2 ^ image.options.blockSizeLog := by rw [same]; exact power
  have log : 12 ≤ image.options.blockSizeLog ∧ image.options.blockSizeLog ≤ 20 := by rw [same]; exact ⟨low, high⟩
  have bound : image.options.blockSize % 2 ^ 32 = image.options.blockSize :=
    Nat.mod_eq_of_lt (by rw [block]; exact Nat.pow_lt_pow_right (by decide) (by omega))
  have boundLog : image.options.blockSizeLog % 2 ^ 16 = image.options.blockSizeLog := Nat.mod_eq_of_lt (by omega)
  have boundId : image.options.compressorId % 2 ^ 16 = image.options.compressorId := by
    have : image.options.compressorId ≤ 6 := by rw [same]; exact compressor
    omega
  rw [superRead, bound, boundLog, boundId, Nat.mod_eq_of_lt time]
  obtain ⟨inode, data, fragment, fragments, exportable, given⟩ := flagsRead image ⟨0x73717368, image.inodes.count % 2 ^ 32,
    image.creationTime, image.options.blockSize, image.bulkdata.fragmentBlockCount % 2 ^ 32, image.options.compressorId,
    image.options.blockSizeLog, image.flags % 2 ^ 16, image.idtable.ids.length % 2 ^ 16, 4, 0⟩ rfl
  refine ⟨⟨rfl, rfl, rfl⟩, ?_, given, ⟨block, log⟩, rfl, Nat.mod_eq_of_lt, Nat.mod_eq_of_lt, ?_⟩
  · simp only [Super.options, inode, data, fragment, fragments, exportable]
  · dsimp only
    omega

/- The creation time is the one that was set, or that of the creation. -/
def creationTimeOf (options : Options) (now : UInt32) : Nat :=
  if options.creationTimeSet then options.creationTime else now.toNat

/- Whatever was set in whatever order, a finished image says of itself what it is. -/
theorem optionsRestored {calls : List OptionCall} {compressor : LibraryCompressor} {now : UInt32}
    {stages : List (Event (List Later × Assembly × Env) (Later × Bool))} {rest : List Later}
    (opened : Opened image env)
    (options : image.options = (OptionCall.runAll (.defaults compressor) calls).toImageOptions)
    (time : image.creationTime = creationTimeOf (OptionCall.runAll (.defaults compressor) calls) now)
    (run : Run (Stage o) (operations image.options, image, env) stages (rest, last, after))
    (all : labels stages = (operations image.options).map (·, true)) :
    Described last (readSuper after.written) ∧ last.options = image.options ∧ last.creationTime = image.creationTime := by
  have sound := Options.runAllSound (Options.defaultsSound compressor) calls
  have kept := @runLeaves o _ Assembly.options (fun _ => True) (fun _ ran => performOptions ran) _ _ _ run fun _ _ => trivial
  have clock := @runLeaves o _ creationTime (fun _ => True) (fun _ ran => performTime ran) _ _ _ run fun _ _ => trivial
  have bound : image.creationTime < 2 ^ 32 := by
    rw [time, creationTimeOf]
    split
    · exact sound.time
    · exact now.toNat_lt
  obtain ⟨r, u, inodes, dirs, written⟩ := treeWritten opened run all
  obtain ⟨log, size, superblock⟩ := written.superblock
  refine ⟨?_, kept, clock⟩
  rw [superblock]
  exact superDescribed sound (kept.trans options) (clock.symm ▸ bound)

def describedCalls : List OptionCall := [.setBlockSize 65536, .setInodeCompression false, .setExportable true, .setBlockSize 5000,
  .setCreationTime 0, .setBlockSize 4096]

def describedImage : Assembly :=
  {filedImage with options := (OptionCall.runAll (.defaults .zlib) describedCalls).toImageOptions}

/- The size that is no power of two is ignored. -/
theorem filedDescribed : ∃ (last : Assembly) (after : Env), Described last (readSuper after.written) := by
  have ran : (performAll ⟨.little, 0, true⟩ 2 (operations describedImage.options) describedImage
      (willing 115 filedLog)).isSome := by
    decide
  obtain ⟨⟨last, after⟩, ran⟩ := Option.isSome_iff_exists.mp ran
  obtain ⟨stages, run, all, _⟩ := performAllRun ran
  have opened : Opened describedImage (willing 115 filedLog) := ⟨rfl, by decide⟩
  exact ⟨last, after, (@optionsRestored describedImage last (willing 115 filedLog) after ⟨.little, 0, true⟩ describedCalls
    .zlib 7 stages [] opened rfl (by decide) run all).1⟩

end
end Assembly
end Libsqfs
