import Libsqfs.IndexedTables
import Libsqfs.Layout

/-! The space that a metadata table claims is the space that it fills, whatever the
compressor makes of its blocks. -/
namespace Libsqfs

namespace Env

structure Fills (buffers : List Bytes) (env after : Env) : Prop where
  size : after.size = env.size + buffers.flatten.length
  written : after.written = env.written ++ Medium.consecutive env.size buffers

section
variable {first second : List Bytes} {data : Bytes} {env mid after : Env}

theorem Fills.trans (left : Fills first env mid) (right : Fills second mid after) :
    Fills (first ++ second) env after where
  size := by rw [right.size, left.size, List.flatten_append, List.length_append, Nat.add_assoc]
  written := by
    rw [right.written, left.written, left.size, Medium.consecutiveAppend, List.append_assoc]

theorem reserveFills (filled : (env.reserve data.length).2.pwrite data env.size = (true, after)) :
    Fills [data] env after ∧ env.size + data.length < 2 ^ 63 := by
  obtain ⟨written, size, _, fits⟩ := pwriteWritten filled
  exact ⟨⟨by simp [size], written⟩, fits⟩

end
end Env

namespace Metatable
open Env

structure Sized (tab : Metatable) : Prop where
  blocks : ∀ b ∈ tab.blocks, b.data.length = b.size
  opened : ∀ b, tab.openedBlock = some b → tab.openedBlockFill = b.data.length
  size : tab.size = uint tab.encodedSize
  count : tab.nmetablocks = tab.blocks.length

section
variable {tab next : Metatable} {host : Bytes.Host} {env after : Env}

theorem initSized (compressor : Option Compressor) : Sized (init compressor) :=
  ⟨by simp [init], by simp [init], by simp [init, encodedSize, uint], rfl⟩

theorem closeSized (compressor : Option Compressor) {block : Metablock} (size : block.data.length = block.size) :
    (close compressor block).data.length = (close compressor block).size := by
  unfold close
  split
  · split
    · rfl
    · exact size
  · exact size

theorem flushSized (sized : tab.Sized) : tab.flush.Sized := by
  cases shape : tab.openedBlock with
  | none =>
    have same : tab.flush = tab := by simp [flush, shape]
    rw [same]
    exact sized
  | some b =>
    have closed : (close tab.compressor {b with size := tab.openedBlockFill}).data.length =
        (close tab.compressor {b with size := tab.openedBlockFill}).size :=
      closeSized tab.compressor (sized.opened b shape).symm
    simp only [flush, shape]
    refine ⟨fun x member => ?_, by simp, ?_, by simp [sized.count]⟩
    · rcases List.mem_append.mp member with old | new
      · exact sized.blocks x old
      · rw [List.mem_singleton.mp new]
        exact closed
    · simp only [encodedSize, List.map_append, List.sum_append, List.map_cons, List.map_nil, List.sum_cons,
        List.sum_nil, Nat.add_zero]
      rw [sized.size, uintAdd]
      rfl

theorem copyInSized {block : Metablock} (sized : tab.Sized) (fill : tab.openedBlockFill = block.data.length)
    (data : Bytes) : (tab.copyIn block data).Sized := by
  have copied : Sized {tab with
      openedBlock := some {block with data := block.data ++ data}
      openedBlockFill := tab.openedBlockFill + data.length} :=
    ⟨sized.blocks, fun b same => by cases same; simp [fill], sized.size, sized.count⟩
  unfold copyIn
  simp only
  split
  · exact flushSized copied
  · exact copied

theorem getblockSized (sized : tab.Sized) {block : Metablock}
    (got : tab.getblock env = (some (block, next), after)) :
    next.Sized ∧ next.openedBlockFill = block.data.length := by
  unfold getblock at got
  split at got
  · rename_i b shape
    cases got
    exact ⟨sized, sized.opened _ shape⟩
  · simp only at got
    split at got
    · cases got
      exact ⟨⟨sized.blocks, fun b same => by cases same; rfl, sized.size, sized.count⟩, rfl⟩
    · cases got

theorem appendSized (sized : tab.Sized) (data : Bytes) (env : Env) : (tab.append data env).2.1.Sized := by
  suffices loop : ∀ (fuel : Nat) (tab : Metatable) (data : Bytes) (env : Env), tab.Sized →
      (appendLoop fuel tab data env).2.1.Sized from loop data.length tab data env sized
  intro fuel
  induction fuel with
  | zero =>
    intro tab data env sized
    cases data <;> exact sized
  | succ fuel ih =>
    intro tab data env sized
    cases data with
    | nil => exact sized
    | cons b rest =>
      rw [appendLoop]
      rcases got : tab.getblock env with ⟨_ | ⟨block, next⟩, env'⟩
      · exact sized
      · obtain ⟨taken, fill⟩ := getblockSized sized got
        exact ih _ _ _ (copyInSized taken fill _)

theorem blockBuffersLength (host : Bytes.Host) (sized : ∀ b ∈ tab.blocks, b.data.length = b.size) :
    (blockBuffers host tab.blocks).flatten.length = tab.encodedSize := by
  unfold encodedSize
  generalize tab.blocks = blocks at sized
  induction blocks with
  | nil => rfl
  | cons b rest ih =>
    have tail := ih fun c member => sized c (List.mem_cons_of_mem _ member)
    have own := sized b (by simp)
    simp only [blockBuffers, List.flatMap_cons, List.flatten_append, List.length_append, List.flatten_cons,
      List.flatten_nil, List.length_nil, Bytes.storeLength, List.length_take, List.map_cons, List.sum_cons] at tail ⊢
    omega

theorem writeFills (sized : tab.Sized) (small : tab.flush.encodedSize < 2 ^ 32)
    (ok : tab.write host env = (true, next, after)) :
    Fills (blockBuffers host tab.flush.blocks) env after ∧ next = {tab.flush with offset := some env.size} := by
  have flushed := flushSized sized
  simp only [write] at ok
  split at ok
  · cases ok
  · rename_i mid blocks
    simp only [Prod.mk.injEq, true_and] at ok
    obtain ⟨rfl, rfl⟩ := ok
    obtain ⟨log, grown, _⟩ := writeBlocksSpec flushed.blocks blocks
    have size : tab.flush.size = tab.flush.encodedSize := by
      rw [flushed.size]
      exact Nat.mod_eq_of_lt small
    refine ⟨⟨?_, log⟩, rfl⟩
    rw [grown, Env.reserveSize, size, blockBuffersLength host flushed.blocks]

def indexedBuffers (host : Bytes.Host) (base : Nat) (blocks : List Metablock) : List Bytes :=
  blockBuffers host blocks ++ [indexTable host base blocks]

theorem indexedBuffersLength (host : Bytes.Host) (base : Nat) (sized : ∀ b ∈ tab.blocks, b.data.length = b.size) :
    (indexedBuffers host base tab.blocks).flatten.length = tab.encodedSize + tab.blocks.length * 8 := by
  rw [indexedBuffers, List.flatten_append, List.length_append, blockBuffersLength host sized]
  simp [indexTableLength]

theorem writeWithIndexFills (sized : tab.Sized) (small : tab.flush.encodedSize < 2 ^ 32)
    (ok : tab.writeWithIndex host env = (true, next, after)) :
    Fills (indexedBuffers host env.size tab.flush.blocks) env after ∧
      next.offset = some (env.size + tab.flush.encodedSize) ∧ after.size < 2 ^ 63 := by
  have flushed := flushSized sized
  simp only [writeWithIndex] at ok
  split at ok
  · cases ok
  · rename_i table mid first
    split at ok
    · cases ok
    · rename_i last second
      simp only [Prod.mk.injEq, true_and] at ok
      obtain ⟨rfl, rfl⟩ := ok
      obtain ⟨fills, rfl⟩ := writeFills sized small first
      dsimp only at second
      rw [Option.getD_some, flushed.count, List.take_length, Env.reserveStart] at second
      rw [← indexTableLength host env.size tab.flush.blocks] at second
      obtain ⟨filled, fits⟩ := reserveFills second
      have size : mid.size = env.size + tab.flush.encodedSize := by
        rw [fills.size, blockBuffersLength host flushed.blocks]
      refine ⟨fills.trans filled, congrArg some size, ?_⟩
      rw [filled.size]
      simpa using fits

theorem appendedFills {data : Bytes} (sized : tab.Sized)
    (small : (tab.append data env).2.1.flush.encodedSize < 2 ^ 32)
    (written : (if (tab.append data env).1 then
        (tab.append data env).2.1.writeWithIndex host (tab.append data env).2.2
      else (false, (tab.append data env).2.1, (tab.append data env).2.2)) = (true, next, after)) :
    Fills (indexedBuffers host env.size (tab.append data env).2.1.flush.blocks) env after ∧
      next.offset = some (env.size + (tab.append data env).2.1.flush.encodedSize) ∧
      (tab.append data env).1 = true ∧ after.size < 2 ^ 63 := by
  have quiet := appendQuiet tab data env
  have kept := appendSized sized data env
  generalize tab.append data env = result at *
  obtain ⟨_ | _, grown, mid⟩ := result
  · cases written
  · obtain ⟨⟨size, log⟩, offset, fits⟩ := writeWithIndexFills kept small written
    rw [quiet.size] at size log offset
    rw [quiet.written] at log
    exact ⟨⟨size, log⟩, offset, rfl, fits⟩

theorem appendedBlocks (compressor : Option Compressor) {data : Bytes} (some : data ≠ [])
    (ok : ((init compressor).append data env).1 = true) :
    ((init compressor).append data env).2.1.flush.blocks ≠ [] := by
  have grown := appendGrown (init compressor) data env
  have sized := flushSized (appendSized (initSized compressor) data env)
  have counted := startedFlushed grown (appendStarted some (Prod.ext ok rfl))
  rw [sized.count] at counted
  exact List.ne_nil_of_length_pos (Nat.zero_lt_of_lt counted)

theorem encodedSizePositive (some : tab.blocks ≠ []) : 0 < tab.encodedSize := by
  unfold encodedSize
  generalize tab.blocks = blocks at some
  cases blocks with
  | nil => exact absurd rfl some
  | cons b rest =>
    rw [List.map_cons, List.sum_cons]
    omega

theorem holdsSized {decompress : Bytes → Option Bytes} {stream : Bytes} (holds : Holds decompress tab stream) :
    tab.Sized where
  blocks b member := (holds.stored b member).size
  opened b shape := (holds.opened b shape).1
  size := by rw [holds.size, encodedSizeExact holds.stored]
  count := holds.count

end
end Metatable

namespace XattrTable
open Env Metatable

/- The tables that the calls make when none of them fails. -/
inductive Made (host : Bytes.Host) : XattrTable → Prop where
  | init : Made host init
  | xattr {tab} (name value : Bytes) (env : Env) (made : Made host tab) : Made host (tab.xattrCreate name value env).2.1
  | xattrset {tab stale attrs env id next after} (made : Made host tab)
      (created : tab.xattrsetCreate host stale attrs env = (some id, next, after)) : Made host next

section
variable {host : Bytes.Host} {tab next : XattrTable} {env after : Env}

theorem xattrRows (rows : Rows host tab) (name value : Bytes) (env : Env) :
    Rows host (tab.xattrCreate name value env).2.1 := by
  unfold xattrCreate
  split
  · exact rows
  · simp only
    split
    · exact rows
    · split
      · exact rows
      · split
        · exact rows
        · exact ⟨rows.data, rows.descriptors, rows.count⟩

theorem madeRows (made : Made host tab) : Rows host tab := by
  induction made with
  | init => exact initRows host
  | xattr name value env _ ih => exact xattrRows ih name value env
  | xattrset _ created ih => exact (createRows ih created).1

/- The header stands between the descriptors and their index. -/
def buffers (host : Bytes.Host) (tab : XattrTable) (base : Nat) : List Bytes :=
  blockBuffers host tab.xattrData.blocks ++ blockBuffers host tab.xattrDescriptors.blocks ++
    [tab.header host] ++ [indexTable host base tab.xattrDescriptors.blocks]

def placed (tab : XattrTable) (size : Nat) : XattrTable :=
  {tab with
    offset := some (size + tab.xattrData.flush.encodedSize + tab.xattrDescriptors.flush.encodedSize)
    xattrData := {tab.xattrData.flush with offset := some size}
    xattrDescriptors := {tab.xattrDescriptors.flush with offset := some (size + tab.xattrData.flush.encodedSize)}}

theorem writeFills (rows : Rows host tab) (sets : tab.nids ≠ 0)
    (data : tab.xattrData.flush.encodedSize < 2 ^ 32) (descriptors : tab.xattrDescriptors.flush.encodedSize < 2 ^ 32)
    (written : tab.write host env = some (true, next, after)) :
    Fills ((tab.placed env.size).buffers host (env.size + tab.xattrData.flush.encodedSize)) env after ∧
      next = tab.placed env.size ∧ after.size < 2 ^ 63 := by
  obtain ⟨stream, holds⟩ := rows.data
  have dataSized := holdsSized (holds raw)
  have rowsSized := holdsSized (rows.descriptors raw)
  rw [write, if_neg sets] at written
  split at written
  · cases written
  · rename_i table mid first
    obtain ⟨fills, rfl⟩ := Metatable.writeFills dataSized data first
    have size : mid.size = env.size + tab.xattrData.flush.encodedSize := by
      rw [fills.size, blockBuffersLength host (flushSized dataSized).blocks]
    dsimp only at written
    split at written
    · cases written
    · rename_i rowTable mid' second
      obtain ⟨fills', rfl⟩ := Metatable.writeFills rowsSized descriptors second
      have size' : mid'.size = env.size + tab.xattrData.flush.encodedSize + tab.xattrDescriptors.flush.encodedSize := by
        rw [fills'.size, blockBuffersLength host (flushSized rowsSized).blocks, size]
      have entries := (indexEntriesExact rows (flushClosed (rows.descriptors raw))).symm
      dsimp only at written
      split at written
      · cases written
      · rename_i headed third
        split at written
        · cases written
        · split at written
          · cases written
          · rename_i last fourth
            simp only [Option.some.injEq, Prod.mk.injEq, true_and] at written
            obtain ⟨rfl, rfl⟩ := written
            have headed' : (mid'.reserve 16).2.pwrite ((tab.placed env.size).header host) mid'.size = (true, headed) :=
              third
            have indexed : (headed.reserve (tab.indexEntries * 8)).2.pwrite
                (indexTable host mid.size (tab.xattrDescriptors.flush.blocks.take tab.indexEntries)) headed.size =
                  (true, last) := fourth
            rw [← @headerLength host (tab.placed env.size)] at headed'
            rw [entries, List.take_length, ← indexTableLength host mid.size tab.xattrDescriptors.flush.blocks, size]
              at indexed
            obtain ⟨header, _⟩ := reserveFills headed'
            obtain ⟨index, fits⟩ := reserveFills indexed
            refine ⟨((fills.trans fills').trans header).trans index, ?_, ?_⟩
            · rw [placed, ← size', ← size]
              rfl
            · rw [index.size]
              simpa using fits

end
end XattrTable
end Libsqfs
