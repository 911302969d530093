import Libsqfs.DirectoryIndex
import Libsqfs.DirectoryTree
import Libsqfs.Finalize
import Libsqfs.PipelineProgress

/-! The operation tables of the compressors (src/compressor.c and a file for each
library) and the calls that an image makes through them. -/
namespace Libsqfs
open Transition

inductive Operation where
  | compress
  | compressMeta
  deriving DecidableEq, Repr

inductive LibraryCompressor where
  | null
  | zlib
  | lzma
  | xz
  | zstd
  deriving DecidableEq, Repr

/- A function that a table leaves out is a null pointer. -/
structure InstanceVmt where
  compress : Option (Bool → Bytes → Option Bytes)
  compressMeta : Option (Bytes → Option Bytes)

/- The functions around the libraries. Metadata always has a buffer. -/
structure Wrappers where
  zlib : Bool → Bytes → Option Bytes
  lzma : Bool → Bytes → Option Bytes
  xzData : Bool → Bytes → Option Bytes
  xzMeta : Bytes → Option Bytes
  zstdData : Bool → Bytes → Option Bytes
  zstdMeta : Bytes → Option Bytes

def nullCompress (_ : Bool) (_ : Bytes) : Option Bytes := none

namespace LibraryCompressor

def vmt (w : Wrappers) : LibraryCompressor → InstanceVmt
  | .null => ⟨some nullCompress, none⟩
  | .zlib => ⟨some w.zlib, some (w.zlib true)⟩
  | .lzma => ⟨some w.lzma, some (w.lzma true)⟩
  | .xz => ⟨some w.xzData, some w.xzMeta⟩
  | .zstd => ⟨some w.zstdData, some w.zstdMeta⟩

end LibraryCompressor

namespace InstanceVmt

def Has (vmt : InstanceVmt) : Operation → Prop
  | .compress => vmt.compress.isSome
  | .compressMeta => vmt.compressMeta.isSome

def opened (vmt : InstanceVmt) : Compressor :=
  ⟨vmt.compress.getD fun _ _ => none, vmt.compressMeta⟩

end InstanceVmt

/-! ### The calls that the tables make -/

namespace Metatable

def flushCalls (tab : Metatable) : List Operation :=
  match tab.openedBlock with
  | none => []
  | some _ => if tab.compressor.isSome then [.compressMeta] else []

def filled (tab : Metatable) (block : Metablock) (data : Bytes) : Metatable :=
  {tab with
    openedBlock := some {block with data := block.data ++ data}
    openedBlockFill := tab.openedBlockFill + data.length}

def copyInCalls (tab : Metatable) (block : Metablock) (data : Bytes) : List Operation :=
  let tab := tab.filled block data
  if tab.openedBlockFill = metadataSize then tab.flushCalls else []

def appendLoopCalls : Nat → Metatable → Bytes → Env → List Operation
  | _, _, [], _ => []
  | 0, _, _ :: _, _ => []
  | fuel + 1, tab, b :: rest, env =>
    match tab.getblock env with
    | (none, _) => []
    | (some (block, tab), env) =>
      let toCopy := min (metadataSize - tab.openedBlockFill) (b :: rest).length
      tab.copyInCalls block ((b :: rest).take toCopy) ++
        appendLoopCalls fuel (tab.copyIn block ((b :: rest).take toCopy)) ((b :: rest).drop toCopy) env

/- The same told by the count of the blocks that were flushed. -/
def callsBetween (tab after : Metatable) : List Operation :=
  if tab.compressor.isSome then List.replicate (after.nmetablocks - tab.nmetablocks) .compressMeta else []

structure Grown (tab after : Metatable) : Prop where
  compressor : after.compressor = tab.compressor
  count : tab.nmetablocks ≤ after.nmetablocks
  started : tab.openedBlock.isSome → after.openedBlock.isSome ∨ tab.nmetablocks < after.nmetablocks

variable {tab mid after : Metatable}

theorem Grown.refl (tab : Metatable) : Grown tab tab := ⟨rfl, le_refl _, .inl⟩

theorem Grown.trans (first : Grown tab mid) (second : Grown mid after) : Grown tab after where
  compressor := second.compressor.trans first.compressor
  count := first.count.trans second.count
  started opened := by
    rcases first.started opened with still | more
    · rcases second.started still with last | more
      · exact .inl last
      · exact .inr (by have := first.count; omega)
    · exact .inr (by have := second.count; omega)

theorem callsAppend (first : Grown tab mid) (second : Grown mid after) :
    callsBetween tab after = callsBetween tab mid ++ callsBetween mid after := by
  have left := first.count
  have right := second.count
  simp only [callsBetween, first.compressor]
  split
  · rw [← List.replicate_add]
    congr 1
    omega
  · rfl

theorem callsMore (given : tab.compressor.isSome) (more : tab.nmetablocks < after.nmetablocks) :
    .compressMeta ∈ callsBetween tab after := by
  rw [callsBetween, if_pos given]
  exact List.mem_replicate.mpr ⟨by omega, rfl⟩

theorem flushGrown (tab : Metatable) :
    Grown tab tab.flush ∧ callsBetween tab tab.flush = tab.flushCalls ∧
      (tab.openedBlock.isSome → tab.nmetablocks < tab.flush.nmetablocks) := by
  cases opened : tab.openedBlock with
  | none =>
    have same : tab.flush = tab := by simp [flush, opened]
    rw [same]
    exact ⟨.refl tab, by simp [callsBetween, flushCalls, opened], by simp⟩
  | some block =>
    have count : tab.flush.nmetablocks = tab.nmetablocks + 1 := by simp [flush, opened]
    have kept : tab.flush.compressor = tab.compressor := by simp [flush, opened]
    refine ⟨⟨kept, by omega, fun _ => .inr (by omega)⟩, ?_, fun _ => by omega⟩
    simp [callsBetween, flushCalls, opened, count]

theorem copyInGrown (tab : Metatable) (block : Metablock) (data : Bytes) :
    Grown tab (tab.copyIn block data) ∧
      callsBetween tab (tab.copyIn block data) = tab.copyInCalls block data ∧
      ((tab.copyIn block data).openedBlock.isSome ∨ tab.nmetablocks < (tab.copyIn block data).nmetablocks) := by
  have shape : tab.copyIn block data = if (tab.filled block data).openedBlockFill = metadataSize then
    (tab.filled block data).flush else tab.filled block data := rfl
  have first : Grown tab (tab.filled block data) := ⟨rfl, le_refl _, fun _ => .inl rfl⟩
  have none : callsBetween tab (tab.filled block data) = [] := by simp [callsBetween, filled]
  rw [shape, copyInCalls]
  split
  · obtain ⟨grown, calls, more⟩ := flushGrown (tab.filled block data)
    refine ⟨first.trans grown, ?_, .inr (more rfl)⟩
    rw [callsAppend first grown, calls, none, List.nil_append]
  · exact ⟨first, none, .inl rfl⟩

theorem getblockGrown {env : Env} {block : Metablock} {next : Metatable} {rest : Env}
    (got : tab.getblock env = (some (block, next), rest)) :
    Grown tab next ∧ next.nmetablocks = tab.nmetablocks := by
  unfold getblock at got
  split at got
  · cases got
    exact ⟨.refl tab, rfl⟩
  · simp only at got
    split at got
    · cases got
      exact ⟨⟨rfl, le_refl _, fun _ => .inl rfl⟩, rfl⟩
    · cases got

theorem appendLoopGrown (fuel : Nat) (tab : Metatable) (data : Bytes) (env : Env) :
    Grown tab (appendLoop fuel tab data env).2.1 ∧
      callsBetween tab (appendLoop fuel tab data env).2.1 = appendLoopCalls fuel tab data env := by
  have unchanged (tab : Metatable) : callsBetween tab tab = [] := by simp [callsBetween]
  induction fuel generalizing tab data env with
  | zero => cases data <;> exact ⟨.refl tab, unchanged tab⟩
  | succ fuel ih =>
    cases data with
    | nil => exact ⟨.refl tab, unchanged tab⟩
    | cons b rest =>
      simp only [appendLoop, appendLoopCalls]
      rcases got : tab.getblock env with ⟨_ | ⟨block, next⟩, env'⟩
      · exact ⟨.refl tab, unchanged tab⟩
      · simp only
        obtain ⟨taken, same⟩ := getblockGrown got
        obtain ⟨copied, own, _⟩ := copyInGrown next block
          ((b :: rest).take (min (metadataSize - next.openedBlockFill) (b :: rest).length))
        obtain ⟨grown, later⟩ := ih (next.copyIn block
          ((b :: rest).take (min (metadataSize - next.openedBlockFill) (b :: rest).length)))
          ((b :: rest).drop (min (metadataSize - next.openedBlockFill) (b :: rest).length)) env'
        refine ⟨taken.trans (copied.trans grown), ?_⟩
        have first : callsBetween tab next = [] := by simp [callsBetween, same]
        rw [callsAppend taken (copied.trans grown), callsAppend copied grown, first, own, later,
          List.nil_append]

theorem appendGrown (tab : Metatable) (data : Bytes) (env : Env) : Grown tab (tab.append data env).2.1 :=
  (appendLoopGrown data.length tab data env).1

theorem appendStarted {data : Bytes} {env rest : Env} (some : data ≠ [])
    (ok : tab.append data env = (true, after, rest)) :
    after.openedBlock.isSome ∨ tab.nmetablocks < after.nmetablocks := by
  cases data with
  | nil => exact absurd rfl some
  | cons b data =>
    simp only [append, List.length_cons, appendLoop] at ok
    rcases got : tab.getblock env with ⟨_ | ⟨block, next⟩, env'⟩
    · rw [got] at ok
      cases ok
    · rw [got] at ok
      simp only at ok
      obtain ⟨taken, same⟩ := getblockGrown got
      obtain ⟨_, _, filled⟩ := copyInGrown next block
        ((b :: data).take (min (metadataSize - next.openedBlockFill) (data.length + 1)))
      have grown := (appendLoopGrown data.length (next.copyIn block
        ((b :: data).take (min (metadataSize - next.openedBlockFill) (data.length + 1))))
        ((b :: data).drop (min (metadataSize - next.openedBlockFill) (data.length + 1))) env').1
      rw [ok] at grown
      simp only at grown
      rcases filled with opened | more
      · rcases grown.started opened with still | later
        · exact .inl still
        · exact .inr (by have := (copyInGrown next block ((b :: data).take
            (min (metadataSize - next.openedBlockFill) (data.length + 1)))).1.count; omega)
      · exact .inr (by have := grown.count; omega)

theorem appendEachGrown (pieces : List Bytes) (tab : Metatable) (env : Env) :
    Grown tab (appendEach pieces tab env).2.1 := by
  induction pieces generalizing tab env with
  | nil => exact .refl tab
  | cons data rest ih =>
    have first := appendGrown tab data env
    rw [appendEach]
    generalize tab.append data env = result at first
    obtain ⟨ok, next, env'⟩ := result
    cases ok with
    | false => exact first
    | true => exact first.trans (ih next env')

theorem writeGrown (host : Bytes.Host) (tab : Metatable) (env : Env) :
    Grown tab (tab.write host env).2.1 ∧ (tab.write host env).2.1.nmetablocks = tab.flush.nmetablocks := by
  have flushed := (flushGrown tab).1
  unfold write
  simp only
  rcases writeBlocks host tab.flush.blocks (env.reserve tab.flush.size).1 (env.reserve tab.flush.size).2 with ⟨ok, rest⟩
  cases ok with
  | false => exact ⟨flushed, rfl⟩
  | true => exact ⟨⟨flushed.compressor, flushed.count, flushed.started⟩, rfl⟩

theorem writeWithIndexCount (host : Bytes.Host) (tab : Metatable) (env : Env) :
    (tab.writeWithIndex host env).2.1.nmetablocks = tab.flush.nmetablocks := by
  have written := (writeGrown host tab env).2
  unfold writeWithIndex
  rcases result : tab.write host env with ⟨_ | _, next, rest⟩
  · rw [result] at written
    exact written
  · rw [result] at written
    simp only
    split <;> exact written

theorem startedFlushed (grown : Grown tab mid)
    (started : mid.openedBlock.isSome ∨ tab.nmetablocks < mid.nmetablocks) :
    tab.nmetablocks < mid.flush.nmetablocks := by
  obtain ⟨flushed, _, more⟩ := flushGrown mid
  have first := grown.count
  have second := flushed.count
  rcases started with opened | counted
  · have := more opened
    omega
  · omega

end Metatable

/-! ### Serializing -/

namespace Inodes

def Appending (p : Metatable → Prop) : Prop := ∀ tab data env, p tab → p (tab.append data env).2.1

structure Retains (p : Metatable → Prop) (t u : Inodes) : Prop where
  inodeTable : p t.inodeTable → p u.inodeTable
  dirTable : p t.dirTable → p u.dirTable

section
variable {p : Metatable → Prop} {t u v : Inodes} {d i : Nat} {o : SerializeConfig} {env : Env}

theorem Retains.refl (t : Inodes) : Retains p t t := ⟨id, id⟩

theorem Retains.trans (first : Retains p t u) (second : Retains p u v) : Retains p t v :=
  ⟨fun held => second.inodeTable (first.inodeTable held), fun held => second.dirTable (first.dirTable held)⟩

theorem tablesSame (inodes : u.inodeTable = t.inodeTable) (dirs : u.dirTable = t.dirTable) : Retains p t u := by
  refine ⟨?_, ?_⟩
  · rw [inodes]
    exact id
  · rw [dirs]
    exact id

theorem Retains.setInode (retains : Retains p t u) (i : Nat) (x : Inode) : Retains p t (u.setInode i x) :=
  ⟨retains.inodeTable, retains.dirTable⟩

theorem appendEachRetains (appending : Appending p) {tab : Metatable} (held : p tab) (pieces : List Bytes) (env : Env) :
    p (Metatable.appendEach pieces tab env).2.1 := by
  induction pieces generalizing tab env with
  | nil => exact held
  | cons data rest ih =>
    have first := appending tab data env held
    rw [Metatable.appendEach]
    generalize tab.append data env = result at first
    obtain ⟨_ | _, next, env'⟩ := result
    · exact first
    · exact ih first env'

theorem writeRecordRetains (appending : Appending p) (t : Inodes) (i type baseType : Nat) (pieces : List Bytes)
    (env : Env) : Retains p t (t.writeRecord i type baseType pieces env).2.1 :=
  ⟨fun held => appendEachRetains appending held pieces env, id⟩

theorem appendEntriesRetains (appending : Appending p) (d : Nat) (es : List Nat) (first : Bool) (t : Inodes)
    (env : Env) : Retains p t (appendEntries d es first t env).2.1 := by
  induction es generalizing t first env with
  | nil => exact .refl t
  | cons e rest ih =>
    rw [appendEntriesTurn]
    have kept := appending t.dirTable ((t.entry e).encodedData.getD []) env
    generalize t.dirTable.append ((t.entry e).encodedData.getD []) env = result at kept
    obtain ⟨ok, table, env'⟩ := result
    cases ok with
    | false => exact ⟨id, kept⟩
    | true =>
      have stored : Retains p t (t.entryStored d e first table) := by
        cases first <;> exact ⟨id, kept⟩
      exact stored.trans (ih false _ env')

theorem directoryEncodeRetains (appending : Appending p) (o : SerializeConfig) (t : Inodes) (d : Nat) (env : Env) :
    Retains p t (t.directoryEncode o d env).2.1 := by
  unfold directoryEncode
  simp only
  generalize encodeEntries o.host o.stale ((t.entries d).map t.listed) env = result
  obtain ⟨ok, enc, env'⟩ := result
  obtain ⟨_, dirs, inodes⟩ := @keepEncodedRest t (t.entries d) enc.done
  generalize t.keepEncoded (t.entries d) enc.done = t₁ at dirs inodes
  have same : Retains p t t₁ := tablesSame inodes dirs
  split
  · exact same.setInode _ _
  · exact ((same.setInode _ _).setInode _ _).trans (appendEntriesRetains appending ..)

theorem directoryWriteRetains (appending : Appending p) (o : SerializeConfig) (t : Inodes) (d : Nat) (env : Env) :
    Retains p t (t.directoryWrite o d env).2.1 := by
  have encoded := directoryEncodeRetains appending o t d env
  unfold directoryWrite
  generalize t.directoryEncode o d env = result at encoded ⊢
  obtain ⟨ok, u, env'⟩ := result
  cases ok with
  | false => exact encoded
  | true =>
    have pruned : Retains p t (u.pruneIndex d) := encoded.setInode _ _
    exact pruned.trans (writeRecordRetains appending ..)

theorem inodeEncodeRetains (appending : Appending p) (o : SerializeConfig) (t : Inodes) (i : Nat) (env : Env) :
    Retains p t (t.inodeEncode o i env).2.1 := by
  unfold inodeEncode
  split
  · exact writeRecordRetains appending ..
  · exact writeRecordRetains appending ..
  · exact writeRecordRetains appending ..
  · unfold deviceInodeSerialize
    split <;> exact writeRecordRetains appending ..
  · unfold fifoInodeSerialize
    split <;> exact writeRecordRetains appending ..

/- The tables of the tree grow by appends only. -/
theorem serializeRetains (appending : Appending p) {fuel : Nat} {ok : Bool} {after : Env}
    (ran : inodeSerialize o fuel t i env = some (ok, u, after)) : Retains p t u :=
  (serializeRelates (R := fun s s' => Retains p s.1 s'.1) (fun s => .refl s.1)
    (fun first second => first.trans second) (fun _ _ _ => tablesSame rfl rfl)
    (fun t i env _ _ => inodeEncodeRetains appending o t i env)
    (fun t i env _ => directoryWriteRetains appending o t i env) ran).2

end

structure Grown (t u : Inodes) : Prop where
  inodeTable : t.inodeTable.Grown u.inodeTable
  dirTable : t.dirTable.Grown u.dirTable

section
variable {t u v : Inodes} {d i : Nat} {o : SerializeConfig} {env : Env}

theorem Grown.refl (t : Inodes) : Grown t t := ⟨.refl _, .refl _⟩

theorem Grown.trans (first : Grown t u) (second : Grown u v) : Grown t v :=
  ⟨first.inodeTable.trans second.inodeTable, first.dirTable.trans second.dirTable⟩

theorem retainsGrown (retains : ∀ p, Appending p → Retains p t u) : Grown t u := by
  have growing (tab : Metatable) : Appending tab.Grown :=
    fun next data env grown => grown.trans (Metatable.appendGrown next data env)
  exact ⟨(retains _ (growing t.inodeTable)).inodeTable (.refl _), (retains _ (growing t.dirTable)).dirTable (.refl _)⟩

theorem writeRecordStarted {type baseType : Nat} {first : Bytes} {rest : List Bytes} {after : Env}
    (some : first ≠ []) (ok : t.writeRecord i type baseType (first :: rest) env = (true, u, after)) :
    u.inodeTable.openedBlock.isSome ∨ t.inodeTable.nmetablocks < u.inodeTable.nmetablocks := by
  simp only [writeRecord, Metatable.appendEach] at ok
  rw [show (t.setInode i {t.inode i with
    encodedType := type
    encodedBaseType := baseType
    inodeTableEntry := t.inodeTable.position}).inodeTable = t.inodeTable from rfl] at ok
  rcases head : t.inodeTable.append first env with ⟨_ | _, table, mid⟩
  · rw [head] at ok
    cases ok
  · rw [head] at ok
    have more := Metatable.appendEachGrown rest table mid
    simp only [Prod.mk.injEq] at ok
    obtain ⟨_, rfl, _⟩ := ok
    rcases Metatable.appendStarted some head with opened | counted
    · rcases more.started opened with still | later
      · exact .inl still
      · have grown := Metatable.appendGrown t.inodeTable first env
        rw [head] at grown
        exact .inr (Nat.lt_of_le_of_lt grown.count later)
    · exact .inr (Nat.lt_of_lt_of_le counted more.count)

theorem directoryEncodeGrown (o : SerializeConfig) (t : Inodes) (d : Nat) (env : Env) :
    Grown t (t.directoryEncode o d env).2.1 :=
  retainsGrown fun _ appending => directoryEncodeRetains appending o t d env

theorem serializeGrown {fuel : Nat} {ok : Bool} {after : Env}
    (ran : inodeSerialize o fuel t i env = some (ok, u, after)) : Grown t u :=
  retainsGrown fun _ appending => serializeRetains appending ran

theorem serializeEachGrown {fuel : Nat} {is : List Nat} {ok : Bool} {after : Env}
    (ran : serializeEach (inodeSerialize o fuel) is t env = some (ok, u, after)) : Grown t u := by
  induction is generalizing t env with
  | nil =>
    cases ran
    exact .refl _
  | cons i rest ih =>
    rw [serializeEach] at ran
    rcases first : inodeSerialize o fuel t i env with _ | ⟨_ | _, v, mid⟩
    · rw [first] at ran
      cases ran
    · rw [first] at ran
      cases ran
      exact serializeGrown first
    · rw [first] at ran
      exact (serializeGrown first).trans (ih ran)

theorem directoryHeaderSome (host : Bytes.Host) (t : Inodes) (x : Inode) (dir : DirectoryInode) :
    directoryHeader host t x dir ≠ [] := by
  unfold directoryHeader
  split <;> simp [inodeHeader, Bytes.le]

theorem regularHeaderSome (o : SerializeConfig) (x : Inode) (reg : RegularInode) :
    regularHeader o x reg ≠ [] := by
  unfold regularHeader
  split <;> simp [inodeHeader, Bytes.le]

theorem inodeEncodeStarted {after : Env} (ok : t.inodeEncode o i env = (true, u, after)) :
    u.inodeTable.openedBlock.isSome ∨ t.inodeTable.nmetablocks < u.inodeTable.nmetablocks := by
  unfold inodeEncode at ok
  split at ok
  · exact writeRecordStarted (regularHeaderSome _ _ _) ok
  · exact writeRecordStarted (directoryHeaderSome _ _ _ _) ok
  · exact writeRecordStarted (by simp [inodeHeader, Bytes.le]) ok
  · unfold deviceInodeSerialize at ok
    split at ok <;> exact writeRecordStarted (by simp [inodeHeader, Bytes.le]) ok
  · unfold fifoInodeSerialize at ok
    split at ok <;> exact writeRecordStarted (by simp [inodeHeader, Bytes.le]) ok

theorem directoryWriteStarted {after : Env} (ok : t.directoryWrite o d env = (true, u, after)) :
    u.inodeTable.openedBlock.isSome ∨ t.inodeTable.nmetablocks < u.inodeTable.nmetablocks := by
  have encoded := directoryEncodeGrown o t d env
  unfold directoryWrite at ok
  generalize t.directoryEncode o d env = result at encoded ok
  obtain ⟨good, v, mid⟩ := result
  cases good with
  | false => cases ok
  | true =>
    rcases writeRecordStarted (directoryHeaderSome _ _ _ _) ok with opened | more
    · exact .inl opened
    · exact .inr (Nat.lt_of_le_of_lt encoded.inodeTable.count more)

theorem serializeStarted {fuel : Nat} {after : Env} (blank : (t.inode i).encodedType = 0)
    (ran : inodeSerialize o fuel t i env = some (true, u, after)) :
    u.inodeTable.openedBlock.isSome ∨ t.inodeTable.nmetablocks < u.inodeTable.nmetablocks := by
  cases fuel with
  | zero => cases ran
  | succ fuel =>
    by_cases directory : (t.inode i).IsDirectory
    · rw [serializeDirectory o fuel env blank directory] at ran
      rcases entries : serializeEach (inodeSerialize o fuel) (t.children i) {t with begun := t.begun ++ [i]} env with
        _ | ⟨_ | _, v, mid⟩
      · rw [entries] at ran
        cases ran
      · rw [entries] at ran
        cases ran
      · rw [entries] at ran
        have below := serializeEachGrown entries
        rcases directoryWriteStarted (Option.some.inj ran) with opened | more
        · exact .inl opened
        · exact .inr (Nat.lt_of_le_of_lt below.inodeTable.count more)
    · rw [serializeLeaf o fuel env blank directory] at ran
      exact inodeEncodeStarted (Option.some.inj ran)

end
end Inodes

/-! ### The calls of an image -/

namespace Image

def storeCalls (compressing : Bool) (src : Bytes) : List Operation :=
  if compressing ∧ src.length ≠ 0 then [.compress] else []

/- What libsqfs_full_block_compress and libsqfs_fragment_piece_compress hand over. -/
def source (bd : Bulkdata) (c : Nat) : Except Fault Bytes :=
  match (bd.chunk c).kind with
  | .fullBlock => deref (bd.chunk c).cachedData
  | _ => do
    let f ← bd.flushed c
    bd.copyPieces (bd.fragmentBlock f).pieces

def compressCalls (bd : Bulkdata) (c : Nat) : List Operation :=
  match source bd c with
  | .error _ => []
  | .ok src =>
    storeCalls (if (bd.chunk c).kind = .fullBlock then bd.compressBlocks else bd.compressFragments) src

def calls (e : Event Image Label) : List Operation :=
  match e.label with
  | .thread t =>
    match e.before.pc t with
    | .compressing c => compressCalls e.before.bd c
    | _ => []
  | _ => []

theorem compressCallsOnly {bd : Bulkdata} {c : Nat} {op : Operation} (called : op ∈ compressCalls bd c) :
    op = .compress := by
  unfold compressCalls at called
  cases src : source bd c with
  | error fault =>
    rw [src] at called
    cases called
  | ok bytes =>
    rw [src] at called
    simp only [storeCalls] at called
    split at called
    all_goals
      split at called
      · exact List.mem_singleton.mp called
      · simp at called

theorem callsCompress {e : Event Image Label} {op : Operation} (called : op ∈ calls e) : op = .compress := by
  unfold calls at called
  split at called
  · split at called
    · exact compressCallsOnly called
    · cases called
  · cases called

end Image

namespace Assembly

def fragmentTableCalls (host : Bytes.Host) (image : Assembly) (env : Env) : List Operation :=
  if image.bulkdata.fragmentBlockCount = 0 then []
  else (Metatable.init (some image.compressor)).callsBetween (image.fragmentTable host env).2.1

/- The thread in libsqfs_image_finalize: the operations left, the image and the
environment. An operation that fails ends it, except for the serialization. -/
def Stage (o : FinalizeConfig) (s : List Later × Assembly × Env) (l : Later × Bool)
    (next : List Later × Assembly × Env) : Prop :=
  ∃ rest, s.1 = l.1 :: rest ∧ s.2.1.Performs o s.2.2 l.1 (l.2, next.2) ∧
    next.1 = if l.2 || l.1 == .serialize then rest else []

/- The same when the call of a null pointer does not end the process, so that the calls
behind it are seen too. -/
def Attempt (o : FinalizeConfig) (s : List Later × Assembly × Env) (l : Later × Bool)
    (next : List Later × Assembly × Env) : Prop :=
  ∃ rest, s.1 = l.1 :: rest ∧ (∃ depth, s.2.1.operate o depth s.2.2 l.1 = some (l.2, next.2)) ∧
    next.1 = if l.2 || l.1 == .serialize then rest else []

def stageCalls (o : FinalizeConfig) (e : Event (List Later × Assembly × Env) (Later × Bool)) :
    List Operation :=
  match e.label.1 with
  | .fragmentTable => e.before.2.1.fragmentTableCalls o.host e.before.2.2
  | _ => e.before.2.1.inodes.inodeTable.callsBetween e.after.2.1.inodes.inodeTable ++
    e.before.2.1.inodes.dirTable.callsBetween e.after.2.1.inodes.dirTable

/- What was made of the image by the calls and the threads before its tables are
written, with the compressor and the options that it was created with. -/
structure Built (k : LibraryCompressor) (w : Wrappers) (image : Assembly) (events : List (Event Image Label)) :
    Prop where
  compressor : image.compressor = (k.vmt w).opened
  tree : ∃ (o : BuilderConfig) (env : Env) (trace : List (Event Builder (Call × Bool))) (b : Builder),
    o.inodeCompressor = (if image.options.inodeCompression then some image.compressor else none) ∧
      Run (Builder.Step o) (.init o env) trace b ∧ b.inodes = image.inodes
  threads : ∃ (p : ImageConfig) (size : Nat) (s : Image), p.compress = image.compressor.compress ∧
    Run (Image.Step p) (.init image.options.dataCompression image.options.fragmentCompression size) events s ∧
      s.bd = image.bulkdata

/- No table of the image has the null compressor for its blocks. -/
def Spared (k : LibraryCompressor) (image : Assembly) : Prop :=
  k = .null → image.options.inodeCompression = false ∧ image.bulkdata.fragmentBlockCount = 0

def allCalls (o : FinalizeConfig) (events : List (Event Image Label))
    (trace : List (Event (List Later × Assembly × Env) (Later × Bool))) : List Operation :=
  events.flatMap Image.calls ++ trace.flatMap (stageCalls o)

section
variable {k : LibraryCompressor} {w : Wrappers} {o : FinalizeConfig} {image next : Assembly} {env after : Env}
  {op : Later} {ok : Bool}

theorem operateKept {depth : Nat} (ran : image.operate o depth env op = some (ok, next, after)) :
    image.inodes.Grown next.inodes ∧ next.bulkdata = image.bulkdata ∧ next.compressor = image.compressor := by
  cases op with
  | serialize =>
    simp only [operate, Option.bind_eq_some_iff, Option.map_eq_some_iff] at ran
    obtain ⟨root, _, ⟨good, u, last⟩, returned, same⟩ := ran
    cases same
    exact ⟨Inodes.serializeGrown returned, rfl, rfl⟩
  | inodeTable =>
    have grown := (Metatable.writeGrown o.host image.inodes.inodeTable env).1
    cases ran
    exact ⟨⟨grown, .refl _⟩, rfl, rfl⟩
  | dirTable =>
    have grown := (Metatable.writeGrown o.host image.inodes.dirTable env).1
    cases ran
    exact ⟨⟨.refl _, grown⟩, rfl, rfl⟩
  | fragmentTable =>
    simp only [operate, writeFragmentTable] at ran
    split at ran <;> cases ran <;> exact ⟨.refl _, rfl, rfl⟩
  | xattrTable =>
    obtain ⟨_, _, same⟩ := Option.map_eq_some_iff.mp ran
    cases same
    exact ⟨.refl _, rfl, rfl⟩
  | superblock =>
    obtain ⟨_, _, same⟩ := Option.map_eq_some_iff.mp ran
    cases same
    exact ⟨.refl _, rfl, rfl⟩
  | _ =>
    cases ran
    exact ⟨.refl _, rfl, rfl⟩

structure Kept (image next : Assembly) : Prop where
  grown : image.inodes.Grown next.inodes
  bulkdata : next.bulkdata = image.bulkdata
  compressor : next.compressor = image.compressor

theorem attemptKept {s next : List Later × Assembly × Env} {l : Later × Bool} (taken : Attempt o s l next) :
    Kept s.2.1 next.2.1 := by
  obtain ⟨rest, _, ⟨depth, ran⟩, _⟩ := taken
  obtain ⟨grown, bulkdata, compressor⟩ := operateKept ran
  exact ⟨grown, bulkdata, compressor⟩

theorem runKept {first s : List Later × Assembly × Env}
    {trace : List (Event (List Later × Assembly × Env) (Later × Bool))} (run : Run (Attempt o) first trace s) :
    Kept first.2.1 s.2.1 := by
  have free : Obeys (fun _ _ => True) trace := fun _ _ => trivial
  refine Run.invariant (I := fun s => Kept first.2.1 s.2.1) ⟨.refl _, rfl, rfl⟩ ?_ run free
  intro s l next kept _ taken
  have own := attemptKept taken
  exact ⟨kept.grown.trans own.grown, own.bulkdata.trans kept.bulkdata, own.compressor.trans kept.compressor⟩

theorem effectTables {t u : Inodes} {c : Call} (effect : t.Effect c ok u) :
    u.inodeTable = t.inodeTable ∧ u.dirTable = t.dirTable := by
  have claimed (p i : Nat) : (t.claimed p i).inodeTable = t.inodeTable ∧ (t.claimed p i).dirTable = t.dirTable := by
    unfold Inodes.claimed
    split <;> exact ⟨rfl, rfl⟩
  have linked (t : Inodes) (d e : Nat) (a b : Option Nat) :
      (t.linkEntry d e a b).inodeTable = t.inodeTable ∧ (t.linkEntry d e a b).dirTable = t.dirTable := by
    cases a <;> cases b <;> exact ⟨rfl, rfl⟩
  cases effect with
  | refused => exact ⟨rfl, rfl⟩
  | created => exact ⟨rfl, rfl⟩
  | failed => exact claimed ..
  | added =>
    unfold Inodes.insertEntry
    exact ⟨(linked ..).1.trans (claimed ..).1, (linked ..).2.trans (claimed ..).2⟩
  | rooted => exact ⟨rfl, rfl⟩

theorem builtTables {o : BuilderConfig} {env : Env} {trace : List (Event Builder (Call × Bool))} {b : Builder}
    (run : Run (Builder.Step o) (.init o env) trace b) :
    b.inodes.inodeTable = .init o.inodeCompressor ∧ b.inodes.dirTable = .init o.inodeCompressor := by
  have free : Obeys (fun _ _ => True) trace := fun _ _ => trivial
  refine Run.invariant (I := fun b => b.inodes.inodeTable = .init o.inodeCompressor ∧
    b.inodes.dirTable = .init o.inodeCompressor) ⟨rfl, rfl⟩ ?_ run free
  intro b l next ⟨inodes, dirs⟩ _ taken
  obtain ⟨_, effect⟩ := Builder.stepEffect taken
  obtain ⟨sameInodes, sameDirs⟩ := effectTables effect
  exact ⟨sameInodes.trans inodes, sameDirs.trans dirs⟩

/- What libsqfs_image_finalize does after the bulk data is such a run. -/
theorem performEachStages {first : List Later × Assembly × Env} {depth : Nat} {ops : List Later} {success : Bool}
    {trace : List (Event (List Later × Assembly × Env) (Later × Bool))}
    (run : Run (Stage o) first trace (ops, image, env))
    (ran : performEach o depth ops image env = some (success, next, after)) :
    ∃ later, Run (Stage o) first (trace ++ later) ([], next, after) := by
  induction ops generalizing image env trace with
  | nil =>
    cases ran
    exact ⟨[], by rw [List.append_nil]; exact run⟩
  | cons op ops ih =>
    rw [performEach] at ran
    cases performed : image.perform o depth env op with
    | none =>
      rw [performed] at ran
      cases ran
    | some result =>
      obtain ⟨ok, image', env'⟩ := result
      rw [performed] at ran
      have taken : Stage o (op :: ops, image, env) (op, ok) (if ok || op == .serialize then ops else [], image', env') :=
        ⟨ops, rfl, ⟨depth, performed⟩, rfl⟩
      simp only at ran
      split at ran
      · rename_i goesOn
        rw [if_pos goesOn] at taken
        obtain ⟨later, whole⟩ := ih (run.move taken) ran
        exact ⟨_ :: later, by rw [List.append_cons]; exact whole⟩
      · rename_i ends
        rw [if_neg ends] at taken
        cases ran
        exact ⟨_, run.move taken⟩

/-! ### All calls find a function -/

theorem hasAll (other : k ≠ .null) (op : Operation) : (k.vmt w).Has op := by
  cases k with
  | null => exact absurd rfl other
  | _ => cases op <;> rfl

theorem nullHas {op : Operation} : (LibraryCompressor.null.vmt w).Has op ↔ op = .compress := by
  cases op <;> simp [LibraryCompressor.vmt, InstanceVmt.Has]

theorem stageSilent {e : Event (List Later × Assembly × Env) (Later × Bool)}
    (inodes : e.before.2.1.inodes.inodeTable.compressor = none) (dirs : e.before.2.1.inodes.dirTable.compressor = none)
    (fragments : e.before.2.1.bulkdata.fragmentBlockCount = 0) : stageCalls o e = [] := by
  unfold stageCalls fragmentTableCalls Metatable.callsBetween
  simp only [inodes, dirs, fragments]
  split <;> simp

theorem fragmentTableCalled {host : Bytes.Host} (fragments : image.bulkdata.fragmentBlockCount ≠ 0)
    (ok : image.writeFragmentTable host env = (true, next, after)) :
    .compressMeta ∈ image.fragmentTableCalls host env := by
  simp only [writeFragmentTable, if_neg fragments, fragmentTable] at ok
  simp only [fragmentTableCalls, if_neg fragments, fragmentTable]
  have some : (fragmentEntries host image.bulkdata).flatten ≠ [] := by
    intro empty
    have member : fragmentEntry host (image.bulkdata.fragmentBlock 0).dst ∈ fragmentEntries host image.bulkdata :=
      List.mem_map.mpr ⟨0, List.mem_range.mpr (Nat.pos_of_ne_zero fragments), rfl⟩
    have none := List.flatten_eq_nil_iff.mp empty _ member
    simp [fragmentEntry, Bytes.le] at none
  have grown := Metatable.appendGrown (Metatable.init (Option.some image.compressor))
    (fragmentEntries host image.bulkdata).flatten env
  rcases appended : (Metatable.init (Option.some image.compressor)).append
    (fragmentEntries host image.bulkdata).flatten env with ⟨_ | _, table, mid⟩
  · rw [appended] at ok
    simp at ok
  · rw [appended] at grown
    have flushed := Metatable.startedFlushed grown (Metatable.appendStarted some appended)
    refine Metatable.callsMore rfl ?_
    rw [if_pos rfl, Metatable.writeWithIndexCount]
    exact flushed

theorem rootStarted {depth : Nat} (blank : ∀ r, image.inodes.root = some r → (image.inodes.inode r).encodedType = 0)
    (ran : image.operate o depth env .serialize = some (true, next, after)) :
    next.inodes.inodeTable.openedBlock.isSome ∨
      image.inodes.inodeTable.nmetablocks < next.inodes.inodeTable.nmetablocks := by
  simp only [operate, Option.bind_eq_some_iff, Option.map_eq_some_iff] at ran
  obtain ⟨r, root, ⟨good, u, last⟩, returned, same⟩ := ran
  cases same
  exact Inodes.serializeStarted (blank r root) returned

theorem inodesWrittenCount {depth : Nat} (ran : image.operate o depth env .inodeTable = some (ok, next, after)) :
    next.inodes.inodeTable.nmetablocks = image.inodes.inodeTable.flush.nmetablocks := by
  have written := (Metatable.writeGrown o.host image.inodes.inodeTable env).2
  cases ran
  exact written

theorem writtenCalled {s : List Later × Assembly × Env}
    {trace : List (Event (List Later × Assembly × Env) (Later × Bool))}
    (root : ∀ r, image.inodes.root = some r → (image.inodes.inode r).encodedType = 0)
    (given : image.options.inodeCompression = true → image.inodes.inodeTable.compressor.isSome)
    (run : Run (Attempt o) (operations image.options, image, env) trace s)
    (all : labels trace = (operations image.options).map (·, true))
    (called : image.options.inodeCompression = true ∨ image.bulkdata.fragmentBlockCount ≠ 0) :
    .compressMeta ∈ trace.flatMap (stageCalls o) := by
  have shape : (operations image.options).map (·, true) = (.serialize, true) :: (.inodeTable, true) ::
      (.dirTable, true) :: (.fragmentTable, true) :: ((operations image.options).drop 4).map (·, true) := by
    simp [operations, writes]
  rw [shape, labels] at all
  obtain ⟨first, trace, rfl, isSerialize, all⟩ := List.map_eq_cons_iff.mp all
  obtain ⟨second, trace, rfl, isInodes, all⟩ := List.map_eq_cons_iff.mp all
  obtain ⟨third, trace, rfl, isDirs, all⟩ := List.map_eq_cons_iff.mp all
  obtain ⟨fourth, trace, rfl, isFragments, _⟩ := List.map_eq_cons_iff.mp all
  obtain ⟨fromImage, serialized, run⟩ := run.front
  obtain ⟨fromFirst, inodesWritten, run⟩ := run.front
  obtain ⟨fromSecond, dirsWritten, run⟩ := run.front
  obtain ⟨fromThird, fragmentsWritten, _⟩ := run.front
  have kept := attemptKept serialized
  have kept' := attemptKept inodesWritten
  have kept'' := attemptKept dirsWritten
  rcases called with compressed | fragments
  · -- the record of the root is in a block, which is flushed by the second operation at the latest
    have both : Metatable.callsBetween image.inodes.inodeTable second.after.2.1.inodes.inodeTable =
        Metatable.callsBetween image.inodes.inodeTable first.after.2.1.inodes.inodeTable ++
          Metatable.callsBetween first.after.2.1.inodes.inodeTable second.after.2.1.inodes.inodeTable :=
      Metatable.callsAppend kept.grown.inodeTable kept'.grown.inodeTable
    have flushed : image.inodes.inodeTable.nmetablocks < second.after.2.1.inodes.inodeTable.nmetablocks := by
      obtain ⟨_, _, ⟨_, written⟩, _⟩ := inodesWritten
      rw [isInodes] at written
      rw [inodesWrittenCount written]
      obtain ⟨_, _, ⟨_, recorded⟩, _⟩ := serialized
      rw [isSerialize] at recorded
      exact Metatable.startedFlushed kept.grown.inodeTable (rootStarted root recorded)
    have made := Metatable.callsMore (given compressed) flushed
    rw [both] at made
    rcases List.mem_append.mp made with early | late
    · refine List.mem_flatMap.mpr ⟨first, List.mem_cons_self, ?_⟩
      rw [stageCalls, isSerialize, fromImage]
      exact List.mem_append_left _ early
    · refine List.mem_flatMap.mpr ⟨second, List.mem_cons_of_mem _ List.mem_cons_self, ?_⟩
      rw [stageCalls, isInodes, fromFirst]
      exact List.mem_append_left _ late
  · obtain ⟨_, _, ⟨_, written⟩, _⟩ := fragmentsWritten
    rw [isFragments] at written
    have same : third.after.2.1.bulkdata = image.bulkdata :=
      kept''.bulkdata.trans (kept'.bulkdata.trans kept.bulkdata)
    refine List.mem_flatMap.mpr ⟨fourth, by simp, ?_⟩
    rw [stageCalls, isFragments, fromThird]
    exact fragmentTableCalled (by rw [same]; exact fragments) (Option.some.inj written)

theorem callsFound {events : List (Event Image Label)} {s : List Later × Assembly × Env}
    {trace : List (Event (List Later × Assembly × Env) (Later × Bool))} (built : Built k w image events)
    (run : Run (Attempt o) (operations image.options, image, env) trace s) :
    (Spared k image → ∀ op ∈ allCalls o events trace, (k.vmt w).Has op) ∧
      (labels trace = (operations image.options).map (·, true) →
        (∀ op ∈ allCalls o events trace, (k.vmt w).Has op) → Spared k image) := by
  obtain ⟨p, penv, ptrace, b, given, calls, same⟩ := built.tree
  obtain ⟨inodes, dirs⟩ := builtTables calls
  rw [same] at inodes dirs
  constructor
  · intro spared op called
    by_cases null : k = .null
    · obtain ⟨uncompressed, fragments⟩ := spared null
      rw [uncompressed, if_neg Bool.false_ne_true] at given
      rw [given] at inodes dirs
      subst null
      refine nullHas.mpr ?_
      rcases List.mem_append.mp called with bulk | late
      · obtain ⟨e, _, own⟩ := List.mem_flatMap.mp bulk
        exact Image.callsCompress own
      · obtain ⟨e, member, own⟩ := List.mem_flatMap.mp late
        obtain ⟨earlier, _, _, reached, _⟩ := run.reaches member
        have kept := runKept reached
        rw [stageSilent (by rw [kept.grown.inodeTable.compressor, inodes]; rfl)
          (by rw [kept.grown.dirTable.compressor, dirs]; rfl) (by rw [kept.bulkdata, fragments])] at own
        cases own
    · exact hasAll null op
  · intro all found null
    subst null
    by_contra other
    have reason : image.options.inodeCompression = true ∨ image.bulkdata.fragmentBlockCount ≠ 0 := by
      by_contra neither
      simp only [not_or, Bool.not_eq_true, ne_eq, not_not] at neither
      exact other neither
    have called := writtenCalled (fun r _ => by rw [← same]; exact (Builder.runSheltered calls).2.unencoded r)
      (fun compressed => by rw [inodes, given, if_pos compressed]; rfl) run all reason
    have missing := nullHas.mp (found .compressMeta (List.mem_append_right _ called))
    cases missing

end

/-! ### An image with an empty root directory -/

def incompressible : Wrappers :=
  ⟨fun _ _ => none, fun _ _ => none, fun _ _ => none, fun _ => none, fun _ _ => none, fun _ => none⟩

def rootConfig (k : LibraryCompressor) : BuilderConfig := ⟨.never, 4096, some (k.vmt incompressible).opened⟩

def rootCalls : List Call := [.directory ⟨0, 0, 493, 0, 0, 0, none⟩, .setRoot 0]

def rootImage (k : LibraryCompressor) : Assembly :=
  {rootOnly with
    options := ⟨true, true, true, .never, false, 1, true, 4096, 12⟩
    bulkdata := Image.emptyDone
    compressor := (k.vmt incompressible).opened
    inodes := (Builder.runAll (rootConfig k) (.init (rootConfig k) .fresh) rootCalls).2.inodes}

theorem rootBuilt (k : LibraryCompressor) : ∃ events, Built k incompressible (rootImage k) events := by
  let p : ImageConfig := ⟨4096, (k.vmt incompressible).opened.compress, [], false⟩
  obtain ⟨events, s, run, _, _, _, _, _, done⟩ := Image.sealedAlone p
  have valid : Builder.Along (rootConfig k) (fun b l => l.1.Valid b.inodes) (.init (rootConfig k) .fresh) rootCalls := by
    cases k <;> decide
  obtain ⟨trace, calls, _⟩ := Builder.allRun .start valid
  exact ⟨events, rfl, ⟨rootConfig k, .fresh, trace, _, rfl, calls, rfl⟩, ⟨p, 96, s, rfl, run, done⟩⟩

theorem firstAttempts {o : FinalizeConfig} {image mid next : Assembly} {env env' after : Env} (depth : Nat)
    (serialized : image.operate o depth env .serialize = some (true, mid, env'))
    (written : mid.operate o depth env' .inodeTable = some (true, next, after)) :
    Run (Attempt o) (operations image.options, image, env)
      [⟨(operations image.options, image, env), (.serialize, true), ((operations image.options).drop 1, mid, env')⟩,
        ⟨((operations image.options).drop 1, mid, env'), (.inodeTable, true),
          ((operations image.options).drop 2, next, after)⟩]
      ((operations image.options).drop 2, next, after) :=
  (Run.start.move ⟨_, rfl, ⟨depth, serialized⟩, rfl⟩).move ⟨_, rfl, ⟨depth, written⟩, rfl⟩

theorem rootStages (k : LibraryCompressor) : ∃ trace s,
    Run (Attempt ⟨.little, 0, true⟩) (operations (rootImage k).options, rootImage k, .fresh) trace s ∧
      trace.flatMap (stageCalls ⟨.little, 0, true⟩) = [.compressMeta] := by
  cases k <;> exact ⟨_, _, firstAttempts 1 rfl rfl, rfl⟩

theorem zlibCalls : ∃ events image trace s,
    Built .zlib incompressible image events ∧
      Run (Attempt ⟨.little, 0, true⟩) (operations image.options, image, .fresh) trace s ∧
      .compressMeta ∈ allCalls ⟨.little, 0, true⟩ events trace ∧
      ∀ op ∈ allCalls ⟨.little, 0, true⟩ events trace, (LibraryCompressor.zlib.vmt incompressible).Has op := by
  obtain ⟨events, built⟩ := rootBuilt .zlib
  obtain ⟨trace, s, run, calls⟩ := rootStages .zlib
  refine ⟨events, _, trace, s, built, run, ?_, (callsFound built run).1 fun null => by cases null⟩
  simp [allCalls, calls]

theorem nullMetaMissing : ∃ events image trace s,
    Built .null incompressible image events ∧
      Run (Attempt ⟨.little, 0, true⟩) (operations image.options, image, .fresh) trace s ∧
      ∃ op ∈ allCalls ⟨.little, 0, true⟩ events trace, ¬ (LibraryCompressor.null.vmt incompressible).Has op := by
  obtain ⟨events, built⟩ := rootBuilt .null
  obtain ⟨trace, s, run, calls⟩ := rootStages .null
  refine ⟨events, _, trace, s, built, run, .compressMeta, ?_, by simp [InstanceVmt.Has, LibraryCompressor.vmt]⟩
  simp [allCalls, calls]

end Assembly
end Libsqfs
