import Libsqfs.ExportTable
import Libsqfs.FileItems
import Libsqfs.ImageRun
import Libsqfs.TableLayout

/-! What lies where in an image that libsqfs_image_finalize completed: each byte of
it is filled by one write, and the superblock names where the tables start. -/
namespace Libsqfs
open Transition Metatable

/- What is written one after the other leaves no hole. -/
theorem Plan.sequentialTiling (r : Rule) (size : Nat) (items : List Item) :
    size ≤ (sequential r size items).size ∧
      Medium.Tiling (sequential r size items).written size (sequential r size items).size := by
  refine List.foldlRecOn (motive := fun p : Plan => size ≤ p.size ∧ Medium.Tiling p.written size p.size) items _
    ⟨le_refl _, .empty size⟩ ?_
  intro p ⟨grown, tiling⟩ i _
  obtain ⟨size', written⟩ := stepWritten r p i
  rw [size', written]
  cases p.output r i with
  | none => exact ⟨grown, by simpa using tiling⟩
  | some z => exact ⟨Nat.le_add_right_of_le grown, tiling.snoc grown z.1⟩

def Call.attr : Call → Option InodeAttr
  | .directory attr | .symlink attr _ | .device attr .. | .fifo attr | .regular attr _ => some attr
  | .addEntry .. | .setRoot _ => none

theorem Inodes.claimedAttr (t : Inodes) (p i x : Nat) : ((t.claimed p i).inode x).attr = (t.inode x).attr := by
  rw [claimedInode]
  split
  · by_cases own : x = i
    · rw [if_pos own]
      rfl
    · rw [if_neg own]
  · rfl

namespace Builder
variable {o : BuilderConfig} {env : Env} {trace : List (Event Builder (Call × Bool))} {b : Builder}

theorem attrCreated (o : BuilderConfig) (b : Builder) {c : Call} {attr : InodeAttr} (given : c.attr = some attr) :
    (b.run o c).2.inodes = b.inodes ∨ ∃ body, (b.run o c).2.inodes = (b.inodes.inodeInit attr body).2 := by
  cases c with
  | directory attr' =>
    cases given
    simp only [run, Inodes.directoryInodeCreate]
    split
    · exact .inl rfl
    · exact .inr ⟨_, rfl⟩
  | symlink attr' name =>
    cases given
    simp only [run, Inodes.symlinkInodeCreate]
    split
    · exact .inl rfl
    · split
      · exact .inl rfl
      · exact .inr ⟨_, rfl⟩
  | device attr' type major minor =>
    cases given
    simp only [run, Inodes.deviceInodeCreate]
    split
    · exact .inl rfl
    · split
      · exact .inl rfl
      · exact .inr ⟨_, rfl⟩
  | fifo attr' =>
    cases given
    simp only [run, Inodes.fifoInodeCreate]
    split
    · exact .inl rfl
    · exact .inr ⟨_, rfl⟩
  | regular attr' data =>
    cases given
    rcases @regularCases o.fragments o.blockSize b.items.length b.inodes attr data b.env with ⟨same, _⟩ | ⟨reg, made⟩
    · exact .inl same
    · exact .inr ⟨_, made⟩
  | addEntry p name i => cases given
  | setRoot d => cases given

theorem attrGiven (run : Run (Builder.Step o) (.init o env) trace b) {i : Nat} (inside : i < b.inodes.count) :
    ∃ c ok, (c, ok) ∈ labels trace ∧ c.attr = some (b.inodes.inode i).attr := by
  have free : Obeys (fun _ _ => True) trace := fun _ _ => trivial
  refine (Run.history (I := fun trace b => b.inodes.Linkage ∧ ∀ i, i < b.inodes.count →
    ∃ c ok, (c, ok) ∈ labels trace ∧ Call.attr c = some (b.inodes.inode i).attr) ?_ ?_ run free).2 i inside
  · exact ⟨Inodes.linkageInit _, fun i none => absurd none (Nat.not_lt_zero i)⟩
  · intro trace b l next ⟨linkage, ih⟩ _ taken
    obtain ⟨c, ok⟩ := l
    obtain ⟨valid, effect⟩ := stepEffect taken
    refine ⟨linkage.effect valid effect, fun i inside => ?_⟩
    rw [labelsSnoc]
    have earlier (count : next.inodes.count = b.inodes.count)
        (same : (next.inodes.inode i).attr = (b.inodes.inode i).attr) : ∃ c' ok',
        (c', ok') ∈ labels trace ++ [(c, ok)] ∧ Call.attr c' = some (next.inodes.inode i).attr := by
      obtain ⟨c', ok', member, own⟩ := ih i (count ▸ inside)
      exact ⟨c', ok', List.mem_append_left _ member, by rw [same]; exact own⟩
    cases given : c.attr with
    | some attr =>
      have result := taken.2
      rcases attrCreated o b given with same | ⟨body, made⟩
      · rw [result] at same
        exact earlier (by rw [same]) (by rw [same])
      · rw [result] at made
        by_cases new : i = b.inodes.count
        · refine ⟨c, ok, by simp, ?_⟩
          rw [given, made, Inodes.initInode, if_pos new]
        · obtain ⟨c', ok', member, own⟩ := ih i (by
            rw [made] at inside
            exact Nat.lt_of_le_of_ne (Nat.le_of_lt_succ inside) new)
          refine ⟨c', ok', List.mem_append_left _ member, ?_⟩
          rw [own, made, Inodes.initInode, if_neg new]
    | none =>
      dsimp only at effect valid
      generalize next.inodes = u at effect earlier
      cases effect with
      | refused => exact earlier rfl rfl
      | created fresh creates =>
        cases c with
        | addEntry p name j => exact absurd rfl (creates p name j 0).1
        | setRoot d => exact absurd rfl (creates 0 [] 0 d).2
        | _ => cases given
      | failed => exact earlier (Inodes.claimedRest ..).2.2.1 (Inodes.claimedAttr ..)
      | added =>
        have inserted := Inodes.addedEntries linkage valid
        refine earlier (inserted.count.trans (Inodes.claimedRest ..).2.2.1) ?_
        rw [inserted.inode]
        split <;> exact Inodes.claimedAttr ..
      | rooted => exact earlier rfl (by rw [Inodes.rootedInode])

end Builder

theorem Medium.Tiling.backwards {first second third : List Medium.Write} {low mid mid' high : Nat}
    (one : Tiling first low mid) (two : Tiling second mid mid') (three : Tiling third mid' high) (below : low ≤ mid)
    (between : mid ≤ mid') (above : mid' ≤ high) : Tiling (third ++ second ++ first) low high := by
  have whole := (one.append below between two).append (below.trans between) above three
  refine whole.perm ?_
  rw [List.append_assoc third]
  exact List.perm_append_comm.trans (List.Perm.append_left third List.perm_append_comm)

theorem AttrCall.runAllGrows (calls : List AttrCall) (tab : IdTable) (env : Env) :
    tab.ids <+: (runAll calls tab env).2.1.ids := by
  induction calls generalizing tab env with
  | nil => exact List.prefix_refl _
  | cons call rest ih =>
    have first : tab.ids <+: (call.run tab env).2.1.ids := by
      cases granted : env.mallocs 0 with
      | false =>
        rw [runRefused call tab granted]
      | true =>
        obtain ⟨_, same, _⟩ := runGranted call tab granted
        rw [same]
        exact (IdTable.mapGrows ..).trans (IdTable.mapGrows ..)
    exact first.trans (ih _ _)

theorem AttrCall.runAllSome {calls : List AttrCall} {env : Env} (granting : env.Granting) (some : calls ≠ []) :
    (runAll calls .init env).2.1.ids ≠ [] := by
  cases calls with
  | nil => exact absurd rfl some
  | cons call rest =>
    obtain ⟨_, same, _⟩ := runGranted call .init (granting 0)
    have owner : (IdTable.init.map call.uid env.malloc.2).2.1.ids = [call.uid] := by
      have granted : env.malloc.2.malloc.1 = true := granting 1
      simp [IdTable.map, IdTable.init, granted]
    have grown := (IdTable.mapGrows (IdTable.init.map call.uid env.malloc.2).2.1 call.gid
      (IdTable.init.map call.uid env.malloc.2).2.2).trans
        (runAllGrows rest _ (IdTable.map (IdTable.init.map call.uid env.malloc.2).2.1 call.gid
          (IdTable.init.map call.uid env.malloc.2).2.2).2.2)
    rw [owner] at grown
    simp only [runAll, same]
    intro none
    rw [none] at grown
    simp at grown

theorem IdTable.encodeSome {host : Bytes.Host} {ids : List UInt32} (some : ids ≠ []) : encode host ids ≠ [] := by
  cases ids with
  | nil => exact absurd rfl some
  | cons id rest =>
    intro none
    have length := congrArg List.length none
    simp [encode] at length

namespace Env

/- What was claimed between the two is filled, in whatever order. -/
structure Tiles (env after : Env) : Prop where
  size : env.size ≤ after.size
  written : ∃ more, after.written = env.written ++ more ∧ Medium.Tiling more env.size after.size

section
variable {buffers : List Bytes} {env mid after : Env}

theorem Quiet.tiles (quiet : Quiet env after) : Tiles env after where
  size := Nat.le_of_eq quiet.size.symm
  written := ⟨[], by rw [quiet.written, List.append_nil], by rw [quiet.size]; exact .empty _⟩

theorem Fills.tiles (fills : Fills buffers env after) : Tiles env after where
  size := by rw [fills.size]; exact Nat.le_add_right ..
  written := ⟨_, fills.written, by rw [fills.size]; exact Medium.consecutiveTiling ..⟩

theorem Tiles.trans (first : Tiles env mid) (second : Tiles mid after) : Tiles env after := by
  obtain ⟨grown, more, log, tiling⟩ := first
  obtain ⟨grown', more', log', tiling'⟩ := second
  exact ⟨grown.trans grown', more ++ more', by rw [log', log, List.append_assoc], tiling.append grown grown' tiling'⟩

theorem Tiles.kept (tiles : Tiles env after) : env.written <+: after.written := by
  obtain ⟨_, more, log, _⟩ := tiles
  exact ⟨more, log.symm⟩

theorem Fills.inside (fills : Fills buffers env after) : Medium.consecutive env.size buffers <:+: after.written :=
  ⟨env.written, [], by rw [fills.written, List.append_nil]⟩

end
end Env

namespace Metatable

def Of (compressor : Option Compressor) (data : Bytes) (tab : Metatable) : Prop :=
  ∃ env, ((init compressor).append data env).1 = true ∧ tab = ((init compressor).append data env).2.1.flush

structure IndexedAt (host : Bytes.Host) (log : List Medium.Write) (tab : Metatable) (index : Nat) : Prop where
  written : ∃ base, Medium.consecutive base (blockBuffers host tab.blocks) ++ [(index, indexTable host base tab.blocks)] <:+:
    log

end Metatable

structure Appended (host : Bytes.Host) (compressor : Option Compressor) (data : Bytes) (env after : Env)
    (index : Nat) : Prop where
  tiles : Env.Tiles env after
  table : ∃ tab : Metatable, tab.Of compressor data ∧ tab.IndexedAt host after.written index
  above : env.size ≤ index
  below : index ≤ after.size
  apart : data ≠ [] → env.size < index ∧ index < after.size
  bound : after.size < 2 ^ 63

theorem appendedPlaced {host : Bytes.Host} {compressor : Option Compressor} {data : Bytes} {table : Metatable}
    {env after : Env} (small : ((init compressor).append data env).2.1.flush.encodedSize < 2 ^ 32)
    (written : (if ((init compressor).append data env).1 then
        ((init compressor).append data env).2.1.writeWithIndex host ((init compressor).append data env).2.2
      else (false, ((init compressor).append data env).2.1, ((init compressor).append data env).2.2)) =
        (true, table, after)) :
    ∃ index, table.offset = some index ∧ Appended host compressor data env after index := by
  obtain ⟨fills, offset, ok, bound⟩ := appendedFills (initSized compressor) small written
  have some := fun some => @appendedBlocks env compressor data some ok
  have sized := flushSized (appendSized (initSized compressor) data env)
  have whole : ((init compressor).append data env).2.1.flush.Of compressor data := ⟨env, ok, rfl⟩
  generalize ((init compressor).append data env).2.1.flush = tab at *
  have size := fills.size
  rw [indexedBuffersLength host env.size sized.blocks] at size
  have inside := fills.inside
  rw [indexedBuffers, Medium.consecutiveAppend, blockBuffersLength host sized.blocks] at inside
  refine ⟨_, offset, fills.tiles, ⟨tab, whole, env.size, inside⟩, by omega, by omega, fun here => ?_, bound⟩
  have blocks := some here
  have := encodedSizePositive blocks
  have := List.length_pos_of_ne_nil blocks
  omega

namespace Assembly
open Env

/- What libsqfs_image_create claims. -/
def headSize (image : Assembly) : Nat := (reserveHead image.compressorOptionData .fresh).2.size

def threadConfig (image : Assembly) : ImageConfig where
  blockSize := image.options.blockSize
  compress := image.compressor.compress
  later := operations image.options
  padding := image.options.padding

def builderConfig (image : Assembly) : BuilderConfig where
  fragments := image.options.fragments
  blockSize := image.options.blockSize
  inodeCompressor := if image.options.inodeCompression then some image.compressor else none

/- The tables that an operation writes, with their last block closed. -/
def tables (o : FinalizeConfig) (image : Assembly) (env : Env) : Later → List Metatable
  | .inodeTable => [image.inodes.inodeTable.flush]
  | .dirTable => [image.inodes.dirTable.flush]
  | .fragmentTable =>
    if image.bulkdata.fragmentBlockCount = 0 then [] else
    [((init (some image.compressor)).append (fragmentEntries o.host image.bulkdata).flatten env).2.1.flush]
  | .exportTable => [((init none).append (exportEntries o.host image.inodes).flatten env).2.1.flush]
  | .idTable => [((init none).append (IdTable.encode o.host image.idtable.ids) env).2.1.flush]
  | .xattrTable =>
    if image.xattrTable.nids = 0 then [] else
    [image.xattrTable.xattrData.flush, image.xattrTable.xattrDescriptors.flush]
  | _ => []

def Small (o : FinalizeConfig) (image : Assembly) (env : Env) (op : Later) : Prop :=
  ∀ tab ∈ image.tables o env op, tab.encodedSize < 2 ^ 32

instance (o : FinalizeConfig) (image : Assembly) (env : Env) (op : Later) : Decidable (image.Small o env op) :=
  inferInstanceAs (Decidable (∀ tab ∈ image.tables o env op, tab.encodedSize < 2 ^ 32))

/- Where the calls and the threads have brought the image and its destination when
its tables are to be written. The handles of the calls that create inodes are those
that libsqfs_inodeattr_create returned, with the memory that it asked for. -/
structure Prepared (host : Bytes.Host) (image : Assembly) (env : Env)
    (trace : List (Event Session ((Call × Bool) ⊕ Label))) (s : Session) : Prop where
  run : ∃ start, Run (Session.Step image.threadConfig image.builderConfig)
    (.init image.builderConfig image.options.dataCompression image.options.fragmentCompression image.headSize start)
    trace s
  calm : ∀ l ∈ labels trace, Session.Calm l
  reached : s.image.api = .later (operations image.options) true
  bulkdata : image.bulkdata = s.image.bd
  tree : image.inodes = s.builder.inodes
  size : env.size = s.image.size
  written : env.written = s.image.written
  located : image.compressorOptionDataLoc = (reserveHead image.compressorOptionData .fresh).1
  owners : ∃ (calls : List AttrCall) (start : Env), start.Granting ∧
    image.idtable = (AttrCall.runAll calls .init start).2.1 ∧
    ∀ c ok attr, .inl (c, ok) ∈ labels trace → Call.attr c = some attr →
      some attr ∈ (AttrCall.runAll calls .init start).1
  xattrs : XattrTable.Made host image.xattrTable
  unexported : image.exportOffset = none

def Chained (o : FinalizeConfig) (last : Assembly) (after : Env) : List (Later × Bool) → Assembly → Env → Prop
  | [], image, env => image = last ∧ env = after
  | l :: rest, image, env => ∃ next mid, image.Performs o env l.1 (l.2, next, mid) ∧ image.Small o env l.1 ∧
    Chained o last after rest next mid

section
variable {o : FinalizeConfig} {image next last : Assembly} {env after : Env}

theorem runChained {s : List Later × Assembly × Env}
    {trace : List (Event (List Later × Assembly × Env) (Later × Bool))} {rest : List Later}
    (run : Run (Stage o) s trace (rest, last, after))
    (small : ∀ e ∈ trace, e.before.2.1.Small o e.before.2.2 e.label.1) :
    Chained o last after (labels trace) s.2.1 s.2.2 := by
  induction trace generalizing s with
  | nil =>
    cases run.idle
    exact ⟨rfl, rfl⟩
  | cons e trace ih =>
    obtain ⟨same, taken, later⟩ := run.front
    subst same
    obtain ⟨_, _, performs, _⟩ := taken
    exact ⟨_, _, performs, small e (by simp), ih later fun x member => small x (List.mem_cons_of_mem _ member)⟩

theorem inodesFilled (sized : image.inodes.inodeTable.Sized) (small : image.Small o env .inodeTable)
    (ran : image.Performs o env .inodeTable (true, next, after)) :
    Fills (blockBuffers o.host image.inodes.inodeTable.flush.blocks) env after ∧
      next = {image with inodes :=
        {image.inodes with inodeTable := {image.inodes.inodeTable.flush with offset := some env.size}}} := by
  obtain ⟨_, ran⟩ := ran.operates
  rcases written : image.inodes.inodeTable.write o.host env with ⟨good, table, mid⟩
  simp only [operate, written] at ran
  cases ran
  obtain ⟨fills, rfl⟩ := writeFills sized (small _ (List.mem_singleton_self _)) written
  exact ⟨fills, rfl⟩

theorem dirsFilled (sized : image.inodes.dirTable.Sized) (small : image.Small o env .dirTable)
    (ran : image.Performs o env .dirTable (true, next, after)) :
    Fills (blockBuffers o.host image.inodes.dirTable.flush.blocks) env after ∧
      next = {image with inodes :=
        {image.inodes with dirTable := {image.inodes.dirTable.flush with offset := some env.size}}} := by
  obtain ⟨_, ran⟩ := ran.operates
  rcases written : image.inodes.dirTable.write o.host env with ⟨good, table, mid⟩
  simp only [operate, written] at ran
  cases ran
  obtain ⟨fills, rfl⟩ := writeFills sized (small _ (List.mem_singleton_self _)) written
  exact ⟨fills, rfl⟩

theorem fragmentsFilled (small : image.Small o env .fragmentTable)
    (ran : image.Performs o env .fragmentTable (true, next, after)) : ∃ index,
      next = {image with fragTableLoc := some index} ∧ Tiles env after ∧ env.size ≤ index ∧ index ≤ after.size ∧
      (image.bulkdata.fragmentBlockCount ≠ 0 → Appended o.host (some image.compressor)
        (fragmentEntries o.host image.bulkdata).flatten env after index) := by
  obtain ⟨_, ran⟩ := ran.operates
  simp only [operate, writeFragmentTable] at ran
  split at ran
  · rename_i none
    cases ran
    exact ⟨env.size, rfl, Quiet.tiles ⟨rfl, rfl⟩, le_refl _, le_refl _, fun some => absurd none some⟩
  · rename_i some
    simp only [Option.some.injEq, Prod.mk.injEq] at ran
    obtain ⟨ok, rfl, rfl⟩ := ran
    obtain ⟨index, offset, appended⟩ := appendedPlaced (small _ (by rw [tables, if_neg some]; exact List.mem_singleton_self _))
      (Prod.ext ok rfl)
    exact ⟨index, by rw [← offset]; rfl, appended.tiles, appended.above, appended.below, fun _ => appended⟩

theorem exportsFilled (small : image.Small o env .exportTable)
    (ran : image.Performs o env .exportTable (true, next, after)) : ∃ index,
      next = {image with exportOffset := some index} ∧
      Appended o.host none (exportEntries o.host image.inodes).flatten env after index := by
  obtain ⟨_, ran⟩ := ran.operates
  simp only [operate, writeExportTable, Option.some.injEq, Prod.mk.injEq] at ran
  obtain ⟨ok, rfl, rfl⟩ := ran
  obtain ⟨index, offset, appended⟩ := appendedPlaced (small _ (List.mem_singleton_self _)) (Prod.ext ok rfl)
  exact ⟨index, by rw [offset], appended⟩

theorem idsFilled (small : image.Small o env .idTable)
    (ran : image.Performs o env .idTable (true, next, after)) : ∃ index,
      next = {image with idtable := {image.idtable with offset := some index}} ∧
      Appended o.host none (IdTable.encode o.host image.idtable.ids) env after index := by
  obtain ⟨_, ran⟩ := ran.operates
  simp only [operate, IdTable.write, Option.some.injEq, Prod.mk.injEq] at ran
  obtain ⟨ok, rfl, rfl⟩ := ran
  obtain ⟨index, offset, appended⟩ := appendedPlaced (small _ (List.mem_singleton_self _)) (Prod.ext ok rfl)
  exact ⟨index, by rw [offset], appended⟩

def HeaderAt (host : Bytes.Host) (log : List Medium.Write) (tab : XattrTable) (start : Nat) : Prop :=
  ∃ base rows, Medium.consecutive base (blockBuffers host tab.xattrData.blocks) ++
    Medium.consecutive rows (blockBuffers host tab.xattrDescriptors.blocks) ++ [(start, tab.header host)] ++
      [(start + 16, indexTable host rows tab.xattrDescriptors.blocks)] <:+: log

theorem xattrsFilled (small : image.Small o env .xattrTable)
    (ran : image.Performs o env .xattrTable (true, next, after)) (rows : XattrTable.Rows o.host image.xattrTable) : ∃ tab : XattrTable,
      next = {image with xattrTable := tab} ∧ tab.nids = image.xattrTable.nids ∧ Tiles env after ∧
      (tab.nids = 0 → tab.offset = none ∧ after.size = env.size) ∧
      (tab.nids ≠ 0 → ∃ start, tab.offset = some start ∧ env.size ≤ start ∧ start ≤ after.size ∧
        after.size < 2 ^ 63 ∧ HeaderAt o.host after.written tab start) := by
  obtain ⟨_, ran⟩ := ran.operates
  obtain ⟨⟨good, table, mid⟩, written, same⟩ := Option.map_eq_some_iff.mp ran
  cases same
  refine ⟨table, rfl, ?_⟩
  by_cases none : image.xattrTable.nids = 0
  · rw [XattrTable.write, if_pos none] at written
    cases written
    exact ⟨rfl, Quiet.tiles ⟨rfl, rfl⟩, fun _ => ⟨rfl, rfl⟩, fun some => absurd none some⟩
  · have within (tab : Metatable) (member : tab ∈ [image.xattrTable.xattrData.flush, image.xattrTable.xattrDescriptors.flush]) :
        tab.encodedSize < 2 ^ 32 := small tab (by rw [tables, if_neg none]; exact member)
    obtain ⟨stream, holds⟩ := rows.data
    have data := flushSized (holdsSized (holds raw))
    have descriptors := flushSized (holdsSized (rows.descriptors raw))
    obtain ⟨fills, rfl, bound⟩ := XattrTable.writeFills rows none (within _ (by simp)) (within _ (by simp)) written
    have size := fills.size
    have inside := fills.inside
    simp only [XattrTable.buffers, XattrTable.placed, Medium.consecutiveAppend, List.flatten_append, List.length_append,
      blockBuffersLength o.host data.blocks, blockBuffersLength o.host descriptors.blocks, List.flatten_cons,
      List.flatten_nil, List.append_nil, XattrTable.headerLength, ← Nat.add_assoc] at size inside
    exact ⟨rfl, fills.tiles, fun bad => absurd bad none, fun _ => ⟨_, rfl, by omega, by omega, bound, _, _, inside⟩⟩

theorem optionsFilled (ran : image.Performs o env .compressorOptions (true, next, after))
    (located : image.compressorOptionDataLoc = (reserveHead image.compressorOptionData .fresh).1) :
    next = image ∧ after.size = env.size ∧ 96 ≤ image.headSize ∧
      ∃ more, after.written = env.written ++ more ∧ Medium.Tiling more 96 image.headSize := by
  obtain ⟨_, ran⟩ := ran.operates
  simp only [operate, writeCompressorOptions] at ran
  unfold headSize
  cases given : image.compressorOptionData with
  | none =>
    rw [given] at ran
    cases ran
    exact ⟨rfl, rfl, le_refl 96, [], (List.append_nil _).symm, .empty 96⟩
  | some data =>
    rw [given] at ran located
    have first : image.compressorOptionDataLoc = 96 := located
    simp only [first] at ran
    split at ran
    · cases ran
    · rename_i mid sized
      obtain ⟨log, size, _⟩ := pwriteWritten sized
      simp only [Option.some.injEq, Prod.mk.injEq] at ran
      obtain ⟨ok, same, rest⟩ := ran
      obtain ⟨log', size', _⟩ := pwriteWritten (Prod.ext ok rest)
      have length : (Bytes.put o.host 2 (data.length ||| 2 ^ 15)).length = 2 := by simp
      refine ⟨same.symm, size'.trans size, Nat.le_add_right 96 _, _, by rw [log', log, List.append_assoc], ?_⟩
      have tiling := (Medium.Tiling.single 96 (Bytes.put o.host 2 (data.length ||| 2 ^ 15))).snoc (Nat.le_add_right 96 _) data
      rw [length] at tiling
      have last : (reserveHead (some data) .fresh).2.size = 96 + 2 + data.length := by
        simp only [reserveHead, Env.reserveSize, fresh]
        omega
      rw [last]
      exact tiling

theorem superblockFilled (ran : image.Performs o env .superblock (true, next, after)) : ∃ root,
    image.inodes.root = some root ∧ next = image ∧ after.size = env.size ∧
      after.written = env.written ++ [(0, superblock o.host image (image.inodes.inode root) env.size)] := by
  obtain ⟨_, ran⟩ := ran.operates
  obtain ⟨root, rooted, same⟩ := Option.map_eq_some_iff.mp ran
  simp only [writeSuperblock, Prod.mk.injEq] at same
  obtain ⟨ok, same, rest⟩ := same
  obtain ⟨log, size, _⟩ := pwriteWritten (Prod.ext ok rest)
  exact ⟨root, rooted, same.symm, size, log⟩

/-! ### What the superblock names -/

def superblockField (log : List Medium.Write) (place : Nat) : Nat := Bytes.readLE (Medium.read log place 8)

def lastFields (image : Assembly) (size : Nat) : List Nat :=
  [size, location image.idtable.offset, location image.xattrTable.offset, location image.inodes.inodeTable.offset,
    location image.inodes.dirTable.offset, location image.fragTableLoc, location image.exportOffset]

theorem superblockFields (host : Bytes.Host) (image : Assembly) (root : Inode) (size : Nat) : ∃ front : Bytes,
    front.length = 32 ∧ superblock host image root size =
      front ++ ((encodedInode root :: lastFields image size).map (Bytes.put host 8)).flatten := by
  refine ⟨Bytes.put host 4 0x73717368 ++ Bytes.put host 4 image.inodes.count ++ Bytes.put host 4 image.creationTime ++
    Bytes.put host 4 image.options.blockSize ++ Bytes.put host 4 image.bulkdata.fragmentBlockCount ++
    Bytes.put host 2 image.options.compressorId ++ Bytes.put host 2 image.options.blockSizeLog ++
    Bytes.put host 2 image.flags ++ Bytes.put host 2 image.idtable.ids.length ++ Bytes.put host 2 4 ++
    Bytes.put host 2 0, by simp, ?_⟩
  simp only [superblock, lastFields, List.map_cons, List.map_nil, List.flatten_cons, List.flatten_nil, List.append_nil,
    List.append_assoc]

theorem superblockTiling (host : Bytes.Host) (image : Assembly) (root : Inode) (size : Nat) :
    Medium.Tiling [(0, superblock host image root size)] 0 96 := by
  have tiling := Medium.Tiling.single 0 (superblock host image root size)
  rwa [superblockLength] at tiling

theorem superblockRead {log : List Medium.Write} {root : Inode} {size i v : Nat}
    (found : (encodedInode root :: lastFields image size)[i]? = some v) (bound : v < 2 ^ 64) :
    superblockField (log ++ [(0, superblock o.host image root size)]) (32 + i * 8) = v := by
  obtain ⟨front, length, shape⟩ := superblockFields o.host image root size
  have inside := (List.getElem?_eq_some_iff.mp found).1
  have whole := Medium.readWritten log 0 (superblock o.host image root size)
  rw [superblockLength] at whole
  have part := Medium.readSlice (log ++ [(0, superblock o.host image root size)]) 0 (k := 32 + i * 8) (n := 8) (m := 96)
    (by simp only [lastFields, List.length_cons, List.length_nil] at inside; omega)
  have record : Bytes.slice ((encodedInode root :: lastFields image size).map (Bytes.put o.host 8)).flatten (i * 8) 8 =
      Bytes.put o.host 8 v := Bytes.flattenSlice (by simp) (by rw [List.getElem?_map, found]; rfl)
  rw [Bytes.slice] at record
  rw [superblockField, ← Nat.zero_add (32 + i * 8), part, whole, shape, Bytes.slice, ← length, ← List.drop_drop,
    List.drop_left, record, Bytes.putLe, Bytes.readLeBounded bound]

structure Starts (host : Bytes.Host) (image : Assembly) (log : List Medium.Write) : Prop where
  inodes : Medium.consecutive (superblockField log 64) (blockBuffers host image.inodes.inodeTable.blocks) <:+: log
  directories : Medium.consecutive (superblockField log 72) (blockBuffers host image.inodes.dirTable.blocks) <:+: log
  fragments : image.bulkdata.fragmentBlockCount ≠ 0 → ∃ tab : Metatable,
    tab.Of (some image.compressor) (fragmentEntries host image.bulkdata).flatten ∧
      tab.IndexedAt host log (superblockField log 80)
  exports : image.options.exportable = true → ∃ tab : Metatable,
    tab.Of none (exportEntries host image.inodes).flatten ∧ tab.IndexedAt host log (superblockField log 88)
  unexported : image.options.exportable = false → superblockField log 88 = 2 ^ 64 - 1
  ids : ∃ tab : Metatable, tab.Of none (IdTable.encode host image.idtable.ids) ∧
    tab.IndexedAt host log (superblockField log 48)
  xattrs : image.xattrTable.nids ≠ 0 → HeaderAt host log image.xattrTable (superblockField log 56)
  unattributed : image.xattrTable.nids = 0 → superblockField log 56 = 2 ^ 64 - 1
  order : superblockField log 64 ≤ superblockField log 72 ∧ superblockField log 72 ≤ superblockField log 80 ∧
    superblockField log 80 < superblockField log 48 ∧
    (image.options.exportable = true → superblockField log 80 < superblockField log 88 ∧
      superblockField log 88 < superblockField log 48) ∧
    (image.xattrTable.nids ≠ 0 → superblockField log 48 < superblockField log 56)

/- The field at place 40 is the bytes used. -/
structure Tiled (host : Bytes.Host) (image : Assembly) (log : List Medium.Write) : Prop where
  tiling : Medium.Tiling log 0 (superblockField log 40)
  starts : Starts host image log

theorem exportsChained {given : Bool} {rest : List Later} (chain : Chained o last after
      (((if given then [Later.exportTable] else []) ++ rest).map (·, true)) image env) :
    ∃ mid offset, Chained o last after (rest.map (·, true)) {image with exportOffset := offset} mid ∧ Tiles env mid ∧
      (given = true → ∃ index, offset = some index ∧
        Appended o.host none (exportEntries o.host image.inodes).flatten env mid index) ∧
      (given = false → offset = image.exportOffset) := by
  cases given with
  | false => exact ⟨env, image.exportOffset, chain, Quiet.tiles (.refl env), by simp, by simp⟩
  | true =>
    obtain ⟨next, mid, ran, small, chain⟩ := chain
    obtain ⟨index, rfl, appended⟩ := exportsFilled small ran
    exact ⟨mid, some index, chain, appended.tiles, fun _ => ⟨index, rfl, appended⟩, by simp⟩

theorem chainTiled {ok : Bool} (inodes : image.inodes.inodeTable.Sized) (dirs : image.inodes.dirTable.Sized)
    (rows : XattrTable.Rows o.host image.xattrTable)
    (located : image.compressorOptionDataLoc = (reserveHead image.compressorOptionData .fresh).1)
    (owners : 0 < image.inodes.count → image.idtable.ids ≠ [])
    (created : ∀ r, image.inodes.root = some r → r < image.inodes.count) (unexported : image.exportOffset = none)
    (claimed : image.headSize ≤ env.size) (before : Medium.Tiling env.written image.headSize env.size)
    (chain : Chained o last after ((.serialize, ok) :: (writes image.options).map (·, true)) image env) :
    Tiled o.host last after.written := by
  have shape : writes image.options = .inodeTable :: .dirTable :: .fragmentTable ::
    ((if image.options.exportable then [Later.exportTable] else []) ++
      [.idTable, .xattrTable, .compressorOptions, .superblock]) := rfl
  rw [shape] at chain
  obtain ⟨i₁, e₁, serialized, _, i₂, e₂, inodesRan, small₂, i₃, e₃, dirsRan, small₃, i₄, e₄, fragmentsRan,
    small₄, chain⟩ := chain
  obtain ⟨depth, serialized⟩ := serialized.operates
  simp only [operate, Option.bind_eq_some_iff, Option.map_eq_some_iff] at serialized
  obtain ⟨root, rooted, ⟨good, u, mid⟩, returned, same⟩ := serialized
  cases same
  have created := Nat.zero_lt_of_lt (created root rooted)
  have appending : Inodes.Appending Sized := fun tab data env sized => appendSized sized data env
  have retains := Inodes.serializeRetains appending returned
  have quiet := (Inodes.serializeQuiet returned).tiles
  dsimp only at *
  obtain ⟨fills₂, rfl⟩ := inodesFilled (retains.inodeTable inodes) small₂ inodesRan
  dsimp only at *
  obtain ⟨fills₃, rfl⟩ := dirsFilled (retains.dirTable dirs) small₃ dirsRan
  dsimp only at *
  obtain ⟨f, rfl, tiles₄, fAbove, fBelow, fragments⟩ := fragmentsFilled small₄ fragmentsRan
  dsimp only at *
  obtain ⟨e₅, x, chain, tiles₅, exported, plain⟩ := exportsChained chain
  dsimp only at *
  obtain ⟨i₆, e₆, idsRan, small₆, i₇, e₇, xattrsRan, small₇, i₈, e₈, optionsRan, _, i₉, e₉, superblockRan, _, same, last'⟩ :=
    chain
  obtain ⟨n, rfl, ids⟩ := idsFilled small₆ idsRan
  dsimp only at *
  obtain ⟨tab, rfl, nids, tiles₇, without, withSets⟩ := xattrsFilled small₇ xattrsRan rows
  dsimp only at *
  obtain ⟨rfl, size₈, room, more, log₈, head⟩ := optionsFilled optionsRan located
  obtain ⟨root', _, rfl, size₉, log₉⟩ := superblockFilled superblockRan
  subst same last'
  -- what lies between two of the operations stays
  have from₆ := tiles₇
  have from₅ := ids.tiles.trans from₆
  have from₄ := tiles₅.trans from₅
  have from₃ := tiles₄.trans from₄
  have from₂ := fills₃.tiles.trans from₃
  have whole := quiet.trans (fills₂.tiles.trans from₂)
  obtain ⟨grown, data, log₇, between⟩ := whole
  have part {l : List Medium.Write} {e : Env} (inside : l <:+: e.written) (tiles : Tiles e e₇) : l <:+: e₉.written := by
    rw [log₉, log₈, List.append_assoc]
    exact inside.trans (tiles.kept.isInfix.trans (List.prefix_append _ _).isInfix)
  have bound : e₇.size < 2 ^ 63 := by
    by_cases none : tab.nids = 0
    · rw [(without none).2]
      exact ids.bound
    · obtain ⟨_, _, _, _, bound, _⟩ := withSets none
      exact bound
  have size₂ := fills₂.tiles.size
  have size₃ := fills₃.tiles.size
  have size₅ := tiles₅.size
  have size₇ := tiles₇.size
  obtain ⟨above, below⟩ := ids.apart (IdTable.encodeSome (owners created))
  have small (v : Nat) (below : v ≤ e₇.size) : v < 2 ^ 64 := by omega
  have nonempty : ∀ t : Inodes, t.count = u.count → (exportEntries o.host t).flatten ≠ [] := by
    intro t same none
    have framed := (Inodes.serializeRelates (R := fun _ _ => True) (fun _ => trivial) (fun _ _ => trivial)
      (fun _ _ _ => trivial) (fun _ _ _ _ _ => trivial) (fun _ _ _ _ => trivial) returned).1
    obtain ⟨sized, count⟩ := exportEntriesLength o.host t
    have length := Bytes.flattenLength sized
    rw [none, count, same, framed.count, List.length_nil] at length
    omega
  have usedField : superblockField e₉.written 40 = e₇.size := by
    rw [log₉, size₈]
    exact superblockRead (i := 1) rfl (small _ (le_refl _))
  have idsField : superblockField e₉.written 48 = n := by
    rw [log₉]
    exact superblockRead (i := 2) rfl (small _ (by omega))
  have inodesField : superblockField e₉.written 64 = mid.size := by
    rw [log₉]
    exact superblockRead (i := 4) rfl (small _ (by omega))
  have dirsField : superblockField e₉.written 72 = e₂.size := by
    rw [log₉]
    exact superblockRead (i := 5) rfl (small _ (by omega))
  have fragmentsField : superblockField e₉.written 80 = f := by
    rw [log₉]
    exact superblockRead (i := 6) rfl (small _ (by omega))
  have exportField (v : Nat) (same : location x = v) (fits : v < 2 ^ 64) : superblockField e₉.written 88 = v := by
    rw [log₉]
    exact superblockRead (i := 7) (congrArg some same) fits
  have xattrField (v : Nat) (same : location tab.offset = v) (fits : v < 2 ^ 64) : superblockField e₉.written 56 = v := by
    rw [log₉]
    exact superblockRead (i := 3) (congrArg some same) fits
  have tiling : Medium.Tiling e₉.written 0 e₇.size := by
    rw [log₉, log₈, log₇]
    exact (superblockTiling ..).backwards head (before.append claimed grown between) (Nat.zero_le _) room (claimed.trans grown)
  constructor
  · rw [usedField]
    exact tiling
  · constructor
    · rw [inodesField]
      exact part fills₂.inside from₂
    · rw [dirsField]
      exact part fills₃.inside from₃
    · intro some
      rw [fragmentsField]
      obtain ⟨made, whole, base, inside⟩ := (fragments some).table
      exact ⟨made, whole, base, part inside from₄⟩
    · intro exportable
      obtain ⟨index, same, appended⟩ := exported exportable
      rw [exportField index (by rw [same]; rfl) (small _ (by have := appended.below; omega))]
      obtain ⟨made, whole, base, inside⟩ := appended.table
      exact ⟨made, whole, base, part inside from₅⟩
    · intro none
      exact exportField _ (by rw [plain none, unexported]; rfl) (by decide)
    · rw [idsField]
      obtain ⟨made, whole, base, inside⟩ := ids.table
      exact ⟨made, whole, base, part inside from₆⟩
    · intro some
      obtain ⟨start, same, _, inner, _, base, rows, inside⟩ := withSets some
      rw [xattrField start (by rw [same]; rfl) (small _ inner)]
      exact ⟨base, rows, part inside (Quiet.tiles (.refl _))⟩
    · intro none
      exact xattrField _ (by rw [(without none).1]; rfl) (by decide)
    · rw [inodesField, dirsField, fragmentsField, idsField]
      refine ⟨size₂, by omega, by omega, fun exportable => ?_, fun some => ?_⟩
      · obtain ⟨index, same, appended⟩ := exported exportable
        obtain ⟨above', below'⟩ := appended.apart (nonempty _ rfl)
        rw [exportField index (by rw [same]; rfl) (small _ (by omega))]
        omega
      · obtain ⟨start, same, above', inner, _⟩ := withSets some
        rw [xattrField start (by rw [same]; rfl) (small _ inner)]
        omega

theorem Prepared.ids {trace : List (Event Session ((Call × Bool) ⊕ Label))} {s : Session} {host : Bytes.Host}
    (prepared : Prepared host image env trace s) {calls : List (Event Builder (Call × Bool))} {b : Builder}
    {start : Env} (built : Run (Builder.Step image.builderConfig) (.init image.builderConfig start) calls b)
    (same : labels calls = (labels trace).filterMap Session.callLabel) (created : 0 < b.inodes.count) :
    image.idtable.ids ≠ [] := by
  obtain ⟨handles, granted, granting, table, each⟩ := prepared.owners
  obtain ⟨c, ok, member, own⟩ := Builder.attrGiven built created
  rw [same, List.mem_filterMap] at member
  obtain ⟨l, inside, label⟩ := member
  have returned : some (b.inodes.inode 0).attr ∈ (AttrCall.runAll handles .init granted).1 := by
    refine each c ok _ ?_ own
    rcases l with ⟨c', ok'⟩ | l
    · have same : (c', ok') = (c, ok) := by
        cases c' <;> cases ok' <;> simp_all [Session.callLabel]
      exact same ▸ inside
    · cases label
  rw [table]
  refine AttrCall.runAllSome granting fun none => ?_
  rw [none] at returned
  cases returned

/- Everything that was written in the making of an image. -/
theorem imageTiled {trace : List (Event Session ((Call × Bool) ⊕ Label))} {s : Session}
    {stages : List (Event (List Later × Assembly × Env) (Later × Bool))} {ok : Bool}
    (prepared : Prepared o.host image env trace s)
    (run : Run (Stage o) (operations image.options, image, env) stages ([], last, after))
    (all : labels stages = (.serialize, ok) :: (writes image.options).map (·, true))
    (small : ∀ e ∈ stages, e.before.2.1.Small o e.before.2.2 e.label.1) : Tiled o.host last after.written := by
  obtain ⟨start, sessionRun⟩ := prepared.run
  have later : image.threadConfig.later ≠ [] := by simp [threadConfig, operations]
  obtain ⟨events, calls, b, apart⟩ := Session.apartRun later sessionRun prepared.calm
  obtain ⟨buffered, agrees, _⟩ := apart.agrees
  obtain ⟨_, realizes⟩ := apart.begun.realizes apart.image agrees prepared.reached
  obtain ⟨claimed, tiling⟩ := Plan.sequentialTiling (image.threadConfig.rule buffered image.options.dataCompression
    image.options.fragmentCompression) image.headSize (Image.submitted (labels events))
  have tree := prepared.tree.trans apart.tree
  obtain ⟨inodes, dirs⟩ := builtTables apart.builder
  have chain := runChained run small
  rw [all] at chain
  refine chainTiled ?_ ?_ (XattrTable.madeRows prepared.xattrs) prepared.located ?_ ?_ prepared.unexported ?_ ?_ chain
  · rw [tree, inodes]
    exact initSized _
  · rw [tree, dirs]
    exact initSized _
  · rw [tree]
    exact prepared.ids apart.builder apart.callLabels
  · intro r rooted
    rw [tree] at rooted ⊢
    exact ((Builder.runSettled apart.builder).root r rooted).1
  · rw [prepared.size, realizes.size]
    exact claimed
  · rw [prepared.size, prepared.written, realizes.size, realizes.written]
    exact tiling

end

def performAll (o : FinalizeConfig) (depth : Nat) : List Later → Assembly → Env → Option (Assembly × Env)
  | [], image, env => some (image, env)
  | op :: rest, image, env =>
    if image.Small o env op then
      (image.perform o depth env op).bind fun result =>
        if result.1 then performAll o depth rest result.2.1 result.2.2 else none
    else none

theorem performAllRun {ops : List Later} (ran : performAll o depth ops image env = some (last, after)) :
    ∃ stages, Run (Stage o) (ops, image, env) stages ([], last, after) ∧ labels stages = ops.map (·, true) ∧
      ∀ e ∈ stages, e.before.2.1.Small o e.before.2.2 e.label.1 := by
  induction ops generalizing image env with
  | nil =>
    cases ran
    exact ⟨[], .start, rfl, fun _ absent => nomatch absent⟩
  | cons op rest ih =>
    simp only [performAll, Option.ite_none_right_eq_some, Option.bind_eq_some_iff] at ran
    obtain ⟨small, ⟨good, next, mid⟩, performed, ok, later⟩ := ran
    dsimp only at ok
    subst ok
    obtain ⟨stages, run, same, each⟩ := ih later
    have taken : Stage o (op :: rest, image, env) (op, true) (rest, next, mid) := ⟨rest, rfl, ⟨depth, performed⟩, rfl⟩
    refine ⟨_, (Run.start.move taken).append run, by simpa [labels] using same,
      fun e member => ?_⟩
    rcases List.mem_append.mp member with first | others
    · rw [List.mem_singleton.mp first]
      exact small
    · exact each e others

/-! ### Two files whose tails do not share a block, in a root directory with owners and attributes -/

def filedRoot : InodeAttr := ⟨1000, 100, 493, -1, 0, 1, some 0⟩

def filedAttr : InodeAttr := ⟨1000, 100, 420, 0, 0, 1, none⟩

def filedHandles : List AttrCall := [⟨1000, 100, 493, -1, some (some 0)⟩, ⟨1000, 100, 420, 0, none⟩]

def filedData : Bytes := [1, 2, 3, 4, 5, 6, 7]

def filedMore : Bytes := [8, 9]

def filedChunk : Nat → Chunk
  | 0 => ⟨.fullBlock, .finished, ⟨filedData, 4, 0⟩, none, ⟨some 106, 4, none, false⟩, none, none, none, none, false⟩
  | 1 => ⟨.fragmentPiece, .finished, ⟨filedData, 3, 4⟩, none, .init, none, some 2, some 0, some 0, false⟩
  | 2 => ⟨.fragmentPiece, .finished, ⟨filedMore, 2, 0⟩, none, .init, some 1, some 3, some 0, some 1, true⟩
  | 3 => ⟨.closingPiece, .finished, ⟨[], 0, 0⟩, none, .init, some 2, none, none, none, true⟩
  | _ => .create .fullBlock ⟨[], 0, 0⟩

def filedBlock : Nat → FragmentBlock
  | 0 => ⟨3, [1], ⟨some 110, 3, none, false⟩⟩
  | 1 => ⟨2, [2], ⟨some 113, 2, none, false⟩⟩
  | _ => ⟨0, [], .init⟩

def filedBulkdata : Bulkdata where
  chunk := filedChunk
  count := 4
  finished := 4
  fragmentBlock := filedBlock
  fragmentBlockCount := 2
  lastPiece := some 3
  workq _ := []
  mayAddChunks := false
  aborted := false
  compressBlocks := true
  compressFragments := true

def filedStart : Image :=
  {Image.init true true 106 with
    root := true
    bd := (((Bulkdata.init true true).submit .fullBlock ⟨filedData, 4, 0⟩).submit .fragmentPiece ⟨filedData, 3, 4⟩).submit
      .fragmentPiece ⟨filedMore, 2, 0⟩}

def filedLog : List Medium.Write := [(106, [1, 2, 3, 4]), (110, [5, 6, 7]), (113, [8, 9])]

def filedCalls : List Call :=
  [.directory filedRoot, .regular filedAttr (some filedData), .regular filedAttr (some filedMore), .addEntry 0 [97] 1,
    .addEntry 0 [98] 2, .setRoot 0]

def filedConfig : BuilderConfig := ⟨.always, 4, none⟩

def filedBuilder : Builder := (Builder.runAll filedConfig (.init filedConfig .fresh) filedCalls).2

def filedXattrs : XattrTable :=
  ((XattrTable.init.xattrCreate (ascii "user.a") [7] .fresh).2.1.xattrsetCreate .little ⟨0, 0⟩
    [XattrTable.sampleXattr [7]] .fresh).2.1

def filedImage : Assembly :=
  {rootOnly with
    options := ⟨false, true, true, .always, true, 4, true, 4, 2⟩
    bulkdata := filedBulkdata
    inodes := filedBuilder.inodes
    idtable := (AttrCall.runAll filedHandles .init .fresh).2.1
    xattrTable := filedXattrs
    compressorOptionData := some [0, 32, 0, 0, 1, 0, 0, 0]
    compressorOptionDataLoc := 96}

section
open Image

theorem filedBegun (o : ImageConfig) : ∃ trace,
    Run (Session.Step o filedConfig) (.init filedConfig true true 106 .fresh) trace ⟨filedStart, filedBuilder, []⟩ ∧
      Session.Created trace 1 filedData ∧ Session.Created trace 2 filedMore ∧ (∀ l ∈ labels trace, Session.Calm l) ∧
      (labels trace).filterMap Session.callLabel = filedCalls.map fun c => (c, true) := by
  let block : Item := ⟨.fullBlock, ⟨filedData, 4, 0⟩⟩
  let piece : Item := ⟨.fragmentPiece, ⟨filedData, 3, 4⟩⟩
  let more : Item := ⟨.fragmentPiece, ⟨filedMore, 2, 0⟩⟩
  let b₁ := ((Builder.init filedConfig .fresh).run filedConfig (.directory filedRoot)).2
  let b₂ := (b₁.run filedConfig (.regular filedAttr (some filedData))).2
  let b₃ := (b₂.run filedConfig (.regular filedAttr (some filedMore))).2
  let b₄ := (b₃.run filedConfig (.addEntry 0 [97] 1)).2
  let b₅ := (b₄.run filedConfig (.addEntry 0 [98] 2)).2
  let i₀ := Image.init true true 106
  let i₁ := {i₀ with bd := (i₀.bd.submit .fullBlock ⟨filedData, 4, 0⟩).submit .fragmentPiece ⟨filedData, 3, 4⟩}
  have first : Session.Step o filedConfig (.init filedConfig true true 106 .fresh) (.inl (.directory filedRoot, true))
      ⟨i₀, b₁, []⟩ := .call ⟨rfl, rfl⟩ rfl (by simp) ⟨trivial, rfl⟩
  have second : Session.Step o filedConfig ⟨i₀, b₁, []⟩ (.inl (.regular filedAttr (some filedData), true))
      ⟨i₀, b₂, [block, piece]⟩ := .call ⟨rfl, rfl⟩ rfl (by simp) ⟨trivial, rfl⟩
  have submitted := (((Run.start.move first).move second).move (.submit (i := block) rfl
    ⟨rfl, .submit ⟨rfl, rfl⟩ rfl (by simp [block]) (.idle fun t => by simp [i₀, Image.init])⟩)).move (.submit (i := piece) rfl
    ⟨rfl, .submit ⟨rfl, rfl⟩ rfl (by simp [piece]) (.idle fun t => by simp [i₀, Image.init])⟩)
  have third : Session.Step o filedConfig ⟨i₁, b₂, []⟩ (.inl (.regular filedAttr (some filedMore), true))
      ⟨i₁, b₃, [more]⟩ := .call ⟨rfl, rfl⟩ rfl (by simp) ⟨trivial, rfl⟩
  have added := (submitted.move third).move (.submit (i := more) rfl
    ⟨rfl, .submit ⟨rfl, rfl⟩ rfl (by simp [more]) (.idle fun t => by simp [i₁, i₀, Image.init])⟩)
  have linked := (added.move (@Session.Step.call _ _ _ (.addEntry 0 [97] 1) true b₄ ⟨rfl, rfl⟩ rfl (by simp)
    ⟨by decide, rfl⟩)).move (@Session.Step.call _ _ _ (.addEntry 0 [98] 2) true b₅ ⟨rfl, rfl⟩ rfl (by simp)
      ⟨by decide, Prod.ext (by decide +kernel) rfl⟩)
  have built : (b₅.run filedConfig (.setRoot 0)).2 = filedBuilder := by
    simp only [filedBuilder, filedCalls, Builder.runAll, b₅, b₄, b₃, b₂, b₁]
  have rooted := linked.move (@Session.Step.setRoot _ _ _ 0 _ filedBuilder rfl rfl
    ⟨by decide, Prod.ext (by decide +kernel) built⟩ ⟨rfl, .setRoot ⟨rfl, rfl⟩ rfl rfl⟩ rfl)
  refine ⟨_, rooted, ⟨⟨⟨i₀, b₁, []⟩, _, ⟨i₀, b₂, [block, piece]⟩⟩, by simp, filedAttr, rfl, rfl⟩,
    ⟨⟨⟨i₁, b₂, []⟩, _, ⟨i₁, b₃, [more]⟩⟩, by simp [i₁, block, piece], filedAttr, rfl, rfl⟩, fun l member => ?_, rfl⟩
  simp only [labels, List.map_cons, List.map_nil, List.nil_append, List.cons_append, List.mem_cons, List.not_mem_nil,
    or_false] at member
  rcases member with rfl | rfl | rfl | rfl | rfl | rfl | rfl | rfl | rfl <;>
    simp [Session.Calm, Session.imageLabel, Image.Calm]

structure FiledDone (o : ImageConfig) (events : List (Event Image Label)) (s : Image) : Prop where
  run : Run (Image.Step o) filedStart events s
  threads : ∀ e ∈ events, e.label ∈ [.thread 0, .thread 1, .enter, .seal] ∧ e.after.root = e.before.root
  api : s.api = .later o.later true
  bulkdata : s.bd = filedBulkdata
  size : s.size = 115
  written : s.written = filedLog

theorem filedSame {bd bd' : Bulkdata} (chunk : ∀ c, bd.chunk c = bd'.chunk c)
    (fragmentBlock : ∀ f, bd.fragmentBlock f = bd'.fragmentBlock f) (workq : ∀ q, bd.workq q = bd'.workq q)
    (rest : {bd with chunk := bd'.chunk, fragmentBlock := bd'.fragmentBlock, workq := bd'.workq} = bd') : bd = bd' := by
  rw [← rest, ← funext chunk, ← funext fragmentBlock, ← funext workq]

theorem filedAlone (o : ImageConfig) (size : o.blockSize = 4) (plain : o.compress = fun _ _ => none) :
    ∃ (trace : List (Event Image Label)) (s : Image), FiledDone o trace s := by
  obtain ⟨blockSize, compress, later, padding⟩ := o
  dsimp only at size plain
  subst size plain
  have entered : Run (Step ⟨4, fun _ _ => none, later, padding⟩) filedStart _ _ := .move .start ⟨rfl, .enter ⟨rfl, rfl⟩ rfl⟩
  have needed := (entered.move ⟨rfl, .rootFound rfl rfl⟩).move ⟨rfl, .sealNeeded rfl rfl rfl⟩
  have sealed := needed.move
    ⟨rfl, .closingQueued rfl rfl (.idle fun t => by simp [filedStart, Image.init]) (.idle fun t => by simp [filedStart, Image.init])⟩
  have locked := (sealed.move ⟨rfl, .sealedAgain rfl rfl rfl⟩).move ⟨rfl, .locked (t := 0) rfl rfl⟩
  -- the block
  have read₀ := ((locked.move ⟨rfl, .pop (t := 0) rfl rfl⟩).move
    ⟨rfl, @Move.released _ _ 0 _ _ true _ _ _ rfl rfl⟩).move ⟨rfl, .read (t := 0) rfl rfl rfl⟩
  have deduplicated₀ := (read₀.move ⟨rfl, .pop (t := 0) rfl rfl⟩).move ⟨rfl, @Move.again _ _ 0 _ _ true _ _ rfl rfl⟩
  have assigned₀ := (deduplicated₀.move ⟨rfl, .pop (t := 0) rfl rfl⟩).move
    ⟨rfl, @Move.again _ _ 0 _ _ true _ _ rfl rfl⟩
  have compressed₀ := ((assigned₀.move ⟨rfl, .pop (t := 0) rfl rfl⟩).move
    ⟨rfl, @Move.released _ _ 0 _ _ true _ _ _ rfl rfl⟩).move ⟨rfl, @Move.compressed _ _ 0 _ true _ rfl rfl rfl⟩
  have written₀ := ((compressed₀.move ⟨rfl, .pop (t := 0) rfl rfl⟩).move
    ⟨rfl, @Move.released _ _ 0 _ _ true _ _ _ rfl rfl⟩).move ⟨rfl, .written (t := 0) rfl rfl rfl⟩
  -- the first tail
  have read₁ := ((written₀.move ⟨rfl, .pop (t := 0) rfl rfl⟩).move
    ⟨rfl, @Move.released _ _ 0 _ _ true _ _ _ rfl rfl⟩).move ⟨rfl, .read (t := 0) rfl rfl rfl⟩
  have deduplicated₁ := (read₁.move ⟨rfl, .pop (t := 0) rfl rfl⟩).move ⟨rfl, @Move.again _ _ 0 _ _ true _ _ rfl rfl⟩
  have assigned₁ := (deduplicated₁.move ⟨rfl, .pop (t := 0) rfl rfl⟩).move
    ⟨rfl, @Move.again _ _ 0 _ _ true _ _ rfl rfl⟩
  have finished₁ := (assigned₁.move ⟨rfl, .pop (t := 0) rfl rfl⟩).move ⟨rfl, @Move.again _ _ 0 _ _ true _ _ rfl rfl⟩
  -- the second tail, which flushes the block of the first
  have read₂ := ((finished₁.move ⟨rfl, .pop (t := 0) rfl rfl⟩).move
    ⟨rfl, @Move.released _ _ 0 _ _ true _ _ _ rfl rfl⟩).move ⟨rfl, .read (t := 0) rfl rfl rfl⟩
  have deduplicated₂ := (read₂.move ⟨rfl, .pop (t := 0) rfl rfl⟩).move ⟨rfl, @Move.again _ _ 0 _ _ true _ _ rfl rfl⟩
  have assigned₂ := (deduplicated₂.move ⟨rfl, .pop (t := 0) rfl rfl⟩).move
    ⟨rfl, @Move.again _ _ 0 _ _ true _ _ rfl rfl⟩
  have compressed₂ := ((assigned₂.move ⟨rfl, .pop (t := 0) rfl rfl⟩).move
    ⟨rfl, @Move.released _ _ 0 _ _ true _ _ _ rfl rfl⟩).move ⟨rfl, @Move.compressed _ _ 0 _ true _ rfl rfl rfl⟩
  have written₂ := ((compressed₂.move ⟨rfl, .pop (t := 0) rfl rfl⟩).move
    ⟨rfl, @Move.released _ _ 0 _ _ true _ _ _ rfl rfl⟩).move ⟨rfl, .written (t := 0) rfl rfl rfl⟩
  -- the closing piece
  have read₃ := (written₂.move ⟨rfl, .pop (t := 0) rfl rfl⟩).move ⟨rfl, @Move.again _ _ 0 _ _ true _ _ rfl rfl⟩
  have deduplicated₃ := (read₃.move ⟨rfl, .pop (t := 0) rfl rfl⟩).move ⟨rfl, @Move.again _ _ 0 _ _ true _ _ rfl rfl⟩
  have assigned₃ := (deduplicated₃.move ⟨rfl, .pop (t := 0) rfl rfl⟩).move
    ⟨rfl, @Move.again _ _ 0 _ _ true _ _ rfl rfl⟩
  have compressed₃ := ((assigned₃.move ⟨rfl, .pop (t := 0) rfl rfl⟩).move
    ⟨rfl, @Move.released _ _ 0 _ _ true _ _ _ rfl rfl⟩).move ⟨rfl, @Move.compressed _ _ 0 _ true _ rfl rfl rfl⟩
  have written₃ := ((compressed₃.move ⟨rfl, .pop (t := 0) rfl rfl⟩).move
    ⟨rfl, @Move.released _ _ 0 _ _ true _ _ _ rfl rfl⟩).move ⟨rfl, .written (t := 0) rfl rfl rfl⟩
  have left := written₃.move ⟨rfl, .leave (t := 0) rfl rfl (by decide)⟩
  refine ⟨_, _, left.move ⟨rfl, .processed rfl rfl⟩, ?_, rfl,
    filedSame (fun c => ?_) (fun f => ?_) (fun q => by cases q <;> rfl) rfl, rfl, rfl⟩
  · simp [goto]
  · rcases c with _ | _ | _ | _ | c <;> rfl
  · rcases f with _ | _ | f <;> rfl

theorem filedOwners : (AttrCall.runAll filedHandles .init .fresh).1 = [some filedRoot, some filedAttr] := by
  have first : IdTable.uint16 (IdTable.int 0) = 0 := IdTable.uint16Int (by decide)
  have second : IdTable.uint16 (IdTable.int 1) = 1 := IdTable.uint16Int (by decide)
  simp [AttrCall.runAll, AttrCall.run, filedHandles, inodeattrCreateExtended, inodeattrCreateSimple, IdTable.map,
    IdTable.init, Env.malloc, Env.fresh, List.idxOf?, List.findIdx?, List.findIdx?.go, first, second, filedRoot, filedAttr]

theorem filedMade : XattrTable.Made .little filedXattrs :=
  .xattrset (.xattr (ascii "user.a") [7] .fresh .init)
    (show XattrTable.xattrsetCreate .little ⟨0, 0⟩ [XattrTable.sampleXattr [7]]
      (XattrTable.init.xattrCreate (ascii "user.a") [7] .fresh).2.1 .fresh = (some 0, filedXattrs, _) from rfl)

theorem recordedInodes (ls : List Label) (b : Builder) : (ls.foldl Session.record b).inodes = b.inodes := by
  induction ls generalizing b with
  | nil => rfl
  | cons l rest ih =>
    rw [List.foldl_cons, ih]
    cases l <;> rfl

theorem FiledDone.prepared {events : List (Event Image Label)} {s : Image} (done : FiledDone filedImage.threadConfig events s) :
    ∃ trace b, Prepared .little filedImage (willing 115 filedLog) trace ⟨s, b, []⟩ ∧ Session.Created trace 1 filedData ∧
      Session.Created trace 2 filedMore ∧
      (labels trace).filterMap Session.callLabel = filedCalls.map fun c => (c, true) := by
  obtain ⟨begun, opened, ⟨e₁, inside₁, made₁⟩, ⟨e₂, inside₂, made₂⟩, early, calls⟩ := filedBegun filedImage.threadConfig
  obtain ⟨trace, worked, same⟩ := @Session.worked _ filedConfig filedBuilder _ _ _ done.run fun e member =>
    ⟨fun kind data bad => by simpa [bad] using (done.threads e member).1, (done.threads e member).2⟩
  have late (l : (Call × Bool) ⊕ Label) (member : l ∈ labels trace) : Session.Calm l ∧ ∀ c ok, l ≠ .inl (c, ok) :=
    Session.quiet (fun e inside => (done.threads e inside).1) (by simp [Image.Calm]) (same ▸ member)
  have called : (labels (begun ++ trace)).filterMap Session.callLabel = filedCalls.map fun c => (c, true) := by
    have none : (labels trace).filterMap Session.callLabel = [] := List.filterMap_eq_nil_iff.mpr fun l member => by
      cases l with
      | inl l => exact absurd rfl ((late _ member).2 _ _)
      | inr l => rfl
    rw [labels, List.map_append, ← labels, ← labels, List.filterMap_append, none, calls, List.append_nil]
  refine ⟨_, _, ⟨⟨.fresh, opened.append worked⟩, fun l member => ?_, done.api, done.bulkdata.symm, (recordedInodes ..).symm,
    done.size.symm, done.written.symm, rfl, ⟨filedHandles, .fresh, fun _ => rfl, rfl, fun c ok attr member own => ?_⟩,
    filedMade, rfl⟩, ⟨e₁, List.mem_append_left _ inside₁, made₁⟩, ⟨e₂, List.mem_append_left _ inside₂, made₂⟩, called⟩
  · rw [labels, List.map_append] at member
    rcases List.mem_append.mp member with first | later
    · exact early l first
    · exact (late l later).1
  · have call : (c, ok) ∈ filedCalls.map fun c => (c, true) := by
      rw [← called]
      refine List.mem_filterMap.mpr ⟨_, member, ?_⟩
      cases c <;> first | rfl | cases own
    rw [filedOwners]
    simp only [filedCalls, List.map_cons, List.map_nil, List.mem_cons, List.not_mem_nil, or_false, Prod.mk.injEq] at call
    rcases call with ⟨rfl, _⟩ | ⟨rfl, _⟩ | ⟨rfl, _⟩ | ⟨rfl, _⟩ | ⟨rfl, _⟩ | ⟨rfl, _⟩ <;> cases own <;> simp

theorem filedStages : ∃ stages last after,
    Run (Stage ⟨.little, 0, true⟩) (operations filedImage.options, filedImage, willing 115 filedLog) stages
        ([], last, after) ∧
      labels stages = (operations filedImage.options).map (·, true) ∧
      ∀ e ∈ stages, e.before.2.1.Small ⟨.little, 0, true⟩ e.before.2.2 e.label.1 := by
  have ran : (performAll ⟨.little, 0, true⟩ 2 (operations filedImage.options) filedImage (willing 115 filedLog)).isSome := by
    decide
  obtain ⟨⟨last, after⟩, ran⟩ := Option.isSome_iff_exists.mp ran
  obtain ⟨stages, run, all, small⟩ := performAllRun ran
  exact ⟨stages, last, after, run, all, small⟩

/- A full block, two fragment blocks and every table between them and the end. -/
theorem filedTiled : ∃ (last : Assembly) (after : Env), Tiled .little last after.written := by
  obtain ⟨trace, s, done⟩ := filedAlone filedImage.threadConfig rfl rfl
  obtain ⟨trace, b, prepared, _⟩ := done.prepared
  obtain ⟨stages, last, after, run, all, small⟩ := filedStages
  exact ⟨last, after, @imageTiled ⟨.little, 0, true⟩ _ _ _ _ _ _ _ _ prepared run all small⟩

end

end Assembly
end Libsqfs
