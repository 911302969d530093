import Libsqfs.FileContent
import Libsqfs.TreeImage

/-! The contents of the files of a finished image, read from the superblock on. -/
namespace Libsqfs
open Transition Relation Metatable FramedStream

theorem Metatable.writeBlocksBound {host : Bytes.Host} {blocks : List Metablock} {offset : Nat} {env next : Env}
    (sized : ∀ b ∈ blocks, b.data.length = b.size) (some : blocks ≠ [])
    (ok : writeBlocks host blocks offset env = (true, next)) :
    offset + (blocks.map fun b => b.size + 2).sum < 2 ^ 63 := by
  induction blocks generalizing offset env with
  | nil => exact absurd rfl some
  | cons b rest ih =>
    have size := sized b (by simp)
    simp only [writeBlocks] at ok
    split at ok
    · cases ok
    · split at ok
      · cases ok
      · rename_i second
        obtain ⟨_, _, _, bound⟩ := Env.pwriteWritten second
        rw [List.length_take, size, Nat.min_self] at bound
        by_cases last : rest = []
        · subst last
          simp only [List.map_cons, List.map_nil, List.sum_cons, List.sum_nil]
          omega
        · have later := ih (fun c member => sized c (List.mem_cons_of_mem _ member)) last ok
          simp only [List.map_cons, List.sum_cons]
          omega

theorem Metatable.writeBound {decompress : Bytes → Option Bytes} {host : Bytes.Host} {tab next : Metatable}
    {stream : Bytes} {env after : Env} (holds : Holds decompress tab stream)
    (ok : tab.write host env = (true, next, after)) (small : next.encodedSize < 2 ^ 32) (some : next.blocks ≠ []) :
    next.offset = .some env.size ∧ after.size = env.size + next.encodedSize ∧ after.size < 2 ^ 63 := by
  have closed := writeClosed holds ok
  have exactSize := encodedSizeExact closed.1.stored
  rw [exactSize] at small
  obtain ⟨_, same, offset, size, grown, _⟩ := writeSpec holds ok small
  refine ⟨offset, by rw [grown, size, exactSize], ?_⟩
  have stored := closed.1.stored
  rw [same] at some stored
  rw [grown, size, ← exactSize, encodedSize, same]
  simp only [write] at ok
  split at ok
  · cases ok
  · rename_i written
    exact writeBlocksBound (fun b member => (stored b member).size) some written

namespace Session

/- A file whose chunks are finished: the image is that of a plan, in which they stand. -/
theorem runFile {o : ImageConfig} {config : BuilderConfig} {compressBlocks compressFragments : Bool} {size : Nat} {env : Env}
    {trace : List (Event Session ((Call × Bool) ⊕ Label))} {s : Session} (later : o.later ≠ [])
    (run : Run (Step o config) (init config compressBlocks compressFragments size env) trace s)
    (calm : ∀ l ∈ labels trace, Calm l) (closed : s.image.bd.mayAddChunks = false)
    (done : s.image.bd.finished = s.image.bd.count) (positive : 0 < config.blockSize) {i : Nat} {data : Bytes}
    (created : Created trace i data) : ∃ (buffered : Nat → Bool) (item : Nat → Item) (n first : Nat),
      ((∀ e ∈ trace, Buffered o e) → buffered = fun _ => true) ∧
      s.image.Realizes (Plan.upTo (o.rule buffered compressBlocks compressFragments) size item n) ∧
      (Plan.upTo (o.rule buffered compressBlocks compressFragments) size item n).current = none ∧
      (∀ c, c < n → (item c).kind = .fragmentPiece → (item c).data.size ≤ config.blockSize) ∧
      Inodes.Stands config.fragments config.blockSize data item n first ∧
      (s.builder.inodes.inode i).body = .regular (Inodes.fileInode config.fragments config.blockSize data first) := by
  obtain ⟨events, calls, b, apart⟩ := apartRun later run calm
  obtain ⟨buffered, agrees, whole⟩ := apart.agrees
  have realizes := Image.planRealized apart.image apart.begun.clean agrees (apart.begun.closed closed).2 done
  obtain ⟨items, chain, member, last⟩ := apart.gathered closed
  obtain ⟨_, before, after, shape, body⟩ := runFiled run created
  rw [Plan.upToSequential _ chain] at realizes
  refine ⟨buffered, s.image.bd.item, s.image.bd.count, before.length, whole, realizes,
    Plan.upToClosed chain member rfl last, fun c inside piece => ?_,
    Inodes.itemsStand (by rw [← chain, items]; exact shape), body⟩
  have member : s.image.bd.item c ∈ s.builder.items := by
    rw [← items, chain]
    exact List.mem_map_of_mem (List.mem_range.mpr inside)
  rcases runFitting positive run _ member with closing | readable
  · rw [piece] at closing
    cases closing
  · exact readable.bound

end Session

namespace Assembly
variable {o : FinalizeConfig} {image next last : Assembly} {env after : Env} {decompress : Bytes → Option Bytes} {r : Nat}
  {op : Later} {ok : Bool} {depth : Nat}

/-! ### What the operations leave alone -/

theorem performInodeTable (other : op ≠ .serialize) (apart : op ≠ .inodeTable)
    (ran : image.perform o depth env op = some (ok, next, after)) : next.inodes.inodeTable = image.inodes.inodeTable := by
  cases op with
  | serialize => exact absurd rfl other
  | inodeTable => exact absurd rfl apart
  | dirTable =>
    replace ran := (performed.mp ran).1
    cases ran
    rfl
  | _ => rw [performInodes id ran]

theorem performDirTable (other : op ≠ .serialize) (apart : op ≠ .dirTable)
    (ran : image.perform o depth env op = some (ok, next, after)) : next.inodes.dirTable = image.inodes.dirTable := by
  cases op with
  | serialize => exact absurd rfl other
  | dirTable => exact absurd rfl apart
  | inodeTable =>
    replace ran := (performed.mp ran).1
    cases ran
    rfl
  | _ => rw [performInodes id ran]

theorem runLeaves {α : Type} {f : Assembly → α} {allowed : Later → Prop}
    (leaves : ∀ {image next : Assembly} {env after : Env} {op : Later} {ok : Bool} {depth : Nat}, allowed op →
      image.perform o depth env op = some (ok, next, after) → f next = f image)
    {first s : List Later × Assembly × Env} {trace : List (Event (List Later × Assembly × Env) (Later × Bool))}
    (run : Run (Stage o) first trace s) (each : ∀ l ∈ labels trace, allowed l.1) : f s.2.1 = f first.2.1 := by
  have obeys : Obeys (fun _ l => allowed l.1) trace := fun e member => each _ (List.mem_map_of_mem member)
  refine Run.invariant (I := fun s => f s.2.1 = f first.2.1) rfl ?_ run obeys
  intro s l next same own ⟨_, _, ⟨_, ran⟩, _⟩
  exact (leaves own ran).trans same

theorem laterOperations (options : ImageOptions) : ∃ later, (operations options).map (·, true) =
    ([.serialize, .inodeTable, .dirTable] : List Later).map (·, true) ++ (.fragmentTable, true) :: later ∧
      ∀ l ∈ later, l.1 ≠ .fragmentTable ∧ l.1 ≠ .serialize ∧ l.1 ≠ .inodeTable ∧ l.1 ≠ .dirTable := by
  refine ⟨((if options.exportable then [Later.exportTable] else []) ++
    ([.idTable, .xattrTable, .compressorOptions, .superblock] : List Later)).map (·, true), by simp [operations, writes], ?_⟩
  intro l member
  obtain ⟨op, inside, rfl⟩ := List.mem_map.mp member
  simp only [List.mem_append, List.mem_ite_nil_right, List.mem_cons, List.not_mem_nil, or_false] at inside
  rcases inside with ⟨_, rfl⟩ | rfl | rfl | rfl | rfl <;> simp

theorem writeWithIndexBlocks {host : Bytes.Host} {tab next : Metatable} {stream : Bytes}
    (holds : Holds decompress tab stream) (ok : tab.writeWithIndex host env = (true, next, after)) :
    next.blocks = tab.flush.blocks := by
  simp only [writeWithIndex] at ok
  split at ok
  · cases ok
  · rename_i first
    have same := (writeClosed holds first).2
    split at ok <;> cases ok
    exact same

theorem fragmentTableIndexed {host : Bytes.Host} (some : image.bulkdata.fragmentBlockCount ≠ 0)
    (inverse : Inverse (.some image.compressor) decompress) (ok : image.writeFragmentTable host env = (true, next, after))
    (small : ((init (.some image.compressor)).append (fragmentEntries host image.bulkdata).flatten env).2.1.flush.encodedSize <
      2 ^ 32) : ∃ tab : Metatable, next.fragTableLoc = .some (env.size + tab.encodedSize) ∧
        Indexed decompress host tab (fragmentEntries host image.bulkdata).flatten after.written env.size
          (env.size + tab.encodedSize) ∧ after.size = env.size + tab.encodedSize + tab.blocks.length * 8 := by
  obtain ⟨taken, _, holds, _, whole, size, _⟩ := appendSpec (fragmentEntries host image.bulkdata).flatten env
    (initHolds inverse)
  simp only [writeFragmentTable, fragmentTable, if_neg some] at ok
  generalize (init (.some image.compressor)).append (fragmentEntries host image.bulkdata).flatten env = result at *
  obtain ⟨_ | _, grown, mid⟩ := result
  · cases ok
  · rcases written : grown.writeWithIndex host mid with ⟨good, tab, last⟩
    simp only [written, if_true, Prod.mk.injEq] at ok
    obtain ⟨rfl, rfl, rfl⟩ := ok
    rw [whole rfl, List.nil_append] at holds
    have small : tab.encodedSize < 2 ^ 32 := by
      rw [encodedSize, writeWithIndexBlocks holds written]
      exact small
    obtain ⟨indexed, offset, grown, _⟩ := writeWithIndexSpec holds written small
    dsimp only at size
    rw [size] at indexed offset grown
    exact ⟨tab, offset, indexed, grown⟩

theorem writeEncoded (host : Bytes.Host) (tab : Metatable) (env : Env) :
    (tab.write host env).2.1.encodedSize = tab.flush.encodedSize := by
  simp only [Metatable.write]
  split <;> rfl

section
variable {stages : List (Event (List Later × Assembly × Env) (Later × Bool))} {rest : List Later}

theorem writtenSmall (table : Assembly → Metatable) {own : Later} {before later : List (Later × Bool)}
    (listed : ∀ image env, image.tables o env own = [(table image).flush])
    (writes : ∀ {image next : Assembly} {env after : Env} {depth : Nat}, image.operate o depth env own =
      some (true, next, after) → table next = ((table image).write o.host env).2.1)
    (leaves : ∀ {image next : Assembly} {env after : Env} {op : Later} {ok : Bool} {depth : Nat}, op ≠ .serialize ∧ op ≠ own →
      image.perform o depth env op = some (ok, next, after) → table next = table image)
    (run : Run (Stage o) (operations image.options, image, env) stages (rest, last, after))
    (all : labels stages = before ++ (own, true) :: later) (apart : ∀ l ∈ later, l.1 ≠ .serialize ∧ l.1 ≠ own)
    (small : ∀ e ∈ stages, e.before.2.1.Small o e.before.2.2 e.label.1) : (table last).encodedSize < 2 ^ 32 := by
  obtain ⟨_, _, ⟨_, image₁, env₁⟩, ⟨_, image₂, env₂⟩, _, same, member, _, taken, onward⟩ := run.part all
  have kept := runLeaves leaves onward fun l inside => apart l (same ▸ inside)
  have limit := small _ member _ (by rw [listed]; exact List.mem_singleton_self _)
  obtain ⟨_, _, ran, _⟩ := taken
  obtain ⟨_, ran⟩ := ran.operates
  dsimp only at *
  rw [kept, writes ran, writeEncoded]
  exact limit

theorem treeTablesSmall
    (run : Run (Stage o) (operations image.options, image, env) stages (rest, last, after))
    (all : labels stages = (operations image.options).map (·, true))
    (small : ∀ e ∈ stages, e.before.2.1.Small o e.before.2.2 e.label.1) :
    last.inodes.inodeTable.encodedSize < 2 ^ 32 ∧ last.inodes.dirTable.encodedSize < 2 ^ 32 := by
  obtain ⟨later, shape, apart⟩ := laterOperations image.options
  rw [shape] at all
  have first : labels stages = [(Later.serialize, true)] ++
      (.inodeTable, true) :: (.dirTable, true) :: (.fragmentTable, true) :: later := all
  have second : labels stages = [(Later.serialize, true), (.inodeTable, true)] ++
      (.dirTable, true) :: (.fragmentTable, true) :: later := all
  constructor
  · refine writtenSmall (fun image => image.inodes.inodeTable) (fun _ _ => rfl) (fun ran => ?_)
      (fun other ran => performInodeTable other.1 other.2 ran) run first (fun l inside => ?_) small
    · exact (congrArg (fun result => result.2.1.inodes.inodeTable) (Option.some.inj ran)).symm
    · simp only [List.mem_cons] at inside
      rcases inside with rfl | rfl | inside
      · simp
      · simp
      · exact ⟨(apart l inside).2.1, (apart l inside).2.2.1⟩
  · refine writtenSmall (fun image => image.inodes.dirTable) (fun _ _ => rfl) (fun ran => ?_)
      (fun other ran => performDirTable other.1 other.2 ran) run second (fun l inside => ?_) small
    · exact (congrArg (fun result => result.2.1.inodes.dirTable) (Option.some.inj ran)).symm
    · simp only [List.mem_cons] at inside
      rcases inside with rfl | inside
      · simp
      · exact ⟨(apart l inside).2.1, (apart l inside).2.2.2⟩

end

/-! ### Reading a file -/

/- The directories follow the inodes. -/
def inodesOf (log : List Medium.Write) : Bytes :=
  Medium.read log (superblockField log 64) (superblockField log 72 - superblockField log 64)

def dirsOf (log : List Medium.Write) : Bytes :=
  Medium.read log (superblockField log 72) (Medium.extent log - superblockField log 72)

theorem Prepared.filed {trace : List (Event Session ((Call × Bool) ⊕ Label))} {s : Session} {host : Bytes.Host}
    (prepared : Prepared host image env trace s) (positive : 0 < image.options.blockSize) {i : Nat} {data : Bytes}
    (created : Session.Created trace i data) : ∃ (buffered : Nat → Bool) (r : Rule) (item : Nat → Item) (n first : Nat),
      ((∀ e ∈ trace, Session.Buffered image.threadConfig e) → buffered = fun _ => true) ∧
      r = image.threadConfig.rule buffered image.options.dataCompression image.options.fragmentCompression ∧
      s.image.Realizes (Plan.upTo r image.headSize item n) ∧ (Plan.upTo r image.headSize item n).current = none ∧
      (∀ c, c < n → (item c).kind = .fragmentPiece → (item c).data.size ≤ image.options.blockSize) ∧
      Inodes.Stands image.options.fragments image.options.blockSize data item n first ∧
      (image.inodes.inode i).body = .regular (Inodes.fileInode image.options.fragments image.options.blockSize data first) := by
  obtain ⟨start, run⟩ := prepared.run
  have later : image.threadConfig.later ≠ [] := by simp [threadConfig, operations]
  obtain ⟨events, calls, b, apart⟩ := Session.apartRun later run prepared.calm
  have closed := (apart.begun.opened _ prepared.reached).2
  have done := apart.begun.alert.isOver closed (by rw [prepared.reached]; simp [Image.Sealing])
  obtain ⟨buffered, item, n, first, whole, realizes, complete, bounded, stands, body⟩ :=
    Session.runFile later run prepared.calm closed done positive created
  exact ⟨buffered, _, item, n, first, whole, rfl, realizes, complete, bounded, stands, by rw [prepared.tree]; exact body⟩

theorem restoresRule {image : Assembly}
    (reverses : Reverses (image.compressor.compress true) decompress image.options.blockSize)
    (compressBlocks compressFragments : Bool) :
    Plan.Restores (image.threadConfig.rule (fun _ => true) compressBlocks compressFragments) decompress where
  block _ _ _ _ some bound := storedBack reverses some bound compressBlocks
  fragment _ _ _ _ some bound := storedBack reverses some bound compressFragments

/- A block that is lost is no longer than what it should hold either. -/
theorem savesRule {image : Assembly}
    (reverses : Reverses (image.compressor.compress true) decompress image.options.blockSize) (buffered : Nat → Bool)
    (compressBlocks compressFragments : Bool) :
    Plan.Saves (image.threadConfig.rule buffered compressBlocks compressFragments) := by
  intro c src some bound
  change (Bulkdata.blockMade compressBlocks image.compressor.compress (buffered c) src).1.length ≤ src.length
  cases buffered c with
  | true => exact (restoresRule reverses compressBlocks compressFragments).saves c src some bound
  | false => exact Nat.zero_le _

/- The tables of the tree where the superblock says, with a record for each inode below the root. -/
theorem Prepared.shelved {trace : List (Event Session ((Call × Bool) ⊕ Label))} {s : Session}
    {stages : List (Event (List Later × Assembly × Env) (Later × Bool))} {rest : List Later}
    (prepared : Prepared o.host image env trace s) (opened : Opened image env)
    (inverse : Inverse (some image.compressor) decompress)
    (run : Run (Stage o) (operations image.options, image, env) stages (rest, last, after))
    (all : labels stages = (operations image.options).map (·, true))
    (small : ∀ e ∈ stages, e.before.2.1.Small o e.before.2.2 e.label.1) (root : image.inodes.root = some r)
    (acyclic : ∀ d, ReflTransGen image.inodes.Contains r d → ¬ TransGen image.inodes.Contains d d) :
    ∃ u records lists, Shelved decompress (serializeConfig o image.bulkdata) image.inodes u records lists last after ∧
      (∀ i, u.Marked i ↔ ReflTransGen image.inodes.Contains r i) ∧
      (∃ log size, after.written = log ++ [(0, superblock o.host last (last.inodes.inode r) size)]) ∧
      inodesOf after.written = last.inodes.inodeTable.onMedium after ∧ env.size < 2 ^ 63 ∧
      ∃ more, dirsOf after.written = last.inodes.dirTable.onMedium after ++ more := by
  obtain ⟨start, session⟩ := prepared.run
  have later : image.threadConfig.later ≠ [] := by simp [threadConfig, operations]
  obtain ⟨events, calls, b, apart⟩ := Session.apartRun later session prepared.calm
  have same : image.inodes = b.inodes := prepared.tree.trans apart.tree
  have built := apart.builder
  obtain ⟨r', u, table, table', written⟩ := treeWritten opened run all
  obtain rfl : r = r' := Option.some.inj (root.symm.trans written.rooted)
  obtain ⟨depth, begin', mid, stop, returned, first, second, spared, spared'⟩ := written.tables
  obtain ⟨linkage, _⟩ := Inodes.runNumbered built
  obtain ⟨_, sheltered⟩ := Builder.runSheltered built
  have blank (i : Nat) : ¬ image.inodes.Marked i := fun marked => marked (by rw [same]; exact sheltered.unencoded i)
  have inverse : Inverse image.builderConfig.inodeCompressor decompress := by
    unfold builderConfig
    intro c own
    split at own
    · exact inverse c own
    · cases own
  obtain ⟨inodeTable, dirTable⟩ := builtTables built
  have archive : Inodes.Archive decompress (serializeConfig o image.bulkdata) image.inodes image.inodes [] [] := by
    refine Inodes.archiveStart blank ?_ ?_
    · rw [same, inodeTable]
      exact initHolds inverse
    · rw [same, dirTable]
      exact initHolds inverse
  obtain ⟨reached, records, lists, archive⟩ := Inodes.serializeArchives (same ▸ linkage) acyclic archive returned
  obtain ⟨inodes, dirs⟩ := treeTablesSmall run all small
  have shelved := treeShelved written archive inodes dirs
  have marked (i : Nat) : u.Marked i ↔ ReflTransGen image.inodes.Contains r i := by
    obtain ⟨on, off⟩ := Inodes.markedBelow reached archive.closed i
    refine ⟨fun marked => ?_, on⟩
    by_contra apart
    rw [Inodes.Marked, off apart] at marked
    exact blank i marked
  have fields := written.superblock
  obtain ⟨log, size, superblock⟩ := written.superblock
  have tables : last.inodes.inodeTable = table ∧ last.inodes.dirTable = table' := by
    rw [written.tree]
    exact ⟨rfl, rfl⟩
  rw [tables.1] at inodes
  rw [tables.2, encodedSizeExact (writeClosed archive.holds second).1.stored] at dirs
  have some : table.blocks ≠ [] := by
    intro none
    obtain ⟨pre, bytes, post, shape⟩ := shelved.archive.split ((marked r).mpr .refl)
    have front := (shelved.stands shape).2.2.1
    have room := (prefixTake ((Inodes.frontHeader _ _ _).trans front) (show _ = 16 by simp [inodeHeader])).1
    have stream := shelved.closed.stream
    rw [tables.1, none] at stream
    have length := congrArg List.length stream
    simp only [shape, Inodes.recordBytes, List.map_append, List.map_cons, List.flatten_append, List.flatten_cons,
      List.length_append, contentsNil, List.length_nil] at length
    omega
  obtain ⟨offset, grown, bound⟩ := writeBound archive.placed.holds first inodes some
  obtain ⟨_, _, offset', dirSize, _, buffers⟩ := writeSpec archive.holds second dirs
  have quiet := (Inodes.serializeQuiet returned).size
  have inodesField : superblockField after.written 64 = begin'.size := by
    rw [superblock]
    exact superblockRead (i := 4) (by simp only [lastFields, tables.1, offset]; rfl) (by omega)
  have dirsField : superblockField after.written 72 = mid.size := by
    rw [superblock]
    exact superblockRead (i := 5) (by simp only [lastFields, tables.2, offset']; rfl) (by omega)
  refine ⟨u, records, lists, shelved, marked, fields, ?_, by omega, ?_⟩
  · have closed := shelved.closed
    have exactSize := encodedSizeExact closed.stored
    have size' := closed.size
    rw [← exactSize, tables.1, uint, Nat.mod_eq_of_lt inodes] at size'
    rw [inodesOf, inodesField, dirsField, tables.1, onMedium, offset, size', grown, Nat.add_sub_cancel_left]
    rfl
  · obtain ⟨buffers, log', contents⟩ := buffers
    obtain ⟨_, more, whole, _⟩ := spared'
    have inside : Medium.consecutive mid.size buffers <:+: after.written :=
      ⟨mid.written, more, by rw [whole, log']⟩
    rw [dirsOf, dirsField, tables.2, onMedium, offset', Option.getD_some, dirSize, ← contents]
    exact Medium.readInside inside

theorem Shelved.record {t u : Inodes} {records pre post : List (Nat × Bytes)} {lists bytes : Bytes} {config : SerializeConfig}
    {i : Nat} (shelved : Shelved decompress config t u records lists last after)
    (shape : records = pre ++ (i, bytes) :: post) :
    readRest (readMetablock decompress) (last.inodes.inodeTable.onMedium after) (last.place i).block (last.place i).offset =
      some (bytes ++ Inodes.recordBytes post) := by
  obtain ⟨inside, place, _⟩ := shelved.stands shape
  have closed := shelved.closed
  have small := shelved.small
  rw [encodedSizeExact closed.stored] at small
  have below : start (framing decompress) last.inodes.inodeTable.blocks ((Inodes.recordBytes pre).length / metadataSize) <
      2 ^ 32 := by
    have := startMono (framing decompress) last.inodes.inodeTable.blocks inside
    rw [startLength] at this
    omega
  have rest : Inodes.recordBytes records = Inodes.recordBytes pre ++ (bytes ++ Inodes.recordBytes post) := by
    rw [shape]
    simp [Inodes.recordBytes]
  rw [shelved.medium, place, placeOf, uint, Nat.mod_eq_of_lt below,
    readRestStream (fun b member => readFrame (closed.stored b member)) (fun b _ => frameNonempty b) closed.cut,
    closed.stream, rest, List.drop_left]

section
open Image

end

end Assembly
end Libsqfs
