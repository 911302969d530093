import Libsqfs.IndexedTables
import Libsqfs.Layout
import Libsqfs.OperationTables
import Mathlib.Data.Set.Function

/-! The export table of a finalized image (src/export.c): the numbers given to the
inodes when they are created, the places of the records of those that are serialized
below the root, and the table that leads from one to the other. -/
namespace Libsqfs
open Transition Relation Metatable FramedStream

namespace Inodes
variable {t next : Inodes} {i p d : Nat} {name : Bytes}

structure Numbered (t : Inodes) : Prop where
  number : ∀ i, i < t.count → (t.inode i).inodeNumber = uint (i + 1)
  unplaced : ∀ i, (t.inode i).inodeTableEntry = ⟨2 ^ 32 - 1, 2 ^ 32 - 1⟩

theorem Numbered.same (numbered : Numbered t) (count : next.count = t.count)
    (inode : ∀ i, (next.inode i).inodeNumber = (t.inode i).inodeNumber ∧
      (next.inode i).inodeTableEntry = (t.inode i).inodeTableEntry) : Numbered next where
  number i inside := by rw [(inode i).1, numbered.number i (count ▸ inside)]
  unplaced i := by rw [(inode i).2, numbered.unplaced i]

theorem Numbered.created (numbered : Numbered t) (attr : InodeAttr) (body : InodeBody) :
    Numbered (t.inodeInit attr body).2 where
  number i inside := by
    rw [initInode]
    split
    · rename_i own
      rw [own]
    · rename_i old
      exact numbered.number i (Nat.lt_of_le_of_ne (Nat.le_of_lt_succ inside) old)
  unplaced i := by
    rw [initInode]
    split
    · rfl
    · exact numbered.unplaced i

theorem Numbered.claimed (numbered : Numbered t) (p i : Nat) : Numbered (t.claimed p i) := by
  refine numbered.same (claimedRest t p i).2.2.1 fun x => ?_
  rw [claimedInode]
  split
  · by_cases own : x = i
    · rw [if_pos own]
      exact ⟨rfl, rfl⟩
    · rw [if_neg own]
      exact ⟨rfl, rfl⟩
  · exact ⟨rfl, rfl⟩

theorem Numbered.effect {c : Call} {ok : Bool} (numbered : Numbered t) (linkage : Linkage t)
    (valid : c.Valid t) (effect : t.Effect c ok next) : Numbered next := by
  cases effect with
  | refused => exact numbered
  | created _ _ => exact numbered.created _ _
  | failed _ => exact numbered.claimed _ _
  | added _ =>
    have inserted := addedEntries linkage valid
    refine (numbered.claimed _ _).same inserted.count fun x => ?_
    rw [inserted.inode]
    split <;> exact ⟨rfl, rfl⟩
  | rooted _ =>
    refine numbered.same rfl fun x => ?_
    rw [rootedInode]
    exact ⟨rfl, rfl⟩

theorem runNumbered {o : BuilderConfig} {env : Env} {trace : List (Event Builder (Call × Bool))} {b : Builder}
    (run : Run (Builder.Step o) (.init o env) trace b) : b.inodes.Linkage ∧ b.inodes.Numbered := by
  have free : Obeys (fun _ _ => True) trace := fun _ _ => trivial
  refine Run.invariant (I := fun b => b.inodes.Linkage ∧ b.inodes.Numbered)
    ⟨linkageInit _, fun _ inside => absurd inside (Nat.not_lt_zero _), fun _ => rfl⟩ ?_ run free
  intro b l next ⟨linkage, numbered⟩ _ taken
  obtain ⟨valid, effect⟩ := Builder.stepEffect taken
  exact ⟨linkage.effect valid effect, numbered.effect linkage valid effect⟩

/-! ### The inodes below the root -/

def ClosedBelow (built t : Inodes) : Prop := ∀ d c, t.Marked d → built.Contains d c → t.Marked c

section
variable {built u : Inodes} {o : SerializeConfig} {env after : Env}

theorem writtenClosed (closed : ClosedBelow built t) (writes : Writes t u i) (own : u.Marked i)
    (below : ∀ c, built.Contains i c → t.Marked c) : ClosedBelow built u := by
  have kept (x : Nat) (marked : t.Marked x) : u.Marked x := by
    by_cases same : x = i
    · exact same ▸ own
    · rw [Marked, writes.others x same]
      exact marked
  intro d c marked contained
  by_cases same : d = i
  · exact kept c (below c (same ▸ contained))
  · rw [Marked, writes.others d same] at marked
    exact kept c (closed d c marked contained)

theorem serializeClosed {fuel : Nat} (linkage : Linkage t) (closed : ClosedBelow t t)
    (ran : inodeSerialize o fuel t i env = some (true, u, after)) : Reached t [i] t u ∧ ClosedBelow t u := by
  obtain ⟨reached, related⟩ := serializeReaches (P := fun _ => True) (R := fun v w => ClosedBelow t v → ClosedBelow t w)
    (fun _ => id) (fun first second closed => second (first closed)) (fun _ _ closed => closed)
    (fun _ _ _ _ => trivial)
    (fun v w x env after framed _ _ leaf ok closed => by
      have writes := inodeEncodeWrites o v x env
      have own := inodeEncodeMarked o v x env
      rw [ok] at writes own
      refine writtenClosed closed writes own fun c contained => ?_
      exact absurd ((framed.inode x).isDirectory.mpr (linkage.container contained).2) leaf)
    (fun v w x env after _ _ is below _ ok closed => by
      have writes := @directoryWriteWrites v x o env is
      obtain ⟨mid, last, _, _, recorded⟩ := directoryWriteStages is ok
      have own := inodeEncodeMarked o (mid.pruneIndex x) x last
      rw [ok] at writes
      rw [recorded] at own
      exact writtenClosed closed writes own below) (.refl t) trivial ran
  exact ⟨reached, related closed⟩

/- Exactly those below the root are serialized. -/
theorem markedBelow {r : Nat} (reached : Reached t [r] t u)
    (closed : ClosedBelow t u) (x : Nat) :
    (ReflTransGen t.Contains r x → u.Marked x) ∧ (¬ ReflTransGen t.Contains r x → u.inode x = t.inode x) := by
  constructor
  · intro path
    induction path with
    | refl => exact reached.own r (by simp)
    | tail _ contained ih => exact closed _ _ ih contained
  · intro apart
    exact reached.others x (by simpa using apart)

end
end Inodes

/-! ### The table of values -/

/- The table of equal records before its index decodes into exactly these, and each
is found through the index. The first index entry is where the table starts. -/
structure TableOf (decompress : Bytes → Option Bytes) (log : List Medium.Write) (index size : Nat)
    (records : List Bytes) : Prop where
  whole : ∃ fuel contents,
    parseAll (readMetablock decompress) fuel (Medium.read log (Bytes.readLE (Medium.read log index 8))
      (index - Bytes.readLE (Medium.read log index 8))) = some contents ∧ contents.flatten = records.flatten
  lookup : ∀ i record, records[i]? = some record → lookupRecord decompress log index size i = some record

def Leads (decompress : Bytes → Option Bytes) (table : Bytes) (value n : Nat) : Prop :=
  ∃ header, readAt (readMetablock decompress) table (value / 2 ^ 16) (value % 2 ^ 16) 16 = some header ∧
    Bytes.readLE (header.drop 12) = n

namespace Assembly

def exportTableSize (count : Nat) : Nat := 8 * count + 2 * ((8 * count + metadataSize - 1) / metadataSize)

theorem indexedKept {decompress : Bytes → Option Bytes} {host : Bytes.Host} {tab : Metatable} {stream : Bytes}
    {env after : Env} {base low high : Nat} (spares : Spares low high env after) (from' : low ≤ base)
    (below : base + tab.encodedSize + tab.blocks.length * 8 ≤ high)
    (indexed : Indexed decompress host tab stream env.written base (base + tab.encodedSize)) :
    Indexed decompress host tab stream after.written base (base + tab.encodedSize) where
  closed := indexed.closed
  small := indexed.small
  table := by rw [spares.read from' (by omega), indexed.table]
  entries := by rw [spares.read (by omega) below, indexed.entries]
  fits := indexed.fits

theorem indexedTable {decompress : Bytes → Option Bytes} {host : Bytes.Host} {tab : Metatable} {size base : Nat}
    {records : List Bytes} {log : List Medium.Write} (member : size ∈ recordSizes)
    (sized : ∀ r ∈ records, r.length = size) (some : records ≠ [])
    (indexed : Indexed decompress host tab records.flatten log base (base + tab.encodedSize)) :
    TableOf decompress log (base + tab.encodedSize) size records where
  whole := by
    have closed := indexed.closed
    obtain ⟨positive, _⟩ := recordSizesDivide member
    have blocks : 0 < tab.blocks.length := by
      rw [closed.cut.count, closed.stream, Bytes.flattenLength sized, metadataSize]
      have := Nat.mul_le_mul (List.length_pos_of_ne_nil some) positive
      omega
    obtain ⟨b, found⟩ : ∃ b, tab.blocks[0]? = Option.some b := ⟨_, List.getElem?_eq_getElem blocks⟩
    have first : Bytes.readLE (Medium.read log (base + tab.encodedSize) 8) = base := by
      have entry := Medium.readSlice log (base + tab.encodedSize) (k := 0) (n := 8) (m := tab.blocks.length * 8)
        (by omega)
      rw [Nat.add_zero] at entry
      rw [entry, indexed.entries, ← Nat.mul_zero 8, indexTableSlice host base found, closed.offsets 0 b found]
      have small := indexed.fits
      exact Bytes.readLeBounded (by simp [FramedStream.start, uint]; omega)
    rw [first, Nat.add_sub_cancel_left, indexed.table]
    refine ⟨tab.blocks.length, _, parseAllEncoded (fun b member => readFrame (closed.stored b member))
      (fun b _ => frameNonempty b) (le_refl _), ?_⟩
    rw [← closed.stream]
    rfl
  lookup i record found := recordFound member sized indexed found

structure Exports (decompress : Bytes → Option Bytes) (r : Nat) (image : Assembly) (env : Env) : Prop where
  numbers : Set.BijOn (fun i => (image.inodes.inode i).inodeNumber) (Set.Iio image.inodes.count)
    (Set.Icc 1 image.inodes.count)
  table : ∃ (index : Nat) (values : List Nat), image.exportOffset = some index ∧ values.length = image.inodes.count ∧
    TableOf raw env.written index 8 (values.map (Bytes.le 8)) ∧
    ∀ i, i < image.inodes.count → ∃ value, values[(image.inodes.inode i).inodeNumber - 1]? = some value ∧
      value < 2 ^ 48 ∧ (ReflTransGen image.inodes.Contains r i →
        Leads decompress (image.inodes.inodeTable.onMedium env) value (image.inodes.inode i).inodeNumber) ∧
      (¬ ReflTransGen image.inodes.Contains r i → value = 0xffffffffffff)

theorem foldSetRange {α : Type} (v : Nat → α) {n : Nat} {l : List α} (enough : n ≤ l.length) :
    (List.range n).foldl (fun l i => l.set i (v i)) l = (List.range n).map v ++ l.drop n := by
  induction n with
  | zero => simp
  | succ n ih =>
    rw [List.range_succ, List.foldl_append, ih (by omega), List.map_append, List.append_assoc]
    simp only [List.foldl_cons, List.foldl_nil]
    rw [List.set_append_right _ _ (by simp), List.length_map, List.length_range, Nat.sub_self,
      List.drop_eq_getElem_cons (by omega)]
    rfl

/- With their numbers the inodes fill the array in the order they were created in. -/
theorem inodeMapNumbered {t : Inodes} (number : ∀ i, i < t.count → (t.inode i).inodeNumber = i + 1)
    (small : t.count < 2 ^ 32) : inodeMap t = (List.range t.count).map fun i => encodedInode (t.inode i) := by
  have each : inodeMap t = (List.range t.count).foldl (fun map i => map.set i (encodedInode (t.inode i)))
      (List.replicate t.count 0) := by
    refine List.foldl_ext _ _ _ fun map i member => ?_
    have inside := List.mem_range.mp member
    have place : uint ((t.inode i).inodeNumber + uintMax) = i := by
      rw [number i inside, uint, uintMax]
      omega
    rw [place]
  rw [each, foldSetRange _ (by simp), List.drop_of_length_le (by simp), List.append_nil]

theorem encodedInodeParts {x : Inode} {block offset : Nat} (place : x.inodeTableEntry = ⟨block, offset⟩)
    (small : offset < 2 ^ 16) : encodedInode x / 2 ^ 16 = block ∧ encodedInode x % 2 ^ 16 = offset := by
  have same : encodedInode x = 2 ^ 16 * block + offset := by
    rw [encodedInode, place, Nat.two_pow_add_eq_or_of_lt small, Nat.lor_comm, Nat.shiftLeft_eq, Nat.mul_comm]
  rw [same]
  omega

theorem encodedInodeBound {x : Inode} {block offset : Nat} (place : x.inodeTableEntry = ⟨block, offset⟩)
    (small : offset < 2 ^ 16) (block' : block < 2 ^ 32) : encodedInode x < 2 ^ 48 := by
  obtain ⟨high, low⟩ := encodedInodeParts place small
  omega

theorem encodedInodeUnplaced {x : Inode} (place : x.inodeTableEntry = ⟨2 ^ 32 - 1, 2 ^ 32 - 1⟩) :
    encodedInode x = 0xffffffffffff := by
  rw [encodedInode, place]
  decide

section
variable {o : FinalizeConfig} {image next : Assembly} {env after : Env}

theorem exportEntriesLength (host : Bytes.Host) (t : Inodes) :
    (∀ r ∈ exportEntries host t, r.length = 8) ∧ (exportEntries host t).length = t.count := by
  constructor
  · intro r member
    obtain ⟨value, _, rfl⟩ := List.mem_map.mp member
    simp
  · rw [exportEntries, List.length_map, inodeMap]
    exact List.foldlRecOn (motive := fun map : List Nat => map.length = t.count) _ _ (by simp) fun map same _ _ => by
      rw [List.length_set, same]

theorem exportWritten {host : Bytes.Host} (ok : image.writeExportTable host env = (true, next, after))
    (small : exportTableSize image.inodes.count < 2 ^ 32) : ∃ tab : Metatable,
      Indexed raw host tab (exportEntries host image.inodes).flatten after.written env.size
        (env.size + tab.encodedSize) ∧
      next = {image with exportOffset := some (env.size + tab.encodedSize)} ∧
      after.size = env.size + tab.encodedSize + tab.blocks.length * 8 := by
  have holds := @initHolds raw none (fun c absent => nomatch absent)
  obtain ⟨taken, _, held, _, all, size, _⟩ := appendSpec (exportEntries host image.inodes).flatten env holds
  simp only [writeExportTable] at ok
  rcases appended : (init none).append (exportEntries host image.inodes).flatten env with ⟨_ | _, table, mid⟩
  · rw [appended] at ok
    cases ok
  · rw [appended] at ok held all size
    simp only [if_true] at ok
    rw [all rfl, List.nil_append] at held
    rcases written : table.writeWithIndex host mid with ⟨_ | _, tab, last⟩
    · rw [written] at ok
      cases ok
    · rw [written] at ok
      simp only [Prod.mk.injEq, true_and] at ok
      obtain ⟨rfl, rfl⟩ := ok
      obtain ⟨sized, count⟩ := exportEntriesLength host image.inodes
      have bound := writeWithIndexSize held written
      rw [Bytes.flattenLength sized, count, Nat.mul_comm image.inodes.count] at bound
      obtain ⟨indexed, offset, grown, _⟩ := writeWithIndexSpec held written (Nat.lt_of_le_of_lt bound small)
      rw [size] at indexed offset grown
      exact ⟨tab, indexed, by rw [offset], grown⟩

/-! ### The whole call -/

def SameTree (t u : Inodes) : Prop := u = {t with dirTable := u.dirTable}

theorem performTree {op : Later} {ok : Bool} {depth : Nat} (other : op ≠ .serialize ∧ op ≠ .inodeTable)
    (ran : image.perform o depth env op = some (ok, next, after)) :
    SameTree image.inodes next.inodes ∧ (op ≠ .exportTable → next.exportOffset = image.exportOffset) := by
  replace ran := (performed.mp ran).1
  cases op with
  | serialize => exact absurd rfl other.1
  | inodeTable => exact absurd rfl other.2
  | fragmentTable =>
    simp only [operate, writeFragmentTable] at ran
    split at ran <;> cases ran <;> exact ⟨rfl, fun _ => rfl⟩
  | xattrTable =>
    obtain ⟨_, _, same⟩ := Option.map_eq_some_iff.mp ran
    cases same
    exact ⟨rfl, fun _ => rfl⟩
  | superblock =>
    obtain ⟨_, _, same⟩ := Option.map_eq_some_iff.mp ran
    cases same
    exact ⟨rfl, fun _ => rfl⟩
  | exportTable =>
    cases ran
    exact ⟨rfl, fun bad => absurd rfl bad⟩
  | _ =>
    cases ran
    exact ⟨rfl, fun _ => rfl⟩

theorem runTree {first s : List Later × Assembly × Env} {ops : List Later}
    {trace : List (Event (List Later × Assembly × Env) (Later × Bool))} (run : Run (Stage o) first trace s)
    (same : labels trace = ops.map (·, true)) (other : .serialize ∉ ops ∧ .inodeTable ∉ ops) :
    SameTree first.2.1.inodes s.2.1.inodes ∧
      (.exportTable ∉ ops → s.2.1.exportOffset = first.2.1.exportOffset) := by
  have allowed : Obeys (fun _ l => l.1 ∈ ops) trace := fun e member => by
    have label : e.label ∈ labels trace := List.mem_map_of_mem member
    rw [same] at label
    obtain ⟨op, inside, own⟩ := List.mem_map.mp label
    rw [← own]
    exact inside
  refine Run.invariant (I := fun s => SameTree first.2.1.inodes s.2.1.inodes ∧
    (.exportTable ∉ ops → s.2.1.exportOffset = first.2.1.exportOffset)) (by exact ⟨rfl, fun _ => rfl⟩) ?_ run allowed
  intro s l next ⟨tree, offset⟩ inside ⟨rest, _, ⟨depth, ran⟩, _⟩
  obtain ⟨tree', offset'⟩ := performTree ⟨fun bad => other.1 (bad ▸ inside), fun bad => other.2 (bad ▸ inside)⟩ ran
  refine ⟨?_, fun absent => (offset' fun bad => absent (bad ▸ inside)).trans (offset absent)⟩
  rw [SameTree] at tree tree' ⊢
  rw [tree', tree]

structure Finalized (o : FinalizeConfig) (image : Assembly) (env : Env) (u : Inodes) (table : Metatable)
    (base : Nat) (tab : Metatable) (last : Assembly) (after : Env) : Prop where
  serialized : ∃ root depth env₁ env₂, image.inodes.root = some root ∧
    image.inodes.inodeSerialize (serializeConfig o image.bulkdata) depth root env = some (true, u, env₁) ∧
    u.inodeTable.write o.host env₁ = (true, table, env₂) ∧ env.size ≤ env₁.size ∧
    Spares env₁.size env₂.size env₂ after
  tree : SameTree {u with inodeTable := table} last.inodes
  offset : last.exportOffset = some (base + tab.encodedSize)
  indexed : Indexed raw o.host tab (exportEntries o.host last.inodes).flatten after.written base
    (base + tab.encodedSize)

theorem finalizedParts {trace : List (Event (List Later × Assembly × Env) (Later × Bool))} {rest : List Later}
    {last : Assembly} (exportable : image.options.exportable = true) (opened : Opened image env)
    (run : Run (Stage o) (operations image.options, image, env) trace (rest, last, after))
    (all : labels trace = (operations image.options).map (·, true))
    (small : exportTableSize image.inodes.count < 2 ^ 32) :
    ∃ u table base tab, Finalized o image env u table base tab last after := by
  have shape : (operations image.options).map (·, true) = (.serialize, true) :: (.inodeTable, true) ::
      (([.dirTable, .fragmentTable] : List Later).map (·, true) ++ (.exportTable, true) ::
        ([.idTable, .xattrTable, .compressorOptions, .superblock] : List Later).map (·, true)) := by
    simp [operations, writes, exportable]
  rw [shape, labels] at all
  obtain ⟨first, trace, rfl, isSerialize, all⟩ := List.map_eq_cons_iff.mp all
  obtain ⟨second, trace, rfl, isInodes, all⟩ := List.map_eq_cons_iff.mp all
  obtain ⟨mid, trace, rfl, isMid, all⟩ := List.map_eq_append_iff.mp all
  obtain ⟨third, trace, rfl, isExport, isLater⟩ := List.map_eq_cons_iff.mp all
  obtain ⟨fromImage, serialized, run⟩ := run.front
  obtain ⟨fromFirst, inodesWritten, run⟩ := run.front
  obtain ⟨reached, between, run⟩ := run.split
  obtain ⟨fromMid, exported, later⟩ := run.front
  obtain ⟨_, _, left₁, image₁, env₁⟩ := first
  obtain ⟨_, _, left₂, image₂, env₂⟩ := second
  obtain ⟨left₃, image₃, env₃⟩ := reached
  obtain ⟨_, _, left₄, image₄, env₄⟩ := third
  dsimp only at *
  subst fromImage isSerialize fromFirst isInodes fromMid isExport
  obtain ⟨spares₁, opened₁, data₁⟩ := @stageSpares o _ env.size _ _ _ opened (le_refl _) (le_refl _) serialized
  obtain ⟨spares₂, opened₂, data₂⟩ := @stageSpares o _ env₁.size _ _ _ opened₁ (le_refl _) (le_refl _) inodesWritten
  obtain ⟨_, opened₃, _⟩ := @runSpares o _ env₂.size _ _ _ opened₂ (le_refl _) (le_refl _) between
  obtain ⟨_, opened₄, _⟩ := @stageSpares o _ env₃.size _ _ _ opened₃ (le_refl _) (le_refl _) exported
  have whole := between.append ((Run.start.move exported).append later)
  obtain ⟨spared, _⟩ := @runSpares o env₁.size env₂.size _ _ _ opened₂ (by
    rw [data₂]
    exact opened₁.size) (le_refl _) whole
  -- the tables that are written before and behind the export table leave it alone
  obtain ⟨before, _⟩ := runTree between isMid (by decide)
  obtain ⟨behind, offset⟩ := runTree later isLater (by decide)
  obtain ⟨_, _, serializing, _⟩ := serialized
  obtain ⟨depth, serializing⟩ := serializing.operates
  simp only [operate, Option.bind_eq_some_iff, Option.map_eq_some_iff] at serializing
  obtain ⟨root, rooted, ⟨good, u, env₁'⟩, returned, same⟩ := serializing
  cases same
  obtain ⟨_, _, writing, _⟩ := inodesWritten
  obtain ⟨_, writing⟩ := writing.operates
  rcases written : u.inodeTable.write o.host env₁' with ⟨good, table, env₂'⟩
  simp only [operate, written] at writing
  cases writing
  obtain ⟨_, _, exporting, _⟩ := exported
  obtain ⟨_, exporting⟩ := exporting.operates
  have framed := (Inodes.serializeRelates (R := fun _ _ => True) (fun _ => trivial) (fun _ _ => trivial)
    (fun _ _ _ => trivial) (fun _ _ _ _ _ => trivial) (fun _ _ _ _ => trivial) returned).1
  have count : image₃.inodes.count = image.inodes.count := by
    rw [before]
    exact framed.count
  obtain ⟨tab, indexed, last', grown⟩ := exportWritten (Option.some.inj exporting) (by rw [count]; exact small)
  cases last'
  dsimp only at *
  obtain ⟨spared', _⟩ := @runSpares o env₃.size env₄.size _ _ _ opened₄ (by
    exact opened₃.size) (le_refl _) later
  have tree : SameTree {u with inodeTable := table} last.inodes := by
    rw [SameTree] at before behind ⊢
    rw [behind, before]
  have entries : exportEntries o.host image₃.inodes = exportEntries o.host last.inodes := by
    rw [before, behind, before]
    rfl
  refine ⟨u, table, env₃.size, tab, ⟨root, depth, env₁', env₂, rooted, returned, written, spares₁.size, spared⟩,
    tree, offset (by decide), ?_⟩
  rw [← entries]
  exact indexedKept spared' (le_refl _) (Nat.le_of_eq grown.symm) indexed

theorem headerNumber (host : Bytes.Host) {x : Inode} (type : Nat) {stream : Bytes} {k : Nat} (short : k ≤ stream.length)
    (bounded : x.inodeNumber < 2 ^ 32) (front : inodeHeader host x type <+: stream.drop k) :
    k + 16 ≤ stream.length ∧ Bytes.readLE ((Bytes.slice stream k 16).drop 12) = x.inodeNumber := by
  obtain ⟨more, shape⟩ := front
  have length : (inodeHeader host x type).length = 16 := by simp [inodeHeader]
  have total := congrArg List.length shape
  rw [List.length_append, List.length_drop, length] at total
  refine ⟨by omega, ?_⟩
  have header : Bytes.slice stream k 16 = inodeHeader host x type := by
    rw [Bytes.slice, ← shape, List.take_append_of_le_length (by omega), List.take_of_length_le (by omega)]
  rw [header, inodeHeader, List.drop_left' (by simp), Bytes.putLe, Bytes.readLeBounded (by omega)]

theorem tableOnMedium {decompress : Bytes → Option Bytes} {host : Bytes.Host} {tab table : Metatable} {stream : Bytes}
    {mid last : Env} (holds : Holds decompress tab stream) (written : tab.write host env = (true, table, mid))
    (small : table.encodedSize < 2 ^ 32) (spared : Spares env.size mid.size mid last) :
    table.onMedium last = table.onMedium mid := by
  rw [encodedSizeExact (writeClosed holds written).1.stored] at small
  obtain ⟨_, _, offset, _, grown, _⟩ := writeSpec holds written small
  rw [onMedium, onMedium, offset]
  exact spared.read (le_refl _) (Nat.le_of_eq grown.symm)

theorem exportTable {config : BuilderConfig} {start : Env} {calls : List (Event Builder (Call × Bool))} {b : Builder}
    {decompress : Bytes → Option Bytes} {r : Nat} {last : Assembly} {rest : List Later}
    {trace : List (Event (List Later × Assembly × Env) (Later × Bool))}
    (inverse : Inverse config.inodeCompressor decompress) (built : Run (Builder.Step config) (.init config start) calls b)
    (same : image.inodes = b.inodes) (root : image.inodes.root = some r) (exportable : image.options.exportable = true)
    (opened : Opened image env) (run : Run (Stage o) (operations image.options, image, env) trace (rest, last, after))
    (all : labels trace = (operations image.options).map (·, true))
    (records : last.inodes.inodeTable.encodedSize < 2 ^ 32) (numbers : exportTableSize image.inodes.count < 2 ^ 32) :
    Exports decompress r last after := by
  obtain ⟨u, table, base, tab, parts⟩ := finalizedParts exportable opened run all numbers
  obtain ⟨root', depth, env₁, env₂, rooted, returned, written, _, spared⟩ := parts.serialized
  obtain rfl : r = root' := Option.some.inj (root.symm.trans rooted)
  obtain ⟨linkage, numbered⟩ := Inodes.runNumbered built
  have unencoded := (Builder.runSheltered built).2.unencoded
  have blank (i : Nat) : ¬ b.inodes.Marked i := fun marked => marked (unencoded i)
  rw [same] at returned numbers
  have placed : Inodes.Placed decompress (serializeConfig o image.bulkdata) b.inodes [] := by
    refine ⟨?_, fun i marked => absurd marked (blank i), fun i marked => absurd marked (blank i)⟩
    rw [(builtTables built).1]
    exact initHolds inverse
  obtain ⟨reached, stream, placed⟩ := Inodes.serializePlaces placed returned
  obtain ⟨_, closed⟩ := Inodes.serializeClosed linkage (fun d _ marked => absurd marked (blank d)) returned
  have tree := parts.tree
  have inode (i : Nat) : last.inodes.inode i = u.inode i := by
    rw [tree]
  have count : last.inodes.count = b.inodes.count := by
    rw [tree]
    exact reached.framed.count
  have bounded : b.inodes.count < 2 ^ 32 - 1 := by
    rw [exportTableSize, metadataSize] at numbers
    omega
  have number (i : Nat) (inside : i < last.inodes.count) : (last.inodes.inode i).inodeNumber = i + 1 := by
    rw [inode, (reached.framed.inode i).2.2.1, numbered.number i (count ▸ inside), uint]
    omega
  have contains : last.inodes.Contains = b.inodes.Contains := by
    funext d c
    rw [tree, eq_iff_iff]
    change u.Contains d c ↔ _
    rw [Inodes.containsChild, Inodes.containsChild, reached.framed.children]
  refine ⟨⟨fun i inside => ?_, fun i inside j inside' equal => ?_, fun n inside => ?_⟩,
    _, (List.range last.inodes.count).map fun i => encodedInode (last.inodes.inode i), parts.offset, by simp, ?_,
    fun i inside => ⟨encodedInode (last.inodes.inode i), ?_, ?_, fun below => ?_, fun apart => ?_⟩⟩
  · simp only [Set.mem_Icc, number i inside]
    exact ⟨by omega, inside⟩
  · simp only [number i inside, number j inside'] at equal
    omega
  · obtain ⟨low, high⟩ := Set.mem_Icc.mp inside
    have below : n - 1 < last.inodes.count := by omega
    exact ⟨n - 1, below, by simp only [number _ below]; omega⟩
  · have entries : exportEntries o.host last.inodes = ((List.range last.inodes.count).map fun i =>
        encodedInode (last.inodes.inode i)).map (Bytes.le 8) := by
      rw [exportEntries, inodeMapNumbered number (by omega)]
      exact List.map_congr_left fun value _ => Bytes.putLe o.host 8 value
    have some : exportEntries o.host last.inodes ≠ [] := by
      have created := ((Builder.runSettled built).root r (same ▸ root)).1
      have := (exportEntriesLength o.host last.inodes).2
      rintro none
      rw [none, List.length_nil] at this
      omega
    rw [← entries]
    exact indexedTable (by decide) (exportEntriesLength o.host last.inodes).1 some parts.indexed
  · rw [number i inside, Nat.add_sub_cancel, List.getElem?_map, List.getElem?_range inside]
    rfl
  · by_cases marked : u.Marked i
    · obtain ⟨k, _, found⟩ := placed.record i marked
      have offset : k % metadataSize < 2 ^ 16 := Nat.lt_trans (Nat.mod_lt k (by decide)) (by decide)
      exact encodedInodeBound (by rw [inode]; exact found.place) offset (Nat.mod_lt _ (by decide))
    · have apart := mt (Inodes.markedBelow reached closed i).1 marked
      rw [encodedInodeUnplaced (by rw [inode, (Inodes.markedBelow reached closed i).2 apart, numbered.unplaced i])]
      decide
  · rw [contains] at below
    have marked := (Inodes.markedBelow reached closed i).1 below
    obtain ⟨k, short, found⟩ := placed.record i marked
    have front := (Inodes.frontHeader (serializeConfig o image.bulkdata) u (u.inode i)).trans found.bytes
    rw [← inode] at front
    obtain ⟨room, own⟩ := headerNumber _ _ short (by rw [number i inside]; omega) front
    have grown : u.inodeTable.blocks <+: table.blocks := by
      rw [(writeClosed placed.holds written).2]
      exact flushPrefix _
    have later : Inodes.PlacedAt decompress table (stream ++ []) _ _ k := found.grown grown short
    obtain ⟨block, offset⟩ := encodedInodeParts later.place (Nat.lt_trans (Nat.mod_lt k (by decide)) (by decide))
    have records' : last.inodes.inodeTable = table := by
      rw [tree]
    rw [records'] at records ⊢
    refine ⟨_, ?_, own⟩
    rw [tableOnMedium placed.holds written records spared, inode, block, offset]
    exact readMedium placed.holds written records room
  · rw [contains] at apart
    have unplaced := (Inodes.markedBelow reached closed i).2 apart
    exact encodedInodeUnplaced (by rw [inode, unplaced, numbered.unplaced i])

end

def linkedConfig : BuilderConfig := ⟨.never, 4096, none⟩

def linkedCalls : List Call :=
  [.directory ⟨0, 0, 493, 0, 0, 0, none⟩, .fifo ⟨0, 0, 420, 0, 0, 0, none⟩, .fifo ⟨0, 0, 420, 0, 0, 0, none⟩,
    .addEntry 0 [97] 1, .setRoot 0]

def linkedImage : Assembly :=
  {rootOnly with
    options := ⟨false, false, false, .never, true, 1, true, 4096, 12⟩
    inodes := (Builder.runAll linkedConfig (.init linkedConfig .fresh) linkedCalls).2.inodes}

theorem linkedFinalized : ∃ trace last after,
    Run (Stage ⟨.little, 0, true⟩) (operations linkedImage.options, linkedImage, firstMalloc true) trace ([], last, after) ∧
      labels trace = (operations linkedImage.options).map (·, true) ∧ last.inodes.inodeTable.encodedSize = 54 := by
  have first : Stage ⟨.little, 0, true⟩ (operations linkedImage.options, linkedImage, firstMalloc true)
    (.serialize, true) (_, _, _) := ⟨_, rfl, ⟨2, rfl⟩, rfl⟩
  have run := Run.start.move first
  have run := run.move (show Stage _ _ (.inodeTable, true) (_, _, _) from ⟨_, rfl, ⟨0, rfl⟩, rfl⟩)
  have run := run.move (show Stage _ _ (.dirTable, true) (_, _, _) from ⟨_, rfl, ⟨0, rfl⟩, rfl⟩)
  have run := run.move (show Stage _ _ (.fragmentTable, true) (_, _, _) from ⟨_, rfl, ⟨0, rfl⟩, rfl⟩)
  have run := run.move (show Stage _ _ (.exportTable, true) (_, _, _) from ⟨_, rfl, ⟨0, rfl⟩, rfl⟩)
  have run := run.move (show Stage _ _ (.idTable, true) (_, _, _) from ⟨_, rfl, ⟨0, rfl⟩, rfl⟩)
  have run := run.move (show Stage _ _ (.xattrTable, true) (_, _, _) from ⟨_, rfl, ⟨0, rfl⟩, rfl⟩)
  have run := run.move (show Stage _ _ (.compressorOptions, true) (_, _, _) from ⟨_, rfl, ⟨0, rfl⟩, rfl⟩)
  have run := run.move (show Stage _ _ (.superblock, true) (_, _, _) from ⟨_, rfl, ⟨0, rfl⟩, rfl⟩)
  exact ⟨_, _, _, run, rfl, rfl⟩

theorem linkedExported : ∃ last after, Exports raw 0 last after ∧ last.inodes.inodeTable.encodedSize = 54 := by
  obtain ⟨trace, last, after, run, all, size⟩ := linkedFinalized
  have valid : Builder.Along linkedConfig (fun b l => l.1.Valid b.inodes) (.init linkedConfig .fresh) linkedCalls := by
    decide
  obtain ⟨calls, built, _⟩ := Builder.allRun .start valid
  exact ⟨last, after, exportTable (show Inverse none raw from fun c absent => nomatch absent) built rfl rfl rfl ⟨rfl, le_refl 96⟩ run all
    (by rw [size]; decide) (by decide), size⟩

/-! ### A record behind 2^32 bytes of others -/

def willing (size : Nat) (log : List Medium.Write) : Env := ⟨size, log, fun _ => true, fun _ => true⟩

theorem willingAppended {stream : Bytes} {tab : Metatable} (pieces : List Bytes) (holds : Holds raw tab stream)
    (size : Nat) (log : List Medium.Write) : ∃ next,
      appendEach pieces tab (willing size log) = (true, next, willing size log) ∧
        Holds raw next (stream ++ pieces.flatten) := by
  obtain ⟨ok, granting, held⟩ := appendEachGranted pieces holds (show (willing size log).Granting from fun _ => rfl)
  obtain ⟨mallocs, same⟩ := appendEachMemory pieces tab (willing size log)
  generalize appendEach pieces tab (willing size log) = result at ok granting held same
  obtain ⟨good, next, after⟩ := result
  simp only at ok granting held same
  subst ok same
  have all : mallocs = fun _ => true := funext granting
  subst all
  exact ⟨next, rfl, held⟩

theorem willingWritten {stream : Bytes} {tab : Metatable} (holds : Holds raw tab stream) {size : Nat}
    {log : List Medium.Write}
    (fits : size + (encoded (framing raw) tab.flush.blocks).length < 2 ^ 63) : ∃ more,
      tab.write .little (willing size log) = (true, {tab.flush with offset := some size},
        willing (size + tab.flush.size) (log ++ more)) ∧
      more = Medium.consecutive size (blockBuffers .little tab.flush.blocks) := by
  obtain ⟨after, written, grown, logged, accepting, mallocs⟩ :=
    writeAccepted .little holds (show (willing size log).Accepting from fun _ => rfl) fits
  refine ⟨_, ?_, rfl⟩
  rw [written]
  obtain ⟨size', log', mallocs', pwrites'⟩ := after
  have all : pwrites' = fun _ => true := funext accepting
  simp only at grown logged mallocs
  subst all grown logged mallocs
  rfl

def farCalls (name : Bytes) : List Call :=
  [.directory ⟨0, 0, 493, 0, 0, 0, none⟩, .symlink ⟨0, 0, 511, 0, 0, 0, none⟩ name, .addEntry 0 [97] 1, .setRoot 0]

def farTree (name : Bytes) : Inodes := (Builder.runAll linkedConfig (.init linkedConfig .fresh) (farCalls name)).2.inodes

def farImage (name : Bytes) : Assembly :=
  {rootOnly with
    options := ⟨false, false, false, .never, true, 1, true, 4096, 12⟩
    inodes := farTree name}

def symlinkRecord (name : Bytes) : Bytes :=
  Bytes.le 2 3 ++ Bytes.le 2 511 ++ Bytes.le 2 0 ++ Bytes.le 2 0 ++ Bytes.le 4 0 ++ Bytes.le 4 2 ++ Bytes.le 4 1 ++
    Bytes.le 4 name.length

theorem farChild (name : Bytes) : (farTree name).inode 1 =
    ⟨⟨0, 0, 511, 0, 0, 0, none⟩, 1, ⟨2 ^ 32 - 1, 2 ^ 32 - 1⟩, 2, 0, 0, .symlink name⟩ := rfl

theorem farChildren (name : Bytes) : (farTree name).children 0 = [1] := rfl

theorem farTables (name : Bytes) : (farTree name).inodeTable = .init none ∧ (farTree name).dirTable = .init none ∧
    (farTree name).count = 2 ∧ (farTree name).root = some 0 := ⟨rfl, rfl, rfl, rfl⟩

def farConfig : SerializeConfig := serializeConfig ⟨.little, 0, true⟩ rootOnly.bulkdata

def farListed (name : Bytes) (table : Metatable) : Inodes :=
  {({farTree name with begun := [0]}).setInode 1 ⟨⟨0, 0, 511, 0, 0, 0, none⟩, 1, ⟨0, 0⟩, 2, 3, 3, .symlink name⟩ with
    inodeTable := table}

theorem recordWritten {t : Inodes} {i type baseType : Nat} {pieces : List Bytes} {table : Metatable} {env after : Env}
    (appended : appendEach pieces t.inodeTable env = (true, table, after)) :
    t.writeRecord i type baseType pieces env = (true, {t.setInode i {t.inode i with
      encodedType := type
      encodedBaseType := baseType
      inodeTableEntry := t.inodeTable.position} with inodeTable := table}, after) := by
  simp only [Inodes.writeRecord, Inodes.setInode]
  rw [appended]

theorem symlinkEncoded {t : Inodes} {i : Nat} {name : Bytes} (o : SerializeConfig)
    (body : (t.inode i).body = .symlink name) (env : Env) : t.inodeEncode o i env =
      t.writeRecord i symlinkType symlinkType [inodeHeader o.host (t.inode i) symlinkType ++
        Bytes.put o.host 4 (t.inode i).nlink ++ Bytes.put o.host 4 name.length, name] env := by
  simp only [Inodes.inodeEncode, body, Inodes.symlinkInodeSerialize]

theorem farLeaf {name : Bytes} {table : Metatable} {size : Nat} {log : List Medium.Write}
    (appended : appendEach [symlinkRecord name, name] (.init none) (willing size log) = (true, table, willing size log)) :
    ({farTree name with begun := [0]}).inodeEncode farConfig 1 (willing size log) =
      (true, farListed name table, willing size log) := by
  have pieces : [inodeHeader farConfig.host ((farTree name).inode 1) symlinkType ++
      Bytes.put farConfig.host 4 ((farTree name).inode 1).nlink ++ Bytes.put farConfig.host 4 name.length, name] =
      [symlinkRecord name, name] := by
    rw [farChild, inodeHeader]
    simp only [Bytes.putLe, symlinkRecord]
    rfl
  have encoded := symlinkEncoded (t := {farTree name with begun := [0]}) farConfig (i := 1) rfl (willing size log)
  rw [encoded, pieces, recordWritten appended]
  rfl

def rootRecord : Bytes :=
  Bytes.le 2 1 ++ Bytes.le 2 493 ++ Bytes.le 2 0 ++ Bytes.le 2 0 ++ Bytes.le 4 0 ++ Bytes.le 4 1 ++
    Bytes.le 4 0 ++ Bytes.le 4 1 ++ Bytes.le 2 24 ++ Bytes.le 2 0 ++ Bytes.le 4 3

theorem farEntries (name : Bytes) (table : Metatable) : (farListed name table).entries 0 = [0] := rfl

theorem farListedEntry (name : Bytes) (table : Metatable) : (farListed name table).listed 0 = ⟨[97], ⟨0, 0⟩, 2, 3⟩ := rfl

def farEncoder : Encoder := (encodeEntries .little 0 [⟨[97], ⟨0, 0⟩, 2, 3⟩] (willing 96 [])).2.1

theorem farEncoded : encodeEntries .little 0 [⟨[97], ⟨0, 0⟩, 2, 3⟩] (willing 96 []) = (true, farEncoder, willing 96 []) := rfl

def farEntry : EncodedEntry :=
  ⟨⟨[97], ⟨0, 0⟩, 2, 3⟩, 0, 0, [0, 0, 0, 0, 0, 0, 0, 0, 2, 0, 0, 0, 0, 0, 0, 0, 3, 0, 0, 0, 97], 21⟩

theorem farEncoderParts : farEncoder.indexed = [0] ∧ farEncoder.offset = 21 ∧ farEncoder.done = [farEntry] := by decide

def farDirTable : Metatable := ((init none).append farEntry.encodedData (willing 96 [])).2.1

theorem farAppended : (init none).append farEntry.encodedData (willing 96 []) = (true, farDirTable, willing 96 []) := rfl

def farBegun (t : Inodes) : Inodes :=
  let t := t.keepEncoded [0] [farEntry]
  let t := t.setInode 0 ((t.inode 0).setDir {(t.inode 0).dir with firstIndexed := [0], indexedCount := (t.inode 0).dir.indexedCount + 1})
  t.setInode 0 ((t.inode 0).setDir {(t.inode 0).dir with encodedEntriesSize := 21, dirTableEntry := ⟨0, 0⟩})

theorem farEncode (name : Bytes) (table : Metatable) : (farListed name table).directoryEncode farConfig 0 (willing 96 []) =
    Inodes.appendEntries 0 [0] true (farBegun (farListed name table)) (willing 96 []) := by
  have encoded : encodeEntries farConfig.host farConfig.stale [⟨[97], ⟨0, 0⟩, 2, 3⟩] (willing 96 []) =
    (true, farEncoder, willing 96 []) := farEncoded
  obtain ⟨indexed, offset, done⟩ := farEncoderParts
  simp only [Inodes.directoryEncode, farEntries, List.map_cons, List.map_nil, farListedEntry, encoded, indexed, offset, done]
  rfl

theorem entryAppended {t : Inodes} {d e : Nat} {table : Metatable} {env after : Env}
    (appended : t.dirTable.append ((t.entry e).encodedData.getD []) env = (true, table, after)) :
    Inodes.appendEntries d [e] true t env = (true,
      let t := t.setEntry e {t.entry e with directoryTableEntry := t.dirTable.position}
      let t := {t with dirTable := table}
      let t := t.setInode d ((t.inode d).setDir {(t.inode d).dir with dirTableEntry := (t.entry e).directoryTableEntry})
      t.setEntry e {t.entry e with encodedData := none}, after) := by
  have same : ((t.setEntry e {t.entry e with directoryTableEntry := t.dirTable.position}).entry e).encodedData =
      (t.entry e).encodedData := by simp [Inodes.setEntry]
  have table : (t.setEntry e {t.entry e with directoryTableEntry := t.dirTable.position}).dirTable = t.dirTable := rfl
  simp only [Inodes.appendEntries, same, table, appended, if_true]

def farDone (t : Inodes) : Inodes :=
  let t := t.setEntry 0 {t.entry 0 with directoryTableEntry := t.dirTable.position}
  let t := {t with dirTable := farDirTable}
  let t := t.setInode 0 ((t.inode 0).setDir {(t.inode 0).dir with dirTableEntry := (t.entry 0).directoryTableEntry})
  t.setEntry 0 {t.entry 0 with encodedData := none}

def farDirectory (name : Bytes) (table : Metatable) : Inodes :=
  (farDone (farBegun (farListed name table))).pruneIndex 0

theorem farListing (name : Bytes) (table : Metatable) :
    (farListed name table).directoryEncode farConfig 0 (willing 96 []) =
      (true, farDone (farBegun (farListed name table)), willing 96 []) := by
  rw [farEncode]
  exact entryAppended farAppended

theorem farDirectoryRecord (name : Bytes) (table : Metatable) :
    (farDirectory name table).inodeTable = table ∧
    Inodes.directoryType ((farDirectory name table).inode 0) ((farDirectory name table).inode 0).dir = dirType ∧
    Inodes.directoryHeader .little (farDirectory name table) ((farDirectory name table).inode 0)
      ((farDirectory name table).inode 0).dir = rootRecord := ⟨rfl, rfl, rfl⟩

def farSerialized (name : Bytes) (table record : Metatable) : Inodes :=
  {(farDirectory name table).setInode 0 {(farDirectory name table).inode 0 with
      encodedType := dirType
      encodedBaseType := dirType
      inodeTableEntry := ⟨7938, 0⟩} with inodeTable := record}

theorem farRuns {name : Bytes} {first second : Metatable}
    (child : appendEach [symlinkRecord name, name] (.init none) (willing 96 []) = (true, first, willing 96 []))
    (own : appendEach [rootRecord] first (willing 96 []) = (true, second, willing 96 []))
    (place : first.position = ⟨7938, 0⟩) : (farTree name).inodeSerialize farConfig 2 0 (willing 96 []) =
      some (true, farSerialized name first second, willing 96 []) := by
  have leaf : Inodes.inodeSerialize farConfig 1 {farTree name with begun := [0]} 1 (willing 96 []) =
      some (true, farListed name first, willing 96 []) := by
    rw [Inodes.serializeLeaf farConfig 0 _ rfl (by rintro ⟨_, bad⟩; cases bad), farLeaf child]
  obtain ⟨table, type, header⟩ := farDirectoryRecord name first
  rw [Inodes.serializeDirectory farConfig 1 _ rfl ⟨_, rfl⟩, farChildren]
  have each : Inodes.serializeEach (Inodes.inodeSerialize farConfig 1) [1] {farTree name with begun := [0]} (willing 96 []) =
      some (true, farListed name first, willing 96 []) := by
    simp only [Inodes.serializeEach, leaf]
  have begun : (farTree name).begun ++ [0] = [0] := rfl
  rw [begun, each]
  have encoded : (farDirectory name first).directoryInodeEncode farConfig 0 (willing 96 []) =
      (true, farSerialized name first second, willing 96 []) := by
    have host : farConfig.host = .little := rfl
    simp only [Inodes.directoryInodeEncode, type, if_true, host, header]
    rw [recordWritten (by rw [table]; exact own), table, place]
    rfl
  simp only [Inodes.directoryWrite, farListing]
  exact congrArg some encoded

theorem farInodes (name : Bytes) (first second table dir : Metatable) {t : Inodes}
    (shape : t = {farSerialized name first second with inodeTable := table, dirTable := dir}) : t.count = 2 ∧
    (t.inode 0).inodeNumber = 1 ∧ (t.inode 0).inodeTableEntry = ⟨7938, 0⟩ ∧
    (t.inode 1).inodeNumber = 2 ∧ (t.inode 1).inodeTableEntry = ⟨0, 0⟩ := by
  subst shape
  exact ⟨rfl, rfl, rfl, rfl, rfl⟩

theorem farExportEntries {t : Inodes} (count : t.count = 2) (root : (t.inode 0).inodeNumber = 1 ∧ (t.inode 0).inodeTableEntry = ⟨7938, 0⟩)
    (leaf : (t.inode 1).inodeNumber = 2 ∧ (t.inode 1).inodeTableEntry = ⟨0, 0⟩) :
    exportEntries .little t = [Bytes.le 8 520224768, Bytes.le 8 0] := by
  have number (i : Nat) (inside : i < t.count) : (t.inode i).inodeNumber = i + 1 := by
    rw [count] at inside
    obtain rfl | rfl : i = 0 ∨ i = 1 := by omega
    · exact root.1
    · exact leaf.1
  rw [exportEntries, inodeMapNumbered number (by rw [count]; decide), count]
  simp only [List.range_succ, List.range_zero, List.nil_append, List.cons_append, List.map_cons, List.map_nil,
    encodedInode, root.2, leaf.2, Bytes.putLe]
  simp

theorem farExportWritten (image : Assembly) (log : List Medium.Write)
    (entries : exportEntries .little image.inodes = [Bytes.le 8 520224768, Bytes.le 8 0]) : ∃ log',
    image.perform ⟨.little, 0, true⟩ 0 (willing 8091 log) .exportTable =
      some (true, {image with exportOffset := some 8109}, willing 8117 log') := by
  obtain ⟨log', ran⟩ : ∃ log', image.operate ⟨.little, 0, true⟩ 0 (willing 8091 log) .exportTable =
      some (true, {image with exportOffset := some 8109}, willing 8117 log') := by
    simp only [operate, writeExportTable, entries]
    exact ⟨_, rfl⟩
  exact ⟨log', performKept (by decide) ran rfl⟩

theorem farIdsWritten (image : Assembly) (log : List Medium.Write) (ids : image.idtable = rootOnly.idtable) :
    ∃ log' table, image.perform ⟨.little, 0, true⟩ 0 (willing 8117 log) .idTable =
      some (true, {image with idtable := table}, willing 8131 log') := by
  obtain ⟨log', table, ran⟩ : ∃ log' table, image.operate ⟨.little, 0, true⟩ 0 (willing 8117 log) .idTable =
      some (true, {image with idtable := table}, willing 8131 log') := by
    simp only [operate, ids]
    exact ⟨_, _, rfl⟩
  exact ⟨log', table, performKept (by decide) ran rfl⟩

theorem farSuperblockWritten (image : Assembly) (log : List Medium.Write) (root : image.inodes.root = some 0) :
    ∃ log', image.perform ⟨.little, 0, true⟩ 0 (willing 8131 log) .superblock = some (true, image, willing 8131 log') := by
  have length := superblockLength .little image (image.inodes.inode 0) 8131
  refine ⟨log ++ [(0, superblock .little image (image.inodes.inode 0) 8131)], performKept (by decide) ?_ rfl⟩
  simp only [operate, root, Option.map_some, writeSuperblock, Env.pwrite, willing, length]
  simp

theorem performedStage {o : FinalizeConfig} {ops : List Later} {op : Later} {image next : Assembly} {env after : Env}
    {depth : Nat} (ran : image.perform o depth env op = some (true, next, after)) :
    Stage o (op :: ops, image, env) (op, true) (ops, next, after) :=
  ⟨ops, rfl, ⟨depth, ran⟩, rfl⟩

theorem farRest (name : Bytes) (first second table : Metatable) (log : List Medium.Write) : ∃ trace last after,
    Run (Stage ⟨.little, 0, true⟩)
      ([.dirTable, .fragmentTable, .exportTable, .idTable, .xattrTable, .compressorOptions, .superblock],
        {farImage name with inodes := {farSerialized name first second with inodeTable := table}},
        willing 8068 log) trace ([], last, after) ∧
      labels trace = [.dirTable, .fragmentTable, .exportTable, .idTable, .xattrTable, .compressorOptions,
        .superblock].map (·, true) := by
  obtain ⟨log₁, dir, one⟩ : ∃ log₁ dir, Assembly.perform ⟨.little, 0, true⟩ 0
      {farImage name with inodes := {farSerialized name first second with inodeTable := table}} (willing 8068 log) .dirTable =
        some (true, {farImage name with inodes := {farSerialized name first second with inodeTable := table, dirTable := dir}},
          willing 8091 log₁) := by
    have plain : (farSerialized name first second).dirTable.compressor = none := rfl
    exact ⟨_, _, performed.mpr ⟨rfl, by simp [nullCalled, Metatable.nullCalled, plain]⟩⟩
  obtain ⟨image, shape⟩ : ∃ image, image = {farImage name with
    inodes := {farSerialized name first second with inodeTable := table, dirTable := dir}
    fragTableLoc := some 8091} := ⟨_, rfl⟩
  have two : Assembly.perform ⟨.little, 0, true⟩ 0 {farImage name with
      inodes := {farSerialized name first second with inodeTable := table, dirTable := dir}} (willing 8091 log₁) .fragmentTable =
        some (true, image, willing 8091 log₁) := by
    rw [shape]
    rfl
  obtain ⟨count, number, place, number', place'⟩ := farInodes name first second table dir (t := image.inodes) (by rw [shape])
  obtain ⟨log₃, three⟩ := farExportWritten image log₁ (farExportEntries count ⟨number, place⟩ ⟨number', place'⟩)
  obtain ⟨log₄, ids, four⟩ := farIdsWritten {image with exportOffset := some 8109} log₃ (by rw [shape]; rfl)
  obtain ⟨xattrs, five⟩ : ∃ xattrs, Assembly.perform ⟨.little, 0, true⟩ 0
      {image with exportOffset := some 8109, idtable := ids} (willing 8131 log₄) .xattrTable =
        some (true, {image with exportOffset := some 8109, idtable := ids, xattrTable := xattrs}, willing 8131 log₄) := by
    rw [shape]
    exact ⟨_, performKept (by decide) rfl rfl⟩
  have six : Assembly.perform ⟨.little, 0, true⟩ 0
      {image with exportOffset := some 8109, idtable := ids, xattrTable := xattrs} (willing 8131 log₄) .compressorOptions =
        some (true, {image with exportOffset := some 8109, idtable := ids, xattrTable := xattrs}, willing 8131 log₄) := by
    rw [shape]
    exact performKept (by decide) rfl rfl
  obtain ⟨log₇, seven⟩ := farSuperblockWritten
    {image with exportOffset := some 8109, idtable := ids, xattrTable := xattrs} log₄ (by rw [shape]; rfl)
  have last : Stage ⟨.little, 0, true⟩ ([.superblock], _, _) (.superblock, true) ([], _, _) := performedStage seven
  have run := ((((((Run.start.move (performedStage one)).move (performedStage two)).move (performedStage three)).move
    (performedStage four)).move (performedStage five)).move (performedStage six)).move last
  exact ⟨_, _, _, run, rfl⟩

theorem lettersUnread {bytes : Bytes} (start : bytes.take 2 = [97, 97]) (short : bytes.length < 20000) (offset : Nat) :
    readFrom (readMetablock raw) 16 bytes offset 16 = none := by
  obtain ⟨rest, rfl⟩ : ∃ rest, bytes = 97 :: 97 :: rest := by
    rw [← List.take_append_drop 2 bytes, start]
    exact ⟨_, rfl⟩
  have header : Bytes.field 2 (97 :: 97 :: rest) = some (24929, rest) := by
    simp [Bytes.field, Bytes.readLE]
  have missing : Bytes.take? 24929 rest = none := by
    rw [Bytes.take?, if_neg]
    simp only [List.length_cons] at short
    omega
  have parsed : readMetablock raw (97 :: 97 :: rest) = none := by
    simp only [readMetablock, header, bind, Option.bind_some]
    rw [show 24929 % 2 ^ 15 = 24929 from rfl, missing]
    rfl
  simp only [readFrom, parsed]

theorem farStream {name : Bytes} (length : name.length = 524161 * 8192 - 24) :
   ([symlinkRecord name, name].flatten).length = 524161 * 8192 ∧ ([rootRecord].flatten).length = 32 := by
  constructor
  · simp only [List.flatten_cons, List.flatten_nil, List.length_append, symlinkRecord, Bytes.leLength, List.length_nil, length]
  · simp [rootRecord]

theorem farBlocks {name : Bytes} {first second : Metatable} (length : name.length = 524161 * 8192 - 24)
    {rest : Bytes} (letters : name = List.replicate 7912 97 ++ ([97, 97] ++ rest))
    (before : Holds raw first [symlinkRecord name, name].flatten)
    (holds : Holds raw second ([symlinkRecord name, name].flatten ++ [rootRecord].flatten)) :
    first.position = ⟨7938, 0⟩ ∧ second.flush.size = 7972 ∧
      (encoded (framing raw) second.flush.blocks).length = 2 ^ 32 + 7972 ∧
      Bytes.slice (encoded (framing raw) second.flush.blocks) 7938 2 = [97, 97] := by
  obtain ⟨total, own⟩ := farStream length
  have closed := flushClosed holds
  have count := closed.cut.count
  rw [closed.stream, List.length_append, total, own, metadataSize] at count
  have encodedLength : (encoded (framing raw) second.flush.blocks).length = 2 ^ 32 + 7972 := by
    rw [rawEncodedLength closed.stored, closed.stream, List.length_append, total, own, count]
    norm_num
  refine ⟨?_, ?_, encodedLength, ?_⟩
  · rw [(rawPositionStream before).1, rawPosition, total]
    rfl
  · rw [closed.size, encodedLength]
    rfl
  · have part := firstBlockSlice closed (show 7936 + 2 ≤ metadataSize by decide)
      (by rw [List.length_append, total, own, metadataSize]; omega)
    rw [part]
    have head : (symlinkRecord name ++ List.replicate 7912 97).length = 7936 := by
      rw [List.length_append, List.length_replicate, symlinkRecord]
      simp only [List.length_append, Bytes.leLength]
    have middle := Bytes.sliceMiddle (symlinkRecord name ++ List.replicate 7912 97) [97, 97] (rest ++ [rootRecord].flatten)
    have shape : [symlinkRecord name, name].flatten ++ [rootRecord].flatten =
        symlinkRecord name ++ List.replicate 7912 97 ++ ([97, 97] ++ (rest ++ [rootRecord].flatten)) := by
      generalize symlinkRecord name = record
      rw [letters]
      simp only [List.flatten_cons, List.flatten_nil, List.append_nil, List.append_assoc]
    rw [shape, ← head]
    exact middle

structure Plain (image : Assembly) : Prop where
  inodes : image.inodes.inodeTable.compressor = none
  dirs : image.inodes.dirTable.compressor = none
  fragments : image.bulkdata.fragmentBlockCount = 0

theorem serializePerformed {o : FinalizeConfig} {image : Assembly} {u : Inodes} {root depth : Nat} {env after : Env}
    (plain : image.Plain) (rooted : image.inodes.root = some root)
    (ran : image.inodes.inodeSerialize (serializeConfig o image.bulkdata) depth root env = some (true, u, after)) :
    image.perform o depth env .serialize = some (true, {image with inodes := u}, after) := by
  rw [performPlain plain.inodes plain.dirs plain.fragments]
  simp only [operate, rooted, Option.bind_some, ran, Option.map_some]

theorem inodesPerformed {o : FinalizeConfig} {image : Assembly} {table : Metatable} {env after : Env}
    (plain : image.Plain) (written : image.inodes.inodeTable.write o.host env = (true, table, after)) :
    image.perform o 0 env .inodeTable =
      some (true, {image with inodes := {image.inodes with inodeTable := table}}, after) := by
  rw [performPlain plain.inodes plain.dirs plain.fragments]
  simp only [operate, written]

theorem farParts (name : Bytes) : (farImage name).inodes = farTree name ∧ (farImage name).inodes.root = some 0 ∧
    serializeConfig ⟨.little, 0, true⟩ (farImage name).bulkdata = farConfig := ⟨rfl, rfl, rfl⟩

theorem farBegins {name : Bytes} {first second table : Metatable} {log : List Medium.Write}
    (serialized : (farTree name).inodeSerialize farConfig 2 0 (willing 96 []) =
      some (true, farSerialized name first second, willing 96 []))
    (written : second.write .little (willing 96 []) = (true, table, willing 8068 log)) :
    (farImage name).perform ⟨.little, 0, true⟩ 2 (willing 96 []) .serialize =
      some (true, {farImage name with inodes := farSerialized name first second}, willing 96 []) ∧
    Assembly.perform ⟨.little, 0, true⟩ 0 {farImage name with inodes := farSerialized name first second}
      (willing 96 []) .inodeTable = some (true,
        {farImage name with inodes := {farSerialized name first second with inodeTable := table}}, willing 8068 log) := by
  obtain ⟨tree, root, config⟩ := farParts name
  have grown := Inodes.serializeGrown serialized
  constructor
  · rw [← tree, ← config] at serialized
    exact serializePerformed ⟨rfl, rfl, rfl⟩ root serialized
  · exact inodesPerformed ⟨grown.inodeTable.compressor, grown.dirTable.compressor, rfl⟩ written

theorem farValid (name : Bytes) :
    Builder.Along linkedConfig (fun b l => l.1.Valid b.inodes) (.init linkedConfig .fresh) (farCalls name) := by
  refine ⟨trivial, trivial, ⟨⟨?_, ⟨_, rfl⟩⟩, ?_⟩, ⟨?_, ⟨_, rfl⟩⟩, trivial⟩
  · exact Nat.zero_lt_two
  · exact Nat.one_lt_two
  · exact Nat.zero_lt_two

theorem farMedium {second : Metatable} {log : List Medium.Write} {after : Env}
    (total : (encoded (framing raw) second.flush.blocks).length = 2 ^ 32 + 7972)
    (stored : ∀ b ∈ second.flush.blocks, Stored raw b)
    (unread : Bytes.slice (encoded (framing raw) second.flush.blocks) 7938 2 = [97, 97])
    (logged : log = Medium.consecutive 96 (blockBuffers .little second.flush.blocks))
    (spared : Spares 96 8068 (willing 8068 log) after) :
    ((Medium.read after.written 96 7972).drop 7938).take 2 = [97, 97] := by
  have whole := Medium.readConsecutive [] 96 (blockBuffers .little second.flush.blocks)
  rw [List.nil_append, ← logged, blockBuffersFlatten stored] at whole
  have near := Medium.readSlice log 96 (k := 7938) (n := 2)
    (m := (encoded (framing raw) second.flush.blocks).length) (by rw [total]; omega)
  have part := Medium.readSlice after.written 96 (k := 7938) (n := 2) (m := 7972) (by decide)
  have kept := spared.read (show 96 ≤ 96 + 7938 by decide) (show 96 + 7938 + 2 ≤ 8068 by decide)
  rw [whole, unread] at near
  have log' : (willing 8068 log).written = log := rfl
  rw [log', near] at kept
  rw [kept] at part
  exact part.symm

theorem farNotExported {name : Bytes} {first second table : Metatable} {log : List Medium.Write}
    {trace : List (Event (List Later × Assembly × Env) (Later × Bool))} {last : Assembly} {after : Env}
    (serialized : (farTree name).inodeSerialize farConfig 2 0 (willing 96 []) =
      some (true, farSerialized name first second, willing 96 []))
    (written : second.write .little (willing 96 []) = (true, table, willing 8068 log))
    (offset : table.offset = some 96) (size : table.size = 7972)
    (lost : ∀ after, Spares 96 8068 (willing 8068 log) after →
      ((Medium.read after.written 96 7972).drop 7938).take 2 = [97, 97])
    (run : Run (Stage ⟨.little, 0, true⟩) (operations (farImage name).options, farImage name, willing 96 []) trace
      ([], last, after))
    (all : labels trace = (operations (farImage name).options).map (·, true)) : ¬ Exports raw 0 last after := by
  obtain ⟨tree, root, config⟩ := farParts name
  intro exports
  have opened : Opened (farImage name) (willing 96 []) := ⟨rfl, le_refl 96⟩
  obtain ⟨u, table', base, tab, parts⟩ := finalizedParts rfl opened run all (by
    rw [tree, (farTables name).2.2.1]
    decide)
  obtain ⟨root', depth, env₁, env₂, rooted, returned, written', _, spared⟩ := parts.serialized
  obtain rfl : root' = 0 := Option.some.inj (rooted.symm.trans root)
  rw [tree, config] at returned
  have same := (Inodes.serializeDeeper (Nat.le_max_left depth 2) returned).symm.trans
    (Inodes.serializeDeeper (Nat.le_max_right depth 2) serialized)
  cases same
  have farTable : (farSerialized name first second).inodeTable = second := rfl
  rw [farTable, show (⟨.little, 0, true⟩ : FinalizeConfig).host = .little from rfl, written] at written'
  cases written'
  have shape := parts.tree
  rw [SameTree] at shape
  obtain ⟨count, number, place, number', place'⟩ := farInodes name first second table last.inodes.dirTable shape
  have records : last.inodes.inodeTable = table := by rw [shape]
  have entries := farExportEntries count ⟨number, place⟩ ⟨number', place'⟩
  obtain ⟨_, index, values, offset', _, table', each⟩ := exports
  obtain ⟨value, found, small, reached, _⟩ := each 0 (by rw [count]; decide)
  rw [number] at found
  obtain ⟨header, read, _⟩ := reached .refl
  -- the entry of the root
  have looked := table'.lookup 0 (Bytes.le 8 value) (by rw [List.getElem?_map, found]; rfl)
  have indexed := parts.indexed
  have length := (exportEntriesLength .little last.inodes).1
  rw [parts.offset] at offset'
  obtain rfl := Option.some.inj offset'
  have own : lookupRecord raw after.written (base + tab.encodedSize) 8 0 = some (Bytes.le 8 520224768) :=
    recordFound (by decide) length indexed (by rw [entries]; rfl)
  rw [looked] at own
  have same := congrArg Bytes.readLE (Option.some.inj own)
  rw [Bytes.readLeBounded (by omega), Bytes.readLeBounded (by decide)] at same
  subst same
  -- leads to bytes that are no block
  have starts := lost after spared
  rw [records, onMedium, offset, Option.getD_some, size, readAt] at read
  have short : ((Medium.read after.written 96 7972).drop 7938).length < 20000 := by
    rw [List.length_drop, Medium.readLength]
    decide
  have nothing := lettersUnread starts short 0
  rw [show 520224768 / 2 ^ 16 = 7938 from rfl, show 520224768 % 2 ^ 16 = 0 from rfl, nothing] at read
  cases read

theorem laterRun {o : FinalizeConfig} {first mid last : List Later × Assembly × Env} {l : Later × Bool}
    {rest : List (Event (List Later × Assembly × Env) (Later × Bool))} (taken : Stage o first l mid)
    (run : Run (Stage o) mid rest last) : ∃ trace, Run (Stage o) first trace last ∧ labels trace = l :: labels rest :=
  ⟨_, (Run.start.move taken).append run, rfl⟩

def farName : Bytes := List.replicate (524161 * 8192 - 24) 97

theorem farNameParts : farName.length = 524161 * 8192 - 24 ∧
    ∃ rest, farName = List.replicate 7912 97 ++ ([97, 97] ++ rest) := by
  refine ⟨List.length_replicate, List.replicate (524161 * 8192 - 7938) 97, ?_⟩
  rw [show [97, 97] = List.replicate 2 (97 : UInt8) from rfl, List.replicate_append_replicate,
    List.replicate_append_replicate]
  exact congrArg (List.replicate · 97) (by norm_num)

/- The root lies behind 2^32 bytes, and its entry leads into the target of the symlink. -/
theorem farRecordLost : ∃ calls b trace last after,
    Run (Builder.Step linkedConfig) (.init linkedConfig .fresh) calls b ∧ (farImage farName).inodes = b.inodes ∧
    (farImage farName).options.exportable = true ∧ Opened (farImage farName) (willing 96 []) ∧
    Run (Stage ⟨.little, 0, true⟩) (operations (farImage farName).options, farImage farName, willing 96 []) trace
      ([], last, after) ∧
    labels trace = (operations (farImage farName).options).map (·, true) ∧ ¬ Exports raw 0 last after := by
  obtain ⟨length, rest, letters⟩ := farNameParts
  generalize farName = name at letters length
  have start : Holds raw (init none) [] := initHolds fun c none => nomatch none
  obtain ⟨first, child, before⟩ := willingAppended [symlinkRecord name, name] start 96 []
  rw [List.nil_append] at before
  obtain ⟨second, own, holds⟩ := willingAppended [rootRecord] before 96 []
  obtain ⟨place, size, total, unread⟩ := farBlocks length letters before holds
  have serialized := farRuns child own place
  obtain ⟨log, written, logged⟩ := @willingWritten _ _ holds 96 [] (by rw [total]; omega)
  rw [size, List.nil_append] at written
  obtain ⟨one, two⟩ := farBegins serialized written
  obtain ⟨rest, last, after, later, labelled⟩ := farRest name first second {second.flush with offset := some 96} log
  obtain ⟨calls, built, _⟩ := Builder.allRun .start (farValid name)
  obtain ⟨_, run, labelled'⟩ := laterRun (performedStage two) later
  obtain ⟨trace, whole, all⟩ := laterRun (performedStage one) run
  rw [labelled', labelled] at all
  have lost := fun after (spared : Spares 96 8068 (willing 8068 log) after) =>
    farMedium total (flushClosed holds).stored unread logged spared
  exact ⟨calls, _, trace, last, after, built, (farParts name).1, rfl, ⟨rfl, le_refl 96⟩, whole, all,
    farNotExported serialized written rfl size lost whole all⟩

end Assembly
end Libsqfs
