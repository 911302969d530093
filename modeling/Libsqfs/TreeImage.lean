import Libsqfs.TreeReader

/-! The tree that a reader finds in a finished image, from the root_inode of the
superblock on. -/
namespace Libsqfs
open Transition Relation Metatable Unfolding FramedStream

section
variable {decompress : Bytes → Option Bytes} {tab table : Metatable} {stream : Bytes} {host : Bytes.Host}

theorem Metatable.writtenFinds {env mid last : Env} (holds : Holds decompress tab stream)
    (written : tab.write host env = (true, table, mid)) (small : table.encodedSize < 2 ^ 32)
    (spared : Assembly.Spares env.size mid.size mid last) : Finds decompress (table.onMedium last) tab stream := by
  intro place bytes k n at' within
  cases n with
  | zero => rfl
  | succ n =>
    have grown : tab.blocks <+: table.blocks := by
      rw [(writeClosed holds written).2]
      exact flushPrefix _
    have room := at'.bytes.length_le
    rw [List.length_drop] at room
    have inside : k + (n + 1) ≤ stream.length := by omega
    have later : Inodes.PlacedAt decompress table (stream ++ []) place bytes k := at'.grown grown (by omega)
    obtain ⟨more, shape⟩ := at'.bytes
    rw [Assembly.tableOnMedium holds written small spared, later.place]
    refine (readMedium holds written small inside).trans ?_
    rw [Bytes.slice, ← shape, List.take_append_of_le_length within]

theorem placeInjective {blocks : List Metablock} (small : (encoded (framing decompress) blocks).length < 2 ^ 32)
    {k j : Nat} (left : k / metadataSize ≤ blocks.length) (right : j / metadataSize ≤ blocks.length)
    (same : placeOf decompress blocks k = placeOf decompress blocks j) : k = j := by
  have below {n : Nat} (inside : n ≤ blocks.length) : start (framing decompress) blocks n < 2 ^ 32 := by
    refine Nat.lt_of_le_of_lt ?_ small
    rw [← startLength]
    exact startMono _ _ inside
  simp only [placeOf, MetatableEntry.mk.injEq, uint, Nat.mod_eq_of_lt (below left), Nat.mod_eq_of_lt (below right)] at same
  have block := startInjective _ (fun b _ => frameNonempty b) left right same.1
  have split := Nat.div_add_mod k metadataSize
  rw [block, same.2, Nat.div_add_mod] at split
  exact split.symm

end

/-! ### The handles of the inodes -/

theorem AttrCall.runNarrow {call : AttrCall} {tab : IdTable} {env : Env} {attr : InodeAttr}
    (returned : (call.run tab env).1 = some attr) : attr.Narrow := by
  have simple {tab : IdTable} {uid gid : UInt32} {mode : Nat} {ctime : Int} {env : Env} {attr : InodeAttr}
      (made : (inodeattrCreateSimple tab uid gid mode ctime env).1 = some attr) : attr.Narrow := by
    have narrow (n : Int) : IdTable.uint16 n < 2 ^ 16 := by
      unfold IdTable.uint16
      omega
    simp only [inodeattrCreateSimple] at made
    split at made
    · split at made
      · cases made
      · cases made
        exact ⟨Nat.lt_of_le_of_lt Nat.and_le_right (by decide), narrow _, narrow _⟩
    · cases made
  cases given : call.extended with
  | none =>
    rw [run, given] at returned
    exact simple returned
  | some xattrset =>
    rw [run, given] at returned
    simp only [inodeattrCreateExtended, Option.map_eq_some_iff] at returned
    obtain ⟨attr', made, rfl⟩ := returned
    obtain ⟨mode, uid, gid⟩ := simple made
    exact ⟨mode, uid, gid⟩

namespace Assembly
variable {o : FinalizeConfig} {image next last : Assembly} {env after : Env} {decompress : Bytes → Option Bytes} {r : Nat}

def OnTree : Later → Prop
  | .serialize | .inodeTable | .dirTable => True
  | _ => False

theorem performInodes {op : Later} {ok : Bool} {depth : Nat} (other : ¬ OnTree op)
    (ran : image.perform o depth env op = some (ok, next, after)) : next.inodes = image.inodes := by
  replace ran := (performed.mp ran).1
  cases op with
  | serialize => exact absurd trivial other
  | inodeTable => exact absurd trivial other
  | dirTable => exact absurd trivial other
  | fragmentTable =>
    simp only [operate, writeFragmentTable] at ran
    split at ran <;> cases ran <;> rfl
  | xattrTable =>
    obtain ⟨_, _, same⟩ := Option.map_eq_some_iff.mp ran
    cases same
    rfl
  | superblock =>
    obtain ⟨_, _, same⟩ := Option.map_eq_some_iff.mp ran
    cases same
    rfl
  | _ =>
    cases ran
    rfl

theorem runInodes {first s : List Later × Assembly × Env} {trace : List (Event (List Later × Assembly × Env) (Later × Bool))}
    (run : Run (Stage o) first trace s) (other : ∀ l ∈ labels trace, ¬ OnTree l.1) : s.2.1.inodes = first.2.1.inodes := by
  have allowed : Obeys (fun _ l => ¬ OnTree l.1) trace := fun e member => other _ (List.mem_map_of_mem member)
  refine Run.invariant (I := fun s => s.2.1.inodes = first.2.1.inodes) rfl ?_ run allowed
  intro s l next same apart ⟨_, _, ⟨_, ran⟩, _⟩
  exact (performInodes apart ran).trans same

structure TreeWritten (o : FinalizeConfig) (image : Assembly) (env : Env) (r : Nat) (u : Inodes) (inodes dirs : Metatable)
    (last : Assembly) (after : Env) : Prop where
  rooted : image.inodes.root = some r
  tables : ∃ depth start mid stop,
    image.inodes.inodeSerialize (serializeConfig o image.bulkdata) depth r env = some (true, u, start) ∧
    u.inodeTable.write o.host start = (true, inodes, mid) ∧ u.dirTable.write o.host mid = (true, dirs, stop) ∧
    Spares start.size mid.size mid after ∧ Spares mid.size stop.size stop after
  tree : last.inodes = {u with inodeTable := inodes, dirTable := dirs}
  superblock : ∃ log size, after.written = log ++ [(0, superblock o.host last (last.inodes.inode r) size)]

theorem treeWritten {trace : List (Event (List Later × Assembly × Env) (Later × Bool))} {rest : List Later}
    (opened : Opened image env) (run : Run (Stage o) (operations image.options, image, env) trace (rest, last, after))
    (all : labels trace = (operations image.options).map (·, true)) :
    ∃ r u inodes dirs, TreeWritten o image env r u inodes dirs last after := by
  have shape : (operations image.options).map (·, true) = (.serialize, true) :: (.inodeTable, true) ::
      (.dirTable, true) :: ((([Later.fragmentTable] ++ (if image.options.exportable then [Later.exportTable] else [])) ++
        [Later.idTable, Later.xattrTable, Later.compressorOptions]).map (·, true) ++ [(.superblock, true)]) := by
    simp [operations, writes]
  rw [shape, labels] at all
  obtain ⟨first, trace, rfl, isSerialize, all⟩ := List.map_eq_cons_iff.mp all
  obtain ⟨second, trace, rfl, isInodes, all⟩ := List.map_eq_cons_iff.mp all
  obtain ⟨third, trace, rfl, isDirs, all⟩ := List.map_eq_cons_iff.mp all
  obtain ⟨mid, final, rfl, isMid, all⟩ := List.map_eq_append_iff.mp all
  obtain ⟨fromImage, serialized, run₁⟩ := run.front
  obtain ⟨fromFirst, inodesWritten, run₂⟩ := run₁.front
  obtain ⟨fromSecond, dirsWritten, run₃⟩ := run₂.front
  obtain ⟨reached, between, later⟩ := run₃.split
  obtain ⟨fourth, trace, rfl, isSuperblock, none⟩ := List.map_eq_cons_iff.mp all
  obtain rfl := List.map_eq_nil_iff.mp none
  obtain ⟨fromMid, superblockWritten, idle⟩ := later.front
  obtain ⟨_, _, left₁, image₁, env₁⟩ := first
  obtain ⟨_, _, left₂, image₂, env₂⟩ := second
  obtain ⟨_, _, left₃, image₃, env₃⟩ := third
  obtain ⟨left₄, image₄, env₄⟩ := reached
  obtain ⟨_, _, left₅, image₅, env₅⟩ := fourth
  have same := idle.idle
  dsimp only at *
  cases same
  subst fromImage isSerialize fromFirst isInodes fromSecond isDirs fromMid isSuperblock
  obtain ⟨_, opened₁, data₁⟩ := @stageSpares o _ env.size _ _ _ opened (le_refl _) (le_refl _) serialized
  obtain ⟨_, opened₂, data₂⟩ := @stageSpares o _ env₁.size _ _ _ opened₁ (le_refl _) (le_refl _) inodesWritten
  obtain ⟨_, opened₃, data₃⟩ := @stageSpares o _ env₂.size _ _ _ opened₂ (le_refl _) (le_refl _) dirsWritten
  obtain ⟨spared₁, _⟩ := @runSpares o env₁.size env₂.size _ _ _ opened₂ (by
    rw [data₂]
    exact opened₁.size) (le_refl _) run₂
  obtain ⟨spared₂, _⟩ := @runSpares o env₂.size env₃.size _ _ _ opened₃ (by
    rw [data₃]
    exact opened₂.size) (le_refl _) run₃
  have apart : ∀ l ∈ labels mid, ¬ OnTree l.1 := by
    intro l member
    rw [labels, isMid] at member
    obtain ⟨op, inside, rfl⟩ := List.mem_map.mp member
    simp only [List.mem_append, List.mem_ite_nil_right, List.mem_cons, List.not_mem_nil, or_false] at inside
    rcases inside with (rfl | ⟨_, rfl⟩) | rfl | rfl | rfl <;> exact id
  have before := runInodes between apart
  obtain ⟨_, _, serializing, _⟩ := serialized
  obtain ⟨depth, serializing⟩ := serializing.operates
  simp only [operate, Option.bind_eq_some_iff, Option.map_eq_some_iff] at serializing
  obtain ⟨root, rooted, ⟨good, u, env₁'⟩, returned, same⟩ := serializing
  cases same
  obtain ⟨_, _, writing, _⟩ := inodesWritten
  obtain ⟨_, writing⟩ := writing.operates
  rcases written : u.inodeTable.write o.host env₁' with ⟨good, table, env₂'⟩
  simp only [operate, written] at writing
  cases writing
  obtain ⟨_, _, writing, _⟩ := dirsWritten
  obtain ⟨_, writing⟩ := writing.operates
  rcases written' : u.dirTable.write o.host env₂ with ⟨good, table', env₃'⟩
  simp only [operate, written'] at writing
  cases writing
  obtain ⟨_, _, ran, _⟩ := superblockWritten
  obtain ⟨root', rooted', same, _, log⟩ := superblockFilled ran
  dsimp only at same before rooted' log spared₁ spared₂
  subst same
  have framed := (Inodes.serializeRelates (R := fun _ _ => True) (fun _ => trivial) (fun _ _ => trivial)
    (fun _ _ _ => trivial) (fun _ _ _ _ _ => trivial) (fun _ _ _ _ => trivial) returned).1
  rw [before] at rooted' log
  have root' : root' = root := Option.some.inj (rooted'.symm.trans (framed.root.trans rooted))
  subst root'
  refine ⟨root', u, table, table', rooted, ⟨depth, env₁', env₂, env₃, returned, written, written', spared₁, spared₂⟩,
    before, env₄.written, env₄.size, ?_⟩
  rw [log, before]

/-! ### What the superblock leads to -/

def rootPlace (log : List Medium.Write) : MetatableEntry :=
  ⟨superblockField log 32 / 2 ^ 16, superblockField log 32 % 2 ^ 16⟩

def reader (decompress : Bytes → Option Bytes) (image : Assembly) (env : Env) : View MetatableEntry Node Link :=
  readView decompress (image.inodes.inodeTable.onMedium env) (image.inodes.dirTable.onMedium env)

def place (image : Assembly) (i : Nat) : MetatableEntry := (image.inodes.inode i).inodeTableEntry

structure Recorded (decompress : Bytes → Option Bytes) (o : SerializeConfig) (t : Inodes) (r : Nat) (image : Assembly)
    (env : Env) (records : List (Nat × Bytes)) : Prop where
  whole : ∃ fuel contents, parseAll (readMetablock decompress) fuel (image.inodes.inodeTable.onMedium env) =
    some contents ∧ contents.flatten = Inodes.recordBytes records
  once : (Inodes.owners records).Nodup
  below : ∀ i, i ∈ Inodes.owners records ↔ ReflTransGen t.Contains r i
  order : ∀ pre i bytes post, records = pre ++ (i, bytes) :: post →
    image.place i = placeOf decompress image.inodes.inodeTable.blocks (Inodes.recordBytes pre).length ∧
      image.inodes.front o (image.inodes.inode i) <+: bytes ∧ ∀ c, t.Contains i c → c ∈ Inodes.owners pre

/- What is read is the tree `t` below `r`. -/
structure Restored (decompress : Bytes → Option Bytes) (o : SerializeConfig) (t : Inodes) (r : Nat) (image : Assembly)
    (env : Env) : Prop where
  root : rootPlace env.written = image.place r
  nodes : ∀ i, ReflTransGen t.Contains r i → image.reader decompress env (image.place i) =
    some ((t.inode i).node, (t.listing i).map fun x => (t.link x, image.place x.2))
  apart : ∀ i j, ReflTransGen t.Contains r i → ReflTransGen t.Contains r j → (image.place i = image.place j ↔ i = j)
  tree : ∃ tree depth, ∀ fuel, depth ≤ fuel → unfold t.view fuel r = some tree ∧
    unfold (image.reader decompress env) fuel (rootPlace env.written) = some tree
  records : ∃ records, Recorded decompress o t r image env records

theorem Recorded.rank {t : Inodes} {records : List (Nat × Bytes)} {config : SerializeConfig}
    (recorded : Recorded decompress config t r image env records) {i c : Nat} (below : ReflTransGen t.Contains r i)
    (contained : t.Contains i c) : (Inodes.owners records).idxOf c < (Inodes.owners records).idxOf i := by
  obtain ⟨x, member, rfl⟩ := List.mem_map.mp ((recorded.below i).mpr below)
  obtain ⟨pre, post, shape⟩ := List.append_of_mem member
  obtain ⟨_, _, before⟩ := recorded.order pre x.1 x.2 post shape
  have inside := before c contained
  have once := recorded.once
  have names : Inodes.owners records = Inodes.owners pre ++ x.1 :: Inodes.owners post := by
    rw [shape, Inodes.owners, List.map_append]
    rfl
  rw [names] at once ⊢
  have absent : x.1 ∉ Inodes.owners pre := fun again =>
    (List.disjoint_of_nodup_append once) again List.mem_cons_self
  rw [List.idxOf_append_of_mem inside, List.idxOf_append_of_notMem absent]
  exact Nat.lt_of_lt_of_le (List.idxOf_lt_length_of_mem inside) (Nat.le_add_right _ _)

theorem restoredTree {t : Inodes} {records : List (Nat × Bytes)} {config : SerializeConfig}
    (recorded : Recorded decompress config t r image env records) (root : rootPlace env.written = image.place r)
    (nodes : ∀ i, ReflTransGen t.Contains r i → image.reader decompress env (image.place i) =
      some ((t.inode i).node, (t.listing i).map fun x => (t.link x, image.place x.2))) :
    ∃ tree depth, ∀ fuel, depth ≤ fuel → unfold t.view fuel r = some tree ∧
      unfold (image.reader decompress env) fuel (rootPlace env.written) = some tree := by
  have child {i : Nat} {x : Link × Nat} (member : x ∈ (t.listing i).map fun x => (t.link x, x.2)) : t.Contains i x.2 := by
    obtain ⟨y, inside, rfl⟩ := List.mem_map.mp member
    exact ⟨y, inside, rfl⟩
  obtain ⟨tree, found⟩ := @unfoldEnds _ _ _ t.view (ReflTransGen t.Contains r) (Inodes.owners records).idxOf
    (fun i below => ⟨_, _, rfl, fun x member => ⟨below.tail (child member), recorded.rank below (child member)⟩⟩)
    _ r .refl (Nat.lt_succ_self _)
  refine ⟨tree, _, fun fuel deep => ⟨unfoldDeeper deep found, ?_⟩⟩
  rw [root, @unfoldMap _ _ _ _ t.view (image.reader decompress env) image.place (ReflTransGen t.Contains r)
    (fun i below => ⟨_, _, rfl, fun x member => below.tail (child member), ?_⟩) fuel r .refl]
  · exact unfoldDeeper deep found
  · rw [nodes i below, List.map_map]
    rfl

/- The two tables that the tree `u` was written to are on the medium. -/
structure Shelved (decompress : Bytes → Option Bytes) (o : SerializeConfig) (t u : Inodes) (records : List (Nat × Bytes))
    (lists : Bytes) (image : Assembly) (env : Env) : Prop where
  archive : Inodes.Archive decompress o t u records lists
  tree : ∃ inodes dirs, image.inodes = {u with inodeTable := inodes, dirTable := dirs}
  grown : u.inodeTable.blocks <+: image.inodes.inodeTable.blocks
  medium : image.inodes.inodeTable.onMedium env = encoded (framing decompress) image.inodes.inodeTable.blocks
  closed : Closed decompress image.inodes.inodeTable (Inodes.recordBytes records)
  small : image.inodes.inodeTable.encodedSize < 2 ^ 32
  findsInodes : Finds decompress (image.inodes.inodeTable.onMedium env) u.inodeTable (Inodes.recordBytes records)
  findsLists : Finds decompress (image.inodes.dirTable.onMedium env) u.dirTable lists

theorem treeShelved {t u : Inodes} {records : List (Nat × Bytes)} {lists : Bytes} {config : SerializeConfig}
    {inodes dirs : Metatable} (written : TreeWritten o image env r u inodes dirs last after)
    (archive : Inodes.Archive decompress config t u records lists) (small : last.inodes.inodeTable.encodedSize < 2 ^ 32)
    (small' : last.inodes.dirTable.encodedSize < 2 ^ 32) : Shelved decompress config t u records lists last after := by
  obtain ⟨_, _, _, _, _, inodesWritten, dirsWritten, spared, spared'⟩ := written.tables
  have tree := written.tree
  have tables : last.inodes.inodeTable = inodes ∧ last.inodes.dirTable = dirs := by
    rw [tree]
    exact ⟨rfl, rfl⟩
  rw [tables.1] at small
  rw [tables.2] at small'
  obtain ⟨medium, closed, blocks⟩ := writtenOnMedium archive.placed.holds inodesWritten small
  refine ⟨archive, ⟨_, _, tree⟩, ?_, ?_, ?_, ?_, ?_, ?_⟩
  · rw [tables.1, blocks]
    exact flushPrefix _
  · rw [tables.1, tableOnMedium archive.placed.holds inodesWritten small spared, medium]
  · rw [tables.1]
    exact closed
  · rw [tables.1]
    exact small
  · rw [tables.1]
    exact writtenFinds archive.placed.holds inodesWritten small spared
  · rw [tables.2]
    exact writtenFinds archive.holds dirsWritten small' spared'

section
variable {t u : Inodes} {records : List (Nat × Bytes)} {lists : Bytes} {config : SerializeConfig} {i j : Nat}

theorem Shelved.place (shelved : Shelved decompress config t u records lists last after) (i : Nat) :
    last.place i = (u.inode i).inodeTableEntry := by
  obtain ⟨_, _, tree⟩ := shelved.tree
  rw [Assembly.place, tree]

theorem Shelved.stands (shelved : Shelved decompress config t u records lists last after) {pre post : List (Nat × Bytes)}
    {bytes : Bytes} (shape : records = pre ++ (i, bytes) :: post) :
    (Inodes.recordBytes pre).length / metadataSize ≤ last.inodes.inodeTable.blocks.length ∧
      last.place i = placeOf decompress last.inodes.inodeTable.blocks (Inodes.recordBytes pre).length ∧
      last.inodes.front config (last.inodes.inode i) <+: bytes ∧ ∀ c, t.Contains i c → c ∈ Inodes.owners pre := by
  obtain ⟨there, front, before⟩ := shelved.archive.order pre i bytes post shape
  have later : Inodes.PlacedAt decompress last.inodes.inodeTable (Inodes.recordBytes records ++ []) _ _ _ :=
    there.grown shelved.grown (by
      rw [shape]
      simp [Inodes.recordBytes])
  obtain ⟨_, _, tree⟩ := shelved.tree
  rw [shelved.place]
  refine ⟨later.inside, later.place, ?_, before⟩
  rw [tree]
  exact front

theorem Shelved.recorded (shelved : Shelved decompress config t u records lists last after)
    (below : ∀ i, u.Marked i ↔ ReflTransGen t.Contains r i) : Recorded decompress config t r last after records where
  whole := by
    rw [shelved.medium]
    exact ⟨_, _, parseAllEncoded (fun b member => readFrame (shelved.closed.stored b member))
      (fun b _ => frameNonempty b) (le_refl _), shelved.closed.stream⟩
  once := shelved.archive.once
  below i := (shelved.archive.marked i).trans (below i)
  order _ _ _ _ shape := (shelved.stands shape).2

theorem Shelved.apart (shelved : Shelved decompress config t u records lists last after) (left : u.Marked i)
    (right : u.Marked j) (same : last.place i = last.place j) : i = j := by
  obtain ⟨pre, bytes, post, shape⟩ := shelved.archive.split left
  obtain ⟨pre', bytes', post', shape'⟩ := shelved.archive.split right
  obtain ⟨inside, place, front, _⟩ := shelved.stands shape
  obtain ⟨inside', place', front', _⟩ := shelved.stands shape'
  have small := shelved.small
  rw [encodedSizeExact shelved.closed.stored] at small
  rw [place, place'] at same
  have positive {i : Nat} {bytes : Bytes} (front : last.inodes.front config (last.inodes.inode i) <+: bytes) :
      0 < bytes.length := by
    have := (prefixTake ((Inodes.frontHeader _ _ _).trans front) (show _ = 16 by simp [inodeHeader])).1
    omega
  exact congrArg Prod.fst (Inodes.recordStart (shape.symm.trans shape') (positive front) (positive front')
    (placeInjective small inside inside' same))

theorem Shelved.root (shelved : Shelved decompress config t u records lists last after) (marked : u.Marked r)
    (superblock : ∃ log size, after.written = log ++ [(0, superblock o.host last (last.inodes.inode r) size)]) :
    rootPlace after.written = last.place r := by
  obtain ⟨log, size, written⟩ := superblock
  obtain ⟨k, _, there⟩ := shelved.archive.placed.record r marked
  have entry : (last.inodes.inode r).inodeTableEntry = ⟨_, _⟩ := (shelved.place r).trans there.place
  have offset : k % metadataSize < 2 ^ 16 := Nat.lt_trans (Nat.mod_lt k (by decide)) (by decide)
  have bound := encodedInodeBound entry offset (Nat.mod_lt _ (by decide))
  obtain ⟨block, rest⟩ := encodedInodeParts entry offset
  have field : superblockField after.written 32 = encodedInode (last.inodes.inode r) := by
    rw [written]
    exact superblockRead (i := 0) rfl (Nat.lt_trans bound (by decide))
  rw [rootPlace, field, block, rest, Assembly.place, entry]

end

theorem treeRestored {config : BuilderConfig} {start : Env} {calls : List (Event Builder (Call × Bool))} {b : Builder}
    {rest : List Later} {trace : List (Event (List Later × Assembly × Env) (Later × Bool))}
    (inverse : Inverse config.inodeCompressor decompress) (built : Run (Builder.Step config) (.init config start) calls b)
    (handles : ∀ c ok attr, (c, ok) ∈ labels calls → Call.attr c = some attr →
      ∃ (call : AttrCall) (tab : IdTable) (env : Env), (call.run tab env).1 = some attr)
    (names : ∀ p name i, (Call.addEntry p name i, true) ∈ labels calls → 1 ≤ name.length ∧ name.length ≤ 65536)
    (acyclic : ∀ d, ReflTransGen b.inodes.Contains r d → ¬ TransGen b.inodes.Contains d d)
    (same : image.inodes = b.inodes) (root : image.inodes.root = some r) (opened : Opened image env)
    (run : Run (Stage o) (operations image.options, image, env) trace (rest, last, after))
    (all : labels trace = (operations image.options).map (·, true))
    (inodes : last.inodes.inodeTable.encodedSize < 2 ^ 32) (dirs : last.inodes.dirTable.encodedSize < 2 ^ 32)
    (lists : ∀ d, ReflTransGen b.inodes.Contains r d → (last.inodes.inode d).dir.encodedEntriesSize < 2 ^ 32 - 3) :
    Restored decompress (serializeConfig o image.bulkdata) b.inodes r last after := by
  obtain ⟨r', u, table, table', written⟩ := treeWritten opened run all
  obtain rfl : r = r' := Option.some.inj (root.symm.trans written.rooted)
  obtain ⟨depth, _, _, _, returned, _⟩ := written.tables
  obtain ⟨linkage, numbered⟩ := Inodes.runNumbered built
  obtain ⟨settled, sheltered⟩ := Builder.runSheltered built
  have blank (i : Nat) : ¬ b.inodes.Marked i := fun marked => marked (sheltered.unencoded i)
  have first : Inodes.Archive decompress (serializeConfig o image.bulkdata) b.inodes b.inodes [] [] := by
    refine Inodes.archiveStart blank ?_ ?_
    · rw [(builtTables built).1]
      exact initHolds inverse
    · rw [(builtTables built).2]
      exact initHolds inverse
  rw [same] at returned
  obtain ⟨reached, records, stream, archive⟩ := Inodes.serializeArchives linkage acyclic first returned
  have below (i : Nat) : u.Marked i ↔ ReflTransGen b.inodes.Contains r i := by
    obtain ⟨on, off⟩ := Inodes.markedBelow reached archive.closed i
    refine ⟨fun marked => ?_, on⟩
    by_contra apart
    rw [Inodes.Marked, off apart] at marked
    exact blank i marked
  have inside (i : Nat) (path : ReflTransGen b.inodes.Contains r i) : i < b.inodes.count := by
    rcases ReflTransGen.cases_tail path with rfl | ⟨d, _, x, member, rfl⟩
    · exact (settled.root _ (same ▸ root)).1
    · exact linkage.target member
  have shelved := treeShelved written archive inodes dirs
  have nodes (i : Nat) (path : ReflTransGen b.inodes.Contains r i) : last.reader decompress after (last.place i) =
      some ((b.inodes.inode i).node, (b.inodes.listing i).map fun x => (b.inodes.link x, last.place x.2)) := by
    obtain ⟨c, ok, member, given⟩ := Builder.attrGiven built (inside i path)
    obtain ⟨call, tab, env', returned'⟩ := handles c ok _ member given
    have size := lists i path
    rw [written.tree] at size
    simp only [shelved.place]
    refine archive.viewed linkage shelved.findsInodes shelved.findsLists (AttrCall.runNarrow returned')
      (fun j marked => ?_) (fun x member => names i x.1 x.2 ((Builder.listingIff built i x).mp member)) size
      ((below i).mpr path)
    rw [numbered.number j (inside j ((below j).mp marked))]
    exact Nat.mod_lt _ (by decide)
  have recorded := shelved.recorded below
  have place := shelved.root ((below r).mpr .refl) written.superblock
  exact ⟨place, nodes, fun i j left right =>
    ⟨shelved.apart ((below i).mpr left) ((below j).mpr right), fun equal => by rw [equal]⟩,
    restoredTree recorded place nodes, records, recorded⟩

/- A fifo with two names, one of them in a directory of its own. -/
def sharedCalls : List Call :=
  [.directory ⟨0, 0, 493, 0, 0, 0, none⟩, .directory ⟨0, 0, 448, 7, 0, 0, none⟩, .fifo ⟨0, 0, 420, -1, 0, 0, none⟩,
    .addEntry 1 [98] 2, .addEntry 0 [99] 1, .addEntry 0 [97] 2, .setRoot 0]

def sharedTree : Inodes := (Builder.runAll linkedConfig (.init linkedConfig .fresh) sharedCalls).2.inodes

def sharedImage : Assembly := {rootOnly with inodes := sharedTree}

theorem sharedFinalized : ∃ trace last after,
    Run (Stage ⟨.little, 0, true⟩) (operations sharedImage.options, sharedImage, firstMalloc true) trace ([], last, after) ∧
      labels trace = (operations sharedImage.options).map (·, true) ∧ last.inodes.inodeTable.encodedSize = 86 ∧
      last.inodes.dirTable.encodedSize = 53 ∧ (last.inodes.inode 0).dir.encodedEntriesSize = 30 ∧
      (last.inodes.inode 1).dir.encodedEntriesSize = 21 ∧ (last.inodes.inode 2).dir.encodedEntriesSize = 0 := by
  have first : Stage ⟨.little, 0, true⟩ (operations sharedImage.options, sharedImage, firstMalloc true)
    (.serialize, true) (_, _, _) := ⟨_, rfl, ⟨3, rfl⟩, rfl⟩
  have run := Run.start.move first
  have run := run.move (show Stage _ _ (.inodeTable, true) (_, _, _) from ⟨_, rfl, ⟨0, rfl⟩, rfl⟩)
  have run := run.move (show Stage _ _ (.dirTable, true) (_, _, _) from ⟨_, rfl, ⟨0, rfl⟩, rfl⟩)
  have run := run.move (show Stage _ _ (.fragmentTable, true) (_, _, _) from ⟨_, rfl, ⟨0, rfl⟩, rfl⟩)
  have run := run.move (show Stage _ _ (.idTable, true) (_, _, _) from ⟨_, rfl, ⟨0, rfl⟩, rfl⟩)
  have run := run.move (show Stage _ _ (.xattrTable, true) (_, _, _) from ⟨_, rfl, ⟨0, rfl⟩, rfl⟩)
  have run := run.move (show Stage _ _ (.compressorOptions, true) (_, _, _) from ⟨_, rfl, ⟨0, rfl⟩, rfl⟩)
  have run := run.move (show Stage _ _ (.superblock, true) (_, _, _) from ⟨_, rfl, ⟨0, rfl⟩, rfl⟩)
  exact ⟨_, _, _, run, rfl, rfl, rfl, rfl, rfl, rfl⟩

theorem ownerHandle (mode : Nat) (ctime : Int) :
    (AttrCall.run ⟨0, 0, mode, ctime, none⟩ .init .fresh).1 = some ⟨0, 0, mode &&& 0xfff, ctime, 0, 0, none⟩ := by
  have index : IdTable.uint16 (IdTable.int 0) = 0 := IdTable.uint16Int (by decide)
  simp [AttrCall.run, inodeattrCreateSimple, IdTable.map, IdTable.init, Env.malloc, Env.fresh, List.idxOf?,
    List.findIdx?, List.findIdx?.go, index]

theorem sharedRestored : ∃ last after, sharedTree.children 0 = [2, 1] ∧ sharedTree.children 1 = [2] ∧
    Restored raw (serializeConfig ⟨.little, 0, true⟩ sharedImage.bulkdata) sharedTree 0 last after := by
  obtain ⟨trace, last, after, run, all, inodes, dirs, first, second, third⟩ := sharedFinalized
  have valid : Builder.Along linkedConfig (fun b l => l.1.Valid b.inodes) (.init linkedConfig .fresh) sharedCalls := by
    decide
  obtain ⟨calls, built, made, _⟩ := Builder.allRun .start valid
  have steps : labels calls = sharedCalls.map fun c => (c, true) := made
  have forward {d c : Nat} (contained : sharedTree.Contains d c) : d < c ∧ c < 3 := by
    obtain ⟨name, member⟩ := (Builder.containsIff built d c).mp contained
    rw [steps] at member
    simp [sharedCalls] at member
    omega
  have rises {d c : Nat} (path : TransGen sharedTree.Contains d c) : d < c := by
    induction path with
    | single step => exact (forward step).1
    | tail _ step ih => exact Nat.lt_trans ih (forward step).1
  have below {d : Nat} (path : ReflTransGen sharedTree.Contains 0 d) : d < 3 := by
    rcases ReflTransGen.cases_tail path with rfl | ⟨_, _, step⟩
    · decide
    · exact (forward step).2
  refine ⟨last, after, rfl, rfl, treeRestored (show Inverse none raw from fun c absent => nomatch absent) built
    (fun c ok attr member given => ?_) (fun p name i member => ?_) (fun d _ cycle => Nat.lt_irrefl d (rises cycle)) rfl rfl
    ⟨rfl, le_refl 96⟩ run all (by rw [inodes]; decide) (by rw [dirs]; decide) fun d path => ?_⟩
  · rw [steps] at member
    simp [sharedCalls] at member
    rcases member with ⟨rfl, _⟩ | ⟨rfl, _⟩ | ⟨rfl, _⟩ | ⟨rfl, _⟩ | ⟨rfl, _⟩ | ⟨rfl, _⟩ | ⟨rfl, _⟩
    · cases given
      exact ⟨_, _, _, ownerHandle 493 0⟩
    · cases given
      exact ⟨_, _, _, ownerHandle 448 7⟩
    · cases given
      exact ⟨_, _, _, ownerHandle 420 (-1)⟩
    · cases given
    · cases given
    · cases given
    · cases given
  · rw [steps] at member
    simp [sharedCalls] at member
    rcases member with ⟨_, rfl, _⟩ | ⟨_, rfl, _⟩ | ⟨_, rfl, _⟩ <;> decide
  · have inside := below path
    obtain rfl | rfl | rfl : d = 0 ∨ d = 1 ∨ d = 2 := by omega
    · rw [first]; decide
    · rw [second]; decide
    · rw [third]; decide

end Assembly
end Libsqfs
