import Libsqfs.DirectoryCodec
import Libsqfs.DirectoryMap
import Libsqfs.MetatableStream
import Libsqfs.SerializeFrame

/-! The index of a directory: which entries it keeps, where their records point
to, and what a scan from there finds. -/
namespace Libsqfs
open Metatable (Holds uint framing)
open Bytes (put field take?)
open FramedStream (start)
open GreedyRuns

/-! ### Thinning out -/

namespace Inodes

theorem pruneAfterMap {serialno place : Nat → Nat} {f : Nat → Nat} {current : Nat} {ks : List Nat}
    (same : ∀ k ∈ current :: ks, serialno (f k) = place k) :
    pruneAfter serialno (f current) (ks.map f) = (pruneAfter place current ks).map f := by
  induction ks generalizing current with
  | nil => rfl
  | cons next rest ih =>
    have here := same current (by simp)
    have there := same next (by simp)
    rw [List.map_cons, pruneAfter, pruneAfter, here, there]
    split
    · rw [ih fun k member => same k (List.mem_cons_of_mem _ member), List.map_cons]
    · refine ih fun k member => same k ?_
      rcases List.mem_cons.mp member with rfl | later
      · simp
      · exact List.mem_cons_of_mem _ (List.mem_cons_of_mem _ later)

theorem pruneAfterSublist (serialno : Nat → Nat) (current : Nat) (ks : List Nat) :
    (pruneAfter serialno current ks).Sublist ks := by
  induction ks generalizing current with
  | nil => exact .slnil
  | cons next rest ih =>
    rw [pruneAfter]
    split
    · exact (ih next).cons_cons next
    · exact (ih current).cons next

theorem pruneAfterSpaced (serialno : Nat → Nat) (current : Nat) (ks : List Nat) :
    (current :: pruneAfter serialno current ks).IsChain fun a b => serialno a + 128 < serialno b := by
  induction ks generalizing current with
  | nil => exact List.isChain_singleton _
  | cons next rest ih =>
    rw [pruneAfter]
    split
    · exact List.isChain_cons_cons.mpr ⟨by omega, ih next⟩
    · exact ih current

end Inodes

/-! ### The starts of the runs -/

theorem runStartsSplit {rs : List (List Listed)} {first k : Nat} (member : k ∈ runStarts first rs) :
    ∃ before run after, rs = before ++ run :: after ∧ k = first + before.flatten.length := by
  induction rs generalizing first with
  | nil => cases member
  | cons run rest ih =>
    rw [runStarts] at member
    rcases List.mem_cons.mp member with rfl | later
    · exact ⟨[], run, rest, rfl, rfl⟩
    · obtain ⟨before, run', after, rfl, place⟩ := ih later
      exact ⟨run :: before, run', after, rfl, by simp [place, Nat.add_assoc]⟩

theorem runStartsIncrease {rs : List (List Listed)} (nonempty : ∀ run ∈ rs, run ≠ []) (first : Nat) :
    (runStarts first rs).Pairwise (· < ·) ∧ ∀ k ∈ runStarts first rs, first ≤ k := by
  induction rs generalizing first with
  | nil => exact ⟨.nil, fun k member => nomatch member⟩
  | cons run rest ih =>
    obtain ⟨increase, low⟩ := ih (fun r member => nonempty r (List.mem_cons_of_mem _ member)) (first + run.length)
    have positive := List.length_pos_of_ne_nil (nonempty run (by simp))
    rw [runStarts]
    refine ⟨List.pairwise_cons.mpr ⟨fun k member => ?_, increase⟩, fun k member => ?_⟩
    · have := low k member
      omega
    · rcases List.mem_cons.mp member with rfl | later
      · exact Nat.le_refl _
      · have := low k later
        omega

theorem runsDataAppend (host : Bytes.Host) (before after : List (List Listed)) :
    runsData host (before ++ after) = runsData host before ++ runsData host after := by
  simp [runsData]

theorem runsDataTake (host : Bytes.Host) (before after : List (List Listed)) :
    (runsData host (before ++ after)).take before.flatten.length = runsData host before := by
  rw [runsDataAppend, ← runsDataCount host before, List.take_left]

def placeOf (decompress : Bytes → Option Bytes) (blocks : List Metablock) (n : Nat) : MetatableEntry :=
  ⟨uint (start (framing decompress) blocks (n / metadataSize)), n % metadataSize⟩

namespace Inodes
variable {decompress : Bytes → Option Bytes} {t u : Inodes} {d : Nat} {stream : Bytes} {o : SerializeConfig}
  {env env' : Env}

theorem positionPlace {tab : Metatable} {later : List Metablock} (holds : Holds decompress tab stream)
    (grown : tab.blocks <+: later) : tab.position = placeOf decompress later stream.length := by
  obtain ⟨count, _, place⟩ := Metatable.positionStream holds
  obtain ⟨more, rfl⟩ := grown
  rw [place, placeOf, FramedStream.startAppend _ _ _ (Nat.le_of_eq count.symm)]

/-! ### The encoded entries -/

theorem keepEncodedOther {es : List Nat} (ys : List EncodedEntry) {e : Nat} (other : e ∉ es) :
    (t.keepEncoded es ys).entry e = t.entry e := by
  induction es generalizing t ys with
  | nil => rfl
  | cons x rest ih =>
    cases ys with
    | nil => rfl
    | cons y done =>
      rw [keepEncoded, ih done fun member => other (List.mem_cons_of_mem _ member)]
      exact Function.update_of_ne (fun same => other (by rw [same]; exact List.mem_cons_self)) ..

theorem keepEncodedRest (es : List Nat) (ys : List EncodedEntry) :
    (t.keepEncoded es ys).inode = t.inode ∧ (t.keepEncoded es ys).dirTable = t.dirTable ∧
      (t.keepEncoded es ys).inodeTable = t.inodeTable := by
  induction es generalizing t ys with
  | nil => exact ⟨rfl, rfl, rfl⟩
  | cons x rest ih =>
    cases ys with
    | nil => exact ⟨rfl, rfl, rfl⟩
    | cons y done => exact ih done

theorem keepEncodedEntry {es : List Nat} {ys : List EncodedEntry} (nodup : es.Nodup) {k e : Nat}
    {y : EncodedEntry} (entry : es[k]? = some e) (encoded : ys[k]? = some y) :
    (t.keepEncoded es ys).entry e = {t.entry e with
      serialno := y.serialno
      offset := y.offset
      encodedSize := y.encodedSize
      encodedData := some y.encodedData} := by
  induction es generalizing t ys k with
  | nil => cases entry
  | cons x rest ih =>
    obtain ⟨absent, nodup⟩ := List.nodup_cons.mp nodup
    cases ys with
    | nil => cases encoded
    | cons z done =>
      cases k with
      | zero =>
        cases Option.some.inj entry
        cases Option.some.inj encoded
        rw [keepEncoded, keepEncodedOther done absent]
        exact Function.update_self ..
      | succ k =>
        have member : e ∈ rest := List.mem_of_getElem? entry
        have other : e ≠ x := fun same => absent (same ▸ member)
        rw [keepEncoded, ih nodup entry encoded]
        simp only [setEntry, Function.update_of_ne other]

/-! ### Appending them -/

theorem entryStoredEntry (t : Inodes) (d e : Nat) (first : Bool) (table : Metatable) (x : Nat) :
    (t.entryStored d e first table).entry x = if x = e then {t.entry e with
      directoryTableEntry := t.dirTable.position
      encodedData := none} else t.entry x := by
  have placed : ({t.entryPlaced e with dirTable := table}.listingPlaced d e first).entry =
      (t.entryPlaced e).entry := by
    unfold listingPlaced
    split <;> rfl
  simp only [entryStored, setEntry, Function.update_apply, placed]
  by_cases own : x = e
  · subst own
    simp [entryPlaced, setEntry]
  · simp [own, entryPlaced, setEntry]

theorem entryStoredRest (t : Inodes) (d e : Nat) (first : Bool) (table : Metatable) :
    (t.entryStored d e first table).dirTable = table ∧
      (t.entryStored d e first table).inodeTable = t.inodeTable ∧
      (t.entryStored d e first table).inode d = if first then (t.inode d).setDir {(t.inode d).dir with
        dirTableEntry := t.dirTable.position} else t.inode d := by
  unfold entryStored listingPlaced
  cases first with
  | false => exact ⟨rfl, rfl, rfl⟩
  | true => exact ⟨rfl, rfl, by simp [entryPlaced, setEntry, setInode]⟩

theorem appendEntriesSpec {es : List Nat} {first : Bool} {piece : Nat → Bytes} (nodup : es.Nodup)
    (holds : Holds decompress t.dirTable stream)
    (data : ∀ e ∈ es, (t.entry e).encodedData = some (piece e))
    (ok : appendEntries d es first t env = (true, u, env')) :
    Holds decompress u.dirTable (stream ++ (es.map piece).flatten) ∧
      t.dirTable.blocks <+: u.dirTable.blocks ∧ u.inodeTable = t.inodeTable ∧
      (∀ k e, es[k]? = some e → (u.entry e).directoryTableEntry =
        placeOf decompress u.dirTable.blocks (stream.length + ((es.take k).map piece).flatten.length)) ∧
      (∀ e, (u.entry e).serialno = (t.entry e).serialno ∧ (u.entry e).offset = (t.entry e).offset) ∧
      (∀ e, e ∉ es → u.entry e = t.entry e) ∧
      u.inode d = if first ∧ es ≠ [] then (t.inode d).setDir {(t.inode d).dir with
        dirTableEntry := placeOf decompress u.dirTable.blocks stream.length} else t.inode d := by
  induction es generalizing t stream first env with
  | nil =>
    cases ok
    exact ⟨by simpa using holds, List.prefix_refl _, rfl, fun k e found => (nomatch found),
      fun e => ⟨rfl, rfl⟩, fun _ _ => rfl, by simp⟩
  | cons x rest ih =>
    obtain ⟨absent, nodup⟩ := List.nodup_cons.mp nodup
    rw [appendEntriesTurn, data x (by simp)] at ok
    obtain ⟨taken, _, after, grown, all, _⟩ := Metatable.appendSpec (piece x) env holds
    simp only [Option.getD_some] at ok
    generalize t.dirTable.append (piece x) env = result at ok after grown all
    obtain ⟨good, table, env₁⟩ := result
    cases good with
    | false => cases ok
    | true =>
      rw [all rfl] at after
      simp only at ok after grown
      obtain ⟨dirTable, inodeTable, inode⟩ := entryStoredRest t d x first table
      have entry := entryStoredEntry t d x first table
      have later (e : Nat) (member : e ∈ rest) :
          ((t.entryStored d x first table).entry e).encodedData = some (piece e) := by
        have other : e ≠ x := fun same => absent (by rw [← same]; exact member)
        rw [entry, if_neg other]
        exact data e (List.mem_cons_of_mem _ member)
      obtain ⟨last, grown', tables, places, kept, others, root⟩ :=
        ih nodup (by rw [dirTable]; exact after) later ok
      rw [dirTable] at grown'
      have whole := grown.trans grown'
      have own := positionPlace holds whole
      refine ⟨by simpa [List.append_assoc] using last, whole, tables.trans inodeTable, fun k e found => ?_,
        fun e => ?_, fun e other => ?_, ?_⟩
      · cases k with
        | zero =>
          cases Option.some.inj found
          rw [others x absent, entry, if_pos rfl, own]
          rfl
        | succ k =>
          rw [places k e found]
          simp [Nat.add_assoc]
      · rw [(kept e).1, (kept e).2, entry]
        split
        · rename_i same
          subst same
          exact ⟨rfl, rfl⟩
        · exact ⟨rfl, rfl⟩
      · rw [others e fun member => other (List.mem_cons_of_mem _ member), entry, if_neg]
        exact fun same => other (by simp [same])
      · rw [root, if_neg (by simp), inode, own]
        cases first <;> simp

/-! ### The listing -/

def listingRuns (t : Inodes) (d : Nat) : List (List Listed) := runs fitsRun ((t.entries d).map t.listed)

def listingData (host : Bytes.Host) (t : Inodes) (d : Nat) : List Bytes := runsData host (t.listingRuns d)

def entryAt (t : Inodes) (d k : Nat) : Nat := (t.entries d).getD k 0

theorem listingRunsFlatten (t : Inodes) (d : Nat) :
    (t.listingRuns d).flatten = (t.entries d).map t.listed := runsFlatten _

theorem entryAtFound {k e : Nat} (found : (t.entries d)[k]? = some e) : t.entryAt d k = e := by
  simp [entryAt, List.getD_eq_getElem?_getD, found]

theorem startInside {k : Nat} (member : k ∈ runStarts 0 (t.listingRuns d)) : k < (t.entries d).length := by
  obtain ⟨before, run, after, shape, place⟩ := runStartsSplit member
  have positive := List.length_pos_of_ne_nil (runsNonempty ((t.entries d).map t.listed) run (by
    rw [← listingRuns, shape]
    simp))
  have total := congrArg List.length (listingRunsFlatten t d)
  rw [shape, List.length_map] at total
  simp only [List.flatten_append, List.flatten_cons, List.length_append] at total
  omega

theorem entriesOfStarts {ks : List Nat} (inside : ∀ k ∈ ks, k < (t.entries d).length) :
    (ks.filterMap fun k => (t.entries d)[k]?) = ks.map (t.entryAt d) := by
  induction ks with
  | nil => rfl
  | cons k rest ih =>
    have found := List.getElem?_eq_getElem (inside k (by simp))
    rw [List.filterMap_cons_some found, List.map_cons, entryAtFound found,
      ih fun j member => inside j (List.mem_cons_of_mem _ member)]

structure ListingWritten (decompress : Bytes → Option Bytes) (host : Bytes.Host) (t u : Inodes) (d : Nat)
    (stream : Bytes) : Prop where
  writes : Writes t u d
  holds : Holds decompress u.dirTable (stream ++ (listingData host t d).flatten)
  inodeTable : u.inodeTable = t.inodeTable
  entry : ∀ k e, (t.entries d)[k]? = some e → (u.entry e).serialno = k ∧
    (u.entry e).offset = ((listingData host t d).take k).flatten.length ∧
    (u.entry e).directoryTableEntry = placeOf decompress u.dirTable.blocks
      (stream.length + ((listingData host t d).take k).flatten.length)
  indexed : (u.inode d).dir.firstIndexed = (runStarts 0 (t.listingRuns d)).map (t.entryAt d)
  indexedCount : (u.inode d).dir.indexedCount =
    (t.inode d).dir.indexedCount + (runStarts 0 (t.listingRuns d)).length
  size : (u.inode d).dir.encodedEntriesSize = (listingData host t d).flatten.length
  start : t.entries d ≠ [] → (u.inode d).dir.dirTableEntry = placeOf decompress u.dirTable.blocks stream.length

theorem directoryEncodeSpec (directory : (t.inode d).IsDirectory) (nodup : (t.entries d).Nodup)
    (holds : Holds decompress t.dirTable stream) (ok : t.directoryEncode o d env = (true, u, env')) :
    ListingWritten decompress o.host t u d stream := by
  have writes := @directoryEncodeWrites t d o env directory
  rw [ok] at writes
  simp only [directoryEncode] at ok
  generalize coded : encodeEntries o.host o.stale ((t.entries d).map t.listed) env = result at ok
  obtain ⟨good, enc, env₁⟩ := result
  cases good with
  | false => cases ok
  | true =>
    have layout := encodeEntriesSpec coded
    have count : enc.done.length = (t.entries d).length := by
      rw [← List.length_map (f := EncodedEntry.listed), layout.listed, List.length_map]
    obtain ⟨inode, dirTable, inodeTable⟩ := @keepEncodedRest t (t.entries d) enc.done
    have kept {k e : Nat} (found : (t.entries d)[k]? = some e) :
        ∃ y, enc.done[k]? = some y ∧ (t.keepEncoded (t.entries d) enc.done).entry e = {t.entry e with
          serialno := y.serialno
          offset := y.offset
          encodedSize := y.encodedSize
          encodedData := some y.encodedData} := by
      have inside : k < enc.done.length := by
        rw [count]
        exact (List.getElem?_eq_some_iff.mp found).1
      exact ⟨_, List.getElem?_eq_getElem inside, keepEncodedEntry nodup found (List.getElem?_eq_getElem inside)⟩
    generalize t.keepEncoded (t.entries d) enc.done = t₁ at ok inode dirTable inodeTable kept
    simp only [Bool.not_true, Bool.false_eq_true, if_false] at ok
    obtain ⟨piece, pieces⟩ : ∃ piece : Nat → Bytes, piece = fun e => ((t₁.entry e).encodedData).getD [] := ⟨_, rfl⟩
    have data (k e : Nat) (found : (t.entries d)[k]? = some e) :
        (t₁.entry e).encodedData = some (piece e) ∧ (listingData o.host t d)[k]? = some (piece e) := by
      obtain ⟨y, own, same⟩ := kept found
      have value : piece e = y.encodedData := by simp only [pieces, same, Option.getD_some]
      refine ⟨by rw [value, same], ?_⟩
      have mapped : (enc.done.map EncodedEntry.encodedData)[k]? = some y.encodedData := by
        rw [List.getElem?_map, own]; rfl
      rw [layout.data] at mapped
      rw [value]
      exact mapped
    have all : (t.entries d).map piece = listingData o.host t d := by
      refine List.ext_getElem? fun k => ?_
      rw [List.getElem?_map]
      cases found : (t.entries d)[k]? with
      | some e => exact (data k e found).2.symm
      | none =>
        have outside := List.getElem?_eq_none_iff.mp found
        refine (List.getElem?_eq_none_iff.mpr ?_).symm
        have length := congrArg List.length layout.data
        rw [List.length_map, count] at length
        exact length ▸ outside
    obtain ⟨last, grown, tables, places, same, _, root⟩ := appendEntriesSpec nodup
      (show Holds decompress _ stream by rw [← dirTable] at holds; exact holds) (fun e member => by
        obtain ⟨k, inside, found⟩ := List.getElem_of_mem member
        exact (data k e (by rw [List.getElem?_eq_getElem inside, found])).1) ok
    have flat (k : Nat) : (((t.entries d).take k).map piece) = (listingData o.host t d).take k := by
      rw [List.map_take, all]
    have starts : enc.indexed = runStarts 0 (t.listingRuns d) := layout.indexed
    rw [all] at last
    refine ⟨writes, last, tables.trans inodeTable, fun k e found => ?_, ?_, ?_, ?_, fun some => ?_⟩
    · obtain ⟨y, own, value⟩ := kept found
      obtain ⟨serialno, offset⟩ := layout.places k y own
      obtain ⟨sameSerialno, sameOffset⟩ := same e
      have place := places k e found
      rw [flat] at place
      refine ⟨sameSerialno.trans ?_, sameOffset.trans ?_, place⟩
      · simp only [setInode, value]
        exact serialno
      · simp only [setInode, value]
        exact offset
    · rw [root]
      split <;> simp only [setInode, Function.update_self, Inode.setDirDir, starts] <;>
        exact entriesOfStarts fun k member => startInside member
    · rw [root]
      split <;> simp only [setInode, Function.update_self, Inode.setDirDir, starts, inode]
    · rw [root]
      split <;> simp only [setInode, Function.update_self, Inode.setDirDir] <;> exact layout.offset
    · rw [root, if_pos ⟨rfl, some⟩]
      simp only [Inode.setDirDir]

/-! ### The entries that stay in the index -/

def pruned (serialno : Nat → Nat) : List Nat → List Nat
  | [] => []
  | first :: rest => pruneAfter serialno first rest

theorem pruneIndexDir (u : Inodes) (d : Nat) : ((u.pruneIndex d).inode d).dir = {(u.inode d).dir with
    firstIndexed := pruned (fun e => (u.entry e).serialno) (u.inode d).dir.firstIndexed
    indexedCount := (u.inode d).dir.indexedCount - ((u.inode d).dir.firstIndexed.length -
      (pruned (fun e => (u.entry e).serialno) (u.inode d).dir.firstIndexed).length)} := by
  simp only [pruneIndex, setInode, Function.update_self, Inode.setDirDir]
  cases (u.inode d).dir.firstIndexed <;> rfl

def keptStarts (t : Inodes) (d : Nat) : List Nat := pruned (fun k => k) (runStarts 0 (t.listingRuns d))

theorem keptStartsSublist (t : Inodes) (d : Nat) :
    (t.keptStarts d).Sublist (runStarts 0 (t.listingRuns d)) := by
  unfold keptStarts
  cases runStarts 0 (t.listingRuns d) with
  | nil => exact .slnil
  | cons k rest => exact (pruneAfterSublist _ k rest).cons k

theorem keptStartsSpaced (t : Inodes) (d : Nat) :
    (0 :: t.keptStarts d).IsChain fun a b => a + 128 < b := by
  unfold keptStarts
  cases t.listingRuns d with
  | nil => exact List.isChain_singleton _
  | cons run more => exact pruneAfterSpaced _ 0 _

theorem pruneIndexSpec (written : ListingWritten decompress o.host t u d stream)
    (fresh : (t.inode d).dir.indexedCount = 0) :
    ((u.pruneIndex d).inode d).dir = {(u.inode d).dir with
      firstIndexed := (t.keptStarts d).map (t.entryAt d)
      indexedCount := (t.keptStarts d).length} := by
  have serialno (k : Nat) (member : k ∈ runStarts 0 (t.listingRuns d)) :
      (u.entry (t.entryAt d k)).serialno = k := by
    have found := List.getElem?_eq_getElem (startInside member)
    rw [entryAtFound found]
    exact (written.entry k _ found).1
  have kept : pruned (fun e => (u.entry e).serialno) (u.inode d).dir.firstIndexed =
      (t.keptStarts d).map (t.entryAt d) := by
    rw [written.indexed, keptStarts]
    cases shape : runStarts 0 (t.listingRuns d) with
    | nil => rfl
    | cons k rest =>
      rw [shape] at serialno
      exact pruneAfterMap serialno
  have length := (keptStartsSublist t d).length_le
  have count : 0 + (runStarts 0 (t.listingRuns d)).length -
      ((runStarts 0 (t.listingRuns d)).length - (t.keptStarts d).length) = (t.keptStarts d).length := by
    omega
  rw [pruneIndexDir, kept, written.indexed, written.indexedCount, fresh, List.length_map, List.length_map, count]

/-! ### The index records -/

end Inodes

structure IndexRecord where
  index : Nat
  startBlock : Nat
  name : Bytes
  deriving DecidableEq, Repr

def readIndexRecord (raw : Bytes) : Option (IndexRecord × Bytes) := do
  let (index, raw) ← field 4 raw
  let (startBlock, raw) ← field 4 raw
  let (size, raw) ← field 4 raw
  let (name, raw) ← take? (size + 1) raw
  some (⟨index, startBlock, name⟩, raw)

def readIndexRecords : Nat → Bytes → Option (List IndexRecord × Bytes)
  | 0, raw => some ([], raw)
  | n + 1, raw => do
    let (x, raw) ← readIndexRecord raw
    let (rest, raw) ← readIndexRecords n raw
    some (x :: rest, raw)

theorem indexSizeBack {n : Nat} (long : 1 ≤ n) (short : n ≤ 2 ^ 32) : sizetSub n 1 % 256 ^ 4 + 1 = n := by
  have same : sizetSub n 1 = n - 1 := by
    unfold sizetSub
    omega
  have small : n - 1 < 256 ^ 4 := by omega
  rw [same, Nat.mod_eq_of_lt small]
  exact Nat.sub_add_cancel long

theorem readIndexFields {size : Nat} {name : Bytes} (long : size % 256 ^ 4 + 1 = name.length)
    (index startBlock : Nat) (rest : Bytes) :
    readIndexRecord (Bytes.le 4 index ++ (Bytes.le 4 startBlock ++ (Bytes.le 4 size ++ (name ++ rest)))) =
      some (⟨index % 256 ^ 4, startBlock % 256 ^ 4, name⟩, rest) := by
  simp only [readIndexRecord, Bytes.fieldAppend, bind, Option.bind_some, long, Bytes.takeAppend]

theorem readIndexAppend (host : Bytes.Host) {es : List DirectoryEntry}
    (typed : ∀ e ∈ es, 1 ≤ e.name.length ∧ e.name.length ≤ 2 ^ 32 ∧ e.directoryTableEntry.block < 2 ^ 32)
    (rest : Bytes) :
    readIndexRecords es.length (es.flatMap (fun e => Inodes.indexRecord host e ++ e.name) ++ rest) =
      some (es.map fun e => ⟨e.offset % 256 ^ 4, e.directoryTableEntry.block, e.name⟩, rest) := by
  induction es with
  | nil => rfl
  | cons e more ih =>
    obtain ⟨long, short, block⟩ := typed e (by simp)
    have others := ih fun x member => typed x (List.mem_cons_of_mem _ member)
    have own := readIndexFields (indexSizeBack long short) e.offset e.directoryTableEntry.block
      (more.flatMap (fun e => Inodes.indexRecord host e ++ e.name) ++ rest)
    have block' : e.directoryTableEntry.block % 256 ^ 4 = e.directoryTableEntry.block := Nat.mod_eq_of_lt block
    have shape : (e :: more).flatMap (fun e => Inodes.indexRecord host e ++ e.name) ++ rest =
        Bytes.le 4 e.offset ++ (Bytes.le 4 e.directoryTableEntry.block ++
          (Bytes.le 4 (sizetSub e.name.length 1) ++ (e.name ++
            (more.flatMap (fun e => Inodes.indexRecord host e ++ e.name) ++ rest)))) := by
      simp only [List.flatMap_cons, Inodes.indexRecord, Bytes.putLe, List.append_assoc]
    rw [block'] at own
    rw [shape, List.length_cons, readIndexRecords, own]
    simp only [bind, Option.bind_some, others, List.map_cons]

/-! ### Scanning from a record -/

def scanFor (name : Bytes) (l : List Listed) : Option Listed := l.find? fun x => x.name = name

/- The last record whose name is not greater, or the beginning. -/
def scanStart (names : Nat → Bytes) (ks : List Nat) (name : Bytes) : Nat :=
  ((ks.filter fun k => strcmp (names k) name ≠ .gt).getLast?).getD 0

def Listed.Before (x y : Listed) : Prop := strcmp x.name y.name = .lt

theorem scanStartCases (names : Nat → Bytes) (ks : List Nat) (name : Bytes) :
    scanStart names ks name = 0 ∨
      scanStart names ks name ∈ ks ∧ strcmp (names (scanStart names ks name)) name ≠ .gt := by
  unfold scanStart
  cases last : (ks.filter fun k => strcmp (names k) name ≠ .gt).getLast? with
  | none => exact .inl rfl
  | some k =>
    obtain ⟨member, low⟩ := List.mem_filter.mp (List.mem_of_getLast? last)
    exact .inr ⟨member, of_decide_eq_true low⟩

theorem scanDrop {l : List Listed} (sorted : l.Pairwise Listed.Before) {k : Nat} {x : Listed}
    (found : l[k]? = some x) {name : Bytes} (low : strcmp x.name name ≠ .gt) :
    scanFor name (l.drop k) = scanFor name l := by
  have absent : scanFor name (l.take k) = none := by
    refine List.find?_eq_none.mpr fun y member same => ?_
    obtain ⟨j, inside, rfl⟩ := List.getElem_of_mem member
    obtain ⟨below, value⟩ := List.getElem?_eq_some_iff.mp found
    rw [List.length_take] at inside
    have smaller := List.pairwise_iff_getElem.mp sorted j k (by omega) below (by omega)
    rw [List.getElem_take] at same
    unfold Listed.Before at smaller
    rw [of_decide_eq_true same, value] at smaller
    exact low (Std.OrientedCmp.gt_of_lt smaller)
  conv_rhs => rw [← List.take_append_drop k l]
  unfold scanFor at absent ⊢
  rw [List.find?_append, absent, Option.none_or]

namespace Inodes
variable {decompress : Bytes → Option Bytes} {t u : Inodes} {d : Nat} {lists records : Bytes}
  {o : SerializeConfig} {env env' : Env}

theorem listingFrom {before after : List (List Listed)} (host : Bytes.Host)
    (shape : t.listingRuns d = before ++ after) (lists : Bytes) :
    (lists ++ (listingData host t d).flatten).drop
        (lists.length + ((listingData host t d).take before.flatten.length).flatten.length) =
      (runsData host after).flatten ∧
    ((t.entries d).map t.listed).drop before.flatten.length = after.flatten ∧
    ((∀ e ∈ t.entries d, (t.listed e).Typed) →
      readListing (runsData host after).flatten = some after.flatten) := by
  have data : listingData host t d = runsData host before ++ runsData host after := by
    rw [listingData, shape, runsDataAppend]
  have whole : (t.entries d).map t.listed = before.flatten ++ after.flatten := by
    rw [← listingRunsFlatten, shape, List.flatten_append]
  refine ⟨?_, ?_, fun typed => ?_⟩
  · rw [data, ← runsDataAppend, runsDataTake, runsDataAppend, List.flatten_append, ← List.append_assoc,
      ← List.length_append, List.drop_left]
  · rw [whole, List.drop_left]
  · refine readListingRuns host (fun run member => ?_) (fun x member => ?_) (Nat.le_refl _)
    · refine greedyLegal ((t.entries d).map t.listed) run ?_
      rw [← listingRuns, shape]
      exact List.mem_append_right _ member
    · have inside : x ∈ (t.entries d).map t.listed := by
        rw [whole]
        exact List.mem_append_right _ member
      obtain ⟨e, own, rfl⟩ := List.mem_map.mp inside
      exact typed e own

def left (t u : Inodes) (d k : Nat) : DirectoryEntry := u.entry (t.entryAt d k)

def indexBytes (host : Bytes.Host) (es : List DirectoryEntry) : Bytes :=
  es.flatMap fun e => indexRecord host e ++ e.name

/- `ks` are the places of the entries that have records in the index. -/
structure IndexSound (decompress : Bytes → Option Bytes) (host : Bytes.Host) (t u : Inodes) (d : Nat)
    (lists records : Bytes) (ks : List Nat) : Prop where
  kept : (u.inode d).dir.firstIndexed = ks.map (t.entryAt d)
  inside : ∀ k ∈ ks, k < (t.entries d).length
  record : ∃ header, Holds decompress u.inodeTable
      (records ++ (header ++ indexBytes host (ks.map (left t u d)))) ∧
    Bytes.readLE (Bytes.slice header 0 2) = (u.inode d).encodedType ∧
    ((u.inode d).encodedType = ldirType → Bytes.readLE (Bytes.slice header 32 2) = ks.length) ∧
    ((u.inode d).encodedType ≠ ldirType → ks = [])
  names : (ks.map fun k => (left t u d k).name).Pairwise fun a b => strcmp a b = .lt
  spaced : (0 :: ks).IsChain fun a b => a + 128 < b
  listing : Holds decompress u.dirTable (lists ++ (listingData host t d).flatten)
  place : ∀ k ∈ ks, ∃ n count first rest,
    (left t u d k).directoryTableEntry.block = (placeOf decompress u.dirTable.blocks n).block ∧
    ((left t u d k).offset % 2 ^ 32 + (u.inode d).dir.dirTableEntry.offset) % metadataSize =
      (placeOf decompress u.dirTable.blocks n).offset ∧
    (lists ++ (listingData host t d).flatten).drop n =
      dirHeader host count first.place.block first.inodeNumber ++ (dirEntry host first first.inodeNumber ++ rest) ∧
    first.name = (left t u d k).name
  scan : ∀ name, scanFor name (((t.entries d).map t.listed).drop
      (scanStart (fun k => (left t u d k).name) ks name)) = scanFor name ((t.entries d).map t.listed)
  read : (∀ e ∈ t.entries d, (t.listed e).Typed) →
    readListing (listingData host t d).flatten = some ((t.entries d).map t.listed) ∧
    (∀ rest, readIndexRecords ks.length (indexBytes host (ks.map (left t u d)) ++ rest) =
      some (ks.map fun k => ⟨(left t u d k).offset % 256 ^ 4, (left t u d k).directoryTableEntry.block,
        (left t u d k).name⟩, rest)) ∧
    ∀ k ∈ ks, readListing ((lists ++ (listingData host t d).flatten).drop
      (lists.length + (left t u d k).offset)) = some (((t.entries d).map t.listed).drop k)

theorem headerType (host : Bytes.Host) (t : Inodes) (x : Inode) (dir : DirectoryInode) :
    Bytes.readLE (Bytes.slice (directoryHeader host t x dir) 0 2) = directoryType x dir ∧
      (directoryType x dir = dirType ∨ directoryType x dir = ldirType) := by
  have types : directoryType x dir = dirType ∨ directoryType x dir = ldirType := by
    unfold directoryType
    split
    · exact .inr rfl
    · split
      · exact .inr rfl
      · exact .inl rfl
  have front (type : Nat) (small : type < 256 ^ 2) (rest : Bytes) :
      Bytes.readLE (Bytes.slice (Bytes.le 2 type ++ rest) 0 2) = type := by
    have middle := Bytes.sliceMiddle [] (Bytes.le 2 type) rest
    simp only [Bytes.leLength, List.length_nil, List.nil_append] at middle
    rw [middle]
    exact Bytes.readLeBounded small
  refine ⟨?_, types⟩
  rcases types with short | long
  · rw [directoryHeader, if_pos short, short]
    simp only [inodeHeader, Bytes.putLe, List.append_assoc]
    exact front dirType (by decide) _
  · have other : directoryType x dir ≠ dirType := by rw [long]; decide
    rw [directoryHeader, if_neg other, long]
    simp only [inodeHeader, Bytes.putLe, List.append_assoc]
    exact front ldirType (by decide) _

theorem headerCount (host : Bytes.Host) (t : Inodes) {x : Inode} {dir : DirectoryInode}
    (long : directoryType x dir = ldirType) (few : dir.indexedCount ≤ 65535) :
    Bytes.readLE (Bytes.slice (directoryHeader host t x dir) 32 2) = dir.indexedCount := by
  have other : directoryType x dir ≠ dirType := by rw [long]; decide
  obtain ⟨front, shape⟩ : ∃ front, front = inodeHeader host x ldirType ++ put host 4 x.nlink ++
      put host 4 (dir.encodedEntriesSize + 3) ++ put host 4 dir.dirTableEntry.block ++
      put host 4 (t.parentNumber dir) := ⟨_, rfl⟩
  have length : front.length = 32 := by simp [shape, inodeHeader]
  have middle := Bytes.sliceMiddle front (Bytes.le 2 dir.indexedCount)
    (put host 2 dir.dirTableEntry.offset ++ xattrField host x)
  rw [length, Bytes.leLength] at middle
  have whole : directoryHeader host t x dir = front ++ (Bytes.le 2 dir.indexedCount ++
      (put host 2 dir.dirTableEntry.offset ++ xattrField host x)) := by
    rw [directoryHeader, if_neg other, shape]
    simp only [Bytes.putLe, List.append_assoc]
  rw [whole, middle]
  exact Bytes.readLeBounded (by omega)

theorem sortedListed
    (sorted : (t.entries d).Pairwise fun a b => strcmp (t.entry a).name (t.entry b).name = .lt) :
    ((t.entries d).map t.listed).Pairwise Listed.Before := List.pairwise_map.mpr sorted

theorem sortedNodup
    (sorted : (t.entries d).Pairwise fun a b => strcmp (t.entry a).name (t.entry b).name = .lt) :
    (t.entries d).Nodup := by
  refine sorted.imp fun {a b} smaller same => ?_
  have equal : strcmp (t.entry b).name (t.entry b).name = .eq := Std.ReflCmp.compare_self
  rw [same, equal] at smaller
  cases smaller

theorem leftSpec {host : Bytes.Host} (written : ListingWritten decompress host t u d lists) {k : Nat}
    (inside : k < (t.entries d).length) :
    ((t.entries d).map t.listed)[k]? = some (t.listed (t.entryAt d k)) ∧
      (left t u d k).name = (t.listed (t.entryAt d k)).name ∧
      (left t u d k).offset = ((listingData host t d).take k).flatten.length ∧
      (left t u d k).directoryTableEntry = placeOf decompress u.dirTable.blocks
        (lists.length + ((listingData host t d).take k).flatten.length) := by
  have found := List.getElem?_eq_getElem inside
  have own := entryAtFound found
  obtain ⟨_, offset, place⟩ := written.entry k _ found
  rw [← own] at found offset place
  refine ⟨by rw [List.getElem?_map, found]; rfl, ?_, offset, place⟩
  exact (written.writes.framed.entry (t.entryAt d k)).2.2.1

theorem recordPlace {host : Bytes.Host} (written : ListingWritten decompress host t u d lists) {k : Nat}
    (member : k ∈ runStarts 0 (t.listingRuns d)) :
    ∃ n count first rest,
      (left t u d k).directoryTableEntry.block = (placeOf decompress u.dirTable.blocks n).block ∧
      ((left t u d k).offset % 2 ^ 32 + (u.inode d).dir.dirTableEntry.offset) % metadataSize =
        (placeOf decompress u.dirTable.blocks n).offset ∧
      (lists ++ (listingData host t d).flatten).drop n =
        dirHeader host count first.place.block first.inodeNumber ++ (dirEntry host first first.inodeNumber ++ rest) ∧
      first.name = (left t u d k).name := by
  have inside := startInside member
  obtain ⟨found, name, offset, place⟩ := leftSpec written inside
  obtain ⟨before, run, after, shape, start⟩ := runStartsSplit member
  rw [Nat.zero_add] at start
  subst start
  obtain ⟨bytes, listed, _⟩ := listingFrom host shape lists
  cases run with
  | nil => exact absurd rfl (runsNonempty ((t.entries d).map t.listed) [] (by rw [← listingRuns, shape]; simp))
  | cons first more =>
    refine ⟨lists.length + ((listingData host t d).take before.flatten.length).flatten.length,
      (first :: more).length - 1, first, (more.map fun x => dirEntry host x first.inodeNumber).flatten ++
        (runsData host after).flatten, by rw [place], ?_, ?_, ?_⟩
    · rw [offset, written.start (List.ne_nil_of_length_pos (by omega))]
      simp only [placeOf, metadataSize]
      omega
    · rw [bytes]
      simp [runsData, runData]
    · have head := congrArg List.head? listed
      rw [List.head?_drop, found] at head
      rw [name, Option.some.inj head]

/- Wherever the scan starts, it finds what a scan of the whole listing finds. -/
theorem scanAgrees {host : Bytes.Host} (written : ListingWritten decompress host t u d lists)
    (sorted : (t.entries d).Pairwise fun a b => strcmp (t.entry a).name (t.entry b).name = .lt)
    {ks : List Nat} (inside : ∀ k ∈ ks, k < (t.entries d).length) (name : Bytes) :
    scanFor name (((t.entries d).map t.listed).drop (scanStart (fun k => (left t u d k).name) ks name)) =
      scanFor name ((t.entries d).map t.listed) := by
  rcases scanStartCases (fun k => (left t u d k).name) ks name with beginning | ⟨member, low⟩
  · rw [beginning, List.drop_zero]
  · obtain ⟨found, same, _⟩ := leftSpec written (inside _ member)
    rw [same] at low
    exact scanDrop (sortedListed sorted) found low

theorem indexRecorded {ks : List Nat} {f : Nat → Nat}
    (kept : (t.inode d).dir.firstIndexed = ks.map f) (count : (t.inode d).dir.indexedCount = ks.length)
    (few : (u.inode d).dir.firstIndexed.length ≤ 65535) (holds : Holds decompress t.inodeTable records)
    (ok : t.directoryInodeEncode o d env = (true, u, env')) :
    (∃ header, Holds decompress u.inodeTable
        (records ++ (header ++ indexBytes o.host (ks.map fun k => u.entry (f k)))) ∧
      Bytes.readLE (Bytes.slice header 0 2) = (u.inode d).encodedType ∧
      ((u.inode d).encodedType = ldirType → Bytes.readLE (Bytes.slice header 32 2) = ks.length) ∧
      ((u.inode d).encodedType ≠ ldirType → ks = [])) ∧
    (u.inode d).body = (t.inode d).body ∧ u.entry = t.entry ∧ u.dirTable = t.dirTable := by
  simp only [directoryInodeEncode] at ok
  obtain ⟨after, _, type, _, body, entry, dirTable⟩ := writeRecordSpec holds ok
  obtain ⟨first, types⟩ := headerType o.host t (t.inode d) (t.inode d).dir
  rw [Inode.dirCongr body, kept, List.length_map] at few
  have none (short : directoryType (t.inode d) (t.inode d).dir = dirType) : ks = [] := by
    unfold directoryType at short
    split at short
    · cases short
    · split at short
      · cases short
      · rename_i small
        rw [count] at small
        exact List.eq_nil_of_length_eq_zero (Decidable.byContradiction fun some => small (.inl some))
  have index : (if directoryType (t.inode d) (t.inode d).dir = dirType then []
      else t.indexRecords o.host (t.inode d).dir).flatten =
        indexBytes o.host (ks.map fun k => u.entry (f k)) := by
    split
    · rename_i short
      rw [none short]
      rfl
    · rw [indexRecords, kept, indexBytes, List.flatMap_def, List.flatMap_def, List.map_map, List.map_map,
        List.flatten_flatten, List.map_map, entry]
      refine congrArg List.flatten (List.map_congr_left fun k _ => ?_)
      simp
  rw [List.flatten_cons, index] at after
  refine ⟨⟨_, after, first.trans type.symm, fun long => ?_, fun short => ?_⟩, body, entry, dirTable⟩
  · rw [type] at long
    rw [headerCount o.host t long (by rw [count]; exact few), count]
  · rw [type] at short
    exact none (types.resolve_right short)

theorem indexAgrees (directory : (t.inode d).IsDirectory)
    (sorted : (t.entries d).Pairwise fun a b => strcmp (t.entry a).name (t.entry b).name = .lt)
    (fresh : (t.inode d).dir.indexedCount = 0) (holdsLists : Holds decompress t.dirTable lists)
    (holdsRecords : Holds decompress t.inodeTable records)
    (ok : t.directoryWrite o d env = (true, u, env'))
    (few : (u.inode d).dir.firstIndexed.length ≤ 65535) :
    ∃ ks, IndexSound decompress o.host t u d lists records ks := by
  rw [directoryWrite] at ok
  generalize coded : t.directoryEncode o d env = result at ok
  obtain ⟨good, t₁, env₁⟩ := result
  cases good with
  | false => cases ok
  | true =>
    have written := directoryEncodeSpec directory (sortedNodup sorted) holdsLists coded
    have pruned := pruneIndexSpec written fresh
    have kept : ((t₁.pruneIndex d).inode d).dir.firstIndexed = (t.keptStarts d).map (t.entryAt d) := by
      rw [pruned]
    have count : ((t₁.pruneIndex d).inode d).dir.indexedCount = (t.keptStarts d).length := by rw [pruned]
    have start : ((t₁.pruneIndex d).inode d).dir.dirTableEntry = (t₁.inode d).dir.dirTableEntry := by rw [pruned]
    have table : Holds decompress (t₁.pruneIndex d).inodeTable records := by
      rw [show (t₁.pruneIndex d).inodeTable = t₁.inodeTable from rfl, written.inodeTable]
      exact holdsRecords
    obtain ⟨record, body, entry, dirTable⟩ := indexRecorded kept count few table ok
    have sameEntry : u.entry = t₁.entry := entry
    have sameTable : u.dirTable = t₁.dirTable := dirTable
    have sameDir : (u.inode d).dir = ((t₁.pruneIndex d).inode d).dir := Inode.dirCongr body
    have sameLeft (k : Nat) : left t u d k = left t t₁ d k := by rw [left, left, sameEntry]
    have starts (k : Nat) (member : k ∈ t.keptStarts d) : k ∈ runStarts 0 (t.listingRuns d) :=
      (keptStartsSublist t d).subset member
    have inside (k : Nat) (member : k ∈ t.keptStarts d) : k < (t.entries d).length :=
      startInside (starts k member)
    have increase : (t.keptStarts d).Pairwise (· < ·) :=
      (runStartsIncrease (runsNonempty ((t.entries d).map t.listed)) 0).1.sublist (keptStartsSublist t d)
    refine ⟨t.keptStarts d, sameDir ▸ kept, inside, record, ?_, keptStartsSpaced t d,
      by rw [sameTable]; exact written.holds, fun k member => ?_, fun name => ?_, fun typed => ⟨?_, fun rest => ?_,
        fun k member => ?_⟩⟩
    · rw [List.pairwise_map]
      refine increase.imp_of_mem fun {a b} first second smaller => ?_
      obtain ⟨foundA, nameA, _⟩ := leftSpec written (inside a first)
      obtain ⟨foundB, nameB, _⟩ := leftSpec written (inside b second)
      obtain ⟨belowA, valueA⟩ := List.getElem?_eq_some_iff.mp foundA
      obtain ⟨belowB, valueB⟩ := List.getElem?_eq_some_iff.mp foundB
      have ordered := List.pairwise_iff_getElem.mp (sortedListed sorted) a b belowA belowB smaller
      rw [valueA, valueB, Listed.Before, ← nameA, ← nameB] at ordered
      rw [sameLeft, sameLeft]
      exact ordered
    · rw [sameLeft, sameDir, start, sameTable]
      exact recordPlace written (starts k member)
    · have names : (fun k => (left t u d k).name) = fun k => (left t t₁ d k).name := funext fun k => by rw [sameLeft]
      rw [names]
      exact scanAgrees written sorted inside name
    · obtain ⟨bytes, listed, read⟩ := @listingFrom t d [] (t.listingRuns d) o.host rfl lists
      have flat := listingRunsFlatten t d
      rw [flat] at read
      exact read typed
    · have fits : ∀ e ∈ (t.keptStarts d).map (left t u d),
          1 ≤ e.name.length ∧ e.name.length ≤ 2 ^ 32 ∧ e.directoryTableEntry.block < 2 ^ 32 := by
        intro e member
        obtain ⟨k, own, rfl⟩ := List.mem_map.mp member
        obtain ⟨found, name, _, place⟩ := leftSpec written (inside k own)
        obtain ⟨x, listed, same⟩ := List.mem_map.mp (List.mem_of_getElem? found)
        obtain ⟨long, short⟩ := (typed x listed).name
        rw [sameLeft, name, ← same, place]
        exact ⟨long, Nat.le_trans short (by decide), Nat.mod_lt _ (by decide)⟩
      have read := readIndexAppend o.host fits rest
      rw [List.length_map, List.map_map] at read
      exact read
    · obtain ⟨_, _, offset, _⟩ := leftSpec written (inside k member)
      obtain ⟨before, run, after, shape, place⟩ := runStartsSplit (starts k member)
      rw [Nat.zero_add] at place
      subst place
      obtain ⟨bytes, listed, read⟩ := listingFrom o.host shape lists
      rw [sameLeft, offset, bytes, listed]
      exact read typed

/- A directory whose last name is for an inode in another block of the inode table. -/
def manyNames : Inodes :=
  let attr : InodeAttr := ⟨0, 0, 0o755, 0, 0, 0, none⟩
  let t := (directoryInodeCreate (.init none) attr .fresh).2.1
  let t := (t.fifoInodeCreate attr .fresh).2.1
  let t := (t.fifoInodeCreate attr .fresh).2.1
  let t := t.setInode 0 ((t.inode 0).setDir {(t.inode 0).dir with first := some 0, last := some 129})
  let t := {t with
    entry := fun k => {DirectoryEntry.create [.ofNat (97 + k / 26), .ofNat (97 + k % 26)] (if k < 129 then 1 else 2) with
      prev := if k = 0 then none else some (k - 1)
      next := if k < 129 then some (k + 1) else none}
    entryCount := 130}
  let t := t.setInode 1 {t.inode 1 with encodedType := fifoType, encodedBaseType := fifoType, inodeTableEntry := ⟨0, 0⟩}
  t.setInode 2 {t.inode 2 with encodedType := fifoType, encodedBaseType := fifoType, inodeTableEntry := ⟨8194, 0⟩}

theorem manyNamesIndexed : ∃ u env' ks,
    manyNames.directoryWrite ⟨.big, 0, fun _ => ⟨0, 0, false⟩, fun _ => ⟨0, 0⟩⟩ 0 .fresh = (true, u, env') ∧
      (manyNames.entries 0).length = 130 ∧ ks.length = 1 ∧ IndexSound (fun _ => none) .big manyNames u 0 [] [] ks := by
  have start : Holds (fun _ => none) (Metatable.init none) [] := Metatable.initHolds fun c none => nomatch none
  have ordered : (manyNames.entries 0).length = 130 ∧ (manyNames.entries 0).Pairwise fun a b =>
      strcmp (manyNames.entry a).name (manyNames.entry b).name = .lt := by
    decide +kernel
  generalize wrote : manyNames.directoryWrite ⟨.big, 0, fun _ => ⟨0, 0, false⟩, fun _ => ⟨0, 0⟩⟩ 0 .fresh = result
  have one : result.1 = true ∧ (result.2.1.inode 0).dir.firstIndexed.length = 1 := by
    rw [← wrote]
    decide +kernel
  obtain ⟨ok, u, env'⟩ := result
  obtain ⟨rfl, one⟩ := one
  obtain ⟨ks, sound⟩ := @indexAgrees (fun _ => none) manyNames u 0 [] []
    ⟨.big, 0, fun _ => ⟨0, 0, false⟩, fun _ => ⟨0, 0⟩⟩ .fresh env' ⟨_, rfl⟩ ordered.2 rfl start start wrote
    (one.le.trans (by decide))
  refine ⟨u, env', ks, rfl, ordered.1, ?_, sound⟩
  have kept := congrArg List.length sound.kept
  rw [List.length_map] at kept
  exact kept.symm.trans one

end Inodes
end Libsqfs
