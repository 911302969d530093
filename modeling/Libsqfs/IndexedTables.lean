import Libsqfs.XattrReference

/-! Arrays of equal records behind an index: uids, export entries, fragment
entries and the descriptors of xattr sets. -/
namespace Libsqfs
open FramedStream Metatable

section
variable {size : Nat} {records : List Bytes}

theorem Bytes.flattenLength (sized : ∀ r ∈ records, r.length = size) :
    records.flatten.length = records.length * size := by
  induction records with
  | nil => simp
  | cons r rest ih =>
    rw [List.flatten_cons, List.length_append, sized r (by simp),
      ih (fun s member => sized s (List.mem_cons_of_mem _ member)), List.length_cons]
    ring

theorem Bytes.flattenSlice (sized : ∀ r ∈ records, r.length = size) {i : Nat} {record : Bytes}
    (found : records[i]? = some record) : Bytes.slice records.flatten (i * size) size = record := by
  induction records generalizing i with
  | nil => simp at found
  | cons r rest ih =>
    have head := sized r (by simp)
    cases i with
    | zero =>
      simp only [List.getElem?_cons_zero, Option.some.injEq] at found
      subst found
      rw [Nat.zero_mul, Bytes.slice, List.drop_zero, List.flatten_cons, ← head, List.take_left]
    | succ i =>
      have place : (i + 1) * size = r.length + i * size := by rw [head]; ring
      rw [Bytes.slice, place, List.flatten_cons, ← List.drop_drop, List.drop_left]
      exact ih (fun s member => sized s (List.mem_cons_of_mem _ member)) (by simpa using found)

end

/- The index is what was written last, with an entry for every 8192 bytes begun,
and leads to every record. -/
structure Indexes (decompress : Bytes → Option Bytes) (log : List Medium.Write) (index size : Nat)
    (records : List Bytes) : Prop where
  entries : ∃ before table, log = before ++ [(index, table)] ∧
    table.length = 8 * ((records.length * size + metadataSize - 1) / metadataSize)
  lookup : ∀ i record, records[i]? = some record →
    lookupRecord decompress log index size i = some record

def recordSizes : List Nat := [4, 8, 16]

theorem recordSizesDivide {size : Nat} (member : size ∈ recordSizes) :
    0 < size ∧ metadataSize % size = 0 := by
  simp only [recordSizes, List.mem_cons, List.not_mem_nil, or_false] at member
  obtain rfl | rfl | rfl := member <;> decide

section
variable {decompress : Bytes → Option Bytes} {host : Bytes.Host}

theorem recordFound {tab : Metatable} {log : List Medium.Write} {base index size i : Nat}
    {records : List Bytes} {record : Bytes} (member : size ∈ recordSizes) (sized : ∀ r ∈ records, r.length = size)
    (indexed : Indexed decompress host tab records.flatten log base index) (found : records[i]? = some record) :
    lookupRecord decompress log index size i = some record := by
  obtain ⟨positive, divides⟩ := recordSizesDivide member
  have inside := (List.getElem?_eq_some_iff.mp found).1
  have room : i * size + size ≤ records.flatten.length := by
    rw [Bytes.flattenLength sized, ← Nat.succ_mul]
    exact Nat.mul_le_mul_right _ inside
  rw [indexedLookup indexed positive divides room, Bytes.flattenSlice sized found]

theorem indexedRecords {tab : Metatable} {log : List Medium.Write} {base index size : Nat}
    {records : List Bytes} (member : size ∈ recordSizes) (sized : ∀ r ∈ records, r.length = size)
    (indexed : Indexed decompress host tab records.flatten log base index)
    (last : ∃ before table, log = before ++ [(index, table)] ∧ table.length = tab.blocks.length * 8) :
    Indexes decompress log index size records where
  entries := by
    obtain ⟨before, table, same, length⟩ := last
    refine ⟨before, table, same, ?_⟩
    rw [length, indexed.closed.cut.count, indexed.closed.stream, Bytes.flattenLength sized,
      Nat.mul_comm]
  lookup i record found := recordFound member sized indexed found

theorem writeWithIndexLast {tab next : Metatable} {env after : Env}
    (ok : tab.writeWithIndex host env = (true, next, after)) :
    ∃ before table, after.written = before ++ [(next.offset.getD 0, table)] ∧
      table.length = (next.blocks.take next.nmetablocks).length * 8 := by
  simp only [writeWithIndex] at ok
  split at ok
  · cases ok
  · split at ok
    · cases ok
    · rename_i second
      simp only [Prod.mk.injEq, true_and] at ok
      obtain ⟨rfl, rfl⟩ := ok
      exact ⟨_, _, (Env.pwriteWritten second).1, indexTableLength _ _ _⟩

theorem appendedIndexed {compressor : Option Compressor} (inverse : Inverse compressor decompress)
    {size : Nat} (member : size ∈ recordSizes) {records : List Bytes}
    (sized : ∀ r ∈ records, r.length = size) {env later middle after : Env} {tab next : Metatable}
    (appended : (init compressor).append records.flatten env = (true, tab, middle))
    (written : tab.writeWithIndex host later = (true, next, after))
    (small : next.encodedSize < 2 ^ 32) :
    Indexes decompress after.written (next.offset.getD 0) size records := by
  obtain ⟨taken, _, holds, _, all, _⟩ := appendSpec records.flatten env (initHolds inverse)
  rw [appended] at holds all
  rw [all rfl, List.nil_append] at holds
  obtain ⟨indexed, offset, _⟩ := writeWithIndexSpec holds written small
  obtain ⟨before, table, log, length⟩ := writeWithIndexLast written
  rw [offset, Option.getD_some] at log ⊢
  rw [indexed.closed.count, List.take_length] at length
  exact indexedRecords member sized indexed ⟨before, table, log, length⟩

end

namespace XattrTable

structure Rows (host : Bytes.Host) (tab : XattrTable) : Prop where
  data : ∃ stream, ∀ d, Holds d tab.xattrData stream
  descriptors : ∀ d, Holds d tab.xattrDescriptors (tab.xattrsets.map (Xattrset.descriptor host)).flatten
  count : tab.nids = tab.xattrsets.length

section
variable {host : Bytes.Host} {stale : MetatableEntry}

theorem initRows (host : Bytes.Host) : Rows host init :=
  ⟨⟨[], fun d => (initTables d).1⟩, fun d => (initTables d).2, rfl⟩

theorem createRows {attrs : List Xattr} {tab next : XattrTable} {env after : Env} {id : Nat}
    (rows : Rows host tab) (ok : tab.xattrsetCreate host stale attrs env = (some id, next, after)) :
    Rows host next ∧ next.xattrsets.map Xattrset.attrs = tab.xattrsets.map Xattrset.attrs ++ [attrs] := by
  obtain ⟨stream, data⟩ := rows.data
  simp only [xattrsetCreate] at ok
  split at ok
  · cases ok
  split at ok
  · cases ok
  generalize shape : Xattrset.serializeData host ⟨attrs, tab.nids, stale, 0⟩
    {tab with nids := tab.nids + 1} env.malloc.2.malloc.2 = result at ok
  obtain ⟨good, set, out, env'⟩ := result
  cases good with
  | false => simp at ok
  | true =>
    simp only [if_true, Prod.mk.injEq, Option.some.injEq] at ok
    obtain ⟨rfl, rfl, rfl⟩ := ok
    have data' (d) : Holds d {tab with nids := tab.nids + 1}.xattrData stream := data d
    have spec (d) := Xattrset.serializeDataSpec host (data' d) (rows.descriptors d) shape
    obtain ⟨same, _, _, _, nids, _⟩ := spec raw
    refine ⟨⟨⟨_, fun d => (spec d).2.2.2.2.2.1⟩, fun d => ?_, ?_⟩, by simp [same]⟩
    · have last := (spec d).2.2.2.2.2.2
      simpa using last
    · rw [nids]
      simpa using rows.count

theorem createAllRows {sets : List (List Xattr)} {tab : XattrTable} {env : Env}
    (created : ∀ r ∈ (createAll host stale sets tab env).1, r.isSome) (rows : Rows host tab) :
    Rows host (createAll host stale sets tab env).2.1 ∧
      (createAll host stale sets tab env).2.1.xattrsets.map Xattrset.attrs =
        tab.xattrsets.map Xattrset.attrs ++ sets := by
  induction sets generalizing tab env with
  | nil => simpa [createAll] using rows
  | cons attrs rest ih =>
    simp only [createAll, List.mem_cons, forall_eq_or_imp] at created ⊢
    obtain ⟨head, tail⟩ := created
    generalize shape : tab.xattrsetCreate host stale attrs env = result at head tail
    obtain ⟨id?, next, after⟩ := result
    obtain ⟨id, same⟩ := Option.isSome_iff_exists.mp head
    simp only at same
    subst same
    obtain ⟨rows', attrs'⟩ := createRows rows shape
    obtain ⟨last, all⟩ := ih tail rows'
    exact ⟨last, by rw [all, attrs', List.append_assoc, List.singleton_append]⟩

theorem descriptorsSized (sets : List Xattrset) :
    ∀ r ∈ sets.map (Xattrset.descriptor host), r.length = 16 := by
  intro r member
  obtain ⟨set, _, rfl⟩ := List.mem_map.mp member
  exact Xattrset.descriptorLength host set

theorem headerLength (tab : XattrTable) : (tab.header host).length = 16 := by
  simp [header]

/- The number of index entries is computed from the number of sets and is the
number of blocks the descriptors were cut into. -/
theorem indexEntriesExact {decompress : Bytes → Option Bytes} {tab : XattrTable}
    {descriptors : Metatable} (rows : Rows host tab)
    (closed : Closed decompress descriptors (tab.xattrsets.map (Xattrset.descriptor host)).flatten) :
    descriptors.blocks.length = tab.indexEntries := by
  rw [closed.cut.count, closed.stream, Bytes.flattenLength (descriptorsSized _), List.length_map,
    indexEntries, rows.count]

theorem descriptorsIndexed {decompress : Bytes → Option Bytes} {descriptors next : Metatable}
    {stream header : Bytes} {env env₁ env₂ after : Env} (holds : Holds decompress descriptors stream)
    (written : descriptors.write host env = (true, next, env₁)) (small : next.encodedSize < 2 ^ 32)
    (headed : (env₁.reserve header.length).2.pwrite header env₁.size = (true, env₂))
    (last : (env₂.reserve (next.blocks.length * 8)).2.pwrite
      (indexTable host (next.offset.getD 0) next.blocks) env₂.size = (true, after)) :
    Indexed decompress host next stream after.written env.size (env₁.size + header.length) ∧
      ∃ before table, after.written = before ++ [(env₁.size + header.length, table)] ∧
        table.length = next.blocks.length * 8 := by
  have stored := (writtenOnMedium holds written small).2.1.stored
  have exactSize := encodedSizeExact stored
  obtain ⟨closed, _, offset, size, grown, buffers, log, same⟩ :=
    writeSpec holds written (by rw [← exactSize]; exact small)
  rw [← exactSize] at size
  obtain ⟨log₂, size₂, _⟩ := Env.pwriteWritten headed
  obtain ⟨log₃, _, _, fits⟩ := Env.pwriteWritten last
  simp only [Env.reserveWritten, Env.reserveSize, offset, Option.getD_some] at log₂ size₂ log₃ fits
  rw [size₂] at log₃ fits
  rw [indexTableLength] at fits
  have place : env₁.size = env.size + next.encodedSize := by rw [grown, size]
  refine ⟨⟨closed, small, ?_, ?_, by omega⟩, _, _, log₃, indexTableLength _ _ _⟩
  · rw [log₃, log₂, List.append_assoc, Medium.readKept, log, exactSize, ← same, Medium.readConsecutive]
    intro w member i low high covered
    simp only [List.mem_append, List.mem_singleton] at member
    obtain rfl | rfl := member <;> simp only [Medium.Covers] at covered <;> omega
  · have h := Medium.readWritten env₂.written (env₁.size + header.length)
      (indexTable host env.size next.blocks)
    rw [indexTableLength] at h
    rw [log₃]
    exact h

theorem writeIndexes {decompress : Bytes → Option Bytes} {tab : XattrTable} {env : Env}
    (rows : Rows host tab) (nonempty : tab.xattrsets ≠ []) :
    tab.write host env ≠ none ∧ ∀ final after, tab.write host env = some (true, final, after) →
      final.xattrDescriptors.encodedSize < 2 ^ 32 →
      Indexes decompress after.written (final.offset.getD 0 + 16) 16
        (tab.xattrsets.map (Xattrset.descriptor host)) := by
  obtain ⟨stream, data⟩ := rows.data
  have descriptors := rows.descriptors decompress
  have positive : tab.nids ≠ 0 := by
    rw [rows.count]
    simpa using nonempty
  rw [write, if_neg positive]
  split
  · simp
  · rename_i data' env₁ _
    dsimp only
    split
    · simp
    · rename_i next env₂ written
      have closed := (writeClosed descriptors written).1
      have blocks := indexEntriesExact rows closed
      dsimp only [Env.reserve]
      split
      · simp
      · rename_i env₃ headed
        have entries : indexEntries {tab with xattrData := data', xattrDescriptors := next} =
            next.blocks.length := blocks.symm
        rw [entries, if_neg (Nat.lt_irrefl _), List.take_length]
        split
        · simp
        · rename_i env₄ last
          refine ⟨by simp, fun final after same small => ?_⟩
          simp only [Option.some.injEq, Prod.mk.injEq, true_and] at same
          obtain ⟨rfl, rfl⟩ := same
          have size := @headerLength host {tab with xattrData := data', xattrDescriptors := next}
          obtain ⟨indexed, table⟩ := descriptorsIndexed descriptors written small
            (by rw [size]; exact headed) last
          rw [size] at indexed table
          exact indexedRecords (by decide) (descriptorsSized _) indexed table

end
end XattrTable

/- Every record is found through the index, and every set has its descriptor there. -/
theorem recordsIndexed (host : Bytes.Host) :
    (∀ compressor decompress, Inverse compressor decompress → ∀ size ∈ recordSizes,
      ∀ records : List Bytes, (∀ r ∈ records, r.length = size) → ∀ env later tab middle next after,
      (init compressor).append records.flatten env = (true, tab, middle) →
      tab.writeWithIndex host later = (true, next, after) → next.encodedSize < 2 ^ 32 →
      Indexes decompress after.written (next.offset.getD 0) size records) ∧
    ∀ stale sets, sets ≠ [] → ∀ env later tab middle results,
      XattrTable.createAll host stale sets XattrTable.init env = (results, tab, middle) →
      (∀ r ∈ results, r.isSome) →
      tab.xattrsets.map Xattrset.attrs = sets ∧ tab.write host later ≠ none ∧
      ∀ final after, tab.write host later = some (true, final, after) →
        final.xattrDescriptors.encodedSize < 2 ^ 32 → ∀ decompress,
        Indexes decompress after.written (final.offset.getD 0 + 16) 16
          (tab.xattrsets.map (Xattrset.descriptor host)) := by
  constructor
  · intro compressor decompress inverse size member records sized env later tab middle next after
      appended written small
    exact appendedIndexed inverse member sized appended written small
  · intro stale sets nonempty env later tab middle results shape created
    obtain ⟨rows, attrs⟩ := @XattrTable.createAllRows host stale sets XattrTable.init env
      (by rw [shape]; exact created) (XattrTable.initRows host)
    rw [shape] at rows attrs
    have some : tab.xattrsets ≠ [] := by
      rintro absent
      rw [absent] at attrs
      exact nonempty attrs.symm
    refine ⟨attrs, (@XattrTable.writeIndexes host raw tab later rows some).1, ?_⟩
    intro final after written small decompress
    exact (XattrTable.writeIndexes rows some).2 final after written small

def sampleUids : List Bytes := [Bytes.le 4 0, Bytes.le 4 1000]

def uidsAppended : Bool × Metatable × Env := (init none).append sampleUids.flatten Env.fresh

def uidsWritten : Bool × Metatable × Env := uidsAppended.2.1.writeWithIndex .little Env.fresh

def setsCreated : List (Option Nat) × XattrTable × Env :=
  XattrTable.createAll .little ⟨0, 0⟩ [[XattrTable.sampleXattr [7]], []] XattrTable.init Env.fresh

def setsWritten : Option (Bool × XattrTable × Env) := setsCreated.2.1.write .little Env.fresh

theorem uidsAndSetsIndexed :
    Indexes raw uidsWritten.2.2.written (uidsWritten.2.1.offset.getD 0) 4 sampleUids ∧
    ∃ final after, setsWritten = some (true, final, after) ∧
      Indexes raw after.written (final.offset.getD 0 + 16) 16
        (setsCreated.2.1.xattrsets.map (Xattrset.descriptor .little)) := by
  obtain ⟨uids, sets⟩ := recordsIndexed .little
  constructor
  · exact uids none raw (fun c absent => nomatch absent) 4 (by decide) sampleUids (by decide)
      Env.fresh Env.fresh _ _ _ _ (Prod.ext (show uidsAppended.1 = true by decide) rfl)
      (Prod.ext (show uidsWritten.1 = true by decide) rfl) (by decide)
  · obtain ⟨_, _, found⟩ := sets ⟨0, 0⟩ _ (by simp) Env.fresh Env.fresh setsCreated.2.1
      setsCreated.2.2 setsCreated.1 rfl (by decide)
    have done : (setsWritten.map fun r => (r.1, r.2.1.xattrDescriptors.encodedSize)) = some (true, 34) := by
      decide
    obtain ⟨⟨success, final, after⟩, same, parts⟩ := Option.map_eq_some_iff.mp done
    obtain ⟨rfl, size⟩ := Prod.mk.inj parts
    exact ⟨final, after, same, found final after same (by rw [size]; decide) raw⟩

/- Records of zeros behind 524161 full blocks. Their encoded bytes pass 2^32 by
7938, so the index puts the last block into the first one. -/
def zeroRecords (n : Nat) : List Bytes := List.replicate n (List.replicate 8 0)

section
variable {n : Nat} {tab : Metatable}

theorem zeroRecordsFlatten (n : Nat) : (zeroRecords n).flatten = List.replicate (n * 8) 0 := by
  rw [zeroRecords, List.flatten_replicate_replicate]

theorem rawEncodedLength {blocks : List Metablock} (stored : ∀ b ∈ blocks, Stored raw b) :
    (encoded (framing raw) blocks).length = (contents (framing raw) blocks).length + 2 * blocks.length := by
  induction blocks with
  | nil => rfl
  | cons b rest ih =>
    have head := stored b (by simp)
    rw [encodedCons, contentsCons, List.length_append, List.length_append, frameLength head,
      rawContent head, head.size, ih (fun c member => stored c (List.mem_cons_of_mem _ member)),
      List.length_cons]
    omega

theorem lastBlockWraps (many : n = 1024 * 524161 + 1)
    (holds : Holds raw tab (List.replicate (n * 8) 0)) :
    (encoded (framing raw) tab.flush.blocks).length = 2 ^ 32 + 7948 ∧
      tab.flush.blocks.length = 524162 ∧
      ∀ b, tab.flush.blocks[524161]? = some b → b.offset = 7938 := by
  have closed := flushClosed holds
  obtain ⟨full, _, _⟩ := positionStream holds
  rw [List.length_replicate, many, metadataSize] at full
  have count := closed.cut.count
  rw [closed.stream, List.length_replicate, many, metadataSize] at count
  have place : start (framing raw) tab.flush.blocks 524161 = 524161 * 8194 := by
    obtain ⟨last, grown⟩ := flushPrefix tab
    rw [← grown, startAppend _ _ _ (by omega), rawStart holds (by omega)]
  refine ⟨?_, count, fun b found => ?_⟩
  · rw [rawEncodedLength closed.stored, closed.stream, List.length_replicate, many, count]
    norm_num
  · rw [closed.offsets _ b found, place, uint]
    norm_num

theorem firstBlockZero (many : n = 1024 * 524161 + 1)
    (holds : Holds raw tab (List.replicate (n * 8) 0)) :
    Bytes.slice (encoded (framing raw) tab.flush.blocks) 7938 2 = [0, 0] := by
  have long : metadataSize < (List.replicate (n * 8) (0 : UInt8)).length := by
    rw [List.length_replicate, many, metadataSize]
    omega
  have part := firstBlockSlice (flushClosed holds) (show 7936 + 2 ≤ metadataSize by decide) long
  rw [part, Bytes.slice, List.drop_replicate, List.take_replicate, Nat.min_eq_left (by omega)]
  rfl

theorem wrappedLookup {blocks : List Metablock} {log : List Medium.Write}
    (stored : ∀ b ∈ blocks, Stored raw b) (count : blocks.length = 524162)
    (length : (encoded (framing raw) blocks).length = 2 ^ 32 + 7948)
    (last : ∀ b, blocks[524161]? = some b → b.offset = 7938)
    (zeros : Bytes.slice (encoded (framing raw) blocks) 7938 2 = [0, 0])
    (written : log = Medium.consecutive 0 (blockBuffers .little blocks) ++
      [(7948, indexTable .little 0 blocks)]) {i : Nat} (place : i * 8 / metadataSize = 524161) :
    lookupRecord raw log 7948 8 i = none := by
  obtain ⟨b, found⟩ : ∃ b, blocks[524161]? = some b := ⟨_, List.getElem?_eq_getElem (by omega)⟩
  have entry : Bytes.readLE (Medium.read log (7948 + 8 * 524161) 8) = 7938 := by
    rw [Medium.readSlice log 7948 (m := (indexTable .little 0 blocks).length)
      (by rw [indexTableLength]; omega), written, Medium.readWritten,
      indexTableSlice .little 0 found, last b found, Bytes.readLeBounded (by decide)]
  have header : Medium.read log 7938 2 = [0, 0] := by
    rw [written, Medium.readKept]
    · have flat := @blockBuffersFlatten raw .little _ stored
      have whole := Medium.readConsecutive [] 0 (blockBuffers .little blocks)
      rw [flat, List.nil_append] at whole
      have part := Medium.readSlice (Medium.consecutive 0 (blockBuffers .little blocks)) 0
        (k := 7938) (n := 2) (m := (encoded (framing raw) blocks).length) (by omega)
      rw [whole, zeros] at part
      simpa using part
    · intro w member i low high covered
      simp only [List.mem_singleton] at member
      subst member
      simp only [Medium.Covers] at covered
      omega
  have content : metablockAt raw log 7938 = none := by
    simp only [metablockAt, header]
    rw [show 2 + Bytes.readLE [0, 0] % 2 ^ 15 = 2 from rfl, header]
    rfl
  simp only [lookupRecord, place, entry, content, bind, Option.bind_none]

theorem zeroRecordsLost (many : n = 1024 * 524161 + 1)
    (holds : Holds raw tab (List.replicate (n * 8) 0)) :
    ∃ next after, tab.writeWithIndex .little Env.fresh = (true, next, after) ∧
      lookupRecord raw after.written (next.offset.getD 0) 8 (n - 1) = none := by
  have closed := flushClosed holds
  obtain ⟨length, count, last⟩ := lastBlockWraps many holds
  have size : tab.flush.size = 7948 := by
    rw [closed.size, length, uint]
    norm_num
  have empty : Env.fresh.size = 0 := rfl
  obtain ⟨after, ok, log⟩ := writeWithIndexAccepted .little holds
    (show Env.fresh.Accepting from fun _ => rfl) (by rw [length, empty]; decide)
    (by rw [count, size, empty]; decide)
  rw [size, empty, Nat.zero_add] at ok log
  refine ⟨_, after, ok, ?_⟩
  refine wrappedLookup closed.stored count length last (firstBlockZero many holds) log ?_
  rw [many, metadataSize]

end

theorem zeroRecordsMisplaced :
    (∀ r ∈ zeroRecords (1024 * 524161 + 1), r.length = 8) ∧ ∃ tab middle next after,
      (init none).append (zeroRecords (1024 * 524161 + 1)).flatten Env.fresh = (true, tab, middle) ∧
      tab.writeWithIndex .little Env.fresh = (true, next, after) ∧
      ¬ Indexes raw after.written (next.offset.getD 0) 8 (zeroRecords (1024 * 524161 + 1)) := by
  obtain ⟨n, many⟩ : ∃ n, n = 1024 * 524161 + 1 := ⟨_, rfl⟩
  rw [← many]
  refine ⟨fun r member => by rw [List.eq_of_mem_replicate member, List.length_replicate], ?_⟩
  obtain ⟨ok, _, holds⟩ := appendGranted (zeroRecords n).flatten
    (@initHolds raw none (fun c absent => nomatch absent)) (show Env.fresh.Granting from fun _ => rfl)
  rw [zeroRecordsFlatten, List.nil_append] at holds
  obtain ⟨next, after, written, lost⟩ := zeroRecordsLost many holds
  refine ⟨_, _, next, after, Prod.ext ok rfl, ?_, fun indexes => ?_⟩
  · rwa [zeroRecordsFlatten]
  · have found := indexes.lookup (n - 1) (List.replicate 8 0)
      (by rw [zeroRecords, List.getElem?_replicate, if_pos (by omega)])
    rw [lost] at found
    cases found

section
variable {host : Bytes.Host} {blocks : List Metablock} {before log : List Medium.Write} {base : Nat} {b c : Metablock}

theorem rawHeader (stored : Stored raw b) (full : b.size = metadataSize) : header b = 40960 := by
  obtain ⟨content, decoded, _⟩ := stored.decoded
  rw [headerValue stored.bound, full]
  unfold decode raw at decoded
  split at decoded
  · cases decoded
  · rename_i plain
    rw [if_neg plain]
    rfl

theorem firstHeaderKept (stored : ∀ b ∈ blocks, Stored raw b) (first : blocks[0]? = some b) (full : b.size = metadataSize)
    (written : log = before ++ Medium.consecutive base (blockBuffers host blocks) ++
      [(base + 2, indexTable host base blocks)]) : Medium.read log base 2 = Bytes.le 2 40960 := by
  obtain ⟨rest, rfl⟩ : ∃ rest, blocks = b :: rest := by
    cases blocks with
    | nil => cases first
    | cons b' rest => exact ⟨rest, by rw [Option.some.inj first]⟩
  have own := stored b (by simp)
  rw [written, Medium.readKept]
  · have whole := Medium.readConsecutive before base (blockBuffers host (b :: rest))
    rw [@blockBuffersFlatten raw host _ stored] at whole
    have part := Medium.readSlice (before ++ Medium.consecutive base (blockBuffers host (b :: rest))) base
      (k := 0) (n := 2) (m := (encoded (framing raw) (b :: rest)).length) (by
        rw [encodedCons, List.length_append, frameLength own]
        omega)
    rw [whole, Nat.add_zero] at part
    rw [part, encodedCons, Bytes.slice, List.drop_zero]
    change (Bytes.le 2 (header b) ++ b.data ++ _).take 2 = _
    rw [List.append_assoc, Bytes.takeLe, rawHeader own full]
  · intro w member i low high covered
    simp only [List.mem_singleton] at member
    subst member
    simp only [Medium.Covers] at covered
    omega

theorem indexAsContent (head : Medium.read log base 2 = Bytes.le 2 40960)
    (table : Medium.read log (base + 2) (blocks.length * 8) = indexTable host base blocks) (many : 1024 ≤ blocks.length) :
    metablockAt raw log base = some ((indexTable host base blocks).take metadataSize) := by
  have body : Medium.read log (base + 2) metadataSize = (indexTable host base blocks).take metadataSize := by
    have part := Medium.readSlice log (base + 2) (k := 0) (n := metadataSize) (m := blocks.length * 8) (by
      unfold metadataSize
      omega)
    rw [table, Nat.add_zero, Bytes.slice, List.drop_zero] at part
    exact part
  have size : ((indexTable host base blocks).take metadataSize).length = metadataSize := by
    rw [← body, Medium.readLength]
  have whole := Bytes.takeAppend ((indexTable host base blocks).take metadataSize) []
  rw [List.append_nil, size] at whole
  simp only [metablockAt, head, Bytes.readLeBounded (show 40960 < 256 ^ 2 by decide)]
  rw [show 2 + 40960 % 2 ^ 15 = 2 + metadataSize from rfl, Medium.readAdd, head, body]
  simp only [readMetablock, Bytes.fieldBounded (show 40960 < 256 ^ 2 by decide), bind, Option.bind_some]
  rw [show 40960 % 2 ^ 15 = metadataSize from rfl, whole, Option.bind_some, if_pos (by decide)]
  rfl

/- Where the size of the table wraps to 2, the index lies over the content of the first block. -/
theorem indexOverFirst (stored : ∀ b ∈ blocks, Stored raw b) (first : blocks[0]? = some b) (full : b.size = metadataSize)
    (many : 1024 ≤ blocks.length) (fits : base < 2 ^ 63) (zero : b.offset = 0) (second : blocks[1]? = some c)
    (written : log = before ++ Medium.consecutive base (blockBuffers host blocks) ++
      [(base + 2, indexTable host base blocks)]) :
    lookupRecord raw log (base + 2) 16 0 = some (Bytes.le 8 base ++ Bytes.le 8 (base + c.offset)) := by
  have table : Medium.read log (base + 2) (blocks.length * 8) = indexTable host base blocks := by
    rw [written, ← indexTableLength host base blocks]
    exact Medium.readWritten _ _ _
  have one := indexTableSlice host base first
  have two := indexTableSlice host base second
  rw [zero, Nat.add_zero] at one
  have entry : Bytes.readLE (Medium.read log (base + 2 + 8 * (0 * 16 / metadataSize)) 8) = base := by
    have part := Medium.readSlice log (base + 2) (k := 8 * 0) (n := 8) (m := blocks.length * 8) (by omega)
    rw [table, one] at part
    exact (congrArg Bytes.readLE part).trans (Bytes.readLeBounded (by omega))
  have content := indexAsContent (firstHeaderKept stored first full written) table many
  have record : Bytes.slice ((indexTable host base blocks).take metadataSize) (0 * 16 % metadataSize) 16 =
      Bytes.le 8 base ++ Bytes.le 8 (base + c.offset) := by
    rw [← one, ← two, show 0 * 16 % metadataSize = 0 from rfl, Bytes.slice, List.drop_zero, List.take_take]
    exact List.take_add (i := 8) (j := 8)
  simp only [lookupRecord, entry, content, bind, Option.bind_some, record]
  simp

end

end Libsqfs
