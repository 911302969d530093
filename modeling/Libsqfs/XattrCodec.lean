import Libsqfs.XattrReference

/-! Reading a set of attributes back from the xattr data table, from the position
that was recorded for it. -/
namespace Libsqfs
open FramedStream Metatable
open Bytes (field take?)

structure StoredXattr where
  type : Nat
  name : Bytes
  value : Bytes
  deriving DecidableEq, Repr

def readXattrName (raw : Bytes) : Option ((Nat × Bytes) × Bytes) := do
  let (type, raw) ← field 2 raw
  let (size, raw) ← field 2 raw
  let (name, raw) ← take? size raw
  some ((type, name), raw)

def readXattr (raw : Bytes) : Option (StoredXattr × Bytes) := do
  let ((type, name), raw) ← readXattrName raw
  let (size, raw) ← field 4 raw
  let (value, raw) ← take? size raw
  some (⟨type, name, value⟩, raw)

def readXattrs : Nat → Bytes → Option (List StoredXattr × Bytes)
  | 0, raw => some ([], raw)
  | n + 1, raw => do
    let (x, raw) ← readXattr raw
    let (rest, raw) ← readXattrs n raw
    some (x :: rest, raw)

def Xattr.stored (xattr : Xattr) : StoredXattr := ⟨xattr.domain.code, xattr.suffix, xattr.value⟩

structure Xattr.Fits (xattr : Xattr) : Prop where
  suffix : xattr.suffix.length < 2 ^ 16
  value : xattr.value.length < 2 ^ 32

namespace Metatable

def image (tab : Metatable) : Bytes := encoded (framing raw) tab.blocks

def contentFrom (decompress : Bytes → Option Bytes) (image : Bytes) (pos : MetatableEntry) :
    Option Bytes :=
  (parseAll (readMetablock decompress) image.length (image.drop pos.block)).map fun blocks =>
    blocks.flatten.drop pos.offset

variable {decompress : Bytes → Option Bytes} {tab : Metatable} {stream : Bytes}

theorem blocksFewer (blocks : List Metablock) :
    blocks.length ≤ (encoded (framing decompress) blocks).length := by
  induction blocks with
  | nil => exact Nat.zero_le _
  | cons b rest ih =>
    have positive : 0 < ((framing decompress).frame b).length :=
      List.length_pos_of_ne_nil (frameNonempty b)
    rw [encodedCons, List.length_append, List.length_cons]
    omega

theorem contentFromStream (closed : Closed decompress tab stream) (k : Nat) :
    contentFrom decompress tab.image
        ⟨start (framing raw) tab.blocks (k / metadataSize), k % metadataSize⟩ =
      some (stream.drop k) := by
  have few : (tab.blocks.drop (k / metadataSize)).length ≤ tab.image.length :=
    (List.length_drop ▸ Nat.sub_le _ _).trans (@blocksFewer raw tab.blocks)
  have parsed : parseAll (readMetablock decompress) tab.image.length
      (encoded (framing decompress) (tab.blocks.drop (k / metadataSize))) =
        some ((tab.blocks.drop (k / metadataSize)).map (framing decompress).content) :=
    parseAllEncoded (fun b member => readFrame (closed.stored b (List.mem_of_mem_drop member)))
      (fun b _ => frameNonempty b) few
  have part : tab.image.drop (start (framing raw) tab.blocks (k / metadataSize)) =
      encoded (framing decompress) (tab.blocks.drop (k / metadataSize)) := encodedDropStart ..
  have whole : ((tab.blocks.drop (k / metadataSize)).map (framing decompress).content).flatten =
      stream.drop (k / metadataSize * metadataSize) := by
    rw [← closed.stream, ← closed.cut.contentsDrop]
    rfl
  simp only [contentFrom, part, parsed, Option.map_some, whole, List.drop_drop]
  rw [Nat.mul_comm, Nat.div_add_mod]

end Metatable

/-! ### One attribute after the other -/

theorem codeSmall (xattr : Xattr) : xattr.domain.code < 3 := by
  have member : xattr.domain ∈ xattrDomains := List.mem_of_find?_eq_some xattr.classified
  have all : ∀ dom ∈ xattrDomains, dom.code < 3 := by decide
  exact all _ member

theorem entryLittle (xattr : Xattr) :
    xattr.entry .little = Bytes.le 2 (xattr.domain.code % 256 ^ 4) ++
      Bytes.le 2 (xattr.suffix.length % 256 ^ 4) := rfl

theorem entryBig (xattr : Xattr) : xattr.entry .big =
    Bytes.le 2 (xattr.domain.code / 256 ^ 2) ++ Bytes.le 2 (xattr.suffix.length / 256 ^ 2) := by
  rw [Xattr.entry, Bytes.storeBigNarrow 2 2, Bytes.storeBigNarrow 2 2]

theorem valLe (host : Bytes.Host) (xattr : Xattr) : xattr.val host = Bytes.le 4 xattr.value.length :=
  Bytes.storeCpuToLe ..

theorem readNameAppend {xattr : Xattr} (short : xattr.suffix.length < 2 ^ 16) (rest : Bytes) :
    readXattrName (xattr.entry .little ++ (xattr.suffix ++ rest)) =
      some ((xattr.domain.code, xattr.suffix), rest) := by
  have code := codeSmall xattr
  have type : xattr.domain.code % 256 ^ 4 % 256 ^ 2 = xattr.domain.code := by omega
  have size : xattr.suffix.length % 256 ^ 4 % 256 ^ 2 = xattr.suffix.length := by omega
  simp only [readXattrName, entryLittle, List.append_assoc, Bytes.fieldAppend, bind, Option.bind_some,
    type, size, Bytes.takeAppend]

theorem readXattrAppend {xattr : Xattr} (fits : xattr.Fits) (rest : Bytes) :
    readXattr (xattr.bytes .little ++ rest) = some (xattr.stored, rest) := by
  have shape : xattr.bytes .little ++ rest = xattr.entry .little ++ (xattr.suffix ++
      (Bytes.le 4 xattr.value.length ++ (xattr.value ++ rest))) := by
    simp only [Xattr.bytes, Xattr.pieces, valLe, List.flatten_cons, List.flatten_nil, List.append_nil,
      List.append_assoc]
  have size : xattr.value.length < 256 ^ 4 := fits.value
  rw [shape, readXattr, readNameAppend fits.suffix]
  simp only [bind, Option.bind_some, Bytes.fieldBounded size, Bytes.takeAppend]
  rfl

theorem readXattrsAppend {attrs : List Xattr} (fits : ∀ x ∈ attrs, x.Fits) (rest : Bytes) :
    readXattrs attrs.length (Xattrset.bytes .little attrs ++ rest) = some (attrs.map Xattr.stored, rest) := by
  induction attrs with
  | nil => rfl
  | cons x more ih =>
    have own := readXattrAppend (fits x (by simp)) (Xattrset.bytes .little more ++ rest)
    have others := ih fun y member => fits y (List.mem_cons_of_mem _ member)
    have shape : Xattrset.bytes .little (x :: more) ++ rest =
        x.bytes .little ++ (Xattrset.bytes .little more ++ rest) := by
      simp only [Xattrset.bytes, List.flatMap_cons, List.append_assoc]
    rw [shape, List.length_cons, readXattrs, own]
    simp only [bind, Option.bind_some, others, List.map_cons]

/-! ### The tables over creations that may fail -/

namespace XattrTable
variable {host : Bytes.Host} {stale : MetatableEntry} {decompress : Bytes → Option Bytes} {tab : XattrTable}
  {stream descriptors : Bytes}

theorem createHolds (attrs : List Xattr) (env : Env) (data : Holds decompress tab.xattrData stream)
    (rows : Holds decompress tab.xattrDescriptors descriptors) :
    ∃ more more', Holds decompress (tab.xattrsetCreate host stale attrs env).2.1.xattrData (stream ++ more) ∧
      Holds decompress (tab.xattrsetCreate host stale attrs env).2.1.xattrDescriptors
        (descriptors ++ more') := by
  have same : ∃ more more', Holds decompress tab.xattrData (stream ++ more) ∧
      Holds decompress tab.xattrDescriptors (descriptors ++ more') :=
    ⟨[], [], by rwa [List.append_nil], by rwa [List.append_nil]⟩
  simp only [xattrsetCreate]
  split
  · exact same
  split
  · exact same
  simp only [Xattrset.serializeData]
  obtain ⟨taken, _, holds, _⟩ := Xattrset.serializeLoopSpec host attrs true ⟨attrs, tab.nids, stale, 0⟩
    env.malloc.2.malloc.2 data
  generalize Xattrset.serializeLoop host attrs true ⟨attrs, tab.nids, stale, 0⟩ tab.xattrData
    env.malloc.2.malloc.2 = result at holds
  obtain ⟨ok, set, table, env'⟩ := result
  cases ok with
  | false => exact ⟨taken, [], holds, by rwa [List.append_nil]⟩
  | true =>
    obtain ⟨taken', _, last, _⟩ := appendSpec (set.descriptor host) env' rows
    exact ⟨taken, taken', holds, last⟩

/- The run lemma. -/
theorem createAllHolds (sets : List (List Xattr)) (env : Env) (data : Holds decompress tab.xattrData stream)
    (rows : Holds decompress tab.xattrDescriptors descriptors) :
    ∃ more more', Holds decompress (createAll host stale sets tab env).2.1.xattrData (stream ++ more) ∧
      Holds decompress (createAll host stale sets tab env).2.1.xattrDescriptors (descriptors ++ more') := by
  induction sets generalizing tab env stream descriptors with
  | nil => exact ⟨[], [], by rwa [List.append_nil], by rwa [List.append_nil]⟩
  | cons attrs rest ih =>
    obtain ⟨more, more', data', rows'⟩ := @createHolds host stale decompress tab stream descriptors attrs env data rows
    obtain ⟨last, last', data'', rows''⟩ := ih (tab.xattrsetCreate host stale attrs env).2.2 data' rows'
    rw [List.append_assoc] at data'' rows''
    exact ⟨_, _, data'', rows''⟩

theorem createdSet {attrs : List Xattr} {env after : Env} {next : XattrTable} {id : Nat} (nonempty : attrs ≠ [])
    (data : Holds decompress tab.xattrData stream) (rows : Holds decompress tab.xattrDescriptors descriptors)
    (ok : tab.xattrsetCreate host stale attrs env = (some id, next, after)) :
    ∃ set, next.xattrsets.getLast? = some set ∧ set.attrs = attrs ∧
      set.storedPos = tab.xattrData.position ∧ set.storedSize = (Xattrset.bytes host attrs).length ∧
      Holds decompress next.xattrData (stream ++ Xattrset.bytes host attrs) ∧
      Holds decompress next.xattrDescriptors (descriptors ++ set.descriptor host) := by
  simp only [xattrsetCreate] at ok
  split at ok
  · cases ok
  split at ok
  · cases ok
  generalize shape : Xattrset.serializeData host ⟨attrs, tab.nids, stale, 0⟩
    {tab with nids := tab.nids + 1} env.malloc.2.malloc.2 = result at ok
  obtain ⟨good, set, out, env'⟩ := result
  cases good with
  | false => simp at ok
  | true =>
    have data' : Holds decompress {tab with nids := tab.nids + 1}.xattrData stream := data
    obtain ⟨same, _, place, size, _, data'', rows''⟩ := Xattrset.serializeDataSpec host data' rows shape
    simp only [if_true, Prod.mk.injEq, Option.some.injEq] at ok
    obtain ⟨_, rfl, rfl⟩ := ok
    exact ⟨set, List.getLast?_concat .., same, place nonempty, size, data'', rows''⟩

/- What is read from the recorded position of a set, once the table is closed after
any later creations, by the two fields of its descriptor. -/
def SetReadsBack (host : Bytes.Host) (stale : MetatableEntry) (attrs : List Xattr) (tab : XattrTable)
    (env : Env) : Prop :=
  ∀ id next after, tab.xattrsetCreate host stale attrs env = (some id, next, after) →
    ∃ set, next.xattrsets.getLast? = some set ∧ set.attrs = attrs ∧
      ∀ later env' decompress, ∃ content rest,
        contentFrom decompress (createAll host stale later next env').2.1.xattrData.flush.image
          set.storedPos = some content ∧
        readXattrs (Bytes.readLE (Bytes.slice (set.descriptor host) 8 4)) content =
          some (attrs.map Xattr.stored, rest) ∧
        content.length = rest.length + Bytes.readLE (Bytes.slice (set.descriptor host) 12 4)

theorem descriptorCount (host : Bytes.Host) (set : Xattrset) (few : set.attrs.length < 2 ^ 32) :
    Bytes.readLE (Bytes.slice (set.descriptor host) 8 4) = set.attrs.length := by
  have middle := Bytes.sliceMiddle (Bytes.le 8 (Xattrset.reference set.storedPos)) (Bytes.le 4 set.attrs.length)
    (Bytes.le 4 set.storedSize)
  simp only [Bytes.leLength, ← List.append_assoc] at middle
  simp only [Xattrset.descriptor, Bytes.storeCpuToLe, middle]
  exact Bytes.readLeBounded few

theorem descriptorSize (host : Bytes.Host) (set : Xattrset) :
    Bytes.readLE (Bytes.slice (set.descriptor host) 12 4) = set.storedSize % 2 ^ 32 := by
  have middle := Bytes.sliceMiddle (Bytes.le 8 (Xattrset.reference set.storedPos) ++ Bytes.le 4 set.attrs.length)
    (Bytes.le 4 set.storedSize) []
  simp only [Bytes.leLength, List.length_append, List.append_nil] at middle
  simp only [Xattrset.descriptor, Bytes.storeCpuToLe, middle]
  exact Bytes.readLeMod ..

theorem lengthLeBytes (host : Bytes.Host) (attrs : List Xattr) :
    8 * attrs.length ≤ (Xattrset.bytes host attrs).length := by
  induction attrs with
  | nil => exact Nat.zero_le _
  | cons x more ih =>
    rw [Xattrset.bytes, List.flatMap_cons, List.length_append, Xattrset.bytesLength, List.length_cons,
      ← Xattrset.bytes]
    omega

theorem initHeld (before : List (List Xattr)) (env : Env) (d : Bytes → Option Bytes) :
    ∃ stream descriptors, Holds d (createAll host stale before init env).2.1.xattrData stream ∧
      Holds d (createAll host stale before init env).2.1.xattrDescriptors descriptors := by
  obtain ⟨data, rows⟩ := initTables d
  obtain ⟨more, more', data', rows'⟩ := @createAllHolds host stale d init [] [] before env data rows
  exact ⟨_, _, data', rows'⟩

theorem setReadsBack {before : List (List Xattr)} {env env₀ : Env} {attrs : List Xattr} (nonempty : attrs ≠ [])
    (fits : ∀ x ∈ attrs, x.Fits) (size : (Xattrset.bytes .little attrs).length < 2 ^ 32)
    (near : (createAll .little stale before init env₀).2.1.xattrData.encodedSize < 2 ^ 32) :
    SetReadsBack .little stale attrs (createAll .little stale before init env₀).2.1 env := by
  intro id next after ok
  generalize shape : (createAll .little stale before init env₀).2.1 = tab at near ok
  have held (d : Bytes → Option Bytes) : ∃ stream descriptors, Holds d tab.xattrData stream ∧
      Holds d tab.xattrDescriptors descriptors := shape ▸ initHeld before env₀ d
  obtain ⟨streamRaw, rowsRaw, dataRaw, descriptorsRaw⟩ := held raw
  obtain ⟨place, encoded, _⟩ := rawPositionStream dataRaw
  obtain ⟨set, last, same, position, total, dataRaw', descriptorsRaw'⟩ :=
    createdSet nonempty dataRaw descriptorsRaw ok
  refine ⟨set, last, same, fun later env' decompress => ?_⟩
  obtain ⟨stream, rows, data, descriptors⟩ := held decompress
  obtain ⟨_, _, _, _, _, data', descriptors'⟩ := createdSet nonempty data descriptors ok
  obtain ⟨more, _, final, _⟩ := @createAllHolds .little stale decompress next _ _ later env' data' descriptors'
  obtain ⟨moreRaw, _, finalRaw, _⟩ := @createAllHolds .little stale raw next _ _ later env' dataRaw' descriptorsRaw'
  -- the two readings of the table agree on how long its stream is
  have lengths : streamRaw.length = stream.length := by
    obtain ⟨count, fill, _⟩ := positionStream dataRaw
    obtain ⟨count', fill', _⟩ := positionStream data
    have whole := Nat.div_add_mod streamRaw.length metadataSize
    have whole' := Nat.div_add_mod stream.length metadataSize
    rw [← count, ← fill] at whole
    rw [← count', ← fill'] at whole'
    omega
  generalize (createAll .little stale later next env').2.1.xattrData = table at final finalRaw
  have inside : stream.length / metadataSize ≤ table.blocks.length := by
    rw [(positionStream final).1, List.length_append, List.length_append, Nat.add_assoc]
    exact Nat.div_le_div_right (Nat.le_add_right _ _)
  have start : FramedStream.start (framing raw) table.flush.blocks (stream.length / metadataSize) =
      stream.length / metadataSize * 8194 := by
    obtain ⟨added, grown⟩ := flushPrefix table
    rw [← grown, startAppend _ _ _ inside]
    exact rawStart finalRaw inside
  have recorded : set.storedPos = ⟨FramedStream.start (framing raw) table.flush.blocks
      (stream.length / metadataSize), stream.length % metadataSize⟩ := by
    rw [encoded, lengths] at near
    rw [position, place, start, rawPosition, lengths, uint, Nat.mod_eq_of_lt near]
  have content := contentFromStream (flushClosed final) stream.length
  rw [List.append_assoc, List.drop_left] at content
  have few := lengthLeBytes .little attrs
  refine ⟨_, more, by rw [recorded]; exact content, ?_, ?_⟩
  · rw [descriptorCount _ _ (by rw [same]; omega), same]
    exact readXattrsAppend fits more
  · rw [descriptorSize, total, Nat.mod_eq_of_lt size, List.length_append, Nat.add_comm]

theorem sampleFits : ∀ x ∈ [sampleXattr [7], sampleXattr []], x.Fits := by
  intro x member
  rcases List.mem_cons.mp member with rfl | last
  · exact ⟨by decide, by decide⟩
  · rw [List.mem_singleton.mp last]
    exact ⟨by decide, by decide⟩

/- A set behind another, and one more created after it. -/
theorem secondSetReadsBack : ∃ next after set content rest,
    (createAll .little ⟨0, 0⟩ [[sampleXattr [1, 2]]] init Env.fresh).2.1.xattrsetCreate .little ⟨0, 0⟩
        [sampleXattr [7], sampleXattr []] Env.fresh = (some 1, next, after) ∧
      next.xattrsets.getLast? = some set ∧
      contentFrom raw (createAll .little ⟨0, 0⟩ [[sampleXattr [3]]] next Env.fresh).2.1.xattrData.flush.image
        set.storedPos = some content ∧
      readXattrs 2 content = some ([⟨0, [97], [7]⟩, ⟨0, [97], []⟩], rest) := by
  have made : (createAll .little ⟨0, 0⟩ [[sampleXattr [1, 2]]] init Env.fresh).2.1.xattrsetCreate .little ⟨0, 0⟩
      [sampleXattr [7], sampleXattr []] Env.fresh = (some 1, _, _) := rfl
  obtain ⟨set, last, attrs, found⟩ := setReadsBack (by simp) sampleFits (by decide) (by decide) _ _ _ made
  obtain ⟨content, rest, reached, read, _⟩ := found [[sampleXattr [3]]] Env.fresh raw
  rw [descriptorCount _ _ (by rw [attrs]; decide), attrs] at read
  exact ⟨_, _, set, content, rest, made, last, reached, read⟩

/-! ### Where the fields are too narrow -/

theorem readXattrsLength {n : Nat} {content rest : Bytes} {xs : List StoredXattr}
    (read : readXattrs n content = some (xs, rest)) :
    content.length = rest.length + (xs.map fun x => 4 + x.name.length + 4 + x.value.length).sum := by
  induction n generalizing content xs with
  | zero =>
    cases read
    rfl
  | succ n ih =>
    simp only [readXattrs, bind, Option.bind_eq_some_iff] at read
    obtain ⟨⟨x, next⟩, own, ⟨more, last⟩, others, same⟩ := read
    cases same
    have tail := ih others
    have head : content.length = next.length + (4 + x.name.length + 4 + x.value.length) := by
      simp only [readXattr, readXattrName, field, take?, bind, Option.bind_eq_some_iff,
        Option.ite_none_right_eq_some, Option.some.injEq] at own
      obtain ⟨_, ⟨_, ⟨h₁, rfl⟩, _, ⟨h₂, rfl⟩, _, ⟨h₃, rfl⟩, rfl⟩, _, ⟨h₄, rfl⟩, _, ⟨h₅, rfl⟩, same⟩ := own
      cases same
      simp only [List.length_drop, List.length_take] at *
      omega
    simp only at tail ⊢
    rw [List.map_cons, List.sum_cons, head, tail]
    omega

theorem storedSizes (host : Bytes.Host) (attrs : List Xattr) :
    ((attrs.map Xattr.stored).map fun x => 4 + x.name.length + 4 + x.value.length).sum =
      (Xattrset.bytes host attrs).length := by
  induction attrs with
  | nil => rfl
  | cons x more ih =>
    rw [Xattrset.bytes, List.flatMap_cons, List.length_append, Xattrset.bytesLength, ← Xattrset.bytes, ← ih]
    rfl

/- A set of 2^32 bytes or more is not the size that its descriptor says. -/
theorem largeSetMissized {attrs : List Xattr} (nonempty : attrs ≠ [])
    (size : 2 ^ 32 ≤ (Xattrset.bytes .little attrs).length) :
    ¬ SetReadsBack .little stale attrs init Env.fresh := by
  intro readsBack
  obtain ⟨data, rows⟩ := initTables raw
  obtain ⟨id, next, after, ok, _⟩ := createGranted .little stale attrs (fun d => (initTables d).1)
    (fun d => (initTables d).2) (show Env.fresh.Granting from fun _ => rfl)
  obtain ⟨set, last, same, _, total, _⟩ := createdSet nonempty data rows ok
  obtain ⟨set', last', _, found⟩ := readsBack id next after ok
  rw [last] at last'
  cases last'
  obtain ⟨content, rest, _, read, length⟩ := found [] Env.fresh raw
  rw [readXattrsLength read, storedSizes .little, descriptorSize, total] at length
  omega

def zeroXattr (n : Nat) : Xattr := sampleXattr (List.replicate n 0)

theorem zeroXattrBytes (n : Nat) :
    Xattrset.bytes .little [zeroXattr n] =
      (zeroXattr 0).entry .little ++ [97] ++ Bytes.le 4 n ++ List.replicate n 0 := by
  simp only [Xattrset.bytes, List.flatMap_cons, List.flatMap_nil, List.append_nil, Xattr.bytes, Xattr.pieces,
    valLe, List.flatten_cons, List.flatten_nil, List.append_assoc]
  have size : (zeroXattr n).value.length = n := List.length_replicate
  rw [size]
  rfl

theorem zerosUnread {fuel : Nat} {bytes : Bytes} (zeros : bytes.take 2 = [0, 0]) :
    parseAll (readMetablock raw) fuel bytes = none := by
  obtain ⟨rest, rfl⟩ : ∃ rest, bytes = 0 :: 0 :: rest := by
    rw [← List.take_append_drop 2 bytes, zeros]
    exact ⟨_, rfl⟩
  cases fuel with
  | zero => rfl
  | succ fuel =>
    have parsed : readMetablock raw (0 :: 0 :: rest) = none := by
      simp [readMetablock, field, take?, Bytes.readLE, raw]
    simp only [parseAll, parsed, bind, Option.bind_none]

/- Behind 524161 full blocks the position no longer fits 32 bits and leads into the
zeros of the first block. -/
theorem farSetLost {n : Nat} (many : n + 9 = 8192 * 524161) :
    ¬ SetReadsBack .little ⟨0, 0⟩ [sampleXattr []]
      (createAll .little ⟨0, 0⟩ [[zeroXattr n]] init Env.fresh).2.1 Env.fresh := by
  intro readsBack
  obtain ⟨id, next, after, ok, still⟩ := createGranted .little ⟨0, 0⟩ [zeroXattr n]
    (fun d => (initTables d).1) (fun d => (initTables d).2) (show Env.fresh.Granting from fun _ => rfl)
  have made : (createAll .little ⟨0, 0⟩ [[zeroXattr n]] init Env.fresh).2.1 = next := by
    simp only [createAll, ok]
  rw [made] at readsBack
  have granted (d : Bytes → Option Bytes) : Holds d next.xattrData (Xattrset.bytes .little [zeroXattr n]) ∧
      Holds d next.xattrDescriptors (Xattrset.descriptor .little ⟨[zeroXattr n], 0, rawPosition 0,
        (Xattrset.bytes .little [zeroXattr n]).length⟩) := by
    obtain ⟨_, _, data', rows'⟩ := createSpec (by simp) (fun d => (initTables d).1)
      (fun d => (initTables d).2) ok
    exact ⟨by simpa using data' d, by simpa using rows' d⟩
  obtain ⟨id', next', after', ok', _⟩ := createGranted .little ⟨0, 0⟩ [sampleXattr []]
    (fun d => (granted d).1) (fun d => (granted d).2) (show Env.fresh.Granting from fun _ => rfl)
  obtain ⟨data, rows⟩ := granted raw
  obtain ⟨set, last, _, position, _, data', _⟩ := createdSet (by simp) data rows ok'
  obtain ⟨set', last', _, found⟩ := readsBack id' next' after' ok'
  rw [last] at last'
  cases last'
  obtain ⟨content, rest, read, _⟩ := found [] Env.fresh raw
  have length : (Xattrset.bytes .little [zeroXattr n]).length = 8192 * 524161 := by
    rw [← many, zeroXattrBytes, List.length_append, List.length_append, List.length_append,
      List.length_replicate, Bytes.leLength]
    simp only [Xattr.entry, List.length_append, Bytes.storeLength, List.length_cons, List.length_nil]
    omega
  have place : set.storedPos = ⟨7938, 0⟩ := by
    rw [position, (rawPositionStream data).1, rawPosition, length]
    rfl
  have long : metadataSize < (Xattrset.bytes .little [zeroXattr n] ++
      Xattrset.bytes .little [sampleXattr []]).length := by
    rw [List.length_append, length, metadataSize]
    omega
  have part := firstBlockSlice (flushClosed data') (show 7936 + 2 ≤ metadataSize by decide) long
  have zeros : Bytes.slice (Xattrset.bytes .little [zeroXattr n] ++
      Xattrset.bytes .little [sampleXattr []]) 7936 2 = [0, 0] := by
    obtain ⟨m, rfl⟩ : ∃ m, n = 7927 + 2 + m := ⟨n - 7929, by omega⟩
    have shape : List.replicate (7927 + 2 + m) (0 : UInt8) =
        List.replicate 7927 0 ++ ([0, 0] ++ List.replicate m 0) := by
      rw [show [0, 0] = List.replicate 2 (0 : UInt8) from rfl, List.replicate_append_replicate,
        List.replicate_append_replicate, Nat.add_assoc]
    have head : ((zeroXattr 0).entry .little ++ [97] ++ Bytes.le 4 (7927 + 2 + m) ++
        List.replicate 7927 (0 : UInt8)).length = 7936 := by
      simp only [List.length_append, List.length_replicate, Bytes.leLength, Xattr.entry, Bytes.storeLength,
        List.length_cons, List.length_nil]
    have middle := Bytes.sliceMiddle ((zeroXattr 0).entry .little ++ [97] ++ Bytes.le 4 (7927 + 2 + m) ++
      List.replicate 7927 (0 : UInt8)) [0, 0] (List.replicate m 0 ++ Xattrset.bytes .little [sampleXattr []])
    rw [head] at middle
    rw [zeroXattrBytes, shape]
    simp only [List.append_assoc] at middle ⊢
    exact middle
  rw [zeros] at part
  have nothing := @zerosUnread next'.xattrData.flush.image.length _ part
  rw [place] at read
  simp only [createAll, contentFrom, Option.map_eq_some_iff] at read
  obtain ⟨blocks, parsed, _⟩ := read
  rw [image] at parsed nothing
  rw [nothing] at parsed
  cases parsed

/- A value as long as its field allows; and a set behind almost 4 GiB of attributes. -/
theorem widthsExceeded :
    ¬ SetReadsBack .little ⟨0, 0⟩ [zeroXattr (2 ^ 32 - 1)] init Env.fresh ∧
      ¬ SetReadsBack .little ⟨0, 0⟩ [sampleXattr []]
        (createAll .little ⟨0, 0⟩ [[zeroXattr (8192 * 524161 - 9)]] init Env.fresh).2.1 Env.fresh := by
  refine ⟨largeSetMissized (by simp) ?_, farSetLost (by omega)⟩
  rw [zeroXattrBytes, List.length_append, List.length_append, List.length_append, List.length_replicate,
    Bytes.leLength]
  omega

end XattrTable
end Libsqfs
