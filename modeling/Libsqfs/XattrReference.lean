import Libsqfs.Xattr

/-! Where the sets of a run of creations lie in the xattr data table and what
their descriptors say about it. -/
namespace Libsqfs
open FramedStream Metatable

def Xattr.bytes (host : Bytes.Host) (xattr : Xattr) : Bytes :=
  xattr.entry host ++ (xattr.pieces host).flatten

namespace Xattrset

def bytes (host : Bytes.Host) (attrs : List Xattr) : Bytes := attrs.flatMap (Xattr.bytes host)

theorem bytesLength (host : Bytes.Host) (xattr : Xattr) :
    (xattr.bytes host).length = 4 + xattr.suffix.length + 4 + xattr.value.length := by
  simp only [Xattr.bytes, Xattr.entry, Xattr.pieces, Xattr.val, List.length_append,
    Bytes.storeLength, List.flatten_cons, List.flatten_nil, List.length_nil]
  omega

theorem bytesPositive (host : Bytes.Host) {attrs : List Xattr} (nonempty : attrs ≠ []) :
    0 < (bytes host attrs).length := by
  cases attrs with
  | nil => exact absurd rfl nonempty
  | cons xattr rest =>
    rw [bytes, List.flatMap_cons, List.length_append, bytesLength]
    omega

section
variable {decompress : Bytes → Option Bytes}

theorem serializeLoopSpec (host : Bytes.Host) {table : Metatable} {stream : Bytes}
    (attrs : List Xattr) (first : Bool) (set : Xattrset) (env : Env)
    (h : Holds decompress table stream) :
    ∃ taken, taken <+: bytes host attrs ∧
      Holds decompress (serializeLoop host attrs first set table env).2.2.1 (stream ++ taken) ∧
      (serializeLoop host attrs first set table env).2.1.attrs = set.attrs ∧
      (serializeLoop host attrs first set table env).2.1.id = set.id ∧
      ((serializeLoop host attrs first set table env).1 = true → taken = bytes host attrs ∧
        (serializeLoop host attrs first set table env).2.1.storedPos =
          (if first ∧ attrs ≠ [] then table.position else set.storedPos) ∧
        (serializeLoop host attrs first set table env).2.1.storedSize =
          set.storedSize + (bytes host attrs).length) := by
  induction attrs generalizing first set table stream env with
  | nil => exact ⟨[], List.prefix_refl _, by simpa [serializeLoop] using h, rfl, rfl,
      fun _ => ⟨rfl, by simp [serializeLoop], by simp [serializeLoop, bytes]⟩⟩
  | cons xattr rest ih =>
    have split : bytes host (xattr :: rest) =
        xattr.entry host ++ ((xattr.pieces host).flatten ++ bytes host rest) := by
      simp [bytes, Xattr.bytes]
    obtain ⟨head, part, holds, _, all, _⟩ := appendSpec (xattr.entry host) env h
    rw [serializeLoop, split]
    generalize table.append (xattr.entry host) env = result at holds all
    obtain ⟨ok, next, after⟩ := result
    cases ok with
    | false => exact ⟨head, part.trans (List.prefix_append _ _), holds, rfl, rfl, by simp⟩
    | true =>
      have whole := all rfl
      subst whole
      obtain ⟨body, part', holds', _, all', _⟩ := appendEachSpec (xattr.pieces host) after holds
      simp only
      generalize appendEach (xattr.pieces host) next after = result at holds' all'
      obtain ⟨ok, next', after'⟩ := result
      rw [List.append_assoc] at holds'
      cases ok with
      | false =>
        refine ⟨xattr.entry host ++ body, ?_, holds', rfl, rfl, by simp⟩
        exact (List.prefix_append_right_inj _).mpr (part'.trans (List.prefix_append _ _))
      | true =>
        have whole := all' rfl
        subst whole
        simp only
        obtain ⟨tail, part'', last, attrs', id', done⟩ := ih false
          {set with
            storedPos := if first then table.position else set.storedPos
            storedSize := set.storedSize + (4 + xattr.suffix.length + 4 + xattr.value.length)}
          after' holds'
        refine ⟨xattr.entry host ++ ((xattr.pieces host).flatten ++ tail), ?_,
          by simpa [List.append_assoc] using last, attrs', id', fun ok => ?_⟩
        · exact (List.prefix_append_right_inj _).mpr ((List.prefix_append_right_inj _).mpr part'')
        · obtain ⟨rfl, place, size⟩ := done ok
          refine ⟨rfl, by rw [place]; cases first <;> simp, ?_⟩
          have sum : (bytes host (xattr :: rest)).length =
              4 + xattr.suffix.length + 4 + xattr.value.length + (bytes host rest).length := by
            rw [bytes, List.flatMap_cons, List.length_append, bytesLength, ← bytes]
          rw [size, ← split, sum, Nat.add_assoc]

theorem serializeDataSpec (host : Bytes.Host) {set next : Xattrset} {tab out : XattrTable}
    {env after : Env} {stream descriptors : Bytes}
    (data : Holds decompress tab.xattrData stream)
    (rows : Holds decompress tab.xattrDescriptors descriptors)
    (ok : set.serializeData host tab env = (true, next, out, after)) :
    next.attrs = set.attrs ∧ next.id = set.id ∧
      (set.attrs ≠ [] → next.storedPos = tab.xattrData.position) ∧
      next.storedSize = (bytes host set.attrs).length ∧ out.nids = tab.nids ∧
      Holds decompress out.xattrData (stream ++ bytes host set.attrs) ∧
      Holds decompress out.xattrDescriptors (descriptors ++ next.descriptor host) := by
  rw [serializeData] at ok
  obtain ⟨taken, _, holds, same, id, done⟩ :=
    serializeLoopSpec host set.attrs true {set with storedSize := 0} env data
  generalize serializeLoop host set.attrs true {set with storedSize := 0} tab.xattrData env = result
    at ok holds same id done
  obtain ⟨good, set', table, env'⟩ := result
  cases good with
  | false => cases ok
  | true =>
    obtain ⟨rfl, place, size⟩ := done rfl
    obtain ⟨taken, _, last, _, all, _⟩ := appendSpec (set'.descriptor host) env' rows
    simp only [Prod.mk.injEq] at ok
    obtain ⟨good, rfl, rfl, rfl⟩ := ok
    rw [all good] at last
    simp only [true_and, Nat.zero_add] at place size
    exact ⟨same, id, fun nonempty => by rw [place, if_pos nonempty], size, rfl, holds, last⟩

theorem serializeLoopGranted (host : Bytes.Host) {table : Metatable} {stream : Bytes}
    (attrs : List Xattr) (first : Bool) (set : Xattrset) {env : Env}
    (h : Holds decompress table stream) (granting : env.Granting) :
    (serializeLoop host attrs first set table env).1 = true ∧
      (serializeLoop host attrs first set table env).2.2.2.Granting := by
  induction attrs generalizing first set table stream env with
  | nil => exact ⟨rfl, granting⟩
  | cons xattr rest ih =>
    obtain ⟨ok, still, holds⟩ := appendGranted (xattr.entry host) h granting
    rw [serializeLoop]
    generalize table.append (xattr.entry host) env = result at ok still holds
    obtain ⟨good, next, after⟩ := result
    subst ok
    obtain ⟨ok, still, holds⟩ := appendEachGranted (xattr.pieces host) holds still
    simp only at ok still holds ⊢
    generalize appendEach (xattr.pieces host) next after = result at ok still holds
    obtain ⟨good, next', after'⟩ := result
    subst ok
    exact ih false _ holds still

theorem serializeDataGranted (host : Bytes.Host) (set : Xattrset) {tab : XattrTable}
    {env : Env} {stream descriptors : Bytes} (data : Holds decompress tab.xattrData stream)
    (rows : Holds decompress tab.xattrDescriptors descriptors) (granting : env.Granting) :
    ∃ next out after, set.serializeData host tab env = (true, next, out, after) ∧
      after.Granting := by
  obtain ⟨ok, still⟩ :=
    serializeLoopGranted host set.attrs true {set with storedSize := 0} data granting
  rw [serializeData]
  generalize serializeLoop host set.attrs true {set with storedSize := 0} tab.xattrData env = result
    at ok still
  obtain ⟨good, set', table, env'⟩ := result
  subst ok
  obtain ⟨ok, still, _⟩ := appendGranted (set'.descriptor host) rows still
  simp only at ok still ⊢
  rw [ok]
  exact ⟨_, _, _, rfl, still⟩

end
end Xattrset

/- A table without compressor decodes without a decompressor, so all its blocks are raw. -/
def raw : Bytes → Option Bytes := fun _ => none

theorem rawContent {b : Metablock} (stored : Stored raw b) : (framing raw).content b = b.data := by
  obtain ⟨content, decoded, _⟩ := stored.decoded
  rw [contentOf decoded]
  unfold decode raw at decoded
  split at decoded
  · cases decoded
  · cases decoded
    rfl

theorem rawStart {tab : Metatable} {stream : Bytes} (h : Holds raw tab stream) {n : Nat}
    (inside : n ≤ tab.blocks.length) : start (framing raw) tab.blocks n = n * 8194 := by
  have sizes : ∀ b ∈ tab.blocks, ((framing raw).frame b).length = 8194 := by
    intro b member
    have stored := h.stored b member
    rw [frameLength stored, ← stored.size, ← rawContent stored, h.full b member, metadataSize]
  generalize tab.blocks = blocks at sizes inside
  induction n generalizing blocks with
  | zero => simp [start]
  | succ n ih =>
    cases blocks with
    | nil => simp at inside
    | cons b rest =>
      have tail := ih rest (fun c member => sizes c (List.mem_cons_of_mem _ member)) (by simpa using inside)
      rw [start, List.take_succ_cons, encodedCons, List.length_append, sizes b (by simp)]
      rw [start] at tail
      omega

theorem firstBlockSlice {tab : Metatable} {stream : Bytes} (closed : Closed raw tab stream) {k n : Nat}
    (inside : k + n ≤ metadataSize) (long : metadataSize < stream.length) :
    Bytes.slice (encoded (framing raw) tab.blocks) (2 + k) n = Bytes.slice stream k n := by
  have stored := closed.stored
  have cut := closed.cut
  have count := closed.cut.count
  have stream := closed.stream
  rw [stream] at count
  generalize tab.blocks = blocks at stored cut stream count
  match blocks with
  | [] => rw [← stream] at long; simp at long
  | [b] =>
    simp only [List.length_cons, List.length_nil, metadataSize] at count long
    omega
  | b :: c :: more =>
    have head := stored b (by simp)
    have full := cut.full b (by simp)
    rw [rawContent head] at full
    rw [contentsCons, rawContent head] at stream
    have left : Bytes.slice ((framing raw).frame b ++ encoded (framing raw) (c :: more)) (2 + k) n =
        Bytes.slice b.data k n := by
      show ((Bytes.le 2 (Metatable.header b) ++ b.data ++ _).drop (2 + k)).take n = _
      rw [List.append_assoc, ← List.drop_drop, Bytes.dropLe, List.drop_append_of_le_length (by omega),
        List.take_append_of_le_length (by rw [List.length_drop]; omega)]
      rfl
    rw [encodedCons, left, ← stream, Bytes.slice, Bytes.slice, List.drop_append_of_le_length (by omega),
      List.take_append_of_le_length (by rw [List.length_drop]; omega)]

def rawPosition (k : Nat) : MetatableEntry := ⟨uint (k / metadataSize * 8194), k % metadataSize⟩

theorem rawPositionStream {tab : Metatable} {stream : Bytes} (h : Holds raw tab stream) :
    tab.position = rawPosition stream.length ∧
      tab.encodedSize = stream.length / metadataSize * 8194 ∧
      tab.openedBlockFill = stream.length % metadataSize := by
  obtain ⟨count, fill, place⟩ := positionStream h
  refine ⟨by rw [place, rawStart h count.ge, rawPosition], ?_, fill⟩
  rw [encodedSizeExact h.stored, ← startLength, rawStart h (Nat.le_refl _), count]

namespace Xattrset

theorem referenceParts (k : Nat) :
    reference (rawPosition k) / 2 ^ 16 = k / metadataSize * 8194 % 2 ^ 16 ∧
      reference (rawPosition k) % 2 ^ 16 = k % metadataSize ∧
      reference (rawPosition k) < 2 ^ 32 := by
  have offset : k % metadataSize < 2 ^ 16 :=
    Nat.lt_of_lt_of_le (Nat.mod_lt _ (by simp [metadataSize])) (by simp [metadataSize])
  have block : uint ((rawPosition k).block <<< 16) =
      2 ^ 16 * (k / metadataSize * 8194 % 2 ^ 16) := by
    rw [Nat.shiftLeft_eq, rawPosition, uint, uint, Nat.mul_comm _ (2 ^ 16),
      show 2 ^ 32 = 2 ^ 16 * 2 ^ 16 from rfl, Nat.mul_mod_mul_left, Nat.mod_mul_right_mod]
  have value : reference (rawPosition k) =
      2 ^ 16 * (k / metadataSize * 8194 % 2 ^ 16) + k % metadataSize := by
    rw [reference, block, rawPosition]
    exact (Nat.two_pow_add_eq_or_of_lt offset _).symm
  have high := Nat.mod_lt (k / metadataSize * 8194) (show 0 < 2 ^ 16 by decide)
  rw [value]
  omega

theorem referenceExact (k : Nat) :
    reference (rawPosition k) / 2 ^ 16 = k / metadataSize * 8194 ↔ k < 2 ^ 16 := by
  rw [(referenceParts k).1, metadataSize]
  omega

theorem descriptorLength (host : Bytes.Host) (set : Xattrset) :
    (set.descriptor host).length = 16 := by
  simp [descriptor]

end Xattrset

namespace XattrTable

def appended (tab : Metatable) : Bytes :=
  contents (framing raw) tab.blocks ++ (tab.openedBlock.map Metablock.data).getD []

def descriptorsFrom (host : Bytes.Host) : Nat → List (List Xattr) → Bytes
  | _, [] => []
  | k, attrs :: rest =>
    Xattrset.descriptor host ⟨attrs, 0, rawPosition k, (Xattrset.bytes host attrs).length⟩ ++
      descriptorsFrom host (k + (Xattrset.bytes host attrs).length) rest

def dataOf (host : Bytes.Host) (sets : List (List Xattr)) : Bytes :=
  sets.flatMap (Xattrset.bytes host)

theorem descriptorsAppend (host : Bytes.Host) (k : Nat) (before rest : List (List Xattr)) :
    descriptorsFrom host k (before ++ rest) =
      descriptorsFrom host k before ++ descriptorsFrom host (k + (dataOf host before).length) rest := by
  induction before generalizing k with
  | nil => simp [descriptorsFrom, dataOf]
  | cons attrs more ih =>
    simp only [List.cons_append, descriptorsFrom, ih, List.append_assoc, dataOf, List.flatMap_cons,
      List.length_append, Nat.add_assoc]

theorem descriptorsLength (host : Bytes.Host) (k : Nat) (sets : List (List Xattr)) :
    (descriptorsFrom host k sets).length = 16 * sets.length := by
  induction sets generalizing k with
  | nil => rfl
  | cons attrs rest ih =>
    rw [descriptorsFrom, List.length_append, Xattrset.descriptorLength, ih, List.length_cons]
    ring

theorem createSpec {host : Bytes.Host} {stale : MetatableEntry} {attrs : List Xattr}
    {tab next : XattrTable} {env after : Env} {id : Nat} {stream descriptors : Bytes}
    (nonempty : attrs ≠ []) (data : ∀ d, Holds d tab.xattrData stream)
    (rows : ∀ d, Holds d tab.xattrDescriptors descriptors)
    (ok : tab.xattrsetCreate host stale attrs env = (some id, next, after)) :
    id = tab.nids ∧ next.nids = tab.nids + 1 ∧
      (∀ d, Holds d next.xattrData (stream ++ Xattrset.bytes host attrs)) ∧
      (∀ d, Holds d next.xattrDescriptors (descriptors ++ Xattrset.descriptor host
        ⟨attrs, 0, rawPosition stream.length, (Xattrset.bytes host attrs).length⟩)) := by
  simp only [xattrsetCreate] at ok
  split at ok
  · cases ok
  split at ok
  · cases ok
  generalize shape : Xattrset.serializeData host ⟨attrs, tab.nids, stale, 0⟩
    {tab with nids := tab.nids + 1} env.malloc.2.malloc.2 = result at ok
  obtain ⟨good, set, out, env'⟩ := result
  cases good with
  | false => simp at ok
  | true =>
    simp only [if_true, Prod.mk.injEq, Option.some.injEq] at ok
    obtain ⟨rfl, rfl, rfl⟩ := ok
    have data' (d) : Holds d {tab with nids := tab.nids + 1}.xattrData stream := data d
    have spec (d) := Xattrset.serializeDataSpec host (data' d) (rows d) shape
    obtain ⟨same, id, place, size, nids, _⟩ := spec raw
    have place := (place nonempty).trans (rawPositionStream (data raw)).1
    refine ⟨id, nids, fun d => (spec d).2.2.2.2.2.1, fun d => ?_⟩
    have last := (spec d).2.2.2.2.2.2
    simpa only [Xattrset.descriptor, place, same, size] using last

/- The run lemma over the creations. -/
theorem createAllSpec {host : Bytes.Host} {stale : MetatableEntry} {sets : List (List Xattr)}
    {tab : XattrTable} {env : Env} {stream descriptors : Bytes}
    (created : ∀ r ∈ (createAll host stale sets tab env).1, r.isSome)
    (nonempty : ∀ attrs ∈ sets, attrs ≠ []) (data : ∀ d, Holds d tab.xattrData stream)
    (rows : ∀ d, Holds d tab.xattrDescriptors descriptors) :
    (createAll host stale sets tab env).1 = (List.range' tab.nids sets.length).map some ∧
      (∀ d, Holds d (createAll host stale sets tab env).2.1.xattrData
        (stream ++ dataOf host sets)) ∧
      (∀ d, Holds d (createAll host stale sets tab env).2.1.xattrDescriptors
        (descriptors ++ descriptorsFrom host stream.length sets)) := by
  induction sets generalizing tab env stream descriptors with
  | nil => simpa [createAll, dataOf, descriptorsFrom] using ⟨data, rows⟩
  | cons attrs rest ih =>
    simp only [createAll, List.mem_cons, forall_eq_or_imp] at created ⊢
    obtain ⟨head, tail⟩ := created
    generalize shape : tab.xattrsetCreate host stale attrs env = result at head tail
    obtain ⟨id?, next, after⟩ := result
    obtain ⟨id, same⟩ := Option.isSome_iff_exists.mp head
    simp only at same
    subst same
    obtain ⟨rfl, nids, data', rows'⟩ := createSpec (nonempty attrs (by simp)) data rows shape
    obtain ⟨ids, data'', rows''⟩ := ih tail (fun a member => nonempty a (List.mem_cons_of_mem _ member))
      data' rows'
    simp only at ids data'' rows''
    refine ⟨by rw [ids, nids]; rfl, ?_, ?_⟩
    · simpa [dataOf, List.append_assoc] using data''
    · simpa [descriptorsFrom, List.append_assoc, List.length_append] using rows''

theorem initTables (d : Bytes → Option Bytes) :
    Holds d init.xattrData [] ∧ Holds d init.xattrDescriptors [] :=
  ⟨initHolds (fun _ absent => by cases absent), initHolds (fun _ absent => by cases absent)⟩

theorem createGranted (host : Bytes.Host) (stale : MetatableEntry) (attrs : List Xattr)
    {tab : XattrTable} {env : Env} {stream descriptors : Bytes}
    (data : ∀ d, Holds d tab.xattrData stream)
    (rows : ∀ d, Holds d tab.xattrDescriptors descriptors) (granting : env.Granting) :
    ∃ id next after, tab.xattrsetCreate host stale attrs env = (some id, next, after) ∧
      after.Granting := by
  obtain ⟨first, still⟩ := Env.mallocGranting granting
  obtain ⟨second, still⟩ := Env.mallocGranting still
  have data' : Holds raw {tab with nids := tab.nids + 1}.xattrData stream := data raw
  obtain ⟨set, out, env', ok, still⟩ :=
    Xattrset.serializeDataGranted host ⟨attrs, tab.nids, stale, 0⟩ data' (rows raw) still
  simp only [xattrsetCreate, first, second, Bool.not_true, Bool.false_eq_true, if_false, ok, if_true]
  exact ⟨_, _, _, rfl, still⟩

theorem createAllGranted (host : Bytes.Host) (stale : MetatableEntry) {sets : List (List Xattr)}
    {tab : XattrTable} {env : Env} {stream descriptors : Bytes}
    (nonempty : ∀ attrs ∈ sets, attrs ≠ []) (data : ∀ d, Holds d tab.xattrData stream)
    (rows : ∀ d, Holds d tab.xattrDescriptors descriptors) (granting : env.Granting) :
    ∀ r ∈ (createAll host stale sets tab env).1, r.isSome := by
  induction sets generalizing tab env stream descriptors with
  | nil => simp [createAll]
  | cons attrs rest ih =>
    obtain ⟨id, next, after, ok, still⟩ :=
      createGranted host stale attrs data rows granting
    obtain ⟨_, _, data', rows'⟩ := createSpec (nonempty attrs (by simp)) data rows ok
    simp only [createAll, ok, List.mem_cons, forall_eq_or_imp, Option.isSome_some, true_and]
    exact ih (fun a member => nonempty a (List.mem_cons_of_mem _ member)) data' rows' still

def referenceAt (tab : XattrTable) (id : Nat) : Nat :=
  Bytes.readLE (Bytes.slice (appended tab.xattrDescriptors) (16 * id) 8)

/- Every set that was created is where its descriptor says, by the position of
its first entry and by what is read back from there. -/
structure ReferencesExact (host : Bytes.Host) (stale : MetatableEntry) (sets : List (List Xattr))
    (env : Env) : Prop where
  position : ∀ before attrs rest, sets = before ++ attrs :: rest →
    (createAll host stale sets init env).1[before.length]? = some (some before.length) ∧
    referenceAt (createAll host stale sets init env).2.1 before.length / 2 ^ 16 =
      (createAll host stale before init env).2.1.xattrData.encodedSize ∧
    referenceAt (createAll host stale sets init env).2.1 before.length % 2 ^ 16 =
      (createAll host stale before init env).2.1.xattrData.openedBlockFill
  followed : ∀ before attrs rest, sets = before ++ attrs :: rest →
    ∀ decompress later next after,
      (createAll host stale sets init env).2.1.xattrData.write host later = (true, next, after) →
      next.encodedSize < 2 ^ 32 →
      readAt (readMetablock decompress) (onMedium next after)
          (referenceAt (createAll host stale sets init env).2.1 before.length / 2 ^ 16)
          (referenceAt (createAll host stale sets init env).2.1 before.length % 2 ^ 16)
          (Xattrset.bytes host attrs).length =
        some (Xattrset.bytes host attrs)
  distinct : ∀ i j, i < j → j < sets.length →
    referenceAt (createAll host stale sets init env).2.1 i ≠
      referenceAt (createAll host stale sets init env).2.1 j

section
variable {host : Bytes.Host} {stale : MetatableEntry} {sets : List (List Xattr)} {env : Env}

theorem createAllAppend (before rest : List (List Xattr)) (tab : XattrTable) (env : Env) :
    (createAll host stale (before ++ rest) tab env).1 =
      (createAll host stale before tab env).1 ++
        (createAll host stale rest (createAll host stale before tab env).2.1
          (createAll host stale before tab env).2.2).1 := by
  induction before generalizing tab env with
  | nil => rfl
  | cons attrs more ih => simp [createAll, ih]

theorem referenceAtSpec (created : ∀ r ∈ (createAll host stale sets init env).1, r.isSome)
    (nonempty : ∀ attrs ∈ sets, attrs ≠ []) {before rest : List (List Xattr)} {attrs : List Xattr}
    (shape : sets = before ++ attrs :: rest) :
    referenceAt (createAll host stale sets init env).2.1 before.length =
        Xattrset.reference (rawPosition (dataOf host before).length) ∧
      (createAll host stale before init env).2.1.xattrData.encodedSize =
        (dataOf host before).length / metadataSize * 8194 ∧
      (createAll host stale before init env).2.1.xattrData.openedBlockFill =
        (dataOf host before).length % metadataSize := by
  have fresh (d) := initTables d
  obtain ⟨_, _, rows⟩ := createAllSpec created nonempty (fun d => (fresh d).1) (fun d => (fresh d).2)
  obtain ⟨_, earlier, _⟩ := @createAllSpec host stale before init env [] []
    (fun r member => created r (by rw [shape, createAllAppend]; exact List.mem_append_left _ member))
    (fun a member => nonempty a (by rw [shape]; exact List.mem_append_left _ member))
    (fun d => (fresh d).1) (fun d => (fresh d).2)
  obtain ⟨_, size, fill⟩ := rawPositionStream (earlier raw)
  rw [List.nil_append] at size fill
  refine ⟨?_, size, fill⟩
  have stream := (rows raw).stream
  have small := (Xattrset.referenceParts (dataOf host before).length).2.2
  have place := descriptorsLength host 0 before
  rw [referenceAt, appended, ← stream, List.nil_append, List.length_nil, shape, descriptorsAppend,
    descriptorsFrom, Bytes.slice, ← place, List.drop_left, Nat.zero_add, Xattrset.descriptor,
    Bytes.storeCpuToLe]
  simp only [List.append_assoc]
  rw [Bytes.takeLe, Bytes.readLeBounded (by omega)]

theorem createdHolds (created : ∀ r ∈ (createAll host stale sets init env).1, r.isSome)
    (nonempty : ∀ attrs ∈ sets, attrs ≠ []) (d : Bytes → Option Bytes) :
    Holds d (createAll host stale sets init env).2.1.xattrData (dataOf host sets) := by
  have h := createAllSpec created nonempty (fun d => (initTables d).1) (fun d => (initTables d).2)
  simpa using h.2.1 d

theorem followReference (created : ∀ r ∈ (createAll host stale sets init env).1, r.isSome)
    (nonempty : ∀ attrs ∈ sets, attrs ≠ []) {before rest : List (List Xattr)} {attrs : List Xattr}
    (shape : sets = before ++ attrs :: rest) (near : (dataOf host before).length < 2 ^ 16)
    {decompress : Bytes → Option Bytes} {later after : Env} {next : Metatable}
    (written : (createAll host stale sets init env).2.1.xattrData.write host later =
      (true, next, after)) (small : next.encodedSize < 2 ^ 32) :
    readAt (readMetablock decompress) (onMedium next after)
        (Xattrset.reference (rawPosition (dataOf host before).length) / 2 ^ 16)
        (Xattrset.reference (rawPosition (dataOf host before).length) % 2 ^ 16)
        (Xattrset.bytes host attrs).length =
      some (Xattrset.bytes host attrs) := by
  have whole : dataOf host sets =
      dataOf host before ++ (Xattrset.bytes host attrs ++ dataOf host rest) := by
    rw [shape]; simp [dataOf]
  have holds := createdHolds created nonempty
  obtain ⟨count, _, _⟩ := positionStream (holds raw)
  have inside : (dataOf host before).length / metadataSize ≤
      (createAll host stale sets init env).2.1.xattrData.blocks.length := by
    rw [count, whole, List.length_append]
    exact Nat.div_le_div_right (Nat.le_add_right _ _)
  have place : start (framing decompress) next.blocks
      ((dataOf host before).length / metadataSize) =
        (dataOf host before).length / metadataSize * 8194 := by
    obtain ⟨added, grown⟩ :
        (createAll host stale sets init env).2.1.xattrData.blocks <+: next.blocks := by
      rw [(writtenOnMedium (holds decompress) written small).2.2]
      exact flushPrefix _
    rw [← grown, startAppend _ _ _ inside]
    exact rawStart (holds raw) inside
  have read := readMedium (holds decompress) written small
    (k := (dataOf host before).length) (n := (Xattrset.bytes host attrs).length)
    (by rw [whole, List.length_append, List.length_append]; omega)
  rw [place, whole, Bytes.sliceMiddle] at read
  rw [(Xattrset.referenceExact _).mpr near, (Xattrset.referenceParts _).2.1]
  have low : uint ((dataOf host before).length / metadataSize * 8194) =
      (dataOf host before).length / metadataSize * 8194 := by
    rw [uint, metadataSize]; omega
  rwa [low] at read

theorem referencesDistinct (near : ∀ before attrs rest, sets = before ++ attrs :: rest →
      (dataOf host before).length < 2 ^ 16)
    (created : ∀ r ∈ (createAll host stale sets init env).1, r.isSome)
    (nonempty : ∀ attrs ∈ sets, attrs ≠ []) {i j : Nat} (less : i < j) (last : j < sets.length) :
    referenceAt (createAll host stale sets init env).2.1 i ≠
      referenceAt (createAll host stale sets init env).2.1 j := by
  have split (n : Nat) (h : n < sets.length) :
      sets = sets.take n ++ sets[n] :: sets.drop (n + 1) := by
    rw [← List.drop_eq_getElem_cons h, List.take_append_drop]
  have value (n : Nat) (h : n < sets.length) :
      referenceAt (createAll host stale sets init env).2.1 n =
        Xattrset.reference (rawPosition (dataOf host (sets.take n)).length) := by
    have field := (referenceAtSpec created nonempty (split n h)).1
    rwa [List.length_take, Nat.min_eq_left h.le] at field
  have first : i < sets.length := less.trans last
  -- the earlier set has at least one byte before the later one
  have apart : (dataOf host (sets.take i)).length < (dataOf host (sets.take j)).length := by
    obtain ⟨more, shape⟩ : sets.take (i + 1) <+: sets.take j := List.take_prefix_take_left less
    rw [← shape, List.take_succ_eq_append_getElem first, dataOf, dataOf, List.flatMap_append,
      List.flatMap_append, List.length_append, List.length_append]
    have positive := Xattrset.bytesPositive host (nonempty _ (List.getElem_mem first))
    simp only [List.flatMap_cons, List.flatMap_nil, List.append_nil]
    omega
  rw [value i first, value j last]
  intro same
  have near₁ := near _ _ _ (split i first)
  have near₂ := near _ _ _ (split j last)
  have high₁ := (Xattrset.referenceExact _).mpr near₁
  have high₂ := (Xattrset.referenceExact _).mpr near₂
  have low₁ := (Xattrset.referenceParts (dataOf host (sets.take i)).length).2.1
  have low₂ := (Xattrset.referenceParts (dataOf host (sets.take j)).length).2.1
  rw [same] at high₁ low₁
  rw [high₁] at high₂
  rw [low₁] at low₂
  rw [metadataSize] at high₂ low₂
  omega

/- The shift loses nothing exactly while each set starts in the first 2^16 bytes
of attribute data, which is before the first block start that needs a 17th bit. -/
theorem referencesExactIff (created : ∀ r ∈ (createAll host stale sets init env).1, r.isSome)
    (nonempty : ∀ attrs ∈ sets, attrs ≠ []) :
    ReferencesExact host stale sets env ↔
      ∀ before attrs rest, sets = before ++ attrs :: rest → (dataOf host before).length < 2 ^ 16 := by
  constructor
  · intro exact before attrs rest shape
    obtain ⟨field, size, _⟩ := referenceAtSpec created nonempty shape
    have high := (exact.position before attrs rest shape).2.1
    rw [field, size] at high
    exact (Xattrset.referenceExact _).mp high
  · intro near
    refine ⟨fun before attrs rest shape => ?_, fun before attrs rest shape decompress later next
      after written small => ?_, fun i j less last =>
        referencesDistinct near created nonempty less last⟩
    · obtain ⟨field, size, fill⟩ := referenceAtSpec created nonempty shape
      rw [field, size, fill]
      refine ⟨?_, (Xattrset.referenceExact _).mpr (near _ _ _ shape),
        (Xattrset.referenceParts _).2.1⟩
      have ids := (createAllSpec created nonempty (fun d => (initTables d).1)
        (fun d => (initTables d).2)).1
      rw [ids, shape]
      simp [init]
    · rw [(referenceAtSpec created nonempty shape).1]
      exact followReference created nonempty shape (near _ _ _ shape) written small

end

def sampleXattr (value : Bytes) : Xattr where
  name := ascii "user.a"
  domain := ⟨ascii "user.", 0⟩
  value := value
  classified := by decide

theorem twoSetsExact :
    ReferencesExact .little ⟨0, 0⟩ [[sampleXattr [7]], [sampleXattr []]] Env.fresh := by
  have nonempty : ∀ attrs ∈ [[sampleXattr [7]], [sampleXattr []]], attrs ≠ [] := by simp
  refine (referencesExactIff (createAllGranted _ _ nonempty (fun d => (initTables d).1)
    (fun d => (initTables d).2) fun _ => rfl) nonempty).mpr ?_
  intro before attrs rest shape
  have total : (dataOf .little [[sampleXattr [7]], [sampleXattr []]]).length = 19 := by decide
  rw [shape, dataOf, List.flatMap_append, List.length_append] at total
  rw [dataOf]
  omega

def farSets (size : Nat) : List (List Xattr) :=
  [[sampleXattr (List.replicate size 0)], [sampleXattr []]]

theorem farSetsMisplaced {size : Nat} (far : 2 ^ 16 ≤ size) :
    (∀ r ∈ (createAll .little ⟨0, 0⟩ (farSets size) init Env.fresh).1, r.isSome) ∧
      (∀ attrs ∈ farSets size, attrs ≠ []) ∧ (dataOf .little (farSets size)).length = size + 18 ∧
      ¬ ReferencesExact .little ⟨0, 0⟩ (farSets size) Env.fresh := by
  have nonempty : ∀ attrs ∈ farSets size, attrs ≠ [] := by simp [farSets]
  have created := createAllGranted .little ⟨0, 0⟩ nonempty (fun d => (initTables d).1)
    (fun d => (initTables d).2) (show Env.fresh.Granting from fun _ => rfl)
  have bytes (v : Bytes) : ((sampleXattr v).bytes .little).length = 9 + v.length := by
    have suffix : ((sampleXattr v).suffix).length = 1 := rfl
    rw [Xattrset.bytesLength, suffix]
    rfl
  refine ⟨created, nonempty, ?_, fun exact => ?_⟩
  · simp [farSets, dataOf, Xattrset.bytes, bytes]
    omega
  · have shape : farSets size =
        [[sampleXattr (List.replicate size 0)]] ++ [sampleXattr []] :: [] := rfl
    obtain ⟨field, block, _⟩ := referenceAtSpec created nonempty shape
    have high := (exact.position _ _ _ shape).2.1
    rw [field, block, Xattrset.referenceExact] at high
    simp [dataOf, Xattrset.bytes, bytes] at high
    omega

/- Less than 66000 bytes of attributes are enough to lose the second set. -/
theorem secondSetMisplaced :
    (∀ r ∈ (createAll .little ⟨0, 0⟩ (farSets (2 ^ 16)) init Env.fresh).1, r.isSome) ∧
      (∀ attrs ∈ farSets (2 ^ 16), attrs ≠ []) ∧
      (dataOf .little (farSets (2 ^ 16))).length < 2 ^ 32 ∧
      ¬ ReferencesExact .little ⟨0, 0⟩ (farSets (2 ^ 16)) Env.fresh := by
  obtain ⟨created, nonempty, size, wrong⟩ := farSetsMisplaced (Nat.le_refl (2 ^ 16))
  exact ⟨created, nonempty, by rw [size]; decide, wrong⟩

end XattrTable
end Libsqfs
