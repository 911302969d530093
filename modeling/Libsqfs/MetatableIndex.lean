import Libsqfs.MetatableReader

/-! Tables of equal records with an index of their metadata blocks, as written by
libsqfs_metatable_write_with_index: uids, export entries, fragment entries. -/
namespace Libsqfs.Metatable
open FramedStream

def metablockAt (decompress : Bytes → Option Bytes) (log : List Medium.Write) (pos : Nat) :
    Option Bytes :=
  let header := Bytes.readLE (Medium.read log pos 2)
  (readMetablock decompress (Medium.read log pos (2 + header % 2 ^ 15))).map Prod.fst

def lookupRecord (decompress : Bytes → Option Bytes) (log : List Medium.Write)
    (index size i : Nat) : Option Bytes := do
  let entry := Bytes.readLE (Medium.read log (index + 8 * (i * size / metadataSize)) 8)
  let content ← metablockAt decompress log entry
  let record := Bytes.slice content (i * size % metadataSize) size
  if record.length = size then some record else none

section
variable {decompress : Bytes → Option Bytes}

theorem metablockAtStart {log : List Medium.Write} {base : Nat} {blocks : List Metablock}
    (stored : ∀ b ∈ blocks, Stored decompress b)
    (medium : Medium.read log base (encoded (framing decompress) blocks).length =
      encoded (framing decompress) blocks) {j : Nat} {b : Metablock} (found : blocks[j]? = some b) :
    metablockAt decompress log (base + start (framing decompress) blocks j) =
      some ((framing decompress).content b) := by
  have good := stored b (List.mem_of_getElem? found)
  have bound := good.bound
  have shape : (encoded (framing decompress) blocks).drop (start (framing decompress) blocks j) =
      (framing decompress).frame b ++ encoded (framing decompress) (blocks.drop (j + 1)) := by
    obtain ⟨inside, same⟩ := List.getElem?_eq_some_iff.mp found
    rw [encodedDropStart, List.drop_eq_getElem_cons inside, same, encodedCons]
  have lengths := congrArg List.length shape
  rw [List.length_drop, List.length_append, frameLength good] at lengths
  have part (n : Nat) (short : n ≤ b.size + 2) :
      Medium.read log (base + start (framing decompress) blocks j) n =
        ((framing decompress).frame b).take n := by
    rw [Medium.readSlice log base (m := (encoded (framing decompress) blocks).length) (by omega),
      medium, Bytes.slice, shape, List.take_append_of_le_length (by rw [frameLength good]; exact short)]
  have value := headerValue bound
  unfold metadataSize at bound
  have two : Medium.read log (base + start (framing decompress) blocks j) 2 =
      Bytes.le 2 (header b) := by
    rw [part 2 (by omega)]
    exact Bytes.takeLe 2 (header b) b.data
  have small : header b < 256 ^ 2 := by rw [value]; split <;> omega
  have size : header b % 2 ^ 15 = b.size := by rw [value]; split <;> omega
  have whole : Medium.read log (base + start (framing decompress) blocks j) (2 + b.size) =
      (framing decompress).frame b := by
    rw [part (2 + b.size) (by omega), List.take_of_length_le (by rw [frameLength good]; omega)]
  have parsed := readFrame good []
  rw [List.append_nil] at parsed
  simp only [metablockAt, two, Bytes.readLeBounded small, size, whole, parsed, Option.map_some]

theorem indexTableSlice (host : Bytes.Host) (base : Nat) {blocks : List Metablock} {j : Nat}
    {b : Metablock} (found : blocks[j]? = some b) :
    Bytes.slice (indexTable host base blocks) (8 * j) 8 = Bytes.le 8 (base + b.offset) := by
  induction blocks generalizing j with
  | nil => simp at found
  | cons c rest ih =>
    cases j with
    | zero =>
      simp only [List.getElem?_cons_zero, Option.some.injEq] at found
      subst found
      have h := Bytes.sliceMiddle [] (Bytes.le 8 (base + c.offset)) (indexTable host base rest)
      simpa [indexTable] using h
    | succ j =>
      have tail := ih (j := j) (by simpa using found)
      have place : 8 * (j + 1) = (Bytes.le 8 (base + c.offset)).length + 8 * j := by
        rw [Bytes.leLength]; ring
      simp only [indexTable, List.flatMap_cons, Bytes.storeCpuToLe] at tail ⊢
      rw [Bytes.slice, place, ← List.drop_drop, List.drop_left]
      exact tail

theorem indexTableLength (host : Bytes.Host) (base : Nat) (blocks : List Metablock) :
    (indexTable host base blocks).length = blocks.length * 8 := by
  induction blocks with
  | nil => rfl
  | cons b rest ih =>
    simp only [indexTable, List.flatMap_cons, List.length_append, Bytes.storeLength,
      List.length_cons] at ih ⊢
    omega

structure Indexed (decompress : Bytes → Option Bytes) (host : Bytes.Host) (tab : Metatable)
    (stream : Bytes) (log : List Medium.Write) (base index : Nat) : Prop where
  closed : Closed decompress tab stream
  small : tab.encodedSize < 2 ^ 32
  table : Medium.read log base tab.encodedSize = encoded (framing decompress) tab.blocks
  entries : Medium.read log index (tab.blocks.length * 8) = indexTable host base tab.blocks
  fits : base + tab.encodedSize < 2 ^ 63

theorem indexedLookup {host : Bytes.Host} {tab : Metatable} {stream : Bytes}
    {log : List Medium.Write} {base index : Nat} (h : Indexed decompress host tab stream log base index)
    {size i : Nat} (positive : 0 < size) (divides : metadataSize % size = 0)
    (inside : i * size + size ≤ stream.length) :
    lookupRecord decompress log index size i = some (Bytes.slice stream (i * size) size) := by
  have capacity : 0 < metadataSize := by simp [metadataSize]
  have small := h.small
  have fits := h.fits
  have exactSize := encodedSizeExact h.closed.stored
  -- the block that covers the record
  have within : i * size / metadataSize < tab.blocks.length := by
    rw [Nat.div_lt_iff_lt_mul capacity]
    have := h.closed.cut.contentsLe
    rw [h.closed.stream] at this
    omega
  obtain ⟨b, found⟩ : ∃ b, tab.blocks[i * size / metadataSize]? = some b :=
    ⟨_, List.getElem?_eq_getElem within⟩
  have offset : b.offset = start (framing decompress) tab.blocks (i * size / metadataSize) := by
    rw [h.closed.offsets _ b found]
    refine Nat.mod_eq_of_lt (Nat.lt_of_le_of_lt ?_ small)
    rw [exactSize, ← startLength]
    exact startMono _ _ within.le
  have below : start (framing decompress) tab.blocks (i * size / metadataSize) ≤ tab.encodedSize := by
    rw [exactSize, ← startLength]
    exact startMono _ _ within.le
  have entry : Bytes.readLE (Medium.read log (index + 8 * (i * size / metadataSize)) 8) =
      base + start (framing decompress) tab.blocks (i * size / metadataSize) := by
    rw [Medium.readSlice log index (m := tab.blocks.length * 8) (by omega), h.entries,
      indexTableSlice host base found, offset, Bytes.readLeBounded (by omega)]
  have content := metablockAtStart h.closed.stored (by rw [← exactSize]; exact h.table) found
  -- records do not straddle blocks: the capacity is a whole number of records
  have room : i * size % metadataSize + size ≤ metadataSize := by
    obtain ⟨c, hc⟩ := Nat.dvd_of_mod_eq_zero divides
    rw [hc] at capacity ⊢
    have step : i * size % (size * c) = size * (i % c) := by
      rw [Nat.mul_comm i size, Nat.mul_mod_mul_left]
    have cpos : 0 < c := Nat.pos_of_mul_pos_left capacity
    have last := Nat.mod_lt i cpos
    calc i * size % (size * c) + size = size * (i % c + 1) := by rw [step]; ring
      _ ≤ size * c := Nat.mul_le_mul_left _ last
  have split : i * size / metadataSize * metadataSize + i * size % metadataSize = i * size := by
    rw [Nat.mul_comm (i * size / metadataSize)]; exact Nat.div_add_mod _ _
  have record : Bytes.slice ((framing decompress).content b) (i * size % metadataSize) size =
      Bytes.slice stream (i * size) size := by
    have drop := h.closed.cut.contentsDrop (i * size / metadataSize)
    rw [List.drop_eq_getElem_cons within, contentsCons, h.closed.stream] at drop
    have same := (List.getElem?_eq_some_iff.mp found).2
    rw [same] at drop
    have enough : i * size % metadataSize + size ≤ ((framing decompress).content b).length := by
      cases more : tab.blocks.drop (i * size / metadataSize + 1) with
      | nil =>
        rw [more] at drop
        have := congrArg List.length drop
        simp only [contentsNil, List.append_nil, List.length_drop] at this
        omega
      | cons c rest =>
        have full := (h.closed.cut.drop (i * size / metadataSize)).full b (by
          rw [List.drop_eq_getElem_cons within, same, more]; simp)
        omega
    have short : size ≤ (((framing decompress).content b).drop (i * size % metadataSize)).length := by
      rw [List.length_drop]; omega
    rw [Bytes.slice, Bytes.slice]
    conv_rhs => rw [← split, ← List.drop_drop, ← drop]
    rw [List.drop_append_of_le_length (by omega), List.take_append_of_le_length short]
  have whole : (Bytes.slice stream (i * size) size).length = size := Bytes.sliceLength inside
  simp only [lookupRecord, entry, content, bind, Option.bind_some, record, whole, if_true]

theorem writeWithIndexSize {host : Bytes.Host} {tab next : Metatable} {stream : Bytes}
    {env after : Env} (h : Holds decompress tab stream)
    (ok : tab.writeWithIndex host env = (true, next, after)) :
    next.encodedSize ≤ stream.length + 2 * ((stream.length + metadataSize - 1) / metadataSize) := by
  simp only [writeWithIndex] at ok
  split at ok
  · cases ok
  · rename_i first
    split at ok
    · cases ok
    · cases ok
      have closed := (writeClosed h first).1
      have size := encodedSizeLe closed
      rw [closed.cut.count, closed.stream] at size
      simpa only [encodedSize] using size

theorem writeWithIndexAccepted (host : Bytes.Host) {tab : Metatable} {stream : Bytes} {env : Env}
    (h : Holds decompress tab stream) (accepting : env.Accepting)
    (fits : env.size + (encoded (framing decompress) tab.flush.blocks).length < 2 ^ 63)
    (room : env.size + tab.flush.size + tab.flush.blocks.length * 8 < 2 ^ 63) :
    ∃ after, tab.writeWithIndex host env =
        (true, {tab.flush with offset := some (env.size + tab.flush.size)}, after) ∧
      after.written = env.written ++ Medium.consecutive env.size (blockBuffers host tab.flush.blocks) ++
        [(env.size + tab.flush.size, indexTable host env.size tab.flush.blocks)] := by
  obtain ⟨env₁, written, grown, log, still, _⟩ := writeAccepted host h accepting fits
  have size := indexTableLength host env.size tab.flush.blocks
  obtain ⟨after, indexed, _⟩ := @Env.pwriteAccepting
    (env₁.reserve (tab.flush.nmetablocks * 8)).2 still (indexTable host env.size tab.flush.blocks)
    (env.size + tab.flush.size) (by rw [size]; exact room)
  have last := (Env.pwriteWritten indexed).1
  rw [Env.reserveWritten, log] at last
  refine ⟨after, ?_, last⟩
  simp only [writeWithIndex, written, Option.getD_some, Env.reserveStart, grown,
    (flushClosed h).count, List.take_length] at indexed ⊢
  rw [indexed]

theorem writeWithIndexSpec {host : Bytes.Host} {tab next : Metatable} {stream : Bytes}
    {env after : Env} (h : Holds decompress tab stream)
    (ok : tab.writeWithIndex host env = (true, next, after)) (small : next.encodedSize < 2 ^ 32) :
    Indexed decompress host next stream after.written env.size (env.size + next.encodedSize) ∧
      next.offset = some (env.size + next.encodedSize) ∧
      after.size = env.size + next.encodedSize + next.blocks.length * 8 ∧
      ∃ buffers, after.written = env.written ++ Medium.consecutive env.size buffers ∧
        buffers.flatten.length = next.encodedSize + next.blocks.length * 8 := by
  simp only [writeWithIndex] at ok
  split at ok
  · cases ok
  · rename_i tab₁ env₁ first
    split at ok
    · cases ok
    · rename_i env₂ second
      simp only [Prod.mk.injEq, true_and] at ok
      obtain ⟨rfl, rfl⟩ := ok
      have exactSize := encodedSizeExact (writeClosed h first).1.stored
      have small' := small
      simp only [encodedSize] at exactSize small'
      rw [exactSize] at small'
      obtain ⟨closed, blocks, offset, size, grown, buffers, log, same⟩ := writeSpec h first small'
      obtain ⟨log₂, size₂, _, fits⟩ := Env.pwriteWritten second
      simp only [Env.reserveStart, Env.reserveSize, Env.reserveWritten, offset, Option.getD_some,
        closed.count, List.take_length] at log₂ size₂ fits second
      have shape : tab₁.size = tab₁.encodedSize := by rw [encodedSize, exactSize, size]
      rw [indexTableLength] at fits
      have all : env₂.written = env.written ++ Medium.consecutive env.size
          (buffers ++ [indexTable host env.size tab₁.blocks]) := by
        rw [log₂, log, Medium.consecutiveAppend, same, grown, size]
        simp [Medium.consecutive]
      refine ⟨⟨⟨closed.stored, closed.cut, closed.stream, closed.size, closed.count, closed.offsets⟩,
        small, ?_, ?_, ?_⟩, ?_, ?_, _, all, ?_⟩
      · simp only [encodedSize]
        rw [exactSize, log₂, Medium.readKept, log, ← same, Medium.readConsecutive]
        intro w member i low high covered
        simp only [List.mem_singleton] at member
        subst member
        simp only [Medium.Covers, grown, size] at covered
        omega
      · have h := Medium.readWritten env₁.written env₁.size (indexTable host env.size tab₁.blocks)
        rw [indexTableLength] at h
        simp only [encodedSize]
        rw [log₂, exactSize, ← size, ← grown]
        exact h
      · simp only [encodedSize] at shape ⊢; omega
      · simp only [encodedSize, Env.reserveStart] at shape ⊢; rw [grown, shape]
      · simp only [encodedSize] at shape ⊢; rw [size₂, grown, shape]
      · rw [List.flatten_append, List.length_append, same]
        simp only [encodedSize, exactSize, List.flatten_cons, List.flatten_nil, List.append_nil,
          indexTableLength]

end
end Libsqfs.Metatable
