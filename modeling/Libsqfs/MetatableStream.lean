import Libsqfs.FramedStream
import Libsqfs.Metatable

/-! A metadata table seen as the byte stream that was appended to it. `Holds`
connects the table of src/metatable.c to the stream; positions, block starts and
the reader of a written table are then facts about the framed stream. -/
namespace Libsqfs.Metatable
open FramedStream

def decode (decompress : Bytes → Option Bytes) (block : Metablock) : Option Bytes :=
  if block.compressed then decompress block.data else some block.data

def framing (decompress : Bytes → Option Bytes) : Framing Metablock where
  frame block := Bytes.le 2 (header block) ++ block.data
  content block := (decode decompress block).getD []

/- What a reader does: two bytes of header, bit 15 set for raw content. -/
def readMetablock (decompress : Bytes → Option Bytes) (raw : Bytes) : Option (Bytes × Bytes) := do
  let (header, rest) ← Bytes.field 2 raw
  let (stored, rest) ← Bytes.take? (header % 2 ^ 15) rest
  let content ← if header.testBit 15 then some stored else decompress stored
  some (content, rest)

/- The library promises that a compressed block is restored by the decompressor. -/
def Inverse (compressor : Option Compressor) (decompress : Bytes → Option Bytes) : Prop :=
  ∀ c, compressor = some c → ∀ block, 0 < block.length → block.length ≤ metadataSize →
    ∀ z, c.instanceCompressMeta block = some z → decompress z = some block

structure Stored (decompress : Bytes → Option Bytes) (block : Metablock) : Prop where
  size : block.data.length = block.size
  bound : block.size ≤ metadataSize
  decoded : ∃ content, decode decompress block = some content ∧
    0 < content.length ∧ content.length ≤ metadataSize ∧ block.size ≤ content.length

section
variable {decompress : Bytes → Option Bytes}

theorem headerValue {block : Metablock} (bound : block.size ≤ metadataSize) :
    header block = block.size + (if block.compressed then 0 else 2 ^ 15) := by
  unfold header
  cases block.compressed with
  | true => simp
  | false =>
    have small : block.size < 2 ^ 15 := by unfold metadataSize at bound; omega
    have bits := Nat.two_pow_add_eq_or_of_lt small 1
    simp only [Bool.false_eq_true, if_false]
    rw [Nat.lor_comm, ← Nat.mul_one (2 ^ 15), ← bits]
    omega

theorem contentOf {block : Metablock} {content : Bytes} (h : decode decompress block = some content) :
    (framing decompress).content block = content := by
  simp [framing, h]

theorem frameLength {block : Metablock} (stored : Stored decompress block) :
    ((framing decompress).frame block).length = block.size + 2 := by
  simp [framing, stored.size]; omega

theorem frameNonempty (block : Metablock) : (framing decompress).frame block ≠ [] := by
  simp [framing, Bytes.le]

theorem readFrame {block : Metablock} (stored : Stored decompress block) (rest : Bytes) :
    readMetablock decompress ((framing decompress).frame block ++ rest) =
      some ((framing decompress).content block, rest) := by
  obtain ⟨content, decoded, _⟩ := stored.decoded
  have bound := stored.bound
  have value := headerValue bound
  unfold metadataSize at bound
  have small : header block < 256 ^ 2 := by
    rw [value]; split <;> omega
  have size : header block % 2 ^ 15 = block.data.length := by
    rw [value, stored.size]; split <;> omega
  have flag : (header block).testBit 15 = !block.compressed := by
    rw [value]
    cases block.compressed with
    | true => exact Nat.testBit_lt_two_pow (by simp; omega)
    | false =>
      simp only [Bool.false_eq_true, if_false, Bool.not_false, Nat.add_comm block.size]
      rw [Nat.testBit_two_pow_add_eq, Nat.testBit_lt_two_pow (by omega)]
      rfl
  rw [contentOf decoded]
  simp only [readMetablock, framing, List.append_assoc, Bytes.fieldBounded small, size,
    Bytes.takeAppend, flag, bind, Option.bind_some]
  unfold decode at decoded
  cases shape : block.compressed <;> simp_all

/-! ### The table while it is being filled -/

structure Holds (decompress : Bytes → Option Bytes) (tab : Metatable) (stream : Bytes) : Prop where
  inverse : Inverse tab.compressor decompress
  stored : ∀ b ∈ tab.blocks, Stored decompress b
  full : ∀ b ∈ tab.blocks, ((framing decompress).content b).length = metadataSize
  stream : stream = contents (framing decompress) tab.blocks ++
    (tab.openedBlock.map Metablock.data).getD []
  opened : ∀ b, tab.openedBlock = some b →
    tab.openedBlockFill = b.data.length ∧ b.compressed = false ∧
      b.offset = tab.size ∧ 0 < b.data.length
  closed : tab.openedBlock = none → tab.openedBlockFill = 0
  room : tab.openedBlockFill < metadataSize
  size : tab.size = uint (encoded (framing decompress) tab.blocks).length
  count : tab.nmetablocks = tab.blocks.length
  offsets : ∀ i b, tab.blocks[i]? = some b → b.offset = uint (start (framing decompress) tab.blocks i)

/-! ### The table once its last block is closed -/

structure Closed (decompress : Bytes → Option Bytes) (tab : Metatable) (stream : Bytes) : Prop where
  stored : ∀ b ∈ tab.blocks, Stored decompress b
  cut : Cut (framing decompress) metadataSize tab.blocks
  stream : contents (framing decompress) tab.blocks = stream
  size : tab.size = uint (encoded (framing decompress) tab.blocks).length
  count : tab.nmetablocks = tab.blocks.length
  offsets : ∀ i b, tab.blocks[i]? = some b → b.offset = uint (start (framing decompress) tab.blocks i)

theorem initHolds {compressor : Option Compressor} (inverse : Inverse compressor decompress) :
    Holds decompress (init compressor) [] where
  inverse := inverse
  stored := by simp [init]
  full := by simp [init]
  stream := by simp [init]
  opened := by simp [init]
  closed := by simp [init]
  room := by simp [init, metadataSize]
  size := by simp [init, uint]
  count := rfl
  offsets := by simp [init]

theorem closeStored {compressor : Option Compressor} (inverse : Inverse compressor decompress)
    (block : Metablock) (size : block.data.length = block.size) (raw : block.compressed = false)
    (positive : 0 < block.data.length) (bound : block.data.length ≤ metadataSize) :
    Stored decompress (close compressor block) ∧
      (framing decompress).content (close compressor block) = block.data ∧
      (close compressor block).offset = block.offset := by
  have whole : block.data.take block.size = block.data := by rw [← size, List.take_length]
  have kept : Stored decompress block ∧ (framing decompress).content block = block.data := by
    have decoded : decode decompress block = some block.data := by simp [decode, raw]
    exact ⟨⟨size, by omega, _, decoded, positive, bound, size.ge⟩, contentOf decoded⟩
  unfold close
  rw [whole]
  cases found : compressor.bind (fun c => c.instanceCompressMeta block.data) with
  | none => exact ⟨kept.1, kept.2, rfl⟩
  | some z =>
    obtain ⟨c, present, compressed⟩ := Option.bind_eq_some_iff.mp found
    have restored := inverse c present block.data positive bound z compressed
    by_cases smaller : z.length < block.size
    · have decoded : decode decompress {block with data := z, size := z.length, compressed := true} =
          some block.data := by simpa [decode] using restored
      simp only [if_pos smaller]
      refine ⟨⟨rfl, ?_, _, decoded, positive, bound, ?_⟩, contentOf decoded, trivial⟩
      · simp only; omega
      · simp only; omega
    · simp only [if_neg smaller]
      exact ⟨kept.1, kept.2, trivial⟩

theorem uintAdd (m n : Nat) : uint (uint m + n) = uint (m + n) := by
  simp [uint, Nat.add_mod]

/- Closing the open block moves its bytes to the end of the list and changes no
byte of the stream. It is used for a full block and for the last one. -/
theorem flushSpec (tab : Metatable) {b : Metablock} {stream : Bytes}
    (inverse : Inverse tab.compressor decompress)
    (stored : ∀ b ∈ tab.blocks, Stored decompress b)
    (size : tab.size = uint (encoded (framing decompress) tab.blocks).length)
    (count : tab.nmetablocks = tab.blocks.length)
    (offsets : ∀ i b, tab.blocks[i]? = some b →
      b.offset = uint (start (framing decompress) tab.blocks i))
    (opened : tab.openedBlock = some b) (fill : tab.openedBlockFill = b.data.length)
    (raw : b.compressed = false) (place : b.offset = tab.size)
    (positive : 0 < b.data.length) (bound : b.data.length ≤ metadataSize)
    (shape : stream = contents (framing decompress) tab.blocks ++ b.data) :
    ∃ block, tab.flush.blocks = tab.blocks ++ [block] ∧
      (framing decompress).content block = b.data ∧
      (∀ b ∈ tab.flush.blocks, Stored decompress b) ∧
      contents (framing decompress) tab.flush.blocks = stream ∧
      tab.flush.size = uint (encoded (framing decompress) tab.flush.blocks).length ∧
      tab.flush.nmetablocks = tab.flush.blocks.length ∧
      (∀ i b, tab.flush.blocks[i]? = some b →
        b.offset = uint (start (framing decompress) tab.flush.blocks i)) ∧
      tab.flush.openedBlock = none ∧ tab.flush.openedBlockFill = 0 ∧
      tab.flush.compressor = tab.compressor := by
  obtain ⟨good, content, offset⟩ := closeStored inverse {b with size := tab.openedBlockFill}
    fill.symm raw positive bound
  refine ⟨close tab.compressor {b with size := tab.openedBlockFill}, ?_⟩
  simp only [flush, opened]
  refine ⟨trivial, content, ?_, ?_, ?_, ?_, ?_, trivial, trivial, trivial⟩
  · intro x member
    rcases List.mem_append.mp member with old | new
    · exact stored x old
    · rw [List.mem_singleton.mp new]; exact good
  · rw [contentsAppend, contentsCons, contentsNil, List.append_nil, content, shape]
  · rw [size, uintAdd, encodedAppend, encodedCons, encodedNil, List.append_nil, List.length_append,
      frameLength good]
  · simp [count]
  · intro i x found
    by_cases inside : i < tab.blocks.length
    · rw [List.getElem?_append_left inside] at found
      rw [startAppend _ _ _ (Nat.le_of_lt inside)]
      exact offsets i x found
    · have last : i = tab.blocks.length := by
        have := (List.getElem?_eq_some_iff.mp found).1
        simp only [List.length_append, List.length_cons, List.length_nil] at this
        omega
      subst last
      simp only [List.getElem?_append_right (Nat.le_refl _), Nat.sub_self,
        List.getElem?_cons_zero, Option.some.injEq] at found
      subst found
      rw [offset, startAppend _ _ _ (Nat.le_refl _), startLength]
      exact place.trans size

theorem flushClosed {tab : Metatable} {stream : Bytes} (h : Holds decompress tab stream) :
    Closed decompress tab.flush stream := by
  cases shape : tab.openedBlock with
  | none =>
    have same : tab.flush = tab := by simp [flush, shape]
    rw [same]
    refine ⟨h.stored, .ofAllFull (by simp [metadataSize]) h.full, ?_, h.size, h.count, h.offsets⟩
    simpa [shape] using h.stream.symm
  | some b =>
    obtain ⟨fill, raw, place, positive⟩ := h.opened b shape
    obtain ⟨block, blocks, content, stored, stream, size, count, offsets, _⟩ :=
      flushSpec tab h.inverse h.stored h.size h.count h.offsets shape fill raw place positive
        (by have := h.room; omega) (by simpa [shape] using h.stream)
    refine ⟨stored, ?_, stream, size, count, offsets⟩
    rw [blocks]
    refine .ofFull (by simp [metadataSize]) h.full ?_
    rw [content]
    exact ⟨positive, by have := h.room; omega⟩

theorem flushPrefix (tab : Metatable) : tab.blocks <+: tab.flush.blocks := by
  rw [flush]
  split
  · exact List.prefix_refl _
  · exact List.prefix_append _ _

theorem copyInHolds {tab : Metatable} {b : Metablock} {stream : Bytes} (data : Bytes)
    (h : Holds decompress tab stream)
    (target : tab.openedBlock = some b ∨ tab.openedBlock = none ∧ b = ⟨metadataSize, tab.size, false, []⟩)
    (positive : 0 < data.length) (fits : tab.openedBlockFill + data.length ≤ metadataSize) :
    Holds decompress (tab.copyIn b data) (stream ++ data) ∧
      tab.blocks <+: (tab.copyIn b data).blocks := by
  have facts : tab.openedBlockFill = b.data.length ∧ b.compressed = false ∧ b.offset = tab.size ∧
      stream = contents (framing decompress) tab.blocks ++ b.data := by
    rcases target with opened | ⟨none, rfl⟩
    · obtain ⟨fill, raw, place, _⟩ := h.opened b opened
      exact ⟨fill, raw, place, by simpa [opened] using h.stream⟩
    · exact ⟨by simpa using h.closed none, rfl, rfl, by simpa [none] using h.stream⟩
  obtain ⟨fill, raw, place, shape⟩ := facts
  have longer : stream ++ data =
      contents (framing decompress) tab.blocks ++ (b.data ++ data) := by
    rw [shape, List.append_assoc]
  unfold copyIn
  by_cases whole : tab.openedBlockFill + data.length = metadataSize
  · simp only [if_pos whole]
    have size : (b.data ++ data).length = metadataSize := by simp; omega
    obtain ⟨block, blocks, content, stored, stream, size', count, offsets, none, zero, same⟩ :=
      flushSpec {tab with openedBlock := some {b with data := b.data ++ data},
                          openedBlockFill := tab.openedBlockFill + data.length}
        (b := {b with data := b.data ++ data}) h.inverse h.stored h.size h.count h.offsets rfl (by simp; omega) raw place
        (by simp; omega) (by simp; omega) longer
    refine ⟨⟨?_, stored, ?_, ?_, ?_, fun _ => zero, ?_, size', count, offsets⟩, ?_⟩
    · rw [same]; exact h.inverse
    · intro x member
      rw [blocks] at member
      rcases List.mem_append.mp member with old | new
      · exact h.full x old
      · rw [List.mem_singleton.mp new, content]; exact size
    · rw [none, stream]; simp
    · rw [none]; simp
    · rw [zero]; simp [metadataSize]
    · rw [blocks]; exact List.prefix_append _ _
  · simp only [if_neg whole]
    refine ⟨⟨h.inverse, h.stored, h.full, by simpa using longer, ?_, by simp, ?_, h.size, h.count,
      h.offsets⟩, List.prefix_refl _⟩
    · intro x same
      cases Option.some.inj same
      exact ⟨by simp [fill], raw, place, by simp; omega⟩
    · simp only
      omega

theorem appendLoopSpec {fuel : Nat} {tab : Metatable} {stream : Bytes} (data : Bytes) (env : Env)
    (h : Holds decompress tab stream) (enough : data.length ≤ fuel) :
    ∃ taken, taken <+: data ∧ Holds decompress (appendLoop fuel tab data env).2.1 (stream ++ taken) ∧
      tab.blocks <+: (appendLoop fuel tab data env).2.1.blocks ∧
      ((appendLoop fuel tab data env).1 = true → taken = data) ∧
      (appendLoop fuel tab data env).2.2.size = env.size ∧
      (appendLoop fuel tab data env).2.2.written = env.written := by
  induction fuel generalizing tab stream data env with
  | zero =>
    have none : data = [] := List.eq_nil_of_length_eq_zero (by omega)
    subst none
    exact ⟨[], List.prefix_refl _, by simpa [appendLoop] using h, by simp [appendLoop], by simp,
      rfl, rfl⟩
  | succ fuel ih =>
    cases data with
    | nil =>
      exact ⟨[], List.prefix_refl _, by simpa [appendLoop] using h, by simp [appendLoop], by simp,
        rfl, rfl⟩
    | cons x rest =>
      have room := h.room
      obtain ⟨n, count⟩ : ∃ n, n = min (metadataSize - tab.openedBlockFill) (x :: rest).length :=
        ⟨_, rfl⟩
      have turn : ∀ (b : Metablock) (env' : Env),
          (tab.openedBlock = some b ∨
            tab.openedBlock = none ∧ b = ⟨metadataSize, tab.size, false, []⟩) →
          env'.size = env.size → env'.written = env.written →
          ∀ r, r = appendLoop fuel (tab.copyIn b ((x :: rest).take n)) ((x :: rest).drop n) env' →
          ∃ taken, taken <+: x :: rest ∧ Holds decompress r.2.1 (stream ++ taken) ∧
            tab.blocks <+: r.2.1.blocks ∧ (r.1 = true → taken = x :: rest) ∧
            r.2.2.size = env.size ∧ r.2.2.written = env.written := by
        intro b env' target size written r result
        obtain ⟨now, grown⟩ := copyInHolds ((x :: rest).take n) h target
          (by simp at count ⊢; omega) (by simp at count ⊢; omega)
        obtain ⟨taken, inside, last, blocks, all, size', written'⟩ :=
          ih ((x :: rest).drop n) env' now (by simp at enough count ⊢; omega)
        subst result
        have whole := List.take_append_drop n (x :: rest)
        refine ⟨(x :: rest).take n ++ taken, ?_, by simpa [List.append_assoc] using last,
          grown.trans blocks, ?_, size'.trans size, written'.trans written⟩
        · conv_rhs => rw [← whole]
          exact (List.prefix_append_right_inj _).mpr inside
        · intro ok
          rw [all ok, whole]
      simp only [appendLoop, getblock]
      cases shape : tab.openedBlock with
      | some b =>
        simp only [← count]
        exact turn b env (.inl shape) rfl rfl _ rfl
      | none =>
        have empty := h.closed shape
        rw [empty] at count
        cases allocated : env.mallocs 0 with
        | false =>
          simp only [Env.malloc, allocated, Bool.false_eq_true, if_false]
          exact ⟨[], List.nil_prefix, by simpa using h, List.prefix_refl _, by simp, trivial, trivial⟩
        | true =>
          simp only [Env.malloc, allocated, if_true, ← count]
          have fresh := turn ⟨metadataSize, tab.size, false, []⟩ env.malloc.2
            (.inr ⟨shape, rfl⟩) rfl rfl _ rfl
          simpa [copyIn, empty, Env.malloc] using fresh

theorem appendSpec {tab : Metatable} {stream : Bytes} (data : Bytes) (env : Env)
    (h : Holds decompress tab stream) :
    ∃ taken, taken <+: data ∧ Holds decompress (tab.append data env).2.1 (stream ++ taken) ∧
      tab.blocks <+: (tab.append data env).2.1.blocks ∧
      ((tab.append data env).1 = true → taken = data) ∧
      (tab.append data env).2.2.size = env.size ∧
      (tab.append data env).2.2.written = env.written :=
  appendLoopSpec data env h (Nat.le_refl _)

theorem appendLoopGranted (fuel : Nat) (tab : Metatable) (data : Bytes) {env : Env}
    (room : tab.openedBlockFill < metadataSize) (enough : data.length ≤ fuel)
    (granting : env.Granting) :
    (appendLoop fuel tab data env).1 = true ∧ (appendLoop fuel tab data env).2.2.Granting := by
  induction fuel generalizing tab data env with
  | zero =>
    have none : data = [] := List.eq_nil_of_length_eq_zero (by omega)
    subst none
    exact ⟨rfl, granting⟩
  | succ fuel ih =>
    cases data with
    | nil => exact ⟨rfl, granting⟩
    | cons x rest =>
      have filled (t : Metatable) (b : Metablock) (d : Bytes) (positive : t.openedBlockFill < metadataSize)
          (fits : t.openedBlockFill + d.length ≤ metadataSize) :
          (t.copyIn b d).openedBlockFill < metadataSize := by
        simp only [copyIn, flush]
        split
        · simp [metadataSize]
        · simp only; omega
      simp only [appendLoop, getblock]
      cases shape : tab.openedBlock with
      | some b =>
        apply ih _ _ _ (by simp at enough ⊢; omega) granting
        exact filled tab b _ room (by simp; omega)
      | none =>
        obtain ⟨allocated, still⟩ := Env.mallocGranting granting
        simp only [allocated, if_true]
        apply ih _ _ _ (by simp [metadataSize] at enough ⊢; omega) still
        exact filled _ _ _ (by simp [metadataSize]) (by simp [metadataSize])

theorem appendGranted {tab : Metatable} {stream : Bytes} (data : Bytes) {env : Env}
    (h : Holds decompress tab stream) (granting : env.Granting) :
    (tab.append data env).1 = true ∧ (tab.append data env).2.2.Granting ∧
      Holds decompress (tab.append data env).2.1 (stream ++ data) := by
  obtain ⟨ok, still⟩ := appendLoopGranted data.length tab data h.room (Nat.le_refl _) granting
  obtain ⟨taken, _, holds, _, all, _⟩ := appendSpec data env h
  rw [all ok] at holds
  exact ⟨ok, still, holds⟩

theorem appendEachGranted {tab : Metatable} {stream : Bytes} (pieces : List Bytes) {env : Env}
    (h : Holds decompress tab stream) (granting : env.Granting) :
    (appendEach pieces tab env).1 = true ∧ (appendEach pieces tab env).2.2.Granting ∧
      Holds decompress (appendEach pieces tab env).2.1 (stream ++ pieces.flatten) := by
  induction pieces generalizing tab stream env with
  | nil => exact ⟨rfl, granting, by simpa [appendEach] using h⟩
  | cons data rest ih =>
    obtain ⟨ok, still, holds⟩ := appendGranted data h granting
    rw [appendEach]
    generalize tab.append data env = result at ok still holds
    obtain ⟨good, next, after⟩ := result
    subst ok
    simpa [List.append_assoc] using ih holds still

theorem appendEachSpec {tab : Metatable} {stream : Bytes} (pieces : List Bytes) (env : Env)
    (h : Holds decompress tab stream) :
    ∃ taken, taken <+: pieces.flatten ∧
      Holds decompress (appendEach pieces tab env).2.1 (stream ++ taken) ∧
      tab.blocks <+: (appendEach pieces tab env).2.1.blocks ∧
      ((appendEach pieces tab env).1 = true → taken = pieces.flatten) ∧
      (appendEach pieces tab env).2.2.size = env.size ∧
      (appendEach pieces tab env).2.2.written = env.written := by
  induction pieces generalizing tab stream env with
  | nil => exact ⟨[], List.prefix_refl _, by simpa [appendEach] using h, by simp [appendEach],
      fun _ => rfl, rfl, rfl⟩
  | cons data rest ih =>
    obtain ⟨first, part, holds, grown, all, size, written⟩ := appendSpec data env h
    rw [appendEach]
    generalize tab.append data env = result at holds grown all size written
    obtain ⟨ok, next, after⟩ := result
    cases ok with
    | false => exact ⟨first, part.trans (List.prefix_append _ _), holds, grown, by simp, size, written⟩
    | true =>
      have whole := all rfl
      subst whole
      obtain ⟨taken, part', last, more, all', size', written'⟩ := ih after holds
      refine ⟨first ++ taken, ?_, by simpa [List.append_assoc] using last, grown.trans more,
        fun ok => by rw [all' ok, List.flatten_cons], size'.trans size, written'.trans written⟩
      exact (List.prefix_append_right_inj _).mpr part'

theorem contentsFull {tab : Metatable} {stream : Bytes} (h : Holds decompress tab stream) :
    (contents (framing decompress) tab.blocks).length = tab.blocks.length * metadataSize := by
  have full := h.full
  generalize tab.blocks = blocks at full
  induction blocks with
  | nil => simp
  | cons b rest ih =>
    rw [contentsCons, List.length_append, full b (by simp),
      ih (fun c member => full c (List.mem_cons_of_mem _ member)), List.length_cons]
    ring

theorem positionStream {tab : Metatable} {stream : Bytes} (h : Holds decompress tab stream) :
    tab.blocks.length = stream.length / metadataSize ∧
      tab.openedBlockFill = stream.length % metadataSize ∧
      tab.position = ⟨uint (start (framing decompress) tab.blocks (stream.length / metadataSize)),
        stream.length % metadataSize⟩ := by
  have fill : tab.openedBlockFill = ((tab.openedBlock.map Metablock.data).getD []).length := by
    cases shape : tab.openedBlock with
    | none => simpa using h.closed shape
    | some b => simpa using (h.opened b shape).1
  have size : stream.length = tab.blocks.length * metadataSize + tab.openedBlockFill := by
    rw [h.stream, List.length_append, contentsFull h, fill]
  have room := h.room
  have blocks : stream.length / metadataSize = tab.blocks.length := by
    rw [size, Nat.mul_comm, Nat.mul_add_div (by simp [metadataSize]), Nat.div_eq_of_lt room,
      Nat.add_zero]
  have offset : stream.length % metadataSize = tab.openedBlockFill := by
    rw [size, Nat.mul_comm, Nat.mul_add_mod, Nat.mod_eq_of_lt room]
  refine ⟨blocks.symm, offset.symm, ?_⟩
  rw [position, blocks, offset, startLength, h.size]

/-! ### Writing the table -/

def blockBuffers (host : Bytes.Host) (blocks : List Metablock) : List Bytes :=
  blocks.flatMap fun b =>
    [Bytes.store host 2 (Bytes.cpuToLe host 2 (header b)), b.data.take b.size]

theorem blockBuffersFlatten {host : Bytes.Host} {blocks : List Metablock}
    (stored : ∀ b ∈ blocks, Stored decompress b) :
    (blockBuffers host blocks).flatten = encoded (framing decompress) blocks := by
  induction blocks with
  | nil => rfl
  | cons b rest ih =>
    have size := (stored b (by simp)).size
    have tail := ih (fun c member => stored c (List.mem_cons_of_mem _ member))
    simp only [blockBuffers, List.flatMap_cons, List.flatten_append] at tail ⊢
    rw [tail, encodedCons]
    simp [framing, ← size]

theorem writeBlocksSpec {host : Bytes.Host} {blocks : List Metablock} {offset : Nat} {env next : Env}
    (sized : ∀ b ∈ blocks, b.data.length = b.size)
    (ok : writeBlocks host blocks offset env = (true, next)) :
    next.written = env.written ++ Medium.consecutive offset (blockBuffers host blocks) ∧
      next.size = env.size ∧ next.mallocs = env.mallocs := by
  induction blocks generalizing offset env with
  | nil =>
    cases ok
    simp [blockBuffers, Medium.consecutive]
  | cons b rest ih =>
    have size := sized b (by simp)
    simp only [writeBlocks] at ok
    split at ok
    · cases ok
    · rename_i env₁ first
      split at ok
      · cases ok
      · rename_i env₂ second
        obtain ⟨log₁, size₁, mallocs₁, _⟩ := Env.pwriteWritten first
        obtain ⟨log₂, size₂, mallocs₂, _⟩ := Env.pwriteWritten second
        obtain ⟨log₃, size₃, mallocs₃⟩ := ih (fun c member => sized c (List.mem_cons_of_mem _ member)) ok
        refine ⟨?_, size₃.trans (size₂.trans size₁), mallocs₃.trans (mallocs₂.trans mallocs₁)⟩
        have place : offset + b.size + 2 = offset + 2 + b.size := by omega
        rw [log₃, log₂, log₁, place]
        simp [blockBuffers, Medium.consecutive, ← size]

theorem writeBlocksAccepted (host : Bytes.Host) {blocks : List Metablock} {offset : Nat} {env : Env}
    (stored : ∀ b ∈ blocks, Stored decompress b) (accepting : env.Accepting)
    (fits : offset + (encoded (framing decompress) blocks).length < 2 ^ 63) :
    ∃ next, writeBlocks host blocks offset env = (true, next) ∧ next.Accepting := by
  induction blocks generalizing offset env with
  | nil => exact ⟨env, rfl, accepting⟩
  | cons b rest ih =>
    have size := (stored b (by simp)).size
    rw [encodedCons, List.length_append, frameLength (stored b (by simp))] at fits
    obtain ⟨env₁, first, still⟩ := @Env.pwriteAccepting env accepting
      (Bytes.store host 2 (Bytes.cpuToLe host 2 (header b))) offset (by rw [Bytes.storeLength]; omega)
    obtain ⟨env₂, second, still⟩ := @Env.pwriteAccepting env₁ still (b.data.take b.size) (offset + 2)
      (by rw [List.length_take]; omega)
    simp only [writeBlocks, first, second]
    exact ih (fun c member => stored c (List.mem_cons_of_mem _ member)) still (by omega)

theorem writeAccepted (host : Bytes.Host) {tab : Metatable} {stream : Bytes} {env : Env}
    (h : Holds decompress tab stream) (accepting : env.Accepting)
    (fits : env.size + (encoded (framing decompress) tab.flush.blocks).length < 2 ^ 63) :
    ∃ after, tab.write host env = (true, {tab.flush with offset := some env.size}, after) ∧
      after.size = env.size + tab.flush.size ∧ after.written = env.written ++
        Medium.consecutive env.size (blockBuffers host tab.flush.blocks) ∧ after.Accepting ∧
      after.mallocs = env.mallocs := by
  have closed := flushClosed h
  obtain ⟨after, written, still⟩ := @writeBlocksAccepted decompress host tab.flush.blocks
    env.size (env.reserve tab.flush.size).2 closed.stored accepting fits
  obtain ⟨log, size, mallocs⟩ := writeBlocksSpec (fun b member => (closed.stored b member).size) written
  refine ⟨after, ?_, size, log, still, mallocs⟩
  simp only [write, Env.reserveStart, written]

theorem writeClosed {host : Bytes.Host} {tab next : Metatable} {stream : Bytes} {env after : Env}
    {success : Bool} (h : Holds decompress tab stream)
    (written : tab.write host env = (success, next, after)) :
    Closed decompress next stream ∧ next.blocks = tab.flush.blocks := by
  have closed := flushClosed h
  simp only [write] at written
  split at written <;> cases written
  · exact ⟨closed, rfl⟩
  · exact ⟨⟨closed.stored, closed.cut, closed.stream, closed.size, closed.count, closed.offsets⟩, rfl⟩

theorem writeSpec {host : Bytes.Host} {tab next : Metatable} {stream : Bytes} {env after : Env}
    (h : Holds decompress tab stream) (ok : tab.write host env = (true, next, after))
    (small : (encoded (framing decompress) next.blocks).length < 2 ^ 32) :
    Closed decompress next stream ∧ next.blocks = tab.flush.blocks ∧ next.offset = some env.size ∧
      next.size = (encoded (framing decompress) next.blocks).length ∧
      after.size = env.size + next.size ∧
      ∃ buffers, after.written = env.written ++ Medium.consecutive env.size buffers ∧
        buffers.flatten = encoded (framing decompress) next.blocks := by
  obtain ⟨closed, same⟩ := writeClosed h ok
  have size : next.size = (encoded (framing decompress) next.blocks).length := by
    rw [closed.size]
    exact Nat.mod_eq_of_lt small
  simp only [write] at ok
  split at ok
  · cases ok
  · rename_i env₁ blocks
    simp only [Prod.mk.injEq, true_and] at ok
    obtain ⟨rfl, rfl⟩ := ok
    obtain ⟨log, grown, _⟩ := writeBlocksSpec (fun b member => (closed.stored b member).size) blocks
    exact ⟨closed, same, rfl, size, grown, _, log, blockBuffersFlatten closed.stored⟩

end
end Libsqfs.Metatable
