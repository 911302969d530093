import Libsqfs.Bulkdata
import Libsqfs.Metatable

/-! The wrappers of the encoder libraries (src/compressor_zlib.c,
src/compressor_liblzma.c, src/compressor_xz.c, src/compressor_zstd.c) and what their
callers keep of a block. A library answers with a return code and the bytes that it
put in the output buffer. -/
namespace Libsqfs
open Bytes (put)

/- Return codes as the headers of the libraries number them. -/
def zStreamEnd : Int := 1
def lzmaOk : Int := 0
def lzmaStreamEnd : Int := 1
def lzmaProgError : Int := 11

/- A size is some of that many bytes of the buffer, and -1 is none. -/
def zlibCompress (result : Int) (output : Bytes) : Option Bytes :=
  if result ≠ zStreamEnd then none else some output

/- The length of the data is copied over the eight bytes behind the properties. -/
def fillSize (host : Bytes.Host) (stream : Bytes) (size : Nat) : Bytes :=
  (stream.take 5 ++ put host 8 size ++ stream.drop 13).take stream.length

/- The size written starts as 0 and is set by two of the results. -/
def lzmaCompress (host : Bytes.Host) (encoder result : Int) (output src : Bytes) : Option Bytes :=
  if encoder ≠ lzmaOk then none
  else if result = lzmaStreamEnd then some (fillSize host output src.length)
  else if result = lzmaOk then none
  else some []

def xzCompress (result : Int) (output : Bytes) : Option Bytes :=
  if result = lzmaOk then some output else none

def zstdCompress (isError : Bool) (output : Bytes) : Option Bytes :=
  if !isError then some output else none

def xzOptionData (host : Bytes.Host) (dictionarySize flags : Nat) : Bytes :=
  put host 4 dictionarySize ++ put host 4 flags

inductive EncoderLibrary where
  | zlib
  | lzma
  | xz
  | zstd
  deriving DecidableEq, Repr

/- What a library answers to one call of its wrapper. The stream of lzma is opened
for each call. -/
inductive Answer where
  | zlib (result : Int) (output : Bytes)
  | lzma (encoder result : Int) (output : Bytes)
  | xz (result : Int) (output : Bytes)
  | zstd (isError : Bool) (output : Bytes)
  deriving DecidableEq, Repr

namespace Answer

def library : Answer → EncoderLibrary
  | zlib .. => .zlib
  | lzma .. => .lzma
  | xz .. => .xz
  | zstd .. => .zstd

def output : Answer → Bytes
  | zlib _ output => output
  | lzma _ _ output => output
  | xz _ output => output
  | zstd _ output => output

def Completed : Answer → Prop
  | zlib result _ => result = zStreamEnd
  | lzma encoder result _ => encoder = lzmaOk ∧ result = lzmaStreamEnd
  | xz result _ => result = lzmaOk
  | zstd isError _ => isError = false

def compress (host : Bytes.Host) (src : Bytes) : Answer → Option Bytes
  | zlib result output => zlibCompress result output
  | lzma encoder result output => lzmaCompress host encoder result output src
  | xz result output => xzCompress result output
  | zstd isError output => zstdCompress isError output

def Unexpected : Answer → Prop
  | lzma encoder result _ => encoder = lzmaOk ∧ result ≠ lzmaStreamEnd ∧ result ≠ lzmaOk
  | _ => False

end Answer

/- What the formats promise: nothing is decoded from no bytes at all, and a stream of
lzma may give its length or leave it open. -/
structure Decoders where
  decode : EncoderLibrary → Bytes → Option Bytes
  empty : ∀ library content, decode library [] = some content → content = []
  sized : ∀ host stream content, decode .lzma stream = some content →
    decode .lzma (fillSize host stream content.length) = some content

structure Whole (decode : Bytes → Option Bytes) (src : Bytes) (compressed : Bool) (size : Nat) (data : Bytes) :
    Prop where
  content : if compressed then decode data = some src else data = src
  length : size = data.length
  positive : 0 < size

structure Lossless (d : Decoders) (host : Bytes.Host) (src : Bytes) (answer : Answer) : Prop where
  honest : (answer.compress host src).isSome ↔ answer.Completed
  block : ∀ dst, ∃ kept data, Bulkdata.imageBlockCompress (fun _ _ => answer.compress host src) true dst src =
    .ok (some kept) ∧ kept.data = some data ∧
      Whole (d.decode answer.library) src kept.compressed kept.size data
  metablock : ∀ (tab : Metatable) (compress : Bool → Bytes → Option Bytes) (block : Metablock),
    tab.compressor = some ⟨compress, some fun _ => answer.compress host src⟩ → tab.openedBlock = some block →
    block.data = src → block.compressed = false → tab.openedBlockFill = src.length →
    ∃ kept, tab.flush.blocks = tab.blocks ++ [kept] ∧
      Whole (d.decode answer.library) src kept.compressed kept.size kept.data

section
variable {d : Decoders} {host : Bytes.Host} {src : Bytes} {answer : Answer}

theorem compressedWhole (expected : ¬ answer.Unexpected)
    (promise : answer.Completed → d.decode answer.library answer.output = some src) {z : Bytes}
    (compressed : answer.compress host src = some z) :
    answer.Completed ∧ d.decode answer.library z = some src := by
  cases answer with
  | zlib result output =>
    simp only [Answer.compress, zlibCompress] at compressed
    split at compressed <;> cases compressed
    rename_i done
    exact ⟨not_not.mp done, promise (not_not.mp done)⟩
  | lzma encoder result output =>
    simp only [Answer.compress, lzmaCompress] at compressed
    split at compressed
    · cases compressed
    rename_i opened
    have opened := not_not.mp opened
    split at compressed
    · rename_i done
      cases compressed
      exact ⟨⟨opened, done⟩, d.sized host output src (promise ⟨opened, done⟩)⟩
    split at compressed
    · cases compressed
    rename_i more full
    exact absurd ⟨opened, more, full⟩ expected
  | xz result output =>
    simp only [Answer.compress, xzCompress] at compressed
    split at compressed <;> cases compressed
    rename_i done
    exact ⟨done, promise done⟩
  | zstd isError output =>
    cases isError with
    | true => cases compressed
    | false =>
      cases compressed
      exact ⟨rfl, promise rfl⟩

theorem completedCompresses (completed : answer.Completed) : (answer.compress host src).isSome := by
  cases answer with
  | zlib result output =>
    simp only [Answer.Completed] at completed
    simp [Answer.compress, zlibCompress, completed]
  | lzma encoder result output =>
    obtain ⟨opened, done⟩ := completed
    simp [Answer.compress, lzmaCompress, opened, done]
  | xz result output =>
    simp only [Answer.Completed] at completed
    simp [Answer.compress, xzCompress, completed]
  | zstd isError output =>
    simp only [Answer.Completed] at completed
    simp [Answer.compress, zstdCompress, completed]

theorem streamPositive (positive : 0 < src.length) {library : EncoderLibrary} {z : Bytes}
    (decoded : d.decode library z = some src) : 0 < z.length := by
  cases z with
  | nil =>
    rw [d.empty library src decoded] at positive
    exact positive
  | cons b rest => exact Nat.succ_pos _

theorem blockWhole (positive : 0 < src.length)
    (decodes : ∀ z, answer.compress host src = some z → d.decode answer.library z = some src) (dst : ImageBlock) :
    ∃ kept data, Bulkdata.imageBlockCompress (fun _ _ => answer.compress host src) true dst src =
      .ok (some kept) ∧ kept.data = some data ∧
        Whole (d.decode answer.library) src kept.compressed kept.size data := by
  have some : src.length ≠ 0 := by omega
  simp only [Bulkdata.imageBlockCompress, if_neg some, Bool.true_or, if_true]
  cases compressed : answer.compress host src with
  | none => exact ⟨_, src, rfl, rfl, rfl, rfl, positive⟩
  | some z =>
    have decoded := decodes z compressed
    exact ⟨_, z, rfl, rfl, decoded, rfl, streamPositive positive decoded⟩

theorem metablockWhole (positive : 0 < src.length)
    (decodes : ∀ z, answer.compress host src = some z → d.decode answer.library z = some src)
    {tab : Metatable} {compress : Bool → Bytes → Option Bytes} {block : Metablock}
    (compressor : tab.compressor = some ⟨compress, some fun _ => answer.compress host src⟩)
    (opened : tab.openedBlock = some block) (data : block.data = src) (raw : block.compressed = false)
    (fill : tab.openedBlockFill = src.length) :
    ∃ kept, tab.flush.blocks = tab.blocks ++ [kept] ∧
      Whole (d.decode answer.library) src kept.compressed kept.size kept.data := by
  have verbatim : Whole (d.decode answer.library) src block.compressed tab.openedBlockFill block.data :=
    ⟨by rw [raw]; exact data, by rw [fill, data], by rw [fill]; exact positive⟩
  simp only [Metatable.flush, opened]
  refine ⟨_, rfl, ?_⟩
  simp only [Metatable.close, compressor, Option.bind_some, Compressor.instanceCompressMeta]
  cases compressed : answer.compress host src with
  | none => exact verbatim
  | some z =>
    have decoded := decodes z compressed
    simp only
    split
    · exact ⟨decoded, rfl, streamPositive positive decoded⟩
    · exact verbatim

theorem losslessIff (positive : 0 < src.length)
    (promise : answer.Completed → d.decode answer.library answer.output = some src) :
    Lossless d host src answer ↔ ¬ answer.Unexpected := by
  constructor
  · intro lossless unexpected
    cases answer with
    | lzma encoder result output =>
      obtain ⟨opened, more, full⟩ := unexpected
      have returned : ((Answer.lzma encoder result output).compress host src).isSome := by
        simp [Answer.compress, lzmaCompress, opened, more, full]
      exact more (lossless.honest.mp returned).2
    | _ => exact unexpected
  · intro expected
    have decodes (z : Bytes) (compressed : answer.compress host src = some z) :=
      (@compressedWhole d host src answer expected promise z compressed)
    refine ⟨⟨fun returned => ?_, completedCompresses⟩, ?_, ?_⟩
    · obtain ⟨z, compressed⟩ := Option.isSome_iff_exists.mp returned
      exact (decodes z compressed).1
    · exact blockWhole positive fun z compressed => (decodes z compressed).2
    · intro tab compress block compressor opened data raw fill
      exact metablockWhole positive (fun z compressed => (decodes z compressed).2) compressor opened data raw fill

def zlibOne : Bytes := [0x78, 0xda, 0x4b, 0x04, 0x00, 0x00, 0x62, 0x00, 0x62]

def oneDecoders : Decoders where
  decode library stream := if library = .zlib ∧ stream = zlibOne then some [97] else none
  empty library content decoded := by
    have other : ([] : Bytes) ≠ zlibOne := by decide
    rw [if_neg fun both => other both.2] at decoded
    cases decoded
  sized host stream content decoded := by
    rw [if_neg (by simp)] at decoded
    cases decoded

theorem oneLossless : Lossless oneDecoders .little [97] (.zlib zStreamEnd zlibOne) :=
  (losslessIff (by decide) fun _ => rfl).mpr id

/- LZMA_MEM_ERROR: the block is kept as a compressed one of no bytes. -/
theorem memoryErrorLoses : ¬ (Answer.lzma lzmaOk 5 []).Completed ∧
    ¬ Lossless oneDecoders .little [97] (.lzma lzmaOk 5 []) := by
  refine ⟨fun completed => absurd completed.2 (by decide), ?_⟩
  intro lossless
  obtain ⟨kept, data, stored, _, whole⟩ := lossless.block .init
  cases stored
  exact absurd whole.positive (by decide)

end
end Libsqfs
