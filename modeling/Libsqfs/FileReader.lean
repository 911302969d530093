import Libsqfs.MetatableIndex
import Libsqfs.PlanContents
import Libsqfs.RecordCodec

/-! Reading a file by the format. The record tells its size, the place of the first
block, the block list and the fragment; the fragment table tells where the block is that
has the tail. -/
namespace Libsqfs
open Bytes (field)

namespace FramedStream

def readRest (parse : Bytes → Option (Bytes × Bytes)) (raw : Bytes) (block offset : Nat) : Option Bytes :=
  (parseAll parse raw.length (raw.drop block)).map fun contents => contents.flatten.drop offset

section
variable {β : Type} {F : Framing β} {parse : Bytes → Option (Bytes × Bytes)} {capacity k : Nat} {blocks : List β}

theorem encodedCounts (framed : ∀ b ∈ blocks, F.frame b ≠ []) : blocks.length ≤ (encoded F blocks).length := by
  induction blocks with
  | nil => exact Nat.zero_le _
  | cons b rest ih =>
    have first := List.length_pos_of_ne_nil (framed b (by simp))
    have others := ih fun c member => framed c (List.mem_cons_of_mem _ member)
    rw [encodedCons, List.length_cons, List.length_append]
    omega

theorem readRestStream (parsed : ∀ b ∈ blocks, ∀ rest, parse (F.frame b ++ rest) = some (F.content b, rest))
    (framed : ∀ b ∈ blocks, F.frame b ≠ []) (cut : Cut F capacity blocks) :
    readRest parse (encoded F blocks) (start F blocks (k / capacity)) (k % capacity) =
      some ((contents F blocks).drop k) := by
  have split : k / capacity * capacity + k % capacity = k := by
    rw [Nat.mul_comm]
    exact Nat.div_add_mod k capacity
  have enough : (blocks.drop (k / capacity)).length ≤ (encoded F blocks).length := by
    rw [List.length_drop]
    exact (Nat.sub_le ..).trans (encodedCounts framed)
  rw [readRest, encodedDropStart, parseAllEncoded (fun b member => parsed b (List.mem_of_mem_drop member))
    (fun b member => framed b (List.mem_of_mem_drop member)) enough, Option.map_some, ← List.flatMap_def]
  change some ((contents F (blocks.drop (k / capacity))).drop (k % capacity)) = _
  rw [cut.contentsDrop, List.drop_drop, split]

end
end FramedStream

def readStored (decompress : Bytes → Option Bytes) (log : List Medium.Write) (start size : Nat)
    (compressed : Bool) : Option Bytes :=
  if compressed then decompress (Medium.read log start size) else some (Medium.read log start size)

/- Each block starts where the one before ends. -/
def readExtents (decompress : Bytes → Option Bytes) (log : List Medium.Write) :
    Nat → List (Nat × Bool) → Option Bytes
  | _, [] => some []
  | start, (size, compressed) :: rest => do
    let block ← readStored decompress log start size compressed
    let more ← readExtents decompress log (start + size) rest
    some (block ++ more)

def readFragment (decompress : Bytes → Option Bytes) (log : List Medium.Write) (table f : Nat) : Option Bytes := do
  let entry ← Metatable.lookupRecord decompress log table 16 f
  let (start, rest) ← field 8 entry
  let (info, _) ← field 4 rest
  readStored decompress log start (info % 2 ^ 24) (!info.testBit 24)

def readTail (decompress : Bytes → Option Bytes) (log : List Medium.Write) (table : Nat) :
    Option (Nat × Nat) → Nat → Option Bytes
  | none, _ => some []
  | some (f, offset), size => do
    let block ← readFragment decompress log table f
    let tail := Bytes.slice block offset size
    if tail.length = size then some tail else none

def readContent (decompress : Bytes → Option Bytes) (log : List Medium.Write) (table blockSize : Nat) :
    RecordData → Option Bytes
  | .regular fileSize startBlock fragment blocks => do
    let front ← readExtents decompress log startBlock blocks
    let tail ← readTail decompress log table fragment (fileSize % blockSize)
    some (front ++ tail)
  | _ => none

def readFile (decompress : Bytes → Option Bytes) (log : List Medium.Write) (table blockSize : Nat) (record : Bytes) :
    Option Bytes := do
  let (inode, _) ← readInode blockSize record
  readContent decompress log table blockSize inode.data

/- The promise of the compressor for the blocks of an image. -/
def Reverses (compress decompress : Bytes → Option Bytes) (blockSize : Nat) : Prop :=
  ∀ src, 0 < src.length → src.length ≤ blockSize → ∀ z, compress src = some z →
    1 ≤ z.length ∧ z.length ≤ src.length ∧ decompress z = some src

section
variable {compress decompress : Bytes → Option Bytes} {blockSize start : Nat} {log : List Medium.Write} {src : Bytes}

theorem storedBack (reverses : Reverses compress decompress blockSize) (some : 0 < src.length)
    (bound : src.length ≤ blockSize) (compressing : Bool) : (stored compressing compress src).1.length ≤ src.length ∧
      (Medium.read log start (stored compressing compress src).1.length = (stored compressing compress src).1 →
        readStored decompress log start (stored compressing compress src).1.length
          (stored compressing compress src).2 = .some src) := by
  have raw : (src.length ≤ src.length) ∧ (Medium.read log start src.length = src →
      readStored decompress log start src.length false = .some src) := by
    refine ⟨le_refl _, fun bytes => ?_⟩
    rw [readStored, if_neg (by simp), bytes]
  cases compressing with
  | false => exact raw
  | true =>
    cases gained : compress src with
    | none =>
      rw [stored, if_pos rfl, gained]
      exact raw
    | some z =>
      obtain ⟨_, shorter, back⟩ := reverses src some bound z gained
      rw [stored, if_pos rfl, gained]
      refine ⟨shorter, fun bytes => ?_⟩
      rw [readStored, if_pos rfl, bytes, back]

end

/-! ### What the plan wrote -/

namespace Plan

/- The places of the plan, as far as the data goes, are read as they were written. -/
def Keeps (log : List Medium.Write) (p : Plan) (first : Nat) : Prop :=
  ∀ start count, first ≤ start → start + count ≤ p.size → Medium.read log start count = Medium.read p.written start count

section
variable {r : Rule} {size : Nat} {item : Nat → Item} {m n c : Nat} {decompress : Bytes → Option Bytes}
  {log : List Medium.Write}

structure Restores (r : Rule) (decompress : Bytes → Option Bytes) : Prop where
  block : ∀ c src log start, 0 < src.length → src.length ≤ r.blockSize → (r.block c src).1.length ≤ src.length ∧
    (Medium.read log start (r.block c src).1.length = (r.block c src).1 →
      readStored decompress log start (r.block c src).1.length (r.block c src).2 = some src)
  fragment : ∀ c src log start, 0 < src.length → src.length ≤ r.blockSize → (r.fragment c src).1.length ≤ src.length ∧
    (Medium.read log start (r.fragment c src).1.length = (r.fragment c src).1 →
      readStored decompress log start (r.fragment c src).1.length (r.fragment c src).2 = some src)

def Saves (r : Rule) : Prop :=
  ∀ c src, 0 < src.length → src.length ≤ r.blockSize → (r.block c src).1.length ≤ src.length

theorem Restores.saves (restores : Restores r decompress) : Saves r :=
  fun c src some bound => (restores.block c src [] 0 some bound).1

def blockExtent (r : Rule) (size : Nat) (item : Nat → Item) (c : Nat) : Extent :=
  (upTo r size item c).extent (r.block c (item c).data.pread)

theorem extentsRead (restores : Restores r decompress) (keeps : Keeps log (upTo r size item n) size)
    {count : Nat} (inside : m + count ≤ n)
    (blocks : ∀ c, m ≤ c → c < m + count → (item c).kind = .fullBlock ∧ 0 < (item c).data.pread.length ∧
      (item c).data.pread.length ≤ r.blockSize) :
    readExtents decompress log (upTo r size item m).size ((List.range' m count).map fun c =>
        ((blockExtent r size item c).size, (blockExtent r size item c).compressed)) =
      some ((List.range' m count).flatMap fun c => (item c).data.pread) := by
  induction count generalizing m with
  | zero => rfl
  | succ count ih =>
    obtain ⟨full, some, bound⟩ := blocks m (le_refl m) (by omega)
    have output : (upTo r size item m).output r (item m) = .some (r.block m (item m).data.pread) := outputFullAt full
    obtain ⟨bytes, within⟩ := @outputRead r size item n m _ output (by omega)
    have back := (restores.block m (item m).data.pread log (upTo r size item m).size some bound).2
      ((keeps _ _ (sizesGrow (Nat.zero_le m)) within).trans bytes)
    have next : (upTo r size item (m + 1)).size = (upTo r size item m).size + (r.block m (item m).data.pread).1.length := by
      rw [upTo, (stepWritten r _ _).1, output]
      rfl
    have rest := ih (m := m + 1) (by omega) fun c low high => blocks c (by omega) (by omega)
    rw [next] at rest
    simp only [List.range'_succ, List.map_cons, List.flatMap_cons, readExtents, blockExtent, extent, back, bind,
      Option.bind_some]
    simp only [blockExtent, extent] at rest
    rw [rest]
    rfl

end
end Plan
end Libsqfs
