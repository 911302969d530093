import Libsqfs.Bytes

/-! src/datasource.c: data items that lie in memory, in a file or are put together
from pieces of other items, and reading from them into a buffer. Sizes and offsets are
64 bits wide, and sums of them wrap. -/
namespace Libsqfs

def uint64 (n : Nat) : Nat := n % 2 ^ 64

mutual

inductive DataItem where
  | memory (buffer : Bytes)
  | file (content : Bytes)
  | compound (pieces : DataPieces)

inductive DataPieces where
  | nil
  | cons (data : DataItem) (size offset : Nat) (rest : DataPieces)

end

/- What comes of a system call that reads a file: -1, with anything in the buffer, at
most so many bytes, or all bytes that there are. -/
inductive LeafRead where
  | failed (garbage : Bytes)
  | short (most : Nat)
  | whole
  deriving DecidableEq, Repr

abbrev Memory := Nat → UInt8

namespace Memory

def copy (mem : Memory) (dst : Nat) (data : Bytes) : Memory := fun a =>
  if dst ≤ a then (data[a - dst]?).getD (mem a) else mem a

end Memory

structure ReadResult where
  count : Int
  mem : Memory
  calls : Nat

/- The size of a compound item is summed up when it is created. -/
def DataPieces.sum : DataPieces → Nat → Nat
  | .nil, total => total
  | .cons _ size _ rest, total => rest.sum (uint64 (total + size))

def DataItem.getSize : DataItem → Nat
  | .memory buffer => buffer.length
  | .file content => content.length
  | .compound pieces => pieces.sum 0

def memorydataPread (buffer : Bytes) (mem : Memory) (dst size offset calls : Nat) : ReadResult :=
  if offset > buffer.length then ⟨0, mem, calls⟩ else
  let size := if uint64 (offset + size) > buffer.length then buffer.length - offset else size
  ⟨size, mem.copy dst (Bytes.slice buffer offset size), calls⟩

def filedataPread (reads : Nat → LeafRead) (content : Bytes) (mem : Memory) (dst size offset calls : Nat) :
    ReadResult :=
  match reads calls with
  | .failed garbage => ⟨-1, mem.copy dst (garbage.take size), calls + 1⟩
  | .short most =>
    let found := (Bytes.slice content offset size).take most
    ⟨found.length, mem.copy dst found, calls + 1⟩
  | .whole =>
    let found := Bytes.slice content offset size
    ⟨found.length, mem.copy dst found, calls + 1⟩

mutual

def DataItem.pread (reads : Nat → LeafRead) (mem : Memory) (dst size offset calls : Nat) :
    DataItem → ReadResult
  | .memory buffer => memorydataPread buffer mem dst size offset calls
  | .file content => filedataPread reads content mem dst size offset calls
  | .compound pieces =>
    let total := pieces.sum 0
    if offset > total then ⟨0, mem, calls⟩ else
    let size := if uint64 (offset + size) > total then total - offset else size
    pieces.pread reads mem dst size offset calls 0 0

def DataPieces.pread (reads : Nat → LeafRead) (mem : Memory) (dst size offset calls : Nat)
    (currentOffset : Nat) (written : Int) : DataPieces → ReadResult
  | .nil => ⟨written, mem, calls⟩
  | .cons data pieceSize pieceOffset rest =>
    let pieceEnd := uint64 (currentOffset + pieceSize)
    if pieceEnd ≤ offset then rest.pread reads mem dst size offset calls pieceEnd written
    else if currentOffset ≥ uint64 (offset + size) then ⟨written, mem, calls⟩
    else
      let copyBegin := max currentOffset offset
      let copyEnd := min pieceEnd (uint64 (offset + size))
      let r := data.pread reads mem (dst + (copyBegin - offset)) (copyEnd - copyBegin)
        (uint64 (pieceOffset + copyBegin - currentOffset)) calls
      if r.count < 0 then ⟨written, r.mem, r.calls⟩
      else if r.count ≠ (copyEnd - copyBegin : Nat) then ⟨written + r.count, r.mem, r.calls⟩
      else rest.pread reads r.mem dst size offset r.calls pieceEnd (written + r.count)

end

/-! ### What an item stands for -/

mutual

/- The bytes of an item, where it has them. A piece of a compound item takes the place
of its declared size. -/
def DataItem.byteAt (n : Nat) : DataItem → Option UInt8
  | .memory buffer => buffer[n]?
  | .file content => content[n]?
  | .compound pieces => pieces.byteAt n

def DataPieces.byteAt (n : Nat) : DataPieces → Option UInt8
  | .nil => none
  | .cons data size offset rest => if n < size then data.byteAt (offset + n) else rest.byteAt (n - size)

end

def DataPieces.total : DataPieces → Nat
  | .nil => 0
  | .cons _ size _ rest => size + rest.total

mutual

/- All sums of sizes and offsets are below 2^63. -/
def DataItem.Bounded : DataItem → Prop
  | .memory _ => True
  | .file _ => True
  | .compound pieces => pieces.total < 2 ^ 63 ∧ pieces.Bounded

def DataPieces.Bounded : DataPieces → Prop
  | .nil => True
  | .cons data size offset rest => offset + size < 2 ^ 63 ∧ data.Bounded ∧ rest.Bounded

end

mutual

def DataItem.Inside : DataItem → Prop
  | .memory _ => True
  | .file _ => True
  | .compound pieces => pieces.Inside

def DataPieces.Inside : DataPieces → Prop
  | .nil => True
  | .cons data size offset rest => offset + size ≤ data.getSize ∧ data.Inside ∧ rest.Inside

end

/- The system calls made between two counts find all bytes that there are. -/
def WholeReads (reads : Nat → LeafRead) (before after : Nat) : Prop :=
  ∀ n, before ≤ n → n < after → reads n = .whole

structure Reads (byteAt : Nat → Option UInt8) (mem : Memory) (dst size offset : Nat) (r : ReadResult) : Prop where
  frame : ∀ a, a < dst ∨ dst + size ≤ a → r.mem a = mem a
  counted : r.count < 0 ∨ ∃ c, c ≤ size ∧ r.count = (c : Nat) ∧ ∀ i, i < c → byteAt (offset + i) = some (r.mem (dst + i))

def ItemReads (reads : Nat → LeafRead) (item : DataItem) : Prop :=
  ∀ mem dst size offset calls, offset + size < 2 ^ 63 →
    Reads item.byteAt mem dst size offset (item.pread reads mem dst size offset calls) ∧
    calls ≤ (item.pread reads mem dst size offset calls).calls ∧
    (item.Inside → offset + size ≤ item.getSize →
      WholeReads reads calls (item.pread reads mem dst size offset calls).calls →
      (item.pread reads mem dst size offset calls).count = (size : Nat))

section
variable {reads : Nat → LeafRead}

theorem copyFrame {mem : Memory} {dst : Nat} {data : Bytes} {size : Nat} (short : data.length ≤ size) (a : Nat)
    (outside : a < dst ∨ dst + size ≤ a) : mem.copy dst data a = mem a := by
  unfold Memory.copy
  split
  · rw [List.getElem?_eq_none (by omega)]
    rfl
  · rfl

theorem copyInside {mem : Memory} {dst i : Nat} {data : Bytes} (inside : i < data.length) :
    data[i]? = some (mem.copy dst data (dst + i)) := by
  unfold Memory.copy
  rw [if_pos (Nat.le_add_right _ _), Nat.add_sub_cancel_left, List.getElem?_eq_getElem inside]
  rfl

theorem foundReads {data found : Bytes} {mem : Memory} {dst size offset : Nat}
    (part : found <+: Bytes.slice data offset size) (calls : Nat) :
    Reads (fun n => data[n]?) mem dst size offset ⟨(found.length : Nat), mem.copy dst found, calls⟩ := by
  have short : found.length ≤ size := by
    have le := part.length_le
    simp only [Bytes.slice, List.length_take] at le
    omega
  refine ⟨fun a outside => copyFrame short a outside, .inr ⟨found.length, short, rfl, fun i inside => ?_⟩⟩
  have own : found[i]? = (Bytes.slice data offset size)[i]? := by
    obtain ⟨rest, same⟩ := part
    rw [← same, List.getElem?_append_left inside]
  rw [← copyInside inside, own, Bytes.slice, List.getElem?_take, if_pos (by omega), List.getElem?_drop]

theorem sliceWhole {data : Bytes} {size offset : Nat} (inside : offset + size ≤ data.length) :
    (Bytes.slice data offset size).length = size := by
  simp only [Bytes.slice, List.length_take, List.length_drop]
  omega

theorem memoryReads (buffer : Bytes) : ItemReads reads (.memory buffer) := by
  intro mem dst size offset calls sum
  have wide : uint64 (offset + size) = offset + size := Nat.mod_eq_of_lt (by omega)
  simp only [DataItem.pread, memorydataPread, wide]
  split
  · refine ⟨⟨fun _ _ => rfl, .inr ⟨0, Nat.zero_le _, rfl, by omega⟩⟩, Nat.le_refl _, fun _ inside _ => ?_⟩
    simp only [DataItem.getSize] at inside
    omega
  · rename_i starts
    obtain ⟨rest, clamped⟩ : ∃ n, n = if offset + size > buffer.length then buffer.length - offset else size :=
      ⟨_, rfl⟩
    have bounds : rest ≤ size ∧ offset + rest ≤ buffer.length := by
      rw [clamped]
      split <;> omega
    have part : Bytes.slice buffer offset rest <+: Bytes.slice buffer offset size :=
      List.take_prefix_take_left bounds.1
    have found := @foundReads buffer _ mem dst size offset part calls
    rw [sliceWhole bounds.2] at found
    rw [← clamped]
    refine ⟨found, Nat.le_refl _, fun _ inside _ => ?_⟩
    simp only [DataItem.getSize] at inside
    rw [clamped, if_neg (by omega)]

theorem fileReads (content : Bytes) : ItemReads reads (.file content) := by
  intro mem dst size offset calls sum
  simp only [DataItem.pread, filedataPread]
  cases answer : reads calls with
  | failed garbage =>
    have negative : (-1 : Int) < 0 := by decide
    refine ⟨⟨fun a outside => copyFrame (List.length_take_le ..) a outside, .inl negative⟩, Nat.le_succ _,
      fun _ _ whole => ?_⟩
    have found := whole calls (Nat.le_refl _) (Nat.lt_succ_self _)
    rw [answer] at found
    cases found
  | short most =>
    refine ⟨foundReads (List.take_prefix ..) _, Nat.le_succ _, fun _ _ whole => ?_⟩
    have found := whole calls (Nat.le_refl _) (Nat.lt_succ_self _)
    rw [answer] at found
    cases found
  | whole =>
    refine ⟨foundReads (List.prefix_refl _) _, Nat.le_succ _, fun _ inside _ => ?_⟩
    rw [sliceWhole inside]

/-! ### The pieces of a compound item -/

theorem sumTotal (pieces : DataPieces) {total : Nat} (small : total + pieces.total < 2 ^ 64) :
    pieces.sum total = total + pieces.total := by
  cases pieces with
  | nil => rfl
  | cons data size offset rest =>
    rw [DataPieces.total] at small
    have wide : uint64 (total + size) = total + size := Nat.mod_eq_of_lt (by omega)
    rw [DataPieces.sum, wide, sumTotal rest (by omega), DataPieces.total, Nat.add_assoc]

def before (currentOffset offset size : Nat) : Nat := min currentOffset (offset + size) - offset

structure LoopReads (reads : Nat → LeafRead) (pieces : DataPieces) (mem : Memory)
    (dst size offset calls currentOffset : Nat) (r : ReadResult) : Prop where
  frame : ∀ a, a < dst + before currentOffset offset size ∨ dst + size ≤ a → r.mem a = mem a
  called : calls ≤ r.calls
  counted : ∃ c, before currentOffset offset size ≤ c ∧ c ≤ size ∧ r.count = (c : Nat) ∧
    ∀ i, before currentOffset offset size ≤ i → i < c →
      pieces.byteAt (offset + i - currentOffset) = some (r.mem (dst + i))
  complete : pieces.Inside → WholeReads reads calls r.calls → r.count = (size : Nat)

def PiecesRead (reads : Nat → LeafRead) (pieces : DataPieces) : Prop :=
  ∀ mem dst size offset calls currentOffset, offset + size ≤ currentOffset + pieces.total →
    currentOffset + pieces.total < 2 ^ 63 →
    LoopReads reads pieces mem dst size offset calls currentOffset
      (pieces.pread reads mem dst size offset calls currentOffset (before currentOffset offset size : Nat))

theorem loopEnds {pieces : DataPieces} {mem : Memory} {dst size offset calls currentOffset : Nat}
    (last : before currentOffset offset size = size) :
    LoopReads reads pieces mem dst size offset calls currentOffset ⟨(before currentOffset offset size : Nat), mem, calls⟩ where
  frame := fun _ _ => rfl
  called := Nat.le_refl _
  counted := ⟨size, last.le, Nat.le_refl _, by rw [last], fun i low high => absurd high (by omega)⟩
  complete := fun _ _ => by rw [last]

theorem nilReads : PiecesRead reads .nil := by
  intro mem dst size offset calls currentOffset inside _
  have last : before currentOffset offset size = size := by
    simp only [DataPieces.total] at inside
    unfold before
    omega
  exact loopEnds last

theorem consReads {data : DataItem} {pieceSize pieceOffset : Nat} {rest : DataPieces}
    (bounded : pieceOffset + pieceSize < 2 ^ 63) (item : ItemReads reads data) (others : PiecesRead reads rest) :
    PiecesRead reads (.cons data pieceSize pieceOffset rest) := by
  intro mem dst size offset calls currentOffset inside small
  rw [DataPieces.total] at inside small
  have pieceEnd : uint64 (currentOffset + pieceSize) = currentOffset + pieceSize := Nat.mod_eq_of_lt (by omega)
  have range : uint64 (offset + size) = offset + size := Nat.mod_eq_of_lt (by omega)
  simp only [DataPieces.pread, pieceEnd, range]
  have tail (mem : Memory) (calls : Nat) := others mem dst size offset calls (currentOffset + pieceSize)
    (by omega) (by omega)
  split
  · rename_i skipped
    have none : before currentOffset offset size = 0 := by unfold before; omega
    have none' : before (currentOffset + pieceSize) offset size = 0 := by unfold before; omega
    obtain ⟨frame, called, ⟨c, low, high, count, found⟩, complete⟩ := tail mem calls
    rw [none'] at frame low count found complete called
    refine ⟨?_, ?_, ⟨c, ?_, high, ?_, fun i _ less => ?_⟩, ?_⟩
    all_goals rw [none]
    · exact frame
    · exact called
    · exact low
    · exact count
    · rw [DataPieces.byteAt, if_neg (by omega), Nat.sub_sub]
      exact found i (Nat.zero_le _) less
    · exact fun own whole => complete own.2.2 whole
  split
  · rename_i beyond
    apply loopEnds
    unfold before
    omega
  · rename_i ends begins
    obtain ⟨w, front⟩ : ∃ w, w = before currentOffset offset size := ⟨_, rfl⟩
    obtain ⟨n, count⟩ : ∃ n, n = min (currentOffset + pieceSize) (offset + size) - max currentOffset offset := ⟨_, rfl⟩
    have start : max currentOffset offset = offset + w := by
      rw [front]
      unfold before
      omega
    have next : before (currentOffset + pieceSize) offset size = w + n := by
      rw [front, count]
      unfold before
      omega
    have place : uint64 (pieceOffset + max currentOffset offset - currentOffset) =
        pieceOffset + (offset + w - currentOffset) := by
      rw [start, uint64, Nat.mod_eq_of_lt (by omega)]
      omega
    have room : w + n ≤ size ∧ offset + w + n ≤ currentOffset + pieceSize ∧ currentOffset ≤ offset + w := by omega
    obtain ⟨own, called, complete⟩ := item mem (dst + w) n (pieceOffset + (offset + w - currentOffset)) calls (by omega)
    rw [← count, place, start, Nat.add_sub_cancel_left, ← front]
    generalize data.pread reads mem (dst + w) n (pieceOffset + (offset + w - currentOffset)) calls = r
      at own called complete
    have copied {i : Nat} (low : w ≤ i) (high : i < w + n)
        (found : data.byteAt (pieceOffset + (offset + w - currentOffset) + (i - w)) =
          some (r.mem (dst + w + (i - w)))) :
        (DataPieces.cons data pieceSize pieceOffset rest).byteAt (offset + i - currentOffset) =
          some (r.mem (dst + i)) := by
      rw [show dst + w + (i - w) = dst + i by omega,
        show pieceOffset + (offset + w - currentOffset) + (i - w) = pieceOffset + (offset + i - currentOffset) by omega]
        at found
      rw [DataPieces.byteAt, if_pos (by omega), found]
    have within (a : Nat) (outside : a < dst + w ∨ dst + size ≤ a) : r.mem a = mem a := own.frame a (by omega)
    have full (whole : (DataPieces.cons data pieceSize pieceOffset rest).Inside)
        (reading : WholeReads reads calls r.calls) : r.count = (n : Nat) :=
      complete whole.2.1 (by have := whole.1; omega) reading
    split
    · rename_i negative
      refine ⟨?_, called, ⟨w, ?_, by omega, rfl, fun i low high => by omega⟩, fun whole reading => ?_⟩
      · rw [← front]; exact within
      · rw [← front]
      · have := full whole reading
        omega
    obtain negative | ⟨c, less, same, found⟩ := own.counted
    · omega
    split
    · rename_i short
      refine ⟨?_, called, ⟨w + c, ?_, by omega, by rw [same]; rfl, fun i low high => ?_⟩, fun whole reading => ?_⟩
      · rw [← front]; exact within
      · rw [← front]; exact Nat.le_add_right _ _
      · rw [← front] at low
        exact copied low (by omega) (found (i - w) (by omega))
      · exact absurd (full whole reading) short
    · rename_i whole
      have whole := not_not.mp whole
      rw [same] at whole
      obtain rfl : c = n := Int.ofNat.inj whole
      have written : (w : Int) + r.count = (before (currentOffset + pieceSize) offset size : Nat) := by
        rw [same, next]
        rfl
      have remaining := tail r.mem r.calls
      rw [written]
      generalize rest.pread reads r.mem dst size offset r.calls (currentOffset + pieceSize)
        (before (currentOffset + pieceSize) offset size : Nat) = r' at remaining
      obtain ⟨frame, more, ⟨last, low, high, total, later⟩, finish⟩ := remaining
      rw [next] at frame low later
      refine ⟨fun a outside => ?_, called.trans more, ⟨last, by omega, high, total, fun i first below => ?_⟩,
        fun inside' reading => ?_⟩
      · rw [← front] at outside
        rw [← within a outside]
        exact frame a (by omega)
      · rw [← front] at first
        by_cases own : i < w + c
        · rw [frame (dst + i) (by omega)]
          exact copied first own (found (i - w) (by omega))
        · rw [DataPieces.byteAt, if_neg (by omega), Nat.sub_sub]
          exact later i (by omega) below
      · exact finish inside'.2.2 fun k first below => reading k (by omega) below

/- The concatenation of the slices, from the offset on. -/
structure CompoundRead (reads : Nat → LeafRead) (pieces : DataPieces) (mem : Memory) (dst size offset calls : Nat)
    (r : ReadResult) : Prop where
  counted : ∃ c, c ≤ min size (pieces.total - offset) ∧ r.count = (c : Nat) ∧
    ∀ i, i < c → pieces.byteAt (offset + i) = some (r.mem (dst + i))
  frame : ∀ a, a < dst ∨ dst + min size (pieces.total - offset) ≤ a → r.mem a = mem a
  called : calls ≤ r.calls
  complete : pieces.Inside → WholeReads reads calls r.calls → r.count = (min size (pieces.total - offset) : Nat)

theorem compoundOf {pieces : DataPieces} (small : pieces.total < 2 ^ 63) (loop : PiecesRead reads pieces)
    (mem : Memory) (dst : Nat) {size offset : Nat} (calls : Nat) (sum : offset + size < 2 ^ 63) :
    CompoundRead reads pieces mem dst size offset calls
      ((DataItem.compound pieces).pread reads mem dst size offset calls) := by
  have whole : pieces.sum 0 = pieces.total := by
    rw [sumTotal pieces (by omega), Nat.zero_add]
  have wide : uint64 (offset + size) = offset + size := Nat.mod_eq_of_lt (by omega)
  simp only [DataItem.pread, whole, wide]
  split
  · rename_i beyond
    have none : min size (pieces.total - offset) = 0 := by omega
    refine ⟨⟨0, Nat.zero_le _, rfl, by omega⟩, fun _ _ => rfl, Nat.le_refl _, fun _ _ => ?_⟩
    rw [none]
    rfl
  · obtain ⟨n, clamped⟩ : ∃ n, n = if offset + size > pieces.total then pieces.total - offset else size := ⟨_, rfl⟩
    have exact : n = min size (pieces.total - offset) := by
      rw [clamped]
      split <;> omega
    have zero : before 0 offset n = 0 := by
      unfold before
      omega
    have read := loop mem dst n offset calls 0 (by omega) (by omega)
    rw [← clamped]
    rw [zero] at read
    generalize result : pieces.pread reads mem dst n offset calls 0 0 = r
    have same : pieces.pread reads mem dst n offset calls 0 (0 : Nat) = r := result
    rw [same] at read
    obtain ⟨frame, called, ⟨c, low, high, count, found⟩, complete⟩ := read
    rw [zero] at frame low found
    rw [exact] at frame high complete
    exact ⟨⟨c, high, count, fun i inside => found i (Nat.zero_le _) inside⟩, frame, called, complete⟩

theorem compoundReads {pieces : DataPieces} (small : pieces.total < 2 ^ 63) (loop : PiecesRead reads pieces) :
    ItemReads reads (.compound pieces) := by
  intro mem dst size offset calls sum
  obtain ⟨⟨c, less, count, found⟩, frame, called, complete⟩ := compoundOf small loop mem dst calls sum
  refine ⟨⟨fun a outside => frame a (by omega), .inr ⟨c, by omega, count, found⟩⟩, called,
    fun own inside reading => ?_⟩
  rw [DataItem.getSize, sumTotal pieces (by omega)] at inside
  rw [complete own reading, Nat.min_eq_left (by omega)]

mutual

theorem itemReads : ∀ item : DataItem, item.Bounded → ItemReads reads item
  | .memory buffer, _ => memoryReads buffer
  | .file content, _ => fileReads content
  | .compound pieces, bounded => compoundReads bounded.1 (piecesRead pieces bounded.2)

theorem piecesRead : ∀ pieces : DataPieces, pieces.Bounded → PiecesRead reads pieces
  | .nil, _ => nilReads
  | .cons data _ _ rest, bounded => consReads bounded.1 (itemReads data bounded.2.1) (piecesRead rest bounded.2.2)

end

theorem compoundSlices {pieces : DataPieces} (bounded : (DataItem.compound pieces).Bounded) {size offset : Nat}
    (sum : offset + size < 2 ^ 63) (reads : Nat → LeafRead) (mem : Memory) (dst calls : Nat) :
    CompoundRead reads pieces mem dst size offset calls
      ((DataItem.compound pieces).pread reads mem dst size offset calls) :=
  compoundOf bounded.1 (piecesRead pieces bounded.2) mem dst calls sum

def shortPieces : DataPieces := .cons (.memory [1, 2, 3]) 2 1 (.cons (.file [4, 5, 6]) 3 0 .nil)

theorem shortSlices :
    CompoundRead (fun _ => .short 1) shortPieces (fun _ => 0) 10 4 1 0
      ((DataItem.compound shortPieces).pread (fun _ => .short 1) (fun _ => 0) 10 4 1 0) := by
  have bounded : (DataItem.compound shortPieces).Bounded := by
    unfold shortPieces
    simp [DataItem.Bounded, DataPieces.Bounded, DataPieces.total]
  exact compoundSlices bounded (by decide) _ _ _ _

example : ((DataItem.compound shortPieces).pread (fun _ => .short 1) (fun _ => 0) 10 4 1 0).count = 2 := by decide

end
end Libsqfs
