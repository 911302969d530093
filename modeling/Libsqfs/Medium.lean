import Libsqfs.Bytes
import Mathlib.Data.List.Perm.Basic

/-! A random access medium as the list of the writes made to it, oldest first.
`Tiling` says that writes share no byte and together fill an interval. -/
namespace Libsqfs.Medium

abbrev Write := Nat × Bytes

def Covers (w : Write) (i : Nat) : Prop := w.1 ≤ i ∧ i < w.1 + w.2.length
instance (w : Write) (i : Nat) : Decidable (Covers w i) := by unfold Covers; infer_instance

def overwrite (i : Nat) (old : UInt8) (w : Write) : UInt8 :=
  if Covers w i then w.2.getD (i - w.1) 0 else old

def byteAt (log : List Write) (i : Nat) : UInt8 := log.foldl (overwrite i) 0

def read (log : List Write) (start count : Nat) : Bytes :=
  (List.range' start count).map (byteAt log)

@[simp] theorem readLength (log : List Write) (start count : Nat) :
    (read log start count).length = count := by simp [read]

theorem readAdd (log : List Write) (start m n : Nat) :
    read log start (m + n) = read log start m ++ read log (start + m) n := by
  simp only [read, ← List.map_append]
  rw [List.range'_append_1]

theorem readSlice (log : List Write) (start : Nat) {k n m : Nat} (inside : k + n ≤ m) :
    read log (start + k) n = Bytes.slice (read log start m) k n := by
  obtain ⟨rest, rfl⟩ := Nat.exists_eq_add_of_le inside
  have whole := readAdd log start k (n + rest)
  have tail := readAdd log (start + k) n rest
  rw [Nat.add_assoc, whole, tail]
  have h := Bytes.sliceMiddle (read log start k) (read log (start + k) n)
    (read log (start + k + n) rest)
  simpa using h.symm

theorem readAgree {log other : List Write} {start count : Nat}
    (same : ∀ i, start ≤ i → i < start + count → byteAt log i = byteAt other i) :
    read log start count = read other start count := by
  apply List.map_congr_left
  intro i member
  obtain ⟨low, high⟩ := List.mem_range'_1.mp member
  exact same i low high

theorem byteAtSnoc (log : List Write) (w : Write) (i : Nat) :
    byteAt (log ++ [w]) i = overwrite i (byteAt log i) w := by
  simp [byteAt, List.foldl_append]

def Apart (a b : Write) : Prop := ∀ i, ¬ (Covers a i ∧ Covers b i)

theorem apartSymm {a b : Write} (h : Apart a b) : Apart b a :=
  fun i both => h i both.symm

theorem byteAtKept {log later : List Write} {i : Nat} (free : ∀ w ∈ later, ¬ Covers w i) :
    byteAt (log ++ later) i = byteAt log i := by
  induction later generalizing log with
  | nil => simp
  | cons w later ih =>
    rw [List.append_cons, ih (fun x member => free x (List.mem_cons_of_mem _ member)),
      byteAtSnoc, overwrite, if_neg (free w (by simp))]

theorem readKept {log later : List Write} {start count : Nat}
    (free : ∀ w ∈ later, ∀ i, start ≤ i → i < start + count → ¬ Covers w i) :
    read (log ++ later) start count = read log start count := by
  exact readAgree (fun i low high => byteAtKept (fun w inside => free w inside i low high))

theorem readWritten (log : List Write) (off : Nat) (data : Bytes) :
    read (log ++ [(off, data)]) off data.length = data := by
  apply List.ext_getElem (by simp)
  intro i left right
  have covered : Covers (off, data) (off + i) := ⟨Nat.le_add_right _ _, by simpa using right⟩
  simp only [read, List.getElem_map, List.getElem_range', byteAtSnoc, overwrite, Nat.one_mul,
    if_pos covered, Nat.add_sub_cancel_left, List.getD_eq_getElem?_getD,
    List.getElem?_eq_getElem right, Option.getD_some]

/-! ### Writes that fill an interval exactly -/

structure Tiling (writes : List Write) (low high : Nat) : Prop where
  apart : writes.Pairwise Apart
  union : ∀ i, (low ≤ i ∧ i < high) ↔ ∃ w ∈ writes, Covers w i

namespace Tiling

theorem empty (n : Nat) : Tiling [] n n := ⟨.nil, fun i => by simp⟩

theorem single (off : Nat) (data : Bytes) : Tiling [(off, data)] off (off + data.length) :=
  ⟨List.pairwise_singleton _ _, fun i => by simp [Covers]⟩

theorem le {writes : List Write} {low high : Nat} (t : Tiling writes low high)
    {w : Write} (member : w ∈ writes) {i : Nat} (covered : Covers w i) : low ≤ i ∧ i < high :=
  (t.union i).mpr ⟨w, member, covered⟩

theorem append {left right : List Write} {low mid high : Nat} (below : low ≤ mid) (above : mid ≤ high)
    (a : Tiling left low mid) (b : Tiling right mid high) : Tiling (left ++ right) low high := by
  constructor
  · refine List.pairwise_append.mpr ⟨a.apart, b.apart, fun x hx y hy i both => ?_⟩
    have first := a.le hx both.1
    have second := b.le hy both.2
    omega
  · intro i
    constructor
    · intro inside
      by_cases side : i < mid
      · obtain ⟨w, member, covered⟩ := (a.union i).mp ⟨inside.1, side⟩
        exact ⟨w, List.mem_append_left _ member, covered⟩
      · obtain ⟨w, member, covered⟩ := (b.union i).mp ⟨by omega, inside.2⟩
        exact ⟨w, List.mem_append_right _ member, covered⟩
    · rintro ⟨w, member, covered⟩
      rcases List.mem_append.mp member with hl | hr
      · have h := a.le hl covered; omega
      · have h := b.le hr covered; omega

theorem snoc {writes : List Write} {low high : Nat} (below : low ≤ high)
    (t : Tiling writes low high) (data : Bytes) :
    Tiling (writes ++ [(high, data)]) low (high + data.length) :=
  t.append below (Nat.le_add_right _ _) (single high data)

theorem perm {writes other : List Write} {low high : Nat} (t : Tiling writes low high)
    (same : writes.Perm other) : Tiling other low high := by
  refine ⟨t.apart.perm same (fun h => apartSymm h), fun i => (t.union i).trans ?_⟩
  exact ⟨fun ⟨w, m, c⟩ => ⟨w, same.mem_iff.mp m, c⟩, fun ⟨w, m, c⟩ => ⟨w, same.mem_iff.mpr m, c⟩⟩

end Tiling

/-! ### Buffers written one behind the other -/

def consecutive : Nat → List Bytes → List Write
  | _, [] => []
  | off, data :: rest => (off, data) :: consecutive (off + data.length) rest

theorem consecutiveAppend (off : Nat) (xs ys : List Bytes) :
    consecutive off (xs ++ ys) = consecutive off xs ++ consecutive (off + xs.flatten.length) ys := by
  induction xs generalizing off with
  | nil => simp [consecutive]
  | cons data rest ih => simp [consecutive, ih, Nat.add_assoc]

theorem consecutiveTiling (off : Nat) (buffers : List Bytes) :
    Tiling (consecutive off buffers) off (off + buffers.flatten.length) := by
  induction buffers generalizing off with
  | nil => exact .empty off
  | cons data rest ih =>
    have size : off + (data :: rest).flatten.length = off + data.length + rest.flatten.length := by
      simp [Nat.add_assoc]
    rw [size]
    exact (Tiling.single off data).append (Nat.le_add_right _ _) (Nat.le_add_right _ _)
      (ih (off + data.length))

theorem readConsecutive (log : List Write) (off : Nat) (buffers : List Bytes) :
    read (log ++ consecutive off buffers) off buffers.flatten.length = buffers.flatten := by
  induction buffers generalizing log off with
  | nil => simp [read]
  | cons data rest ih =>
    simp only [consecutive, List.flatten_cons, List.length_append]
    rw [readAdd, List.append_cons, ih, readKept, readWritten]
    intro w member i low high covered
    have range := (consecutiveTiling (off + data.length) rest).le member covered
    omega

def extent (log : List Write) : Nat := log.foldr (fun w n => max (w.1 + w.2.length) n) 0

theorem extentCovers {log : List Write} {w : Write} (member : w ∈ log) : w.1 + w.2.length ≤ extent log := by
  induction log with
  | nil => cases member
  | cons x log ih =>
    rcases List.mem_cons.mp member with rfl | later
    · exact Nat.le_max_left _ _
    · exact (ih later).trans (Nat.le_max_right _ _)

theorem consecutiveExtent {log : List Write} {off : Nat} {buffers : List Bytes} (some : buffers.flatten ≠ [])
    (inside : ∀ w ∈ consecutive off buffers, w ∈ log) : off + buffers.flatten.length ≤ extent log := by
  induction buffers generalizing off with
  | nil => exact absurd rfl some
  | cons data rest ih =>
    have first := extentCovers (inside (off, data) List.mem_cons_self)
    rw [List.flatten_cons, List.length_append, ← Nat.add_assoc]
    by_cases more : rest.flatten = []
    · rw [more]
      exact first
    · exact ih more fun w member => inside w (List.mem_cons_of_mem _ member)

theorem readInside {log : List Write} {off : Nat} {buffers : List Bytes} (inside : consecutive off buffers <:+: log) :
    ∃ more, read log off (extent log - off) = read log off buffers.flatten.length ++ more := by
  by_cases some : buffers.flatten = []
  · exact ⟨_, by rw [some]; exact (List.nil_append _).symm⟩
  · have bound := consecutiveExtent some fun w member => inside.subset member
    obtain ⟨rest, shape⟩ := Nat.exists_eq_add_of_le bound
    have size : extent log - off = buffers.flatten.length + rest := by omega
    exact ⟨_, by rw [size, readAdd]⟩

end Libsqfs.Medium
