import Mathlib.Data.List.Basic
import Mathlib.Data.Nat.Bitwise
import Mathlib.Tactic.Ring

/-! Bytes, integers in a given byte order and a small reader. Nothing here
knows the image format: a width is a number of bytes, a host is a byte order.
`le` drops what does not fit its width, as a C conversion does; `store` is a native
store of an integer into a field and `cpuToLe` the conversion made before it. -/
namespace Libsqfs

abbrev Bytes := List UInt8

namespace Bytes

def le : Nat → Nat → Bytes
  | 0, _ => []
  | width + 1, value => UInt8.ofNat value :: le width (value / 256)

def readLE : Bytes → Nat
  | [] => 0
  | b :: rest => b.toNat + 256 * readLE rest

@[simp] theorem leLength (width value : Nat) : (le width value).length = width := by
  induction width generalizing value with
  | zero => rfl
  | succ width ih => simp [le, ih]

theorem readLeMod (width value : Nat) : readLE (le width value) = value % 256 ^ width := by
  induction width generalizing value with
  | zero => simp [le, readLE, Nat.mod_one]
  | succ width ih =>
    simp only [le, readLE, UInt8.toNat_ofNat', ih]
    rw [show 256 ^ (width + 1) = 256 * 256 ^ width from Nat.pow_succ', Nat.mod_mul]

theorem readLeBounded {width value : Nat} (bound : value < 256 ^ width) :
    readLE (le width value) = value := by
  rw [readLeMod, Nat.mod_eq_of_lt bound]

theorem leMod (width value : Nat) : le width (value % 256 ^ width) = le width value := by
  induction width generalizing value with
  | zero => rfl
  | succ width ih =>
    have head : UInt8.ofNat (value % 256 ^ (width + 1)) = UInt8.ofNat value := by
      apply UInt8.toNat_inj.mp
      simp only [UInt8.toNat_ofNat', Nat.pow_succ']
      exact Nat.mod_mul_right_mod value 256 (256 ^ width)
    have tail : value % 256 ^ (width + 1) / 256 = value / 256 % 256 ^ width := by
      rw [Nat.pow_succ', Nat.mod_mul_right_div_self]
    simp only [le, head, tail, ih]

theorem leReadLE (raw : Bytes) : le raw.length (readLE raw) = raw := by
  induction raw with
  | nil => rfl
  | cons b rest ih =>
    have hb := b.toNat_lt
    have quotient : (b.toNat + 256 * readLE rest) / 256 = readLE rest := by omega
    have head : UInt8.ofNat (b.toNat + 256 * readLE rest) = b := by
      apply UInt8.toNat_inj.mp
      simp only [UInt8.toNat_ofNat']
      omega
    simp only [List.length_cons, readLE, le, quotient, ih, head]

/-! ### Byte order of the machine -/

inductive Host where
  | little
  | big
  deriving DecidableEq, Repr

def bswap (width value : Nat) : Nat := readLE (le width value).reverse

def store (host : Host) (width value : Nat) : Bytes :=
  match host with
  | .little => le width value
  | .big => (le width value).reverse

def cpuToLe (host : Host) (width value : Nat) : Nat :=
  match host with
  | .little => value % 256 ^ width
  | .big => bswap width value

@[simp] theorem storeLength (host : Host) (width value : Nat) :
    (store host width value).length = width := by
  cases host <;> simp [store]

/-- Storing a value converted at the width of the field leaves its little
endian bytes in memory, whatever the byte order of the host. -/
@[simp] theorem storeCpuToLe (host : Host) (width value : Nat) :
    store host width (cpuToLe host width value) = le width value := by
  cases host with
  | little => simp [store, cpuToLe, leMod]
  | big =>
    have back := leReadLE (le width value).reverse
    simp only [List.length_reverse, leLength] at back
    simp [store, cpuToLe, bswap, back]

theorem leAdd (low high value : Nat) : le (low + high) value = le low value ++ le high (value / 256 ^ low) := by
  induction low generalizing value with
  | zero => simp [le]
  | succ low ih =>
    rw [Nat.succ_add, le, le, ih, List.cons_append, Nat.div_div_eq_div_mul, Nat.pow_succ']

theorem readLeAppend (a b : Bytes) : readLE (a ++ b) = readLE a + 256 ^ a.length * readLE b := by
  induction a with
  | nil => simp [readLE]
  | cons x rest ih =>
    rw [List.cons_append, readLE, ih, readLE, List.length_cons, Nat.pow_succ', Nat.mul_add, Nat.mul_assoc,
      Nat.add_assoc]

/- A field that is narrower than the conversion keeps the high part on a big
endian host. -/
theorem storeBigNarrow (width extra value : Nat) :
    store .big width (cpuToLe .big (extra + width) value) = le width (value / 256 ^ extra) := by
  have high : ((le width (value / 256 ^ extra)).reverse).length = width := by simp
  have swapped : bswap (extra + width) value =
      readLE (le width (value / 256 ^ extra)).reverse + 256 ^ width * readLE (le extra value).reverse := by
    rw [bswap, leAdd, List.reverse_append, readLeAppend, high]
  have back := leReadLE (le width (value / 256 ^ extra)).reverse
  rw [high] at back
  have kept : le width (bswap (extra + width) value) = (le width (value / 256 ^ extra)).reverse := by
    rw [swapped, ← leMod, Nat.add_mul_mod_self_left, leMod, back]
  simp only [store, cpuToLe, kept, List.reverse_reverse]

def put (host : Host) (width value : Nat) : Bytes := store host width (cpuToLe host width value)

@[simp] theorem putLe (host : Host) (width value : Nat) : put host width value = le width value :=
  storeCpuToLe host width value

/-! ### Reading a record field by field -/

def take? (n : Nat) (raw : Bytes) : Option (Bytes × Bytes) :=
  if n ≤ raw.length then some (raw.take n, raw.drop n) else none

def field (width : Nat) (raw : Bytes) : Option (Nat × Bytes) :=
  if width ≤ raw.length then some (readLE (raw.take width), raw.drop width) else none

theorem takeAppend (a rest : Bytes) : take? a.length (a ++ rest) = some (a, rest) := by
  simp [take?]

theorem takeLe (width value : Nat) (rest : Bytes) :
    (le width value ++ rest).take width = le width value := by
  have h : (le width value ++ rest).take (le width value).length = le width value := List.take_left
  rwa [leLength] at h

theorem dropLe (width value : Nat) (rest : Bytes) : (le width value ++ rest).drop width = rest := by
  have h : (le width value ++ rest).drop (le width value).length = rest := List.drop_left
  rwa [leLength] at h

theorem fieldAppend (width value : Nat) (rest : Bytes) :
    field width (le width value ++ rest) = some (value % 256 ^ width, rest) := by
  have whole := takeLe width value rest
  have remain := dropLe width value rest
  simp [field, whole, remain, readLeMod]

theorem fieldBounded {width value : Nat} (bound : value < 256 ^ width) (rest : Bytes) :
    field width (le width value ++ rest) = some (value, rest) := by
  rw [fieldAppend, Nat.mod_eq_of_lt bound]

def slice (raw : Bytes) (start count : Nat) : Bytes := (raw.drop start).take count

theorem sliceLength {raw : Bytes} {start count : Nat} (inside : start + count ≤ raw.length) :
    (slice raw start count).length = count := by
  simp only [slice, List.length_take, List.length_drop]
  omega

theorem sliceMiddle (a b c : Bytes) : slice (a ++ (b ++ c)) a.length b.length = b := by
  simp [slice]

end Bytes
end Libsqfs
