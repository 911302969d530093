import Mathlib.Data.Nat.Bitwise
import Libsqfs.SerializePlaces
import Libsqfs.Calls

/-! The numbers of a device in its record (src/special.c): two numbers of 32 bits
that share a field of 32 bits. -/
namespace Libsqfs
open Transition

def decodeRdev (rdev : Nat) : Nat × Nat :=
  ((rdev >>> 8) &&& 0xfff, (rdev &&& 0xff) ||| ((rdev >>> 12) &&& 0xfff00))

def RdevFits (major minor : Nat) : Prop := major < 2 ^ 12 ∧ minor < 2 ^ 20

section
variable {major minor : Nat}

theorem testBitUint (n k : Nat) : (Metatable.uint n).testBit k = (decide (k < 32) && n.testBit k) :=
  Nat.testBit_mod_two_pow n 32 k

theorem testBitByte (n k : Nat) : (n &&& 0xff).testBit k = (decide (k < 8) && n.testBit k) := by
  rw [Nat.testBit_and, show 0xff = 2 ^ 8 - 1 from rfl, Nat.testBit_two_pow_sub_one, Bool.and_comm]

theorem testBitHigh {low high mask : Nat} (shape : mask = (2 ^ (high - low) - 1) <<< low) (n k : Nat) :
    (n &&& mask).testBit k = (decide (low ≤ k ∧ k - low < high - low) && n.testBit k) := by
  rw [Nat.testBit_and, shape, Nat.testBit_shiftLeft, Nat.testBit_two_pow_sub_one, Bool.and_comm]
  simp

theorem testBitRdev (major minor k : Nat) : (rdev major minor).testBit k =
    (decide (k < 32) && (decide (8 ≤ k) && major.testBit (k - 8)) ||
      decide (k < 8) && minor.testBit k ||
      decide (k < 32) && (decide (12 ≤ k) && (decide (8 ≤ k - 12 ∧ k - 12 - 8 < 24) && minor.testBit (k - 12)))) := by
  rw [rdev, Nat.testBit_or, Nat.testBit_or, testBitUint, testBitUint, testBitByte, Nat.testBit_shiftLeft,
    Nat.testBit_shiftLeft, testBitHigh (show 0xffffff00 = (2 ^ (32 - 8) - 1) <<< 8 from rfl)]

theorem beyond {n width k : Nat} (fits : n < 2 ^ width) (high : width ≤ k) : n.testBit k = false :=
  Nat.testBit_lt_two_pow (fits.trans_le (Nat.pow_le_pow_right (by decide) high))

theorem decodeMajor (fits : RdevFits major minor) : (decodeRdev (rdev major minor)).1 = major := by
  refine Nat.eq_of_testBit_eq fun k => ?_
  rw [decodeRdev, Nat.testBit_and, show 0xfff = 2 ^ 12 - 1 from rfl, Nat.testBit_two_pow_sub_one,
    Nat.testBit_shiftRight, testBitRdev]
  rcases Nat.lt_or_ge k 12 with low | high
  · have inside : 8 + k < 32 := by omega
    have apart : ¬ (8 ≤ 8 + k - 12 ∧ 8 + k - 12 - 8 < 24) := by omega
    simp [low, inside, apart]
  · rw [beyond fits.1 high]
    simp [Nat.not_lt.mpr high]

theorem decodeMinor (fits : RdevFits major minor) : (decodeRdev (rdev major minor)).2 = minor := by
  refine Nat.eq_of_testBit_eq fun k => ?_
  rw [decodeRdev, Nat.testBit_or, testBitByte, testBitHigh (show 0xfff00 = (2 ^ (20 - 8) - 1) <<< 8 from rfl),
    Nat.testBit_shiftRight, testBitRdev, testBitRdev]
  rcases Nat.lt_or_ge k 8 with low | high
  · -- the low byte
    have inside : k < 32 := by omega
    have before : ¬ 8 ≤ k := by omega
    have apart : ¬ 12 ≤ k := by omega
    simp [low, inside, before, apart]
  · rcases Nat.lt_or_ge k 20 with low | isOver
    · -- the bits above the major number
      have inside : 12 + k < 32 := by omega
      have behind : ¬ 12 + k < 8 := by omega
      have major : major.testBit (12 + k - 8) = false := beyond fits.1 (by omega)
      have within : 8 ≤ k ∧ k - 8 < 20 - 8 := by omega
      have field : 8 ≤ k ∧ k - 8 < 24 := by omega
      simp [inside, behind, major, within, field, Nat.not_lt.mpr high]
    · rw [beyond fits.2 isOver]
      have outside : ¬ k - 8 < 20 - 8 := by omega
      simp [Nat.not_lt.mpr high, outside]

theorem decodedFits (n : Nat) : RdevFits (decodeRdev n).1 (decodeRdev n).2 := by
  constructor
  · exact Nat.and_lt_two_pow _ (by decide)
  · exact Nat.or_lt_two_pow (Nat.and_lt_two_pow _ (by decide)) (Nat.and_lt_two_pow _ (by decide))

theorem decodedIff : decodeRdev (rdev major minor) = (major, minor) ↔ RdevFits major minor := by
  constructor
  · intro same
    have fits := decodedFits (rdev major minor)
    rwa [same] at fits
  · exact fun fits => Prod.ext (decodeMajor fits) (decodeMinor fits)

theorem uintFits (fits : RdevFits major minor) :
    Metatable.uint major = major ∧ Metatable.uint minor = minor :=
  ⟨Nat.mod_eq_of_lt (fits.1.trans (by decide)), Nat.mod_eq_of_lt (fits.2.trans (by decide))⟩

/- The numbers are taken as 32 bits wherever they are wider. -/
theorem keptIff : decodeRdev (rdev (Metatable.uint major) (Metatable.uint minor)) = (major, minor) ↔
    RdevFits major minor := by
  constructor
  · intro same
    have fits := decodedFits (rdev (Metatable.uint major) (Metatable.uint minor))
    rwa [same] at fits
  · intro fits
    rw [(uintFits fits).1, (uintFits fits).2]
    exact decodedIff.mpr fits

end

namespace Inodes

def storedRdev (o : SerializeConfig) (t : Inodes) (i : Nat) : Nat :=
  Bytes.readLE (Bytes.slice (t.front o (t.inode i)) 20 4)

section
variable {o : SerializeConfig} {t u next : Inodes} {i : Nat} {type : DeviceType} {major minor : Nat}

theorem deviceStored (body : (t.inode i).body = .device type major minor) :
    t.storedRdev o i = rdev major minor ∧ ∀ env, t.inodeEncode o i env =
      t.writeRecord i (recordType o (t.inode i)) (baseType (t.inode i)) [t.front o (t.inode i)] env := by
  constructor
  · obtain ⟨before, shape⟩ : ∃ before, before = inodeHeader o.host (t.inode i) (recordType o (t.inode i)) ++
      Bytes.put o.host 4 (t.inode i).nlink := ⟨_, rfl⟩
    have length : before.length = 20 := by simp [shape, inodeHeader]
    have field : (Bytes.put o.host 4 (rdev major minor)).length = 4 := by simp
    have found := Bytes.sliceMiddle before (Bytes.put o.host 4 (rdev major minor))
      (if (t.inode i).attr.xattrset.isSome then xattrField o.host (t.inode i) else [])
    rw [length, field] at found
    rw [storedRdev, front, body]
    simp only
    rw [← shape, List.append_assoc, found, Bytes.putLe]
    exact Bytes.readLeBounded (rdevSmall major minor)
  · intro env
    simp only [inodeEncode, body, deviceInodeSerialize, recordType, baseType, front]
    cases (t.inode i).attr.xattrset with
    | none => simp
    | some id => simp

theorem Framed.device (framed : Framed t u) (body : (t.inode i).body = .device type major minor) :
    (u.inode i).body = .device type major minor := by
  obtain ⟨_, _, _, same⟩ := framed.inode i
  rw [body] at same
  cases own : (u.inode i).body <;> simp_all [InodeBody.built]

theorem Effect.device {c : Call} {ok : Bool} (linkage : Linkage t) (valid : c.Valid t)
    (effect : t.Effect c ok next) (inside : i < t.count)
    (body : (t.inode i).body = .device type major minor) :
    i < next.count ∧ (next.inode i).body = .device type major minor := by
  have other : ¬ (t.inode i).IsDirectory := by
    rintro ⟨dir, same⟩
    rw [body] at same
    cases same
  have claimed (p c : Nat) : i < (t.claimed p c).count ∧
      ((t.claimed p c).inode i).body = .device type major minor := by
    rw [(claimedRest t p c).2.2.1, claimedInode]
    refine ⟨inside, ?_⟩
    split
    · rename_i directory
      have apart : i ≠ c := by
        rintro rfl
        exact other directory
      rw [if_neg apart]
      exact body
    · exact body
  cases effect with
  | refused => exact ⟨inside, body⟩
  | created _ _ =>
    rw [initInode, if_neg (Nat.ne_of_lt inside)]
    exact ⟨Nat.lt_succ_of_lt inside, body⟩
  | failed _ => exact claimed _ _
  | added _ =>
    have inserted := addedEntries linkage valid
    obtain ⟨kept, same⟩ := claimed _ _
    rw [inserted.count, inserted.inode]
    refine ⟨kept, ?_⟩
    split
    · rename_i parent
      exact absurd (parent ▸ valid.1.2) other
    · exact same
  | rooted _ =>
    rw [rootedInode]
    exact ⟨inside, body⟩

end
end Inodes

def DeviceCreated (trace : List (Event Builder (Call × Bool))) (i major minor : Nat) : Prop :=
  ∃ e ∈ trace, ∃ attr type, e.label = (.device attr type major minor, true) ∧ i = e.before.inodes.count

/- Each of them is read as it was created, and no two different ones are the same. -/
def DevicesTold (trace : List (Event Builder (Call × Bool))) (o : SerializeConfig) (u : Inodes) : Prop :=
  (∀ i major minor, DeviceCreated trace i major minor → decodeRdev (u.storedRdev o i) = (major, minor)) ∧
  ∀ i j major minor major' minor', DeviceCreated trace i major minor →
    DeviceCreated trace j major' minor' → (major, minor) ≠ (major', minor') →
      u.storedRdev o i ≠ u.storedRdev o j

section
variable {config : BuilderConfig} {env : Env} {trace : List (Event Builder (Call × Bool))} {b next : Builder}

theorem createdDevice {attr : InodeAttr} {type : UInt8} {major minor : Nat}
    (taken : b.Step config (.device attr type major minor, true) next) :
    b.inodes.count < next.inodes.count ∧ ∃ type, (next.inodes.inode b.inodes.count).body =
      .device type (Metatable.uint major) (Metatable.uint minor) := by
  obtain ⟨_, result⟩ := taken
  simp only [Builder.run, Inodes.deviceInodeCreate] at result
  split at result
  · cases result
  · rename_i known _
    split at result
    · cases result
    · simp only [Option.isSome_some, Prod.mk.injEq, true_and] at result
      subst result
      refine ⟨Nat.lt_succ_self _, known, ?_⟩
      simp only [Inodes.initInode, if_true]

theorem runDevices (run : Run (Builder.Step config) (.init config env) trace b) : b.inodes.Linkage ∧
    ∀ i major minor, DeviceCreated trace i major minor → i < b.inodes.count ∧ ∃ type,
      (b.inodes.inode i).body = .device type (Metatable.uint major) (Metatable.uint minor) := by
  induction run with
  | start => exact ⟨Inodes.linkageInit _, fun i major minor ⟨_, absent, _⟩ => nomatch absent⟩
  | move run taken ih =>
    obtain ⟨linkage, created⟩ := ih
    obtain ⟨valid, effect⟩ := Builder.stepEffect taken
    refine ⟨linkage.effect valid effect, fun i major minor => ?_⟩
    rintro ⟨e, member, attr, type, label, rfl⟩
    rcases List.mem_append.mp member with old | new
    · obtain ⟨inside, type, body⟩ := created _ major minor ⟨e, old, attr, type, label, rfl⟩
      obtain ⟨inside', body'⟩ := effect.device linkage valid inside body
      exact ⟨inside', type, body'⟩
    · rw [List.mem_singleton] at new
      subst new
      simp only at label
      subst label
      exact createdDevice taken

/- In whatever state of the serialization the records are written. -/
theorem deviceNumbersIff (run : Run (Builder.Step config) (.init config env) trace b) (o : SerializeConfig)
    {u : Inodes} (framed : b.inodes.Framed u) :
    (∀ i major minor, DeviceCreated trace i major minor → ∀ env, u.inodeEncode o i env =
      u.writeRecord i (recordType o (u.inode i)) (baseType (u.inode i)) [u.front o (u.inode i)] env) ∧
    (DevicesTold trace o u ↔ ∀ i major minor, DeviceCreated trace i major minor → RdevFits major minor) := by
  have stored {i major minor : Nat} (created : DeviceCreated trace i major minor) :
      u.storedRdev o i = rdev (Metatable.uint major) (Metatable.uint minor) ∧ ∀ env, u.inodeEncode o i env =
        u.writeRecord i (recordType o (u.inode i)) (baseType (u.inode i)) [u.front o (u.inode i)] env := by
    obtain ⟨_, type, body⟩ := (runDevices run).2 i major minor created
    exact Inodes.deviceStored (framed.device body)
  refine ⟨fun i major minor created => (stored created).2, ?_⟩
  constructor
  · rintro ⟨told, _⟩ i major minor created
    have same := told i major minor created
    rw [(stored created).1] at same
    exact keptIff.mp same
  · intro fits
    have told : ∀ i major minor, DeviceCreated trace i major minor →
        decodeRdev (u.storedRdev o i) = (major, minor) := by
      intro i major minor created
      rw [(stored created).1]
      exact keptIff.mpr (fits i major minor created)
    refine ⟨told, fun i j major minor major' minor' left right different same => different ?_⟩
    rw [← told i major minor left, same, told j major' minor' right]

end

def deviceConfig : BuilderConfig := ⟨.never, 4096, none⟩

def deviceCall (type : UInt8) (xattrset : Option Nat) (numbers : Nat × Nat) : Call :=
  .device ⟨0, 0, 0o600, 0, 0, 0, xattrset⟩ type numbers.1 numbers.2

def firstDevice (numbers : Nat × Nat) : Builder :=
  ((Builder.init deviceConfig .fresh).run deviceConfig (deviceCall 99 none numbers)).2

def twoDevices (first second : Nat × Nat) : Builder :=
  ((firstDevice first).run deviceConfig (deviceCall 98 (some 3) second)).2

def deviceTrace (first second : Nat × Nat) : List (Event Builder (Call × Bool)) :=
  [⟨.init deviceConfig .fresh, (deviceCall 99 none first, true), firstDevice first⟩,
    ⟨firstDevice first, (deviceCall 98 (some 3) second, true), twoDevices first second⟩]

theorem devicesRun (first second : Nat × Nat) : Run (Builder.Step deviceConfig) (.init deviceConfig .fresh)
    (deviceTrace first second) (twoDevices first second) := by
  have one : Builder.Step deviceConfig (.init deviceConfig .fresh) (deviceCall 99 none first, true)
    (firstDevice first) := ⟨trivial, rfl⟩
  have two : Builder.Step deviceConfig (firstDevice first) (deviceCall 98 (some 3) second, true)
    (twoDevices first second) := ⟨trivial, rfl⟩
  exact (Run.start.move one).move two

theorem devicesCreated (first second : Nat × Nat) : DeviceCreated (deviceTrace first second) 0 first.1 first.2 ∧
    DeviceCreated (deviceTrace first second) 1 second.1 second.2 :=
  ⟨⟨_, List.mem_cons_self, _, _, rfl, rfl⟩, ⟨_, List.mem_cons_of_mem _ List.mem_cons_self, _, _, rfl, rfl⟩⟩

theorem deviceNumbersKept :
    DevicesTold (deviceTrace (8, 1) (259, 70000)) Inodes.unstored (twoDevices (8, 1) (259, 70000)).inodes := by
  refine (deviceNumbersIff (devicesRun _ _) Inodes.unstored (Inodes.Framed.refl _)).2.mpr ?_
  rintro i major minor ⟨e, member, attr, type, label, -⟩
  simp only [deviceTrace, List.mem_cons, List.not_mem_nil, or_false] at member
  rcases member with rfl | rfl <;>
    simp only [deviceCall, Prod.mk.injEq, Call.device.injEq, and_true] at label <;>
    obtain ⟨-, -, rfl, rfl⟩ := label <;> constructor <;> decide

/- Major number 4096 takes the bit of minor number 256. -/
theorem deviceNumbersConfused :
    Run (Builder.Step deviceConfig) (.init deviceConfig .fresh) (deviceTrace (4096, 0) (0, 256))
      (twoDevices (4096, 0) (0, 256)) ∧
    DeviceCreated (deviceTrace (4096, 0) (0, 256)) 0 4096 0 ∧
    DeviceCreated (deviceTrace (4096, 0) (0, 256)) 1 0 256 ∧
    (twoDevices (4096, 0) (0, 256)).inodes.storedRdev Inodes.unstored 0 =
      (twoDevices (4096, 0) (0, 256)).inodes.storedRdev Inodes.unstored 1 ∧
    ¬ DevicesTold (deviceTrace (4096, 0) (0, 256)) Inodes.unstored (twoDevices (4096, 0) (0, 256)).inodes := by
  obtain ⟨left, right⟩ := devicesCreated (4096, 0) (0, 256)
  have same : (twoDevices (4096, 0) (0, 256)).inodes.storedRdev Inodes.unstored 0 =
      (twoDevices (4096, 0) (0, 256)).inodes.storedRdev Inodes.unstored 1 := by decide
  exact ⟨devicesRun _ _, left, right, same, fun told => told.2 0 1 4096 0 0 256 left right (by decide) same⟩

end Libsqfs
