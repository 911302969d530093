import Libsqfs.DirectoryIndex
import Libsqfs.XattrCodec

/-! The names that the create functions accept, and the length fields that the
encoders give them. -/
namespace Libsqfs
open Bytes (field take? put)

structure DirectoryNameKept (host : Bytes.Host) (name : Bytes) : Prop where
  entry : ∀ (x : Listed) (base startBlock : Nat) (rest : Bytes), x.name = name →
    (readEntry startBlock base (dirEntry host x base ++ rest)).map (fun r => (r.1.name, r.2)) =
      some (name, rest)
  index : ∀ (e : DirectoryEntry) (rest : Bytes), e.name = name →
    (readIndexRecord (Inodes.indexRecord host e ++ (e.name ++ rest))).map (fun r => (r.1.name, r.2)) =
      some (name, rest)

def XattrNameKept (host : Bytes.Host) (xattr : Xattr) : Prop :=
  ∀ rest, (readXattrName (xattr.entry host ++ (xattr.suffix ++ rest))).map (fun r => (r.1.2, r.2)) =
    some (xattr.suffix, rest)

structure NamesKept (host : Bytes.Host) (entries : Bytes → Prop) (xattrs : Xattr → Prop) : Prop where
  ofEntry : ∀ t parent name i env t' env', Inodes.directoryAddEntry t parent name i env = (true, t', env') →
    (t'.entry t.entryCount).name = name ∧ (DirectoryNameKept host name ↔ entries name)
  ofXattr : ∀ tab name value env xattr tab' env',
    XattrTable.xattrCreate tab name value env = (some xattr, tab', env') →
      xattr.name = name ∧ (XattrNameKept host xattr ↔ xattrs xattr)

section
variable {host : Bytes.Host} {name : Bytes}

theorem takeWhole {n : Nat} {a : Bytes} {result : Bytes × Bytes} (read : take? n a = some result)
    (name : result.1 = a) : n = a.length := by
  unfold take? at read
  split at read
  · rename_i inside
    cases read
    have same := congrArg List.length name
    rw [List.length_take, Nat.min_eq_left inside] at same
    exact same
  · cases read

theorem entryKept (long : 1 ≤ name.length) (short : name.length ≤ 65536) : DirectoryNameKept host name := by
  constructor
  · rintro x base startBlock rest rfl
    have shape : dirEntry host x base ++ rest = Bytes.le 2 x.place.offset ++
        (Bytes.le 2 (uintSub x.inodeNumber base) ++ (Bytes.le 2 x.type ++
          (Bytes.le 2 (sizetSub x.name.length 1) ++ (x.name ++ rest)))) := by
      simp only [dirEntry, Bytes.putLe, List.append_assoc]
    rw [shape, readEntryFields (nameSizeBack long short)]
    rfl
  · rintro e rest rfl
    have shape : Inodes.indexRecord host e ++ (e.name ++ rest) = Bytes.le 4 e.offset ++
        (Bytes.le 4 e.directoryTableEntry.block ++ (Bytes.le 4 (sizetSub e.name.length 1) ++ (e.name ++ rest))) := by
      simp only [Inodes.indexRecord, Bytes.putLe, List.append_assoc]
    rw [shape, readIndexFields (indexSizeBack long (by omega))]
    rfl

theorem entryFieldLength {size offset delta type startBlock base : Nat} {rest : Bytes}
    (read : (readEntry startBlock base (Bytes.le 2 offset ++ (Bytes.le 2 delta ++ (Bytes.le 2 type ++
      (Bytes.le 2 size ++ name))))).map (fun r => (r.1.name, r.2)) = some (name, rest)) :
    size % 256 ^ 2 + 1 = name.length := by
  simp only [readEntry, Bytes.fieldAppend, bind, Option.bind_some, Option.map_eq_some_iff,
    Option.bind_eq_some_iff, Prod.mk.injEq] at read
  obtain ⟨_, ⟨taken, found, same⟩, own, _⟩ := read
  cases same
  exact takeWhole found own

theorem entryLength (kept : DirectoryNameKept host name) : sizetSub name.length 1 % 256 ^ 2 + 1 = name.length := by
  have read := kept.entry ⟨name, ⟨0, 0⟩, 0, 0⟩ 0 0 [] rfl
  simp only [dirEntry, Bytes.putLe, List.append_assoc, List.append_nil] at read
  exact entryFieldLength read

theorem directoryNameKeptIff : DirectoryNameKept host name ↔ 1 ≤ name.length ∧ name.length ≤ 65536 := by
  constructor
  · intro kept
    have length := entryLength kept
    omega
  · exact fun ⟨long, short⟩ => entryKept long short

/- The stored size of the name, by the byte order of the host. -/
def suffixField (host : Bytes.Host) (xattr : Xattr) : Nat :=
  match host with
  | .little => xattr.suffix.length % 256 ^ 2
  | .big => xattr.suffix.length / 256 ^ 2 % 256 ^ 2

theorem readNameField (host : Bytes.Host) (xattr : Xattr) (rest : Bytes) :
    ∃ type, readXattrName (xattr.entry host ++ rest) =
      (take? (suffixField host xattr) rest).map fun r => ((type, r.1), r.2) := by
  cases host with
  | little =>
    have size : xattr.suffix.length % 256 ^ 4 % 256 ^ 2 = xattr.suffix.length % 256 ^ 2 := by omega
    refine ⟨xattr.domain.code % 256 ^ 4 % 256 ^ 2, ?_⟩
    simp only [readXattrName, entryLittle, List.append_assoc, Bytes.fieldAppend, bind, Option.bind_some, size,
      suffixField]
    rw [Option.map_eq_bind]
    rfl
  | big =>
    refine ⟨xattr.domain.code / 256 ^ 2 % 256 ^ 2, ?_⟩
    simp only [readXattrName, entryBig, List.append_assoc, Bytes.fieldAppend, bind, Option.bind_some, suffixField]
    rw [Option.map_eq_bind]
    rfl

theorem xattrNameKeptField {xattr : Xattr} :
    XattrNameKept host xattr ↔ suffixField host xattr = xattr.suffix.length := by
  constructor
  · intro kept
    have read := kept []
    obtain ⟨type, found⟩ := readNameField host xattr (xattr.suffix ++ [])
    rw [found, List.append_nil, Option.map_map, Option.map_eq_some_iff] at read
    obtain ⟨result, taken, same⟩ := read
    exact takeWhole taken (congrArg Prod.fst same)
  · intro size rest
    obtain ⟨type, found⟩ := readNameField host xattr (xattr.suffix ++ rest)
    rw [found, size, Bytes.takeAppend]
    rfl

theorem xattrNameKeptIff {xattr : Xattr} :
    XattrNameKept host xattr ↔ xattr.suffix.length < 2 ^ 16 ∧ (host = .little ∨ xattr.suffix = []) := by
  rw [xattrNameKeptField]
  cases host with
  | little =>
    simp only [suffixField, true_or, and_true]
    omega
  | big =>
    have small : xattr.suffix.length / 256 ^ 2 % 256 ^ 2 ≤ xattr.suffix.length / 256 ^ 2 := Nat.mod_le ..
    have less : xattr.suffix.length / 256 ^ 2 * 256 ^ 2 ≤ xattr.suffix.length := Nat.div_mul_le_self ..
    simp only [suffixField, reduceCtorEq, false_or, ← List.length_eq_zero_iff]
    constructor
    · intro same
      omega
    · rintro ⟨_, none⟩
      rw [none]
      decide

theorem entryName (t : Inodes) (p : Nat) (name : Bytes) (i : Nat) :
    ((t.insertEntry p name i).entry t.entryCount).name = name := by
  simp only [Inodes.insertEntry, Inodes.linkEntryEntry, Inodes.setInode, Inodes.setEntry, Function.update_self]
  rfl

theorem addedName {t t' : Inodes} {p i : Nat} {env env' : Env}
    (added : t.directoryAddEntry p name i env = (true, t', env')) : (t'.entry t.entryCount).name = name := by
  have claimed : (t.claimed p i).entryCount = t.entryCount := (Inodes.claimedRest t p i).2.1
  unfold Inodes.directoryAddEntry at added
  split at added
  · cases added
  · cases allocated : env.malloc.1 with
    | false => simp [allocated] at added
    | true =>
      cases copied : env.malloc.2.malloc.1 with
      | false => simp [allocated, copied] at added
      | true =>
        simp only [allocated, copied, Bool.not_true, Bool.false_eq_true, if_false, Prod.mk.injEq, true_and] at added
        rw [← added.1, ← claimed]
        exact entryName ..

theorem createdName {tab tab' : XattrTable} {value : Bytes} {env env' : Env} {xattr : Xattr}
    (created : tab.xattrCreate name value env = (some xattr, tab', env')) : xattr.name = name := by
  unfold XattrTable.xattrCreate at created
  split at created
  · cases created
  · cases allocated : env.malloc.1 <;> cases copied : env.malloc.2.malloc.1 <;>
      cases stored : env.malloc.2.malloc.2.malloc.1 <;> simp [allocated, copied, stored] at created
    rw [← created.1]

theorem namesKeptIff (host : Bytes.Host) :
    NamesKept host (fun name => 1 ≤ name.length ∧ name.length ≤ 65536)
      (fun xattr => xattr.suffix.length < 2 ^ 16 ∧ (host = .little ∨ xattr.suffix = [])) := by
  constructor
  · intro t parent name i env t' env' added
    exact ⟨addedName added, directoryNameKeptIff⟩
  · intro tab name value env xattr tab' env' created
    exact ⟨createdName created, xattrNameKeptIff⟩

theorem classifyUser (rest : Bytes) :
    classifyXattrDomain (ascii "user." ++ rest) = some ⟨ascii "user.", 0⟩ := by
  have own : ((ascii "user." ++ rest).take (ascii "user.").length).map tolower = ascii "user." := by
    rw [List.take_left]
    decide
  simp only [classifyXattrDomain, xattrDomains, List.find?_cons, own, decide_true]

theorem xattrGranted {tab : XattrTable} {value : Bytes} {dom : XattrDomain}
    (classified : classifyXattrDomain name = some dom) : ∃ tab' env',
      tab.xattrCreate name value .fresh = (some ⟨name, dom, value, classified⟩, tab', env') := by
  unfold XattrTable.xattrCreate
  split
  · rename_i none
    rw [classified] at none
    cases none
  · rename_i found own
    rw [classified] at own
    cases own
    exact ⟨_, _, rfl⟩

def unnamed : Inodes :=
  let attr : InodeAttr := ⟨0, 0, 0o755, 0, 0, 0, none⟩
  ((Inodes.directoryInodeCreate (.init none) attr .fresh).2.1.fifoInodeCreate attr .fresh).2.1

/- The empty name, and an attribute of 65536 bytes behind its prefix. -/
theorem extremeNamesCorrupted :
    (∃ t' env', unnamed.directoryAddEntry 0 [] 1 .fresh = (true, t', env') ∧
      (t'.entry unnamed.entryCount).name = [] ∧ ¬ DirectoryNameKept .little []) ∧
    ∃ xattr tab' env', XattrTable.init.xattrCreate (ascii "user." ++ List.replicate 65536 97) [] .fresh =
      (some xattr, tab', env') ∧ ¬ XattrNameKept .little xattr := by
  constructor
  · refine ⟨_, _, rfl, rfl, fun kept => ?_⟩
    exact absurd (directoryNameKeptIff.mp kept).1 (by decide)
  · have classified := classifyUser (List.replicate 65536 97)
    obtain ⟨tab', env', created⟩ := @xattrGranted _ XattrTable.init [] _ classified
    refine ⟨_, tab', env', created, fun kept => ?_⟩
    have short := (xattrNameKeptIff.mp kept).1
    simp only [Xattr.suffix, List.drop_left, List.length_replicate] at short
    exact absurd short (by decide)

end
end Libsqfs
