import Libsqfs.MetatableIndex

/-! src/idtable.c and the attribute handles of src/inodes.c. The table maps a
32-bit owner id to its index; the handle keeps the index in 16 bits. -/
namespace Libsqfs

structure IdTable where
  ids : List UInt32
  offset : Option Nat
  deriving DecidableEq, Repr

structure InodeAttr where
  uid : UInt32
  gid : UInt32
  mode : Nat
  ctime : Int
  mappedUid : Nat
  mappedGid : Nat
  xattrset : Option Nat
  deriving DecidableEq, Repr

namespace IdTable

def init : IdTable := ⟨[], none⟩

def int (n : Nat) : Int := Int.bmod n (2 ^ 32)

def uint16 (n : Int) : Nat := (n % 2 ^ 16).toNat

/- Returns the index as an int, or -1 when the table cannot be enlarged. -/
def map (tab : IdTable) (id : UInt32) (env : Env) : Int × IdTable × Env :=
  match tab.ids.idxOf? id with
  | some n => (int n, tab, env)
  | none =>
    let (enlarged, env) := env.malloc
    if enlarged then (int tab.ids.length, {tab with ids := tab.ids ++ [id]}, env)
    else (-1, tab, env)

def encode (host : Bytes.Host) (ids : List UInt32) : Bytes :=
  ids.flatMap fun id => Bytes.store host 4 (Bytes.cpuToLe host 4 id.toNat)

def write (host : Bytes.Host) (tab : IdTable) (env : Env) : Bool × IdTable × Env :=
  let (appended, table, env) := (Metatable.init none).append (encode host tab.ids) env
  let (success, table, env) := if appended then table.writeWithIndex host env else (false, table, env)
  (success, {tab with offset := table.offset}, env)

end IdTable

def inodeattrCreateSimple (tab : IdTable) (uid gid : UInt32) (mode : Nat) (ctime : Int) (env : Env) :
    Option InodeAttr × IdTable × Env :=
  let (allocated, env) := env.malloc
  if allocated then
    let (u, tab, env) := tab.map uid env
    let (g, tab, env) := tab.map gid env
    let attr : InodeAttr := ⟨uid, gid, mode &&& 0xfff, ctime, IdTable.uint16 u, IdTable.uint16 g, none⟩
    -- the fields are promoted from uint16_t before they are compared with -1
    if (attr.mappedUid : Int) = -1 ∨ (attr.mappedGid : Int) = -1 then (none, tab, env)
    else (some attr, tab, env)
  else (none, tab, env)

def inodeattrCreateExtended (tab : IdTable) (uid gid : UInt32) (mode : Nat) (ctime : Int)
    (xattrset : Option Nat) (env : Env) : Option InodeAttr × IdTable × Env :=
  let (attr, tab, env) := inodeattrCreateSimple tab uid gid mode ctime env
  (attr.map fun a => {a with xattrset := xattrset}, tab, env)

structure AttrCall where
  uid : UInt32
  gid : UInt32
  mode : Nat
  ctime : Int
  extended : Option (Option Nat)
  deriving DecidableEq, Repr

namespace AttrCall

def run (call : AttrCall) (tab : IdTable) (env : Env) : Option InodeAttr × IdTable × Env :=
  match call.extended with
  | none => inodeattrCreateSimple tab call.uid call.gid call.mode call.ctime env
  | some xattrset => inodeattrCreateExtended tab call.uid call.gid call.mode call.ctime xattrset env

def runAll : List AttrCall → IdTable → Env → List (Option InodeAttr) × IdTable × Env
  | [], tab, env => ([], tab, env)
  | call :: rest, tab, env =>
    let head := call.run tab env
    let tail := runAll rest head.2.1 head.2.2
    (head.1 :: tail.1, tail.2)

end AttrCall

namespace IdTable

/- A 16-bit index can be given for the id: it has one, or the next free one is
below 2^16 and the table can be enlarged. -/
def Indexable (tab : IdTable) (id : UInt32) (env : Env) : Prop :=
  id ∈ tab.ids.take (2 ^ 16) ∨
    id ∉ tab.ids ∧ tab.ids.length < 2 ^ 16 ∧ env.mallocs 0 = true

def BothIndexable (tab : IdTable) (uid gid : UInt32) (env : Env) : Prop :=
  tab.Indexable uid env ∧ (tab.map uid env).2.1.Indexable gid (tab.map uid env).2.2

theorem idxOfSome {ids : List UInt32} {id : UInt32} {n : Nat} (h : ids.idxOf? id = some n) :
    ids[n]? = some id ∧ ∀ m, m < n → ids[m]? ≠ some id := by
  rw [List.idxOf?, List.findIdx?_eq_some_iff_getElem] at h
  obtain ⟨inside, same, first⟩ := h
  refine ⟨by rw [List.getElem?_eq_getElem inside]; simpa using same, fun m less found => ?_⟩
  obtain ⟨_, eq⟩ := List.getElem?_eq_some_iff.mp found
  exact first m less (by simpa using eq)

theorem idxOfNone {ids : List UInt32} {id : UInt32} (h : ids.idxOf? id = none) : id ∉ ids := by
  rw [List.idxOf?, List.findIdx?_eq_none_iff] at h
  intro member
  simpa using h id member

theorem uint16Int {n : Nat} (small : n < 2 ^ 16) : uint16 (int n) = n := by
  have same : (int n) = n := Int.bmod_eq_of_le (by omega) (by omega)
  rw [uint16, same]
  omega

theorem mapGrows (tab : IdTable) (id : UInt32) (env : Env) :
    tab.ids <+: (tab.map id env).2.1.ids := by
  unfold map
  split
  · exact List.prefix_refl _
  · simp only
    split
    · exact List.prefix_append _ _
    · exact List.prefix_refl _

theorem mapIndexable {tab : IdTable} {id : UInt32} {env : Env} (h : tab.Indexable id env) :
    (tab.map id env).2.1.ids[uint16 (tab.map id env).1]? = some id ∧
      (tab.ids.length ≤ 2 ^ 16 → (tab.map id env).2.1.ids.length ≤ 2 ^ 16) := by
  unfold map
  cases found : tab.ids.idxOf? id with
  | some n =>
    obtain ⟨atN, first⟩ := idxOfSome found
    have small : n < 2 ^ 16 := by
      rcases h with early | ⟨absent, _⟩
      · obtain ⟨m, low⟩ := List.mem_iff_getElem?.mp early
        have near : m < 2 ^ 16 := by
          have := (List.getElem?_eq_some_iff.mp low).1
          simp only [List.length_take] at this
          omega
        rw [List.getElem?_take_of_lt near] at low
        by_contra big
        exact first m (by omega) low
      · exact absurd (List.mem_of_getElem? atN) absent
    simp only [uint16Int small]
    exact ⟨atN, fun bounded => bounded⟩
  | none =>
    have absent := idxOfNone found
    rcases h with early | ⟨_, room, granted⟩
    · exact absurd (List.mem_of_mem_take early) absent
    · simp only [Env.malloc, granted, if_true, uint16Int room]
      exact ⟨by simp, fun _ => by simp; omega⟩

theorem bothIndexable {tab : IdTable} {uid gid : UInt32} {env : Env}
    (h : tab.BothIndexable uid gid env) (bounded : tab.ids.length ≤ 2 ^ 16) :
    ((tab.map uid env).2.1.map gid (tab.map uid env).2.2).2.1.ids[uint16 (tab.map uid env).1]? =
        some uid ∧
      ((tab.map uid env).2.1.map gid (tab.map uid env).2.2).2.1.ids[uint16
        ((tab.map uid env).2.1.map gid (tab.map uid env).2.2).1]? = some gid ∧
      ((tab.map uid env).2.1.map gid (tab.map uid env).2.2).2.1.ids.length ≤ 2 ^ 16 := by
  obtain ⟨first, room⟩ := mapIndexable h.1
  obtain ⟨second, still⟩ := mapIndexable h.2
  obtain ⟨added, shape⟩ := mapGrows (tab.map uid env).2.1 gid (tab.map uid env).2.2
  refine ⟨?_, second, still (room bounded)⟩
  rw [← shape, List.getElem?_append_left (List.getElem?_eq_some_iff.mp first).1]
  exact first

theorem encodeLength (host : Bytes.Host) (ids : List UInt32) :
    (encode host ids).length = 4 * ids.length := by
  induction ids with
  | nil => rfl
  | cons id rest ih =>
    simp only [encode, List.flatMap_cons, List.length_append, Bytes.storeLength,
      List.length_cons] at ih ⊢
    omega

theorem encodeSlice (host : Bytes.Host) {ids : List UInt32} {i : Nat} {id : UInt32}
    (found : ids[i]? = some id) : Bytes.slice (encode host ids) (i * 4) 4 = Bytes.le 4 id.toNat := by
  induction ids generalizing i with
  | nil => simp at found
  | cons x rest ih =>
    cases i with
    | zero =>
      simp only [List.getElem?_cons_zero, Option.some.injEq] at found
      subst found
      have h := Bytes.sliceMiddle [] (Bytes.le 4 x.toNat) (encode host rest)
      simpa [encode] using h
    | succ i =>
      have tail := ih (by simpa using found)
      have place : (i + 1) * 4 = (Bytes.le 4 x.toNat).length + i * 4 := by
        rw [Bytes.leLength]; omega
      simp only [encode, List.flatMap_cons, Bytes.storeCpuToLe] at tail ⊢
      rw [Bytes.slice, place, ← List.drop_drop, List.drop_left]
      exact tail

theorem writtenLookup {host : Bytes.Host} {tab final : IdTable} {env after : Env}
    (bounded : tab.ids.length ≤ 2 ^ 16) (ok : tab.write host env = (true, final, after))
    (decompress : Bytes → Option Bytes) {i : Nat} {id : UInt32} (found : tab.ids[i]? = some id) :
    Metatable.lookupRecord decompress after.written (final.offset.getD 0) 4 i =
      some (Bytes.le 4 id.toNat) := by
  have fresh : Metatable.Holds decompress (Metatable.init none) [] :=
    Metatable.initHolds (fun c absent => by cases absent)
  obtain ⟨taken, _, holds, _, all, _⟩ := Metatable.appendSpec (encode host tab.ids) env fresh
  simp only [write] at ok
  split at ok
  · rename_i appended
    simp only [Prod.mk.injEq] at ok
    obtain ⟨success, rfl, rfl⟩ := ok
    rw [all appended, List.nil_append] at holds
    generalize result : ((Metatable.init none).append (encode host tab.ids) env).2.1.writeWithIndex
      host ((Metatable.init none).append (encode host tab.ids) env).2.2 = r at success
    obtain ⟨good, next, last⟩ := r
    simp only at success
    subst success
    have size := Metatable.writeWithIndexSize holds result
    have within := (List.getElem?_eq_some_iff.mp found).1
    rw [encodeLength, metadataSize] at size
    obtain ⟨indexed, place, _⟩ := Metatable.writeWithIndexSpec holds result (by omega)
    simp only [place, Option.getD_some]
    rw [Metatable.indexedLookup indexed (by decide) (by decide) (by rw [encodeLength]; omega),
      encodeSlice host found]
  · cases ok

end IdTable

namespace AttrCall
open IdTable

/- Each returned handle names its owners in the table as it is written at any later
time, and a call without two 16-bit indices returns no handle. -/
structure OwnersSurvive (tab : IdTable) (calls : List AttrCall) (env : Env) : Prop where
  owners : ∀ (k : Nat) (call : AttrCall) (attr : InodeAttr), calls[k]? = some call → (runAll calls tab env).1[k]? = some (some attr) →
    ∀ host decompress later final after, (runAll calls tab env).2.1.write host later =
        (true, final, after) →
      Metatable.lookupRecord decompress after.written (final.offset.getD 0) 4 attr.mappedUid =
          some (Bytes.le 4 call.uid.toNat) ∧
        Metatable.lookupRecord decompress after.written (final.offset.getD 0) 4 attr.mappedGid =
          some (Bytes.le 4 call.gid.toNat)
  refused : ∀ before call rest, calls = before ++ call :: rest →
    ∀ t e, (runAll before tab env).2 = (t, e) → e.mallocs 0 = true →
      ¬ t.BothIndexable call.uid call.gid e.malloc.2 → (call.run t e).1 = none

/- In the state before each call whose handle is allocated, both ids can be given
a 16-bit index. -/
def Fits (tab : IdTable) (calls : List AttrCall) (env : Env) : Prop :=
  ∀ before call rest, calls = before ++ call :: rest →
    ∀ t e, (runAll before tab env).2 = (t, e) → e.mallocs 0 = true →
      t.BothIndexable call.uid call.gid e.malloc.2

theorem runGranted (call : AttrCall) (tab : IdTable) {env : Env} (granted : env.mallocs 0 = true) :
    ∃ attr, call.run tab env = (some attr,
        ((tab.map call.uid env.malloc.2).2.1.map call.gid (tab.map call.uid env.malloc.2).2.2).2) ∧
      attr.mappedUid = uint16 (tab.map call.uid env.malloc.2).1 ∧
      attr.mappedGid = uint16
        ((tab.map call.uid env.malloc.2).2.1.map call.gid (tab.map call.uid env.malloc.2).2.2).1 := by
  have first : env.malloc = (true, env.malloc.2) := by simp [Env.malloc, granted]
  unfold run
  cases call.extended with
  | none =>
    simp only [inodeattrCreateSimple]
    rw [first]
    simp only [if_true]
    rw [if_neg (by omega)]
    exact ⟨_, rfl, rfl, rfl⟩
  | some xattrset =>
    simp only [inodeattrCreateExtended, inodeattrCreateSimple]
    rw [first]
    simp only [if_true]
    rw [if_neg (by omega)]
    exact ⟨_, rfl, rfl, rfl⟩

theorem runRefused (call : AttrCall) (tab : IdTable) {env : Env} (refused : env.mallocs 0 = false) :
    call.run tab env = (none, tab, env.malloc.2) := by
  have first : env.malloc = (false, env.malloc.2) := by simp [Env.malloc, refused]
  unfold run
  cases call.extended <;>
    simp only [inodeattrCreateExtended, inodeattrCreateSimple] <;> rw [first] <;> rfl

theorem fitsTail {call : AttrCall} {rest : List AttrCall} {tab : IdTable} {env : Env}
    (h : Fits tab (call :: rest) env) :
    Fits (call.run tab env).2.1 rest (call.run tab env).2.2 := by
  intro before next more shape t e state
  exact h (call :: before) next more (by rw [shape]; rfl) t e (by simpa [runAll] using state)

/- The run lemma: while every call fits, the table never passes 2^16 ids and each
handle's indices stay right, the table being only extended. -/
theorem fittingRun {calls : List AttrCall} {tab : IdTable} {env : Env}
    (bounded : tab.ids.length ≤ 2 ^ 16) (fits : Fits tab calls env) :
    (runAll calls tab env).2.1.ids.length ≤ 2 ^ 16 ∧
      tab.ids <+: (runAll calls tab env).2.1.ids ∧
      ∀ (k : Nat) (call : AttrCall) (attr : InodeAttr), calls[k]? = some call → (runAll calls tab env).1[k]? = some (some attr) →
        (runAll calls tab env).2.1.ids[attr.mappedUid]? = some call.uid ∧
        (runAll calls tab env).2.1.ids[attr.mappedGid]? = some call.gid := by
  induction calls generalizing tab env with
  | nil => exact ⟨bounded, List.prefix_refl _, by simp⟩
  | cons call rest ih =>
    have tail := fitsTail fits
    have head := fits [] call rest rfl tab env rfl
    cases granted : env.mallocs 0 with
    | false =>
      have same := runRefused call tab granted
      rw [same] at tail
      obtain ⟨size, grown, each⟩ := ih bounded tail
      simp only [runAll, same]
      refine ⟨size, grown, fun k c attr found result => ?_⟩
      cases k with
      | zero => simp at result
      | succ k => exact each k c attr (by simpa using found) (by simpa using result)
    | true =>
      obtain ⟨attr₀, same, uid, gid⟩ := runGranted call tab granted
      obtain ⟨atUid, atGid, room⟩ := bothIndexable (head granted) bounded
      rw [same] at tail
      obtain ⟨size, grown, each⟩ := ih room tail
      have first := mapGrows tab call.uid env.malloc.2
      have second := mapGrows (tab.map call.uid env.malloc.2).2.1 call.gid
        (tab.map call.uid env.malloc.2).2.2
      simp only [runAll, same]
      refine ⟨size, (first.trans second).trans grown, fun k c attr found result => ?_⟩
      cases k with
      | zero =>
        simp only [List.getElem?_cons_zero, Option.some.injEq] at found result
        subst found result
        obtain ⟨added, shape⟩ := grown
        rw [uid, gid, ← shape,
          List.getElem?_append_left (List.getElem?_eq_some_iff.mp atUid).1,
          List.getElem?_append_left (List.getElem?_eq_some_iff.mp atGid).1]
        exact ⟨atUid, atGid⟩
      | succ k => exact each k c attr (by simpa using found) (by simpa using result)

theorem ownersSurviveIff (calls : List AttrCall) (env : Env) :
    OwnersSurvive IdTable.init calls env ↔ Fits IdTable.init calls env := by
  constructor
  · intro survive before call rest shape t e state granted
    by_contra lost
    obtain ⟨attr, result, _⟩ := runGranted call t granted
    have refused := survive.refused before call rest shape t e state granted lost
    rw [result] at refused
    cases refused
  · intro fits
    obtain ⟨size, _, each⟩ := fittingRun (by simp [IdTable.init]) fits
    refine ⟨fun k call attr found result host decompress later final after ok => ?_,
      fun before call rest shape t e state granted lost => ?_⟩
    · obtain ⟨atUid, atGid⟩ := each k call attr found result
      exact ⟨writtenLookup size ok decompress atUid, writtenLookup size ok decompress atGid⟩
    · exact absurd (fits before call rest shape t e state granted) lost

/- The handle is allocated and the reallocation of the id table fails. -/
theorem failedReallocLosesOwner :
    ¬ OwnersSurvive IdTable.init [⟨1000, 100, 0, 0, none⟩]
      ⟨0, [], fun n => n == 0, fun _ => true⟩ := by
  intro survive
  have refused := survive.refused [] ⟨1000, 100, 0, 0, none⟩ [] rfl _ _ rfl rfl (by
    rintro ⟨early | ⟨_, _, granted⟩, _⟩
    · simp [IdTable.init] at early
    · cases granted)
  simp [run, inodeattrCreateSimple, Env.malloc, IdTable.map, IdTable.init, IdTable.uint16] at refused

end AttrCall
end Libsqfs
