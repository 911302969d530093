import Libsqfs.DirectoryEntries
import Libsqfs.MetatableStream
import Libsqfs.Serialize

/-! What serializing leaves alone: the tree as it was built, and everything that
belongs to other inodes than the one whose record is written. -/
namespace Libsqfs
open Metatable (Holds appendEach appendEachSpec)

def InodeBody.built : InodeBody → InodeBody
  | .directory dir =>
    .directory {DirectoryInode.create with parent := dir.parent, first := dir.first, last := dir.last}
  | body => body

namespace Inode

def Kept (x y : Inode) : Prop :=
  y.attr = x.attr ∧ y.nlink = x.nlink ∧ y.inodeNumber = x.inodeNumber ∧ y.body.built = x.body.built

theorem Kept.refl (x : Inode) : x.Kept x := ⟨rfl, rfl, rfl, rfl⟩

theorem Kept.trans {x y z : Inode} (first : x.Kept y) (second : y.Kept z) : x.Kept z :=
  ⟨second.1.trans first.1, second.2.1.trans first.2.1, second.2.2.1.trans first.2.2.1,
    second.2.2.2.trans first.2.2.2⟩

theorem Kept.isDirectory {x y : Inode} (kept : x.Kept y) : y.IsDirectory ↔ x.IsDirectory := by
  obtain ⟨_, _, _, body⟩ := kept
  unfold IsDirectory
  cases left : x.body <;> cases right : y.body <;> simp_all [InodeBody.built]

theorem Kept.dir {x y : Inode} (kept : x.Kept y) : y.dir.parent = x.dir.parent ∧
    y.dir.first = x.dir.first ∧ y.dir.last = x.dir.last := by
  obtain ⟨_, _, _, body⟩ := kept
  unfold Inode.dir
  cases left : x.body <;> cases right : y.body <;> simp_all [InodeBody.built]

theorem setDirKept {x : Inode} {dir : DirectoryInode} (directory : x.IsDirectory)
    (parent : dir.parent = x.dir.parent) (first : dir.first = x.dir.first)
    (last : dir.last = x.dir.last) : x.Kept (x.setDir dir) := by
  obtain ⟨own, body⟩ := directory
  refine ⟨rfl, rfl, rfl, ?_⟩
  simp only [Inode.dir, body] at parent first last
  simp only [setDir, body, InodeBody.built, parent, first, last]

end Inode

def DirectoryEntry.Kept (x y : DirectoryEntry) : Prop :=
  y.prev = x.prev ∧ y.next = x.next ∧ y.name = x.name ∧ y.inode = x.inode

theorem DirectoryEntry.Kept.trans {x y z : DirectoryEntry} (first : x.Kept y) (second : y.Kept z) :
    x.Kept z :=
  ⟨second.1.trans first.1, second.2.1.trans first.2.1, second.2.2.1.trans first.2.2.1,
    second.2.2.2.trans first.2.2.2⟩

namespace Inodes

structure Framed (t u : Inodes) : Prop where
  count : u.count = t.count
  entryCount : u.entryCount = t.entryCount
  root : u.root = t.root
  entry : ∀ e, (t.entry e).Kept (u.entry e)
  inode : ∀ i, (t.inode i).Kept (u.inode i)

structure Writes (t u : Inodes) (i : Nat) : Prop where
  framed : Framed t u
  begun : u.begun = t.begun
  others : ∀ x, x ≠ i → u.inode x = t.inode x
  entries : ∀ e, e ∉ t.entries i → u.entry e = t.entry e

def children (t : Inodes) (d : Nat) : List Nat := (t.entries d).map fun e => (t.entry e).inode

section
variable {t u v : Inodes} {d i : Nat} {o : SerializeConfig} {env : Env}

theorem Framed.refl (t : Inodes) : Framed t t :=
  ⟨rfl, rfl, rfl, fun _ => ⟨rfl, rfl, rfl, rfl⟩, fun _ => .refl _⟩

theorem Framed.trans (first : Framed t u) (second : Framed u v) : Framed t v :=
  ⟨second.count.trans first.count, second.entryCount.trans first.entryCount, second.root.trans first.root,
    fun e => (first.entry e).trans (second.entry e), fun i => (first.inode i).trans (second.inode i)⟩

theorem Framed.entries (framed : Framed t u) (d : Nat) : u.entries d = t.entries d :=
  entriesCongr (fun e => (framed.entry e).2.1) framed.entryCount (framed.inode d).dir.2.1

theorem Framed.children (framed : Framed t u) (d : Nat) : u.children d = t.children d := by
  unfold Inodes.children
  rw [framed.entries]
  exact List.map_congr_left fun e _ => (framed.entry e).2.2.2

theorem Framed.directory (framed : Framed t u) : u.Directory d ↔ t.Directory d := by
  unfold Directory
  rw [framed.count, (framed.inode d).isDirectory]

theorem Writes.refl (t : Inodes) (i : Nat) : Writes t t i :=
  ⟨.refl t, rfl, fun _ _ => rfl, fun _ _ => rfl⟩

theorem Writes.trans (first : Writes t u i) (second : Writes u v i) : Writes t v i :=
  ⟨first.framed.trans second.framed, second.begun.trans first.begun,
    fun x other => (second.others x other).trans (first.others x other),
    fun e other => (second.entries e (by rwa [first.framed.entries])).trans (first.entries e other)⟩

theorem setInodeWrites {x : Inode} (kept : (t.inode i).Kept x) : Writes t (t.setInode i x) i := by
  refine ⟨⟨rfl, rfl, rfl, fun _ => ⟨rfl, rfl, rfl, rfl⟩, fun y => ?_⟩, rfl,
    fun y other => Function.update_of_ne other .., fun _ _ => rfl⟩
  simp only [setInode, Function.update_apply]
  split
  · rename_i same
    exact same ▸ kept
  · exact .refl _

theorem setEntryWrites {e : Nat} {x : DirectoryEntry} (own : e ∈ t.entries i)
    (kept : (t.entry e).Kept x) : Writes t (t.setEntry e x) i := by
  refine ⟨⟨rfl, rfl, rfl, fun y => ?_, fun _ => .refl _⟩, rfl, fun _ _ => rfl, fun y other => ?_⟩
  · simp only [setEntry, Function.update_apply]
    split
    · rename_i same
      exact same ▸ kept
    · exact ⟨rfl, rfl, rfl, rfl⟩
  · exact Function.update_of_ne (fun same => other (by rw [same]; exact own)) ..

theorem tablesWrites (t : Inodes) (inodes dirs : Metatable) (i : Nat) :
    Writes t {t with inodeTable := inodes, dirTable := dirs} i :=
  ⟨⟨rfl, rfl, rfl, fun _ => ⟨rfl, rfl, rfl, rfl⟩, fun _ => .refl _⟩, rfl, fun _ _ => rfl, fun _ _ => rfl⟩

theorem writeRecordWrites (t : Inodes) (i type baseType : Nat) (pieces : List Bytes) (env : Env) :
    Writes t (t.writeRecord i type baseType pieces env).2.1 i := by
  have marked : Writes t (t.setInode i {t.inode i with
      encodedType := type
      encodedBaseType := baseType
      inodeTableEntry := t.inodeTable.position}) i := setInodeWrites ⟨rfl, rfl, rfl, rfl⟩
  exact marked.trans (tablesWrites _ _ _ i)

theorem writeRecordSpec {decompress : Bytes → Option Bytes} {stream : Bytes} {type baseType : Nat}
    {pieces : List Bytes} {after : Env} (holds : Holds decompress t.inodeTable stream)
    (ok : t.writeRecord i type baseType pieces env = (true, u, after)) :
    Holds decompress u.inodeTable (stream ++ pieces.flatten) ∧
      (u.inode i).inodeTableEntry = t.inodeTable.position ∧ (u.inode i).encodedType = type ∧
      (u.inode i).encodedBaseType = baseType ∧ (u.inode i).body = (t.inode i).body ∧
      u.entry = t.entry ∧ u.dirTable = t.dirTable := by
  obtain ⟨taken, _, grown, _, all, _⟩ := appendEachSpec pieces env holds
  simp only [writeRecord] at ok
  generalize shape : appendEach pieces t.inodeTable env = result at ok grown all
  obtain ⟨good, table, rest⟩ := result
  simp only [setInode, shape, Prod.mk.injEq] at ok
  obtain ⟨rfl, rfl, _⟩ := ok
  rw [all rfl] at grown
  exact ⟨grown, by simp⟩

/-! ### A directory -/

theorem setDirWrites {dir : DirectoryInode} (directory : (t.inode d).IsDirectory)
    (parent : dir.parent = (t.inode d).dir.parent) (first : dir.first = (t.inode d).dir.first)
    (last : dir.last = (t.inode d).dir.last) : Writes t (t.setInode d ((t.inode d).setDir dir)) d :=
  setInodeWrites (Inode.setDirKept directory parent first last)

theorem keepEncodedWrites {es : List Nat} (ys : List EncodedEntry) (own : ∀ e ∈ es, e ∈ t.entries d) :
    Writes t (t.keepEncoded es ys) d := by
  induction es generalizing t ys with
  | nil => exact .refl t d
  | cons e rest ih =>
    cases ys with
    | nil => exact .refl t d
    | cons y done =>
      have set : Writes t (t.setEntry e {t.entry e with
          serialno := y.serialno
          offset := y.offset
          encodedSize := y.encodedSize
          encodedData := some y.encodedData}) d := setEntryWrites (own e (by simp)) ⟨rfl, rfl, rfl, rfl⟩
      refine set.trans (ih done fun x member => ?_)
      rw [set.framed.entries]
      exact own x (List.mem_cons_of_mem _ member)

def entryPlaced (t : Inodes) (e : Nat) : Inodes :=
  t.setEntry e {t.entry e with directoryTableEntry := t.dirTable.position}

def listingPlaced (t : Inodes) (d e : Nat) (first : Bool) : Inodes :=
  if first then t.setInode d ((t.inode d).setDir {(t.inode d).dir with
    dirTableEntry := (t.entry e).directoryTableEntry})
  else t

def entryStored (t : Inodes) (d e : Nat) (first : Bool) (table : Metatable) : Inodes :=
  let t := {t.entryPlaced e with dirTable := table}.listingPlaced d e first
  t.setEntry e {t.entry e with encodedData := none}

theorem appendEntriesTurn (t : Inodes) (d e : Nat) (rest : List Nat) (first : Bool) (env : Env) :
    appendEntries d (e :: rest) first t env =
      match t.dirTable.append ((t.entry e).encodedData.getD []) env with
      | (false, table, env) => (false, {t.entryPlaced e with dirTable := table}, env)
      | (true, table, env) => appendEntries d rest false (t.entryStored d e first table) env := by
  have data : ((t.entryPlaced e).entry e).encodedData = (t.entry e).encodedData := by
    simp [entryPlaced, setEntry]
  rw [appendEntries, ← data]
  rfl

theorem entryPlacedWrites {e : Nat} (table : Metatable) (own : e ∈ t.entries d) :
    Writes t {t.entryPlaced e with dirTable := table} d :=
  (setEntryWrites own ⟨rfl, rfl, rfl, rfl⟩ : Writes t (t.entryPlaced e) d).trans
    (tablesWrites _ _ table d)

theorem listingPlacedWrites (e : Nat) (first : Bool) (directory : (t.inode d).IsDirectory) :
    Writes t (t.listingPlaced d e first) d := by
  unfold listingPlaced
  split
  · exact setDirWrites directory rfl rfl rfl
  · exact .refl t d

theorem entryStoredWrites {e : Nat} (first : Bool) (table : Metatable) (directory : (t.inode d).IsDirectory)
    (own : e ∈ t.entries d) : Writes t (t.entryStored d e first table) d := by
  have placed := entryPlacedWrites table own
  have before := placed.trans (listingPlacedWrites e first ((placed.framed.inode d).isDirectory.mpr directory))
  exact before.trans (setEntryWrites (by rwa [before.framed.entries]) ⟨rfl, rfl, rfl, rfl⟩)

theorem appendEntriesWrites {es : List Nat} (first : Bool) (env : Env) (directory : (t.inode d).IsDirectory)
    (own : ∀ e ∈ es, e ∈ t.entries d) : Writes t (appendEntries d es first t env).2.1 d := by
  induction es generalizing t first env with
  | nil => exact .refl t d
  | cons e rest ih =>
    rw [appendEntriesTurn]
    generalize t.dirTable.append ((t.entry e).encodedData.getD []) env = result
    obtain ⟨ok, table, env'⟩ := result
    cases ok with
    | false => exact entryPlacedWrites table (own e (by simp))
    | true =>
      have after := entryStoredWrites first table directory (own e (by simp))
      refine after.trans (ih false env' ((after.framed.inode d).isDirectory.mpr directory) fun x member => ?_)
      rw [after.framed.entries]
      exact own x (List.mem_cons_of_mem _ member)

theorem directoryEncodeWrites (env : Env) (directory : (t.inode d).IsDirectory) :
    Writes t (t.directoryEncode o d env).2.1 d := by
  unfold directoryEncode
  simp only
  generalize encodeEntries o.host o.stale ((t.entries d).map t.listed) env = result
  obtain ⟨ok, enc, env'⟩ := result
  simp only
  have encoded := @keepEncodedWrites t d (t.entries d) enc.done fun _ member => member
  generalize t.keepEncoded (t.entries d) enc.done = t₁ at encoded ⊢
  have is := (encoded.framed.inode d).isDirectory.mpr directory
  have indexed : Writes t₁ (t₁.setInode d ((t₁.inode d).setDir {(t₁.inode d).dir with
      firstIndexed := enc.indexed.filterMap fun n => (t.entries d)[n]?
      indexedCount := (t₁.inode d).dir.indexedCount + enc.indexed.length})) d := setDirWrites is rfl rfl rfl
  generalize t₁.setInode d ((t₁.inode d).setDir {(t₁.inode d).dir with
      firstIndexed := enc.indexed.filterMap fun n => (t.entries d)[n]?
      indexedCount := (t₁.inode d).dir.indexedCount + enc.indexed.length}) = t₂ at indexed ⊢
  have listed := encoded.trans indexed
  split
  · exact listed
  · have is' := (listed.framed.inode d).isDirectory.mpr directory
    have sized : Writes t₂ (t₂.setInode d ((t₂.inode d).setDir {(t₂.inode d).dir with
        encodedEntriesSize := enc.offset
        dirTableEntry := ⟨0, 0⟩})) d := setDirWrites is' rfl rfl rfl
    have before := listed.trans sized
    refine before.trans (appendEntriesWrites true env' ((before.framed.inode d).isDirectory.mpr directory)
      fun e member => ?_)
    rwa [before.framed.entries]

theorem pruneIndexWrites (directory : (t.inode d).IsDirectory) : Writes t (t.pruneIndex d) d := by
  unfold pruneIndex
  exact setDirWrites directory rfl rfl rfl

theorem directoryWriteWrites (env : Env) (directory : (t.inode d).IsDirectory) :
    Writes t (t.directoryWrite o d env).2.1 d := by
  have encoded := @directoryEncodeWrites t d o env directory
  unfold directoryWrite
  generalize t.directoryEncode o d env = result at encoded ⊢
  obtain ⟨ok, u, env'⟩ := result
  cases ok with
  | false => exact encoded
  | true =>
    have pruned := pruneIndexWrites ((encoded.framed.inode d).isDirectory.mpr directory)
    exact (encoded.trans pruned).trans (writeRecordWrites ..)

theorem deviceWrites (o : SerializeConfig) (t : Inodes) (i : Nat) (type : DeviceType) (major minor : Nat)
    (env : Env) : Writes t (t.deviceInodeSerialize o i type major minor env).2.1 i := by
  unfold deviceInodeSerialize
  split <;> exact writeRecordWrites ..

theorem fifoWrites (o : SerializeConfig) (t : Inodes) (i : Nat) (env : Env) :
    Writes t (t.fifoInodeSerialize o i env).2.1 i := by
  unfold fifoInodeSerialize
  split <;> exact writeRecordWrites ..

theorem inodeEncodeWrites (o : SerializeConfig) (t : Inodes) (i : Nat) (env : Env) :
    Writes t (t.inodeEncode o i env).2.1 i := by
  unfold inodeEncode
  split
  · exact writeRecordWrites ..
  · exact writeRecordWrites ..
  · exact writeRecordWrites ..
  · exact deviceWrites ..
  · exact fifoWrites ..

/-! ### One call of the recursion -/

theorem serializeAgain (o : SerializeConfig) (fuel : Nat) (env : Env) (marked : (t.inode i).encodedType ≠ 0) :
    inodeSerialize o (fuel + 1) t i env = some (true, t, env) := by
  rw [inodeSerialize, if_pos marked]

theorem serializeLeaf (o : SerializeConfig) (fuel : Nat) (env : Env) (blank : (t.inode i).encodedType = 0)
    (leaf : ¬ (t.inode i).IsDirectory) :
    inodeSerialize o (fuel + 1) t i env = some (t.inodeEncode o i env) := by
  rw [inodeSerialize, if_neg (not_not.mpr blank), inodeEncode]
  cases body : (t.inode i).body with
  | directory dir => exact absurd ⟨dir, body⟩ leaf
  | _ => rfl

theorem serializeDirectory (o : SerializeConfig) (fuel : Nat) (env : Env)
    (blank : (t.inode i).encodedType = 0) (directory : (t.inode i).IsDirectory) :
    inodeSerialize o (fuel + 1) t i env =
      match serializeEach (inodeSerialize o fuel) (t.children i) {t with begun := t.begun ++ [i]} env with
      | none => none
      | some (false, t, env) => some (false, t, env)
      | some (true, t, env) => some (t.directoryWrite o i env) := by
  obtain ⟨dir, body⟩ := directory
  rw [inodeSerialize, if_neg (not_not.mpr blank), body]
  rfl

/- What every record that is written keeps, the recursion keeps. -/
theorem serializeRelates {R : Inodes × Env → Inodes × Env → Prop} (refl : ∀ s, R s s)
    (trans : ∀ {s s' s''}, R s s' → R s' s'' → R s s'')
    (begins : ∀ t begun env, R (t, env) ({t with begun := begun}, env))
    (leaf : ∀ t i env, (t.inode i).encodedType = 0 → ¬ (t.inode i).IsDirectory →
      R (t, env) (t.inodeEncode o i env).2)
    (directory : ∀ t i env, (t.inode i).IsDirectory → R (t, env) (t.directoryWrite o i env).2)
    {fuel : Nat} {ok : Bool} {after : Env} (ran : inodeSerialize o fuel t i env = some (ok, u, after)) :
    Framed t u ∧ R (t, env) (u, after) := by
  induction fuel generalizing t i env ok u after with
  | zero => cases ran
  | succ fuel ih =>
    have each {is : List Nat} {t : Inodes} {env : Env} {ok : Bool} {u : Inodes} {after : Env}
        (ran : serializeEach (inodeSerialize o fuel) is t env = some (ok, u, after)) :
        Framed t u ∧ R (t, env) (u, after) := by
      induction is generalizing t env with
      | nil =>
        cases ran
        exact ⟨.refl _, refl _⟩
      | cons i rest ih' =>
        rw [serializeEach] at ran
        rcases first : inodeSerialize o fuel t i env with _ | ⟨_ | _, v, mid⟩
        · rw [first] at ran
          cases ran
        · rw [first] at ran
          cases ran
          exact ih first
        · rw [first] at ran
          obtain ⟨framed, related⟩ := ih first
          obtain ⟨framed', related'⟩ := ih' ran
          exact ⟨framed.trans framed', trans related related'⟩
    by_cases blank : (t.inode i).encodedType = 0
    · by_cases is : (t.inode i).IsDirectory
      · rw [serializeDirectory o fuel env blank is] at ran
        have framed : Framed t {t with begun := t.begun ++ [i]} :=
          ⟨rfl, rfl, rfl, fun _ => ⟨rfl, rfl, rfl, rfl⟩, fun _ => .refl _⟩
        have related := begins t (t.begun ++ [i]) env
        rcases entries : serializeEach (inodeSerialize o fuel) (t.children i) {t with begun := t.begun ++ [i]} env with
          _ | ⟨_ | _, v, mid⟩
        · rw [entries] at ran
          cases ran
        · rw [entries] at ran
          cases ran
          obtain ⟨framed', related'⟩ := each entries
          exact ⟨framed.trans framed', trans related related'⟩
        · rw [entries] at ran
          obtain ⟨framed', related'⟩ := each entries
          have below := framed.trans framed'
          have still := (below.inode i).isDirectory.mpr is
          have writes := @directoryWriteWrites v i o mid still
          have own := directory v i mid still
          rw [Option.some.inj ran] at writes own
          exact ⟨below.trans writes.framed, trans (trans related related') own⟩
      · rw [serializeLeaf o fuel env blank is] at ran
        have writes := inodeEncodeWrites o t i env
        have own := leaf t i env blank is
        rw [Option.some.inj ran] at writes own
        exact ⟨writes.framed, own⟩
    · rw [serializeAgain o fuel env blank] at ran
      cases ran
      exact ⟨.refl _, refl _⟩

/-! ### Room for deeper calls changes no result -/

theorem serializeEachMono {f g : Inodes → Nat → Env → Serialized}
    (below : ∀ {t i env r}, f t i env = some r → g t i env = some r) {is : List Nat} {t : Inodes} {env : Env}
    {r : Bool × Inodes × Env} (ran : serializeEach f is t env = some r) : serializeEach g is t env = some r := by
  induction is generalizing t env with
  | nil => exact ran
  | cons i rest ih =>
    rw [serializeEach] at ran ⊢
    cases first : f t i env with
    | none =>
      rw [first] at ran
      cases ran
    | some head =>
      obtain ⟨ok, u, after⟩ := head
      rw [first] at ran
      rw [below first]
      cases ok with
      | false => exact ran
      | true => exact ih ran

theorem serializeDeeper {o : SerializeConfig} {fuel fuel' : Nat} (deeper : fuel ≤ fuel') {t : Inodes} {i : Nat}
    {env : Env} {r : Bool × Inodes × Env} (ran : inodeSerialize o fuel t i env = some r) :
    inodeSerialize o fuel' t i env = some r := by
  induction fuel generalizing fuel' t i env r with
  | zero => cases ran
  | succ fuel ih =>
    obtain ⟨fuel', rfl⟩ : ∃ n, fuel' = n + 1 := ⟨fuel' - 1, by omega⟩
    by_cases blank : (t.inode i).encodedType = 0
    · by_cases directory : (t.inode i).IsDirectory
      · rw [serializeDirectory o fuel env blank directory] at ran
        rw [serializeDirectory o fuel' env blank directory]
        cases entries : serializeEach (inodeSerialize o fuel) (t.children i) {t with begun := t.begun ++ [i]} env with
        | none =>
          rw [entries] at ran
          cases ran
        | some head =>
          rw [entries] at ran
          rw [serializeEachMono (fun once => ih (by omega) once) entries]
          exact ran
      · rw [serializeLeaf o fuel env blank directory] at ran
        rw [serializeLeaf o fuel' env blank directory]
        exact ran
    · rw [serializeAgain o fuel env blank] at ran
      rw [serializeAgain o fuel' env blank]
      exact ran

end
end Inodes
end Libsqfs
