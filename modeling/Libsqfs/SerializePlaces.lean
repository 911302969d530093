import Libsqfs.DirectoryIndex
import Libsqfs.DirectoryTree
import Libsqfs.RecordCodec

/-! Where the records of a serialized tree lie. What is serialized without a failure
is below the inode that was asked for, and everything below it is. -/
namespace Libsqfs
open Relation Metatable

def recordType (o : SerializeConfig) (x : Inode) : Nat :=
  match x.body with
  | .regular reg => regularType o x reg
  | .directory dir => Inodes.directoryType x dir
  | .symlink _ => symlinkType
  | .device type _ _ => if x.attr.xattrset.isSome then (deviceTypes type).2 else (deviceTypes type).1
  | .fifo => if x.attr.xattrset.isSome then lfifoType else fifoType

def baseType (x : Inode) : Nat :=
  match x.body with
  | .regular _ => fileType
  | .directory _ => dirType
  | .symlink _ => symlinkType
  | .device type _ _ => (deviceTypes type).1
  | .fifo => fifoType

namespace Inodes

def front (o : SerializeConfig) (t : Inodes) (x : Inode) : Bytes :=
  match x.body with
  | .regular reg => regularHeader o x reg ++ blockList o reg
  | .directory dir => directoryHeader o.host t x dir
  | .symlink name => inodeHeader o.host x (recordType o x) ++ Bytes.put o.host 4 x.nlink ++
      Bytes.put o.host 4 name.length ++ name
  | .device _ major minor => inodeHeader o.host x (recordType o x) ++ Bytes.put o.host 4 x.nlink ++
      Bytes.put o.host 4 (rdev major minor) ++ (if x.attr.xattrset.isSome then xattrField o.host x else [])
  | .fifo => inodeHeader o.host x (recordType o x) ++ Bytes.put o.host 4 x.nlink ++
      (if x.attr.xattrset.isSome then xattrField o.host x else [])

section
variable {o : SerializeConfig} {t u v built : Inodes} {i d : Nat} {env after : Env}

theorem recordTypePositive (o : SerializeConfig) (x : Inode) : recordType o x ≠ 0 := by
  unfold recordType
  split
  · rename_i reg _
    rcases regularTypes o x reg with same | same <;> rw [same] <;> decide
  · rename_i dir _
    rcases (headerType o.host (.init none) x dir).2 with same | same <;> rw [same] <;> decide
  · decide
  · rename_i type _ _ _
    cases type <;> split <;> decide
  · split <;> decide

theorem frontHeader (o : SerializeConfig) (t : Inodes) (x : Inode) :
    inodeHeader o.host x (recordType o x) <+: t.front o x := by
  unfold front recordType
  cases body : x.body with
  | regular reg =>
    simp only [regularHeader]
    rcases regularTypes o x reg with same | same
    · rw [if_pos same, same]
      simp only [List.append_assoc]
      exact List.prefix_append _ _
    · rw [if_neg (by rw [same]; decide), same]
      simp only [List.append_assoc]
      exact List.prefix_append _ _
  | directory dir =>
    simp only [directoryHeader]
    rcases (headerType o.host t x dir).2 with same | same
    · rw [if_pos same, same]
      simp only [List.append_assoc]
      exact List.prefix_append _ _
    · rw [if_neg (by rw [same]; decide), same]
      simp only [List.append_assoc]
      exact List.prefix_append _ _
  | symlink name =>
    simp only [List.append_assoc]
    exact List.prefix_append _ _
  | device type major minor =>
    simp only [List.append_assoc]
    exact List.prefix_append _ _
  | fifo =>
    simp only [List.append_assoc]
    exact List.prefix_append _ _

theorem inodeEncodeRecord (o : SerializeConfig) (t : Inodes) (i : Nat) (env : Env) : ∃ pieces,
    t.inodeEncode o i env = t.writeRecord i (recordType o (t.inode i)) (baseType (t.inode i)) pieces env ∧
      t.front o (t.inode i) <+: pieces.flatten := by
  unfold inodeEncode front baseType recordType
  cases body : (t.inode i).body with
  | regular reg =>
    exact ⟨_, rfl, by simp⟩
  | directory dir =>
    have own : (t.inode i).dir = dir := by simp only [Inode.dir, body]
    refine ⟨directoryHeader o.host t (t.inode i) dir ::
      if directoryType (t.inode i) dir = dirType then [] else t.indexRecords o.host dir, ?_, ?_⟩
    · simp only [directoryInodeEncode, own]
    · rw [List.flatten_cons]
      exact List.prefix_append _ _
  | symlink name =>
    exact ⟨_, rfl, by simp⟩
  | device type major minor =>
    simp only [deviceInodeSerialize]
    cases (t.inode i).attr.xattrset with
    | none => exact ⟨_, rfl, by simp⟩
    | some id => exact ⟨_, rfl, by simp⟩
  | fifo =>
    simp only [fifoInodeSerialize]
    cases (t.inode i).attr.xattrset with
    | none => exact ⟨_, rfl, by simp⟩
    | some id => exact ⟨_, rfl, by simp⟩

/-! ### The inodes that a call marks -/

def Marked (t : Inodes) (i : Nat) : Prop := (t.inode i).encodedType ≠ 0

structure Reached (built : Inodes) (is : List Nat) (t u : Inodes) : Prop where
  framed : Framed built u
  own : ∀ i ∈ is, u.Marked i
  kept : ∀ x, t.Marked x → u.Marked x
  others : ∀ x, (∀ i ∈ is, ¬ ReflTransGen built.Contains i x) → u.inode x = t.inode x

theorem writtenReached (framed : Framed built t) (writes : Writes t u i) (own : u.Marked i) :
    Reached built [i] t u := by
  refine ⟨framed.trans writes.framed, by simpa using own, fun x marked => ?_, fun x apart => ?_⟩
  · by_cases same : x = i
    · exact same ▸ own
    · rw [Marked, writes.others x same]
      exact marked
  · exact writes.others x fun same => apart i (by simp) (same ▸ .refl)

theorem writeRecordMarked (t : Inodes) (i : Nat) {type : Nat} (base : Nat) (positive : type ≠ 0)
    (pieces : List Bytes) (env : Env) : (t.writeRecord i type base pieces env).2.1.Marked i := by
  simpa [Marked, writeRecord, setInode] using positive

theorem inodeEncodeMarked (o : SerializeConfig) (t : Inodes) (i : Nat) (env : Env) :
    (t.inodeEncode o i env).2.1.Marked i := by
  obtain ⟨pieces, same, _⟩ := inodeEncodeRecord o t i env
  rw [same]
  exact writeRecordMarked _ _ _ (recordTypePositive o _) _ _

theorem directoryWriteStages (directory : (t.inode d).IsDirectory)
    (ok : t.directoryWrite o d env = (true, u, after)) : ∃ v mid,
      t.directoryEncode o d env = (true, v, mid) ∧ ((v.pruneIndex d).inode d).IsDirectory ∧
        (v.pruneIndex d).inodeEncode o d mid = (true, u, after) := by
  have encoded := @directoryEncodeWrites t d o env directory
  unfold directoryWrite at ok
  generalize t.directoryEncode o d env = result at ok encoded
  obtain ⟨good, v, mid⟩ := result
  cases good with
  | false => cases ok
  | true =>
    have is := (encoded.framed.inode d).isDirectory.mpr directory
    have still : ((v.pruneIndex d).inode d).IsDirectory :=
      ((pruneIndexWrites is).framed.inode d).isDirectory.mpr is
    refine ⟨v, mid, rfl, still, ?_⟩
    obtain ⟨dir, body⟩ := still
    simpa only [inodeEncode, body] using ok

/- What holds of every record that is written holds of the recursion, if no
operation fails. -/
theorem serializeReaches {P : Nat → Prop} {R : Inodes → Inodes → Prop} (refl : ∀ t, R t t)
    (trans : ∀ {t u v}, R t u → R u v → R t v) (begins : ∀ t begun, R t {t with begun := begun})
    (down : ∀ d c, P d → built.Contains d c → P c)
    (leaf : ∀ t u i env after, Framed built t → P i → ¬ t.Marked i → ¬ (t.inode i).IsDirectory →
      t.inodeEncode o i env = (true, u, after) → R t u)
    (directory : ∀ t u d env after, Framed built t → P d → (t.inode d).IsDirectory →
      (∀ c, built.Contains d c → t.Marked c) →
      ((∀ c, built.Contains d c → ¬ ReflTransGen built.Contains c d) → ¬ t.Marked d) →
      t.directoryWrite o d env = (true, u, after) → R t u)
    {fuel : Nat} (framed : Framed built t) (own : P i) (ran : inodeSerialize o fuel t i env = some (true, u, after)) :
    Reached built [i] t u ∧ R t u := by
  induction fuel generalizing t i env u after with
  | zero => cases ran
  | succ fuel ih =>
    have each {is : List Nat} {t : Inodes} {env : Env} {u : Inodes} {after : Env} (framed : Framed built t)
        (own : ∀ i ∈ is, P i) (ran : serializeEach (inodeSerialize o fuel) is t env = some (true, u, after)) :
        Reached built is t u ∧ R t u := by
      induction is generalizing t env with
      | nil =>
        cases ran
        exact ⟨⟨framed, by simp, fun _ => id, fun _ _ => rfl⟩, refl _⟩
      | cons i rest ih' =>
        rw [serializeEach] at ran
        rcases first : inodeSerialize o fuel t i env with _ | ⟨_ | _, v, mid⟩
        · rw [first] at ran
          cases ran
        · rw [first] at ran
          cases ran
        · rw [first] at ran
          obtain ⟨reached, related⟩ := ih framed (own i (by simp)) first
          obtain ⟨reached', related'⟩ := ih' reached.framed (fun j member => own j (List.mem_cons_of_mem _ member)) ran
          refine ⟨⟨reached'.framed, fun j member => ?_, fun x marked => reached'.kept x (reached.kept x marked),
            fun x apart => ?_⟩, trans related related'⟩
          · rcases List.mem_cons.mp member with rfl | later
            · exact reached'.kept j (reached.own j (by simp))
            · exact reached'.own j later
          · rw [reached'.others x fun j member => apart j (List.mem_cons_of_mem _ member),
              reached.others x fun j member => apart j (by simp_all)]
    by_cases marked : t.Marked i
    · rw [serializeAgain o fuel env marked] at ran
      cases ran
      exact ⟨⟨framed, by simpa using marked, fun _ => id, fun _ _ => rfl⟩, refl _⟩
    · have blank : (t.inode i).encodedType = 0 := not_not.mp marked
      by_cases is : (t.inode i).IsDirectory
      · rw [serializeDirectory o fuel env blank is] at ran
        have begun : Framed built {t with begun := t.begun ++ [i]} :=
          framed.trans ⟨rfl, rfl, rfl, fun _ => ⟨rfl, rfl, rfl, rfl⟩, fun _ => .refl _⟩
        rcases entries : serializeEach (inodeSerialize o fuel) (t.children i) {t with begun := t.begun ++ [i]} env with
          _ | ⟨_ | _, v, mid⟩
        · rw [entries] at ran
          cases ran
        · rw [entries] at ran
          cases ran
        · rw [entries] at ran
          have below {c : Nat} : c ∈ t.children i ↔ built.Contains i c := by
            rw [framed.children, containsChild]
          obtain ⟨reached, related⟩ := each begun (fun c member => down i c own (below.mp member)) entries
          have still : (v.inode i).IsDirectory :=
            (reached.framed.inode i).isDirectory.mpr ((framed.inode i).isDirectory.mp is)
          have written := directory v u i mid after reached.framed own still
            (fun c contained => reached.own c (below.mpr contained)) (fun apart again => ?_) (Option.some.inj ran)
          · have writes := @directoryWriteWrites v i o mid still
            rw [Option.some.inj ran] at writes
            obtain ⟨w, last, _, _, encoded⟩ := directoryWriteStages still (Option.some.inj ran)
            have mark := inodeEncodeMarked o (w.pruneIndex i) i last
            rw [encoded] at mark
            have record := writtenReached reached.framed writes mark
            refine ⟨⟨record.framed, record.own, fun x old => record.kept x (reached.kept x old), fun x apart => ?_⟩,
              trans (trans (begins t _) related) written⟩
            rw [record.others x apart, reached.others x fun c member path =>
              apart i (by simp) (.head (below.mp member) path)]
          · rw [Marked, reached.others i fun c member => apart c (below.mp member)] at again
            exact again blank
      · rw [serializeLeaf o fuel env blank is] at ran
        have writes := inodeEncodeWrites o t i env
        have mark := inodeEncodeMarked o t i env
        rw [Option.some.inj ran] at writes mark
        exact ⟨writtenReached framed writes mark, leaf t u i env after framed own marked is (Option.some.inj ran)⟩

/-! ### Where the records are -/

section
variable {decompress : Bytes → Option Bytes} {stream more : Bytes} {tab later : Metatable}

structure PlacedAt (decompress : Bytes → Option Bytes) (tab : Metatable) (stream : Bytes) (place : MetatableEntry)
    (bytes : Bytes) (k : Nat) : Prop where
  inside : k / metadataSize ≤ tab.blocks.length
  place : place = placeOf decompress tab.blocks k
  bytes : bytes <+: stream.drop k

theorem PlacedAt.grown {place : MetatableEntry} {bytes : Bytes} {k : Nat}
    (at' : PlacedAt decompress tab stream place bytes k) (blocks : tab.blocks <+: later.blocks)
    (short : k ≤ stream.length) : PlacedAt decompress later (stream ++ more) place bytes k := by
  obtain ⟨added, shape⟩ := blocks
  refine ⟨at'.inside.trans (by simp [← shape]), ?_, ?_⟩
  · rw [at'.place, placeOf, placeOf, ← shape, FramedStream.startAppend _ _ _ at'.inside]
  · rw [List.drop_append_of_le_length short]
    exact at'.bytes.trans (List.prefix_append _ _)

structure Placed (decompress : Bytes → Option Bytes) (o : SerializeConfig) (t : Inodes) (stream : Bytes) : Prop where
  holds : Holds decompress t.inodeTable stream
  types : ∀ i, t.Marked i → (t.inode i).encodedType = recordType o (t.inode i) ∧
    (t.inode i).encodedBaseType = baseType (t.inode i)
  record : ∀ i, t.Marked i → ∃ k, k ≤ stream.length ∧
    PlacedAt decompress t.inodeTable stream (t.inode i).inodeTableEntry (t.front o (t.inode i)) k

theorem frontFramed (framed : Framed t u) (o : SerializeConfig) (x : Inode) : u.front o x = t.front o x := by
  unfold front
  cases x.body with
  | directory dir =>
    have parent : u.parentNumber dir = t.parentNumber dir := by
      unfold parentNumber
      cases dir.parent with
      | none => simp only [framed.count]
      | some p => exact (framed.inode p).2.2.1
    simp only [directoryHeader, parent]
  | _ => rfl

theorem writeRecordInode (t : Inodes) (i type base : Nat) (pieces : List Bytes) (env : Env) :
    (t.writeRecord i type base pieces env).2.1.inode i = {t.inode i with
      encodedType := type
      encodedBaseType := base
      inodeTableEntry := t.inodeTable.position} := by
  simp [writeRecord, setInode]

/- `v` is what was made of `t` before the record of `i` is written. -/
theorem Placed.written {pieces : List Bytes} (placed : Placed decompress o t stream) (before : Writes t v i)
    (table : v.inodeTable = t.inodeTable)
    (ok : v.writeRecord i (recordType o (v.inode i)) (baseType (v.inode i)) pieces env = (true, u, after))
    (front : v.front o (v.inode i) <+: pieces.flatten) : Placed decompress o u (stream ++ pieces.flatten) := by
  have writes := writeRecordWrites v i (recordType o (v.inode i)) (baseType (v.inode i)) pieces env
  have inode := writeRecordInode v i (recordType o (v.inode i)) (baseType (v.inode i)) pieces env
  have holds := placed.holds
  rw [← table] at holds
  have grown : v.inodeTable.blocks <+: u.inodeTable.blocks := by
    obtain ⟨_, _, _, blocks, _⟩ := appendEachSpec pieces env holds
    have same : u.inodeTable = (appendEach pieces v.inodeTable env).2.1 := by
      simp only [writeRecord, setInode, Prod.mk.injEq] at ok
      rw [← ok.2.1]
    rw [same]
    exact blocks
  obtain ⟨holds', _⟩ := writeRecordSpec holds ok
  rw [ok] at writes inode
  simp only at writes inode
  have others (x : Nat) (other : x ≠ i) : u.inode x = t.inode x :=
    (writes.others x other).trans (before.others x other)
  have framed := before.framed.trans writes.framed
  refine ⟨holds', fun x marked => ?_, fun x marked => ?_⟩
  · by_cases own : x = i
    · subst own
      rw [inode]
      exact ⟨rfl, rfl⟩
    · rw [Marked, others x own] at marked
      rw [others x own]
      exact placed.types x marked
  · by_cases own : x = i
    · subst own
      refine ⟨stream.length, by simp, ?_⟩
      rw [inode]
      refine ⟨?_, positionPlace holds grown, ?_⟩
      · obtain ⟨count, _⟩ := positionStream holds
        exact (Nat.le_of_eq count.symm).trans grown.length_le
      · rw [List.drop_left, frontFramed writes.framed]
        exact front
    · rw [Marked, others x own] at marked
      obtain ⟨k, short, at'⟩ := placed.record x marked
      rw [others x own, frontFramed framed]
      exact ⟨k, by rw [List.length_append]; omega, at'.grown (table ▸ grown) short⟩

theorem Placed.leaf (placed : Placed decompress o t stream) (ok : t.inodeEncode o i env = (true, u, after)) :
    ∃ more, Placed decompress o u (stream ++ more) := by
  obtain ⟨pieces, same, front⟩ := inodeEncodeRecord o t i env
  rw [same] at ok
  exact ⟨_, placed.written (.refl t i) rfl ok front⟩

theorem appendEntriesTable (d : Nat) (es : List Nat) (first : Bool) (t : Inodes) (env : Env) :
    (appendEntries d es first t env).2.1.inodeTable = t.inodeTable := by
  induction es generalizing t first env with
  | nil => rfl
  | cons e rest ih =>
    rw [appendEntriesTurn]
    generalize t.dirTable.append ((t.entry e).encodedData.getD []) env = result
    obtain ⟨ok, table, env'⟩ := result
    cases ok with
    | false => rfl
    | true =>
      simp only
      rw [ih]
      cases first <;> rfl

theorem directoryEncodeTable (o : SerializeConfig) (t : Inodes) (d : Nat) (env : Env) :
    (t.directoryEncode o d env).2.1.inodeTable = t.inodeTable := by
  unfold directoryEncode
  simp only
  generalize encodeEntries o.host o.stale ((t.entries d).map t.listed) env = result
  obtain ⟨ok, enc, env'⟩ := result
  obtain ⟨_, _, same⟩ := @keepEncodedRest t (t.entries d) enc.done
  split
  · exact same
  · rw [appendEntriesTable]
    exact same

theorem Placed.directory (placed : Placed decompress o t stream) (is : (t.inode d).IsDirectory)
    (ok : t.directoryWrite o d env = (true, u, after)) : ∃ more, Placed decompress o u (stream ++ more) := by
  obtain ⟨v, mid, encoded, still, recorded⟩ := directoryWriteStages is ok
  obtain ⟨pieces, same, front⟩ := inodeEncodeRecord o (v.pruneIndex d) d mid
  have writes := @directoryEncodeWrites t d o env is
  have table := directoryEncodeTable o t d env
  rw [encoded] at writes table
  rw [same] at recorded
  exact ⟨_, placed.written (writes.trans (pruneIndexWrites ((writes.framed.inode d).isDirectory.mpr is))) table
    recorded front⟩

theorem serializePlaces {fuel : Nat} (placed : Placed decompress o t stream)
    (ran : inodeSerialize o fuel t i env = some (true, u, after)) :
    Reached t [i] t u ∧ ∃ more, Placed decompress o u (stream ++ more) := by
  obtain ⟨reached, related⟩ := serializeReaches (P := fun _ => True)
    (R := fun t u => ∀ stream, Placed decompress o t stream → ∃ more, Placed decompress o u (stream ++ more))
    (fun t stream placed => ⟨[], by simpa using placed⟩)
    (fun first second stream placed => by
      obtain ⟨more, mid⟩ := first stream placed
      obtain ⟨more', last⟩ := second _ mid
      exact ⟨more ++ more', by rw [← List.append_assoc]; exact last⟩)
    (fun t begun stream placed => ⟨[], by
      rw [List.append_nil]
      exact ⟨placed.holds, placed.types, placed.record⟩⟩)
    (fun _ _ _ _ => trivial)
    (fun t u i env after _ _ _ _ ok stream placed => placed.leaf ok)
    (fun t u d env after _ _ is _ _ ok stream placed => placed.directory is ok) (.refl t) trivial ran
  exact ⟨reached, related stream placed⟩

end

end
end Inodes
end Libsqfs
