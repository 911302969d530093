import Libsqfs.ExportTable
import Libsqfs.OperationTables

/-! What the tables hold once a tree is serialized: one record after the other, those
of the entries before that of their directory, and a listing for each directory. -/
namespace Libsqfs
open Relation Metatable

namespace Inodes

def owners (records : List (Nat × Bytes)) : List Nat := records.map Prod.fst

def recordBytes (records : List (Nat × Bytes)) : Bytes := (records.map Prod.snd).flatten

structure ListedIn (decompress : Bytes → Option Bytes) (host : Bytes.Host) (t : Inodes) (tab : Metatable) (lists : Bytes)
    (dir : DirectoryInode) (d : Nat) : Prop where
  size : dir.encodedEntriesSize = (listingData host t d).flatten.length
  listing : t.entries d ≠ [] → ∃ k, k ≤ lists.length ∧
    PlacedAt decompress tab lists dir.dirTableEntry (listingData host t d).flatten k

structure Archive (decompress : Bytes → Option Bytes) (o : SerializeConfig) (built t : Inodes)
    (records : List (Nat × Bytes)) (lists : Bytes) : Prop where
  framed : Framed built t
  placed : Placed decompress o t (recordBytes records)
  holds : Holds decompress t.dirTable lists
  once : (owners records).Nodup
  marked : ∀ i, i ∈ owners records ↔ t.Marked i
  order : ∀ pre i bytes post, records = pre ++ (i, bytes) :: post →
    PlacedAt decompress t.inodeTable (recordBytes records) (t.inode i).inodeTableEntry bytes (recordBytes pre).length ∧
      t.front o (t.inode i) <+: bytes ∧ ∀ c, built.Contains i c → c ∈ owners pre
  listed : ∀ d, t.Marked d → (t.inode d).IsDirectory →
    ListedIn decompress o.host t t.dirTable lists (t.inode d).dir d

section
variable {decompress : Bytes → Option Bytes} {o : SerializeConfig} {built t u v : Inodes} {records : List (Nat × Bytes)}
  {lists more : Bytes} {i d : Nat} {env after : Env}

@[simp] theorem ownersSnoc (records : List (Nat × Bytes)) (x : Nat × Bytes) :
    owners (records ++ [x]) = owners records ++ [x.1] := by
  simp [owners]

@[simp] theorem recordBytesSnoc (records : List (Nat × Bytes)) (x : Nat × Bytes) :
    recordBytes (records ++ [x]) = recordBytes records ++ x.2 := by
  simp [recordBytes]

theorem recordStart {pre pre' post post' : List (Nat × Bytes)} {x y : Nat × Bytes}
    (shape : pre ++ x :: post = pre' ++ y :: post') (left : 0 < x.2.length) (right : 0 < y.2.length)
    (same : (recordBytes pre).length = (recordBytes pre').length) : x = y := by
  have grown (l : List (Nat × Bytes)) (z : Nat × Bytes) (rest : List (Nat × Bytes)) :
      (recordBytes (l ++ z :: rest)).length = (recordBytes l).length + (z.2.length + (recordBytes rest).length) := by
    simp [recordBytes]
  rcases List.append_eq_append_iff.mp shape with ⟨between, rfl, later⟩ | ⟨between, rfl, later⟩
  · cases between with
    | nil => exact (List.cons.inj later).1
    | cons z rest =>
      obtain ⟨rfl, _⟩ := List.cons.inj later
      rw [grown] at same
      omega
  · cases between with
    | nil => exact (List.cons.inj later).1.symm
    | cons z rest =>
      obtain ⟨rfl, _⟩ := List.cons.inj later
      rw [grown] at same
      omega

theorem snocParts {α : Type} {l pre post : List α} {x y : α} (shape : l ++ [y] = pre ++ x :: post) :
    pre = l ∧ x = y ∧ post = [] ∨ ∃ rest, post = rest ++ [y] ∧ l = pre ++ x :: rest := by
  rcases List.eq_nil_or_concat post with rfl | ⟨rest, last, rfl⟩
  · obtain ⟨same, own⟩ := List.append_inj' shape rfl
    cases own
    exact .inl ⟨same.symm, rfl, rfl⟩
  · rw [List.concat_eq_append, ← List.cons_append, ← List.append_assoc] at shape
    obtain ⟨same, own⟩ := List.append_inj' shape rfl
    cases own
    exact .inr ⟨rest, by rw [List.concat_eq_append], same⟩

theorem listedKept (framed : Framed t u) {d : Nat} (kept : ∀ c ∈ t.children d, u.inode c = t.inode c) :
    (u.entries d).map u.listed = (t.entries d).map t.listed := by
  rw [framed.entries]
  refine List.map_congr_left fun e member => ?_
  obtain ⟨_, _, name, inode⟩ := framed.entry e
  have own := kept _ (List.mem_map_of_mem (f := fun e => (t.entry e).inode) member)
  simp only [listed, name, inode, own]

theorem listingKept (framed : Framed t u) (host : Bytes.Host) {d : Nat}
    (kept : ∀ c ∈ t.children d, u.inode c = t.inode c) : listingData host u d = listingData host t d := by
  simp only [listingData, listingRuns, listedKept framed kept]

theorem ListedIn.kept {tab : Metatable} {dir : DirectoryInode} {host : Bytes.Host}
    (listed : ListedIn decompress host t tab lists dir d) (framed : Framed t u)
    (kept : ∀ c ∈ t.children d, u.inode c = t.inode c) : ListedIn decompress host u tab lists dir d := by
  have same := listingKept framed host kept
  exact ⟨by rw [same]; exact listed.size, by rw [same, framed.entries]; exact listed.listing⟩

theorem ListedIn.grown {tab later : Metatable} {dir : DirectoryInode} {host : Bytes.Host}
    (listed : ListedIn decompress host t tab lists dir d) (blocks : tab.blocks <+: later.blocks) :
    ListedIn decompress host t later (lists ++ more) dir d where
  size := listed.size
  listing some := by
    obtain ⟨k, short, at'⟩ := listed.listing some
    exact ⟨k, by rw [List.length_append]; omega, at'.grown blocks short⟩

theorem archiveStart (blank : ∀ i, ¬ built.Marked i) (inodes : Holds decompress built.inodeTable [])
    (dirs : Holds decompress built.dirTable []) : Archive decompress o built built [] [] where
  framed := .refl built
  placed := ⟨inodes, fun i marked => absurd marked (blank i), fun i marked => absurd marked (blank i)⟩
  holds := dirs
  once := List.nodup_nil
  marked i := ⟨fun member => absurd member List.not_mem_nil, fun marked => absurd marked (blank i)⟩
  order pre i bytes post shape := by simp at shape
  listed d marked := absurd marked (blank d)

theorem Archive.split (archive : Archive decompress o built t records lists) (marked : t.Marked i) :
    ∃ pre bytes post, records = pre ++ (i, bytes) :: post := by
  obtain ⟨x, member, rfl⟩ := List.mem_map.mp ((archive.marked i).mpr marked)
  obtain ⟨pre, post, shape⟩ := List.append_of_mem member
  exact ⟨pre, x.2, post, shape⟩

theorem Archive.closed (archive : Archive decompress o built t records lists) : ClosedBelow built t := by
  intro d c marked contained
  obtain ⟨pre, bytes, post, shape⟩ := archive.split marked
  obtain ⟨_, _, before⟩ := archive.order pre d bytes post shape
  refine (archive.marked c).mp ?_
  rw [shape, owners, List.map_append]
  exact List.mem_append_left _ (before c contained)

/- One more record, of an inode whose entries have theirs. `v` is what was made of `t` before. -/
theorem Archive.written {pieces : List Bytes} (archive : Archive decompress o built t records lists)
    (before : Writes t v i) (table : v.inodeTable = t.inodeTable) (fresh : ¬ t.Marked i)
    (below : ∀ c, built.Contains i c → t.Marked c) (holds : Holds decompress v.dirTable (lists ++ more))
    (grown : t.dirTable.blocks <+: v.dirTable.blocks)
    (own : (v.inode i).IsDirectory → ListedIn decompress o.host t v.dirTable (lists ++ more) (v.inode i).dir i)
    (ok : v.writeRecord i (recordType o (v.inode i)) (baseType (v.inode i)) pieces env = (true, u, after))
    (front : v.front o (v.inode i) <+: pieces.flatten) :
    Archive decompress o built u (records ++ [(i, pieces.flatten)]) (lists ++ more) := by
  have writes := writeRecordWrites v i (recordType o (v.inode i)) (baseType (v.inode i)) pieces env
  have inode := writeRecordInode v i (recordType o (v.inode i)) (baseType (v.inode i)) pieces env
  have mark := writeRecordMarked v i (baseType (v.inode i)) (recordTypePositive o (v.inode i)) pieces env
  have held := archive.placed.holds
  rw [← table] at held
  obtain ⟨_, place, _, _, _, _, dirTable⟩ := writeRecordSpec held ok
  have placed := archive.placed.written before table ok front
  rw [ok] at writes inode mark
  dsimp only at writes inode mark
  have whole := before.trans writes
  have framed := archive.framed.trans whole.framed
  have others (x : Nat) (old : t.Marked x) : u.inode x = t.inode x :=
    whole.others x fun same => fresh (same ▸ old)
  have child {d c : Nat} (member : c ∈ t.children d) : built.Contains d c := by
    rw [archive.framed.children] at member
    exact containsChild.mpr member
  have blocks : t.inodeTable.blocks <+: u.inodeTable.blocks := by
    obtain ⟨_, _, _, blocks, _⟩ := appendEachSpec pieces env held
    have same : u.inodeTable = (appendEach pieces v.inodeTable env).2.1 := by
      simp only [writeRecord, setInode, Prod.mk.injEq] at ok
      rw [← ok.2.1]
    rw [same, ← table]
    exact blocks
  refine ⟨framed, by simpa using placed, by rw [dirTable]; exact holds, ?_, fun x => ?_, ?_, fun d marked is => ?_⟩
  · rw [ownersSnoc]
    refine List.nodup_append.mpr ⟨archive.once, List.nodup_singleton i, fun x member y last => ?_⟩
    rintro rfl
    rw [List.mem_singleton.mp last] at member
    exact fresh ((archive.marked i).mp member)
  · rw [ownersSnoc, List.mem_append, List.mem_singleton, archive.marked]
    by_cases same : x = i
    · subst same
      exact ⟨fun _ => mark, fun _ => .inr rfl⟩
    · rw [Marked, Marked, whole.others x same]
      exact ⟨fun either => either.resolve_right same, .inl⟩
  · intro pre x bytes post shape
    rcases snocParts shape with ⟨rfl, last, rfl⟩ | ⟨rest, rfl, shape'⟩
    · cases last
      refine ⟨⟨?_, ?_, ?_⟩, ?_, fun c contained => (archive.marked c).mpr (below c contained)⟩
      · obtain ⟨count, _⟩ := positionStream held
        rw [← count, table]
        exact blocks.length_le
      · rw [place]
        exact positionPlace held (table ▸ blocks)
      · rw [recordBytesSnoc, List.drop_left]
      · rw [inode, frontFramed writes.framed]
        exact front
    · obtain ⟨at', prefix', contained⟩ := archive.order pre x bytes rest shape'
      have old : t.Marked x := (archive.marked x).mp (by rw [shape']; simp [owners])
      rw [others x old, frontFramed whole.framed, recordBytesSnoc]
      refine ⟨at'.grown blocks ?_, prefix', contained⟩
      rw [shape']
      simp [recordBytes]
  · rw [dirTable]
    by_cases same : d = i
    · subst same
      have dir : (u.inode d).dir = (v.inode d).dir := by
        rw [inode]
        rfl
      rw [dir]
      exact (own ((writes.framed.inode d).isDirectory.mp is)).kept whole.framed fun c member =>
        others c (below c (child member))
    · have old : t.Marked d := by
        rw [Marked, whole.others d same] at marked
        exact marked
      rw [whole.others d same] at is ⊢
      exact ((archive.listed d old is).grown grown).kept whole.framed fun c member =>
        others c (archive.closed d c old (child member))

theorem Archive.leaf (archive : Archive decompress o built t records lists) (linkage : built.Linkage)
    (fresh : ¬ t.Marked i) (other : ¬ (t.inode i).IsDirectory) (ok : t.inodeEncode o i env = (true, u, after)) :
    ∃ bytes, Archive decompress o built u (records ++ [(i, bytes)]) lists := by
  obtain ⟨pieces, same, front⟩ := inodeEncodeRecord o t i env
  rw [same] at ok
  have still : lists ++ [] = lists := List.append_nil lists
  have written := archive.written (.refl t i) rfl fresh (fun c contained => ?_)
    (still.symm ▸ archive.holds) (List.prefix_refl _) (fun is => absurd is other) ok front
  · rw [still] at written
    exact ⟨_, written⟩
  · exact absurd ((archive.framed.inode i).isDirectory.mpr (linkage.container contained).2) other

theorem Archive.directory (archive : Archive decompress o built t records lists) (linkage : built.Linkage)
    (fresh : ¬ t.Marked d) (is : (t.inode d).IsDirectory) (below : ∀ c, built.Contains d c → t.Marked c)
    (ok : t.directoryWrite o d env = (true, u, after)) :
    ∃ bytes more, Archive decompress o built u (records ++ [(d, bytes)]) (lists ++ more) := by
  obtain ⟨v, mid, encoded, _, recorded⟩ := directoryWriteStages is ok
  have nodup : (t.entries d).Nodup := by
    rw [archive.framed.entries]
    exact (linkage.lists d).nodup
  have listing := directoryEncodeSpec is nodup archive.holds encoded
  have still := (listing.writes.framed.inode d).isDirectory.mpr is
  obtain ⟨pieces, same, front⟩ := inodeEncodeRecord o (v.pruneIndex d) d mid
  rw [same] at recorded
  have table : (v.pruneIndex d).dirTable = v.dirTable := rfl
  have appending : Appending fun tab => (∃ stream, Holds decompress tab stream) ∧ t.dirTable.blocks <+: tab.blocks := by
    rintro tab data env ⟨⟨stream, holds⟩, grown⟩
    obtain ⟨taken, _, held, blocks, _⟩ := appendSpec data env holds
    exact ⟨⟨_, held⟩, grown.trans blocks⟩
  have retained := (directoryEncodeRetains appending o t d env).dirTable ⟨⟨_, archive.holds⟩, List.prefix_refl _⟩
  rw [encoded] at retained
  have grown := retained.2
  refine ⟨_, _, archive.written (listing.writes.trans (pruneIndexWrites still)) listing.inodeTable fresh below
    listing.holds grown (fun _ => ?_) recorded front⟩
  have dir := pruneIndexDir v d
  refine ⟨by rw [dir]; exact listing.size, fun some => ⟨lists.length, by simp, ?_, ?_, ?_⟩⟩
  · obtain ⟨count, _⟩ := positionStream archive.holds
    rw [← count]
    exact grown.length_le
  · rw [dir]
    exact listing.start some
  · rw [List.drop_left]

/- In what is serialized below a root without a cycle each inode has one record. -/
theorem serializeArchives {fuel r : Nat} (linkage : built.Linkage)
    (acyclic : ∀ d, ReflTransGen built.Contains r d → ¬ TransGen built.Contains d d)
    (archive : Archive decompress o built built records lists)
    (ran : inodeSerialize o fuel built r env = some (true, u, after)) :
    Reached built [r] built u ∧ ∃ records' lists', Archive decompress o built u records' lists' := by
  obtain ⟨reached, related⟩ := serializeReaches (P := ReflTransGen built.Contains r)
    (R := fun t u => ∀ records lists, Archive decompress o built t records lists →
      ∃ records' lists', Archive decompress o built u records' lists')
    (fun t records lists archive => ⟨records, lists, archive⟩)
    (fun first second records lists archive => by
      obtain ⟨records', lists', mid⟩ := first records lists archive
      exact second records' lists' mid)
    (fun t begun records lists archive => ⟨records, lists, by
      have framed : Framed t {t with begun := begun} :=
        ⟨rfl, rfl, rfl, fun _ => ⟨rfl, rfl, rfl, rfl⟩, fun _ => .refl _⟩
      refine ⟨archive.framed.trans framed, ⟨archive.placed.holds, archive.placed.types, archive.placed.record⟩,
        archive.holds, archive.once, archive.marked, archive.order, fun d marked is => ?_⟩
      exact (archive.listed d marked is).kept framed fun _ _ => rfl⟩)
    (fun d c below contained => below.tail contained)
    (fun t u i env after _ _ fresh other ok records lists archive => by
      obtain ⟨bytes, written⟩ := archive.leaf linkage fresh other ok
      exact ⟨_, _, written⟩)
    (fun t u d env after _ below is marked apart ok records lists archive => by
      have fresh : ¬ t.Marked d := apart fun c contained path =>
        acyclic d below (TransGen.head' contained path)
      obtain ⟨bytes, more, written⟩ := archive.directory linkage fresh is marked ok
      exact ⟨_, _, written⟩) (.refl built) .refl ran
  exact ⟨reached, related records lists archive⟩

end
end Inodes
end Libsqfs
