import Libsqfs.DirectoryMap
import Mathlib.Algebra.BigOperators.Group.Finset.Basic
import Mathlib.Algebra.BigOperators.Intervals

/-! The link counts and the parents, over any sequence of calls with any
allocation failing. -/
namespace Libsqfs
open Transition

namespace Inodes

def references (t : Inodes) (i : Nat) : Nat :=
  ∑ d ∈ Finset.range t.count, (t.listing d).countP fun x => x.2 = i

def subdirectories (t : Inodes) (d : Nat) : Nat :=
  (t.listing d).countP fun x => (t.inode x.2).IsDirectory

def Contains (t : Inodes) (d i : Nat) : Prop := ∃ x ∈ t.listing d, x.2 = i

structure Consistent (t : Inodes) : Prop where
  links : ∀ i, i < t.count → (t.inode i).nlink = t.references i +
    if (t.inode i).IsDirectory then t.subdirectories i + if t.root = some i then 1 else 0 else 0
  single : ∀ i, t.Directory i → t.references i ≤ 1
  parents : ∀ i p, t.Directory i → ((t.inode i).dir.parent = some p ↔ t.Contains p i)
  orphans : ∀ i, t.Directory i → ((t.inode i).dir.parent = none ↔ ∀ p, ¬ t.Contains p i)

structure Added (t next : Inodes) (p : Nat) (name : Bytes) (i : Nat) : Prop where
  nlink : ∀ x, (next.inode x).nlink = (t.inode x).nlink +
    (if (t.inode i).IsDirectory ∧ x = p then 1 else 0) + if x = i then 1 else 0
  directory : ∀ x, (next.inode x).IsDirectory ↔ (t.inode x).IsDirectory
  parent : ∀ x, (next.inode x).dir.parent =
    if (t.inode i).IsDirectory ∧ x = i then some p else (t.inode x).dir.parent
  count : next.count = t.count
  root : next.root = t.root
  own : (next.listing p).Perm ((name, i) :: t.listing p)
  others : ∀ d, d ≠ p → next.listing d = t.listing d

variable {t next : Inodes} {p i d : Nat} {name : Bytes}

theorem Linkage.target (linkage : Linkage t) {x : Bytes × Nat} (member : x ∈ t.listing d) :
    x.2 < t.count := by
  obtain ⟨e, inside, rfl⟩ := List.mem_map.mp member
  exact linkage.targets e (linkage.made d e inside)

theorem Linkage.noListing (linkage : Linkage t) (other : ¬ t.Directory d) : t.listing d = [] := by
  rw [listing, linkage.foreign other, List.map_nil]

theorem insertedParent {x : Nat} (inserted : Inserted t next p name i) :
    (next.inode x).dir.parent = (t.inode x).dir.parent := by
  rw [inserted.inode]
  by_cases own : x = p
  · rw [if_pos own]; rfl
  · rw [if_neg own]; rfl

theorem addedSpec (linkage : Linkage t) (valid : Call.Valid t (.addEntry p name i)) :
    Added t ((t.claimed p i).insertEntry p name i) p name i := by
  have inserted := addedEntries linkage valid
  obtain ⟨claimed, _⟩ := claimedLinkage linkage p valid.2
  obtain ⟨_, _, count, root⟩ := claimedRest t p i
  have valid' : (t.claimed p i).Directory p := (claimedDirectory t p i p).mpr valid.1
  have lists (d : Nat) : (t.claimed p i).listing d = t.listing d := by
    obtain ⟨entry, _⟩ := claimedRest t p i
    refine listingCongr ((claimedLinkage linkage p valid.2).2 d) fun e _ => ?_
    unfold pair
    rw [entry]
  refine ⟨fun x => ?_, fun x => ?_, fun x => ?_, inserted.count.trans count,
    inserted.root.trans root, ?_, fun d other => ?_⟩
  · rw [inserted.inode, claimedInode]
    by_cases directory : (t.inode i).IsDirectory <;> simp [directory]
  · have inserts : (((t.claimed p i).insertEntry p name i).inode x).IsDirectory ↔
        ((t.claimed p i).inode x).IsDirectory := by
      rw [inserted.inode]
      by_cases own : x = p
      · rw [if_pos own]
        exact ⟨fun _ => own ▸ valid'.2, fun _ => ⟨_, rfl⟩⟩
      · rw [if_neg own]; rfl
    rw [inserts, claimedInode]
    by_cases directory : (t.inode i).IsDirectory
    · rw [if_pos directory]
      by_cases own : x = i
      · rw [if_pos own]
        exact ⟨fun _ => own ▸ directory, fun _ => ⟨_, rfl⟩⟩
      · rw [if_neg own]; rfl
    · rw [if_neg directory]
  · rw [insertedParent inserted, claimedInode]
    by_cases directory : (t.inode i).IsDirectory
    · by_cases own : x = i
      · subst own; simp only [directory, if_true, and_self]; rfl
      · simp only [directory, own, if_true, if_false, and_false]; rfl
    · simp [directory]
  · rw [inserted.sorted claimed, lists]
    exact List.perm_orderedInsert ..
  · rw [inserted.aside claimed other, lists]

theorem consistentOf
    (links : ∀ i, i < t.count → (t.inode i).nlink = t.references i +
      if (t.inode i).IsDirectory then t.subdirectories i + if t.root = some i then 1 else 0 else 0)
    (single : ∀ i, t.Directory i → t.references i ≤ 1)
    (parents : ∀ i p, t.Directory i → ((t.inode i).dir.parent = some p ↔ t.Contains p i)) :
    Consistent t := by
  refine ⟨links, single, parents, fun i directory => ⟨fun none p contained => ?_, fun free => ?_⟩⟩
  · rw [(parents i p directory).mpr contained] at none
    cases none
  · cases above : (t.inode i).dir.parent with
    | none => rfl
    | some p => exact absurd ((parents i p directory).mp above) (free p)

theorem noReferences (free : ∀ p, ¬ t.Contains p i) : t.references i = 0 := by
  refine Finset.sum_eq_zero fun d _ => List.countP_eq_zero.mpr fun x member same => ?_
  exact free d ⟨x, member, of_decide_eq_true same⟩

/-! ### A new entry -/

theorem Added.references (added : Added t next p name i) (inside : p < t.count) (x : Nat) :
    next.references x = t.references x + if x = i then 1 else 0 := by
  have counted (d : Nat) : (next.listing d).countP (fun y => y.2 = x) =
      (t.listing d).countP (fun y => y.2 = x) + if d = p then (if x = i then 1 else 0) else 0 := by
    by_cases own : d = p
    · subst own
      rw [added.own.countP_eq, List.countP_cons, if_pos rfl]
      by_cases same : x = i
      · subst same; simp
      · simp [same, Ne.symm same]
    · rw [added.others d own, if_neg own, Nat.add_zero]
  unfold Inodes.references
  rw [added.count, Finset.sum_congr rfl fun d _ => counted d, Finset.sum_add_distrib,
    Finset.sum_ite_eq', if_pos (Finset.mem_range.mpr inside)]

theorem Added.subdirectories (added : Added t next p name i) (d : Nat) :
    next.subdirectories d = t.subdirectories d +
      if (t.inode i).IsDirectory ∧ d = p then 1 else 0 := by
  unfold Inodes.subdirectories
  simp only [added.directory]
  by_cases own : d = p
  · subst own
    rw [added.own.countP_eq, List.countP_cons]
    simp
  · rw [added.others d own, if_neg fun both => own both.2, Nat.add_zero]

theorem Added.contains (added : Added t next p name i) (d x : Nat) :
    next.Contains d x ↔ t.Contains d x ∨ d = p ∧ x = i := by
  unfold Contains
  by_cases own : d = p
  · subst own
    constructor
    · rintro ⟨y, member, rfl⟩
      rcases List.mem_cons.mp (added.own.mem_iff.mp member) with rfl | old
      · exact .inr ⟨rfl, rfl⟩
      · exact .inl ⟨y, old, rfl⟩
    · rintro (⟨y, old, rfl⟩ | ⟨_, rfl⟩)
      · exact ⟨y, added.own.mem_iff.mpr (List.mem_cons_of_mem _ old), rfl⟩
      · exact ⟨(name, x), added.own.mem_iff.mpr (by simp), rfl⟩
  · rw [added.others d own]
    exact ⟨.inl, fun either => either.resolve_right fun both => own both.1⟩

theorem Consistent.added (consistent : Consistent t) (linkage : Linkage t)
    (valid : Call.Valid t (.addEntry p name i)) (unparented : t.Unparented i) :
    Consistent ((t.claimed p i).insertEntry p name i) := by
  have added := addedSpec linkage valid
  obtain ⟨parent, target⟩ := valid
  have inside := parent.1
  -- a directory that passes the check has no entry yet
  have free (directory : (t.inode i).IsDirectory) : ∀ q, ¬ t.Contains q i := by
    refine (consistent.orphans i ⟨target, directory⟩).mp ?_
    exact Option.not_isSome_iff_eq_none.mp fun some => unparented ⟨directory, some⟩
  refine consistentOf (fun x below => ?_) (fun x directory => ?_) fun x q directory => ?_
  · rw [added.count] at below
    rw [added.nlink, added.references inside, added.subdirectories, consistent.links x below,
      added.root]
    simp only [added.directory]
    by_cases above : x = p
    · subst above
      simp only [parent.2, if_true, and_true]
      omega
    · simp only [above, and_false, if_false, Nat.add_zero]
      split <;> omega
  · have old : t.Directory x := ⟨added.count ▸ directory.1, (added.directory x).mp directory.2⟩
    rw [added.references inside]
    by_cases own : x = i
    · subst own
      rw [if_pos rfl, noReferences (free old.2)]
    · rw [if_neg own]
      exact consistent.single x old
  · have old : t.Directory x := ⟨added.count ▸ directory.1, (added.directory x).mp directory.2⟩
    rw [added.parent, added.contains]
    by_cases own : x = i
    · subst own
      rw [if_pos ⟨old.2, rfl⟩]
      have : ¬ t.Contains q x := free old.2 q
      simp only [Option.some.injEq, this, false_or, and_true]
      exact eq_comm
    · rw [if_neg fun both => own both.2, consistent.parents x q old]
      exact ⟨.inl, fun either => either.resolve_right fun both => own both.2⟩

/-! ### The other calls -/

theorem createdReferences {attr : InodeAttr} {body : InodeBody} (linkage : Linkage t)
    (fresh : body.Fresh) : (∀ d, (t.inodeInit attr body).2.listing d = t.listing d) ∧
      ∀ x, (t.inodeInit attr body).2.references x = t.references x := by
  have lists (d : Nat) : (t.inodeInit attr body).2.listing d = t.listing d :=
    listingCongr ((initLinkage linkage fresh).2 d) fun _ _ => rfl
  have none : t.listing t.count = [] :=
    linkage.noListing fun directory => absurd directory.1 (Nat.lt_irrefl _)
  refine ⟨lists, fun x => ?_⟩
  have count : (t.inodeInit attr body).2.count = t.count + 1 := rfl
  unfold references
  rw [count, Finset.sum_range_succ, lists, none, Finset.sum_congr rfl fun d _ => by rw [lists d]]
  rfl

theorem referencesCongr (count : next.count = t.count) (lists : ∀ d, next.listing d = t.listing d)
    (x : Nat) : next.references x = t.references x := by
  unfold references
  rw [count]
  exact Finset.sum_congr rfl fun d _ => by rw [lists d]

theorem Linkage.uncontained (linkage : Linkage t) (p : Nat) : ¬ t.Contains p t.count := by
  rintro ⟨y, member, same⟩
  exact absurd (linkage.target member) (by rw [same]; exact Nat.lt_irrefl _)

theorem Consistent.created {attr : InodeAttr} {body : InodeBody} (consistent : Consistent t)
    (linkage : Linkage t) (fresh : body.Fresh) (rootInside : ∀ d, t.root = some d → d < t.count) :
    Consistent (t.inodeInit attr body).2 := by
  obtain ⟨lists, references⟩ := @createdReferences t attr body linkage fresh
  have none : t.listing t.count = [] :=
    linkage.noListing fun directory => absurd directory.1 (Nat.lt_irrefl _)
  have contains (d x : Nat) : (t.inodeInit attr body).2.Contains d x ↔ t.Contains d x := by
    unfold Contains
    rw [lists]
  have old (x : Nat) (below : x < t.count) : (t.inodeInit attr body).2.inode x = t.inode x := by
    rw [initInode, if_neg (Nat.ne_of_lt below)]
  have subdirectories (x : Nat) :
      (t.inodeInit attr body).2.subdirectories x = t.subdirectories x := by
    unfold subdirectories
    rw [lists]
    refine List.countP_congr fun y member => ?_
    rw [old _ (linkage.target member)]
  have noEntry := linkage.uncontained
  have before (x : Nat) (directory : (t.inodeInit attr body).2.Directory x) :
      x = t.count ∨ t.Directory x := by
    by_cases new : x = t.count
    · exact .inl new
    · have below : x < t.count := Nat.lt_of_le_of_ne (Nat.le_of_lt_succ directory.1) new
      exact .inr ⟨below, old x below ▸ directory.2⟩
  refine consistentOf (fun x below => ?_) (fun x directory => ?_) fun x q directory => ?_
  · rw [references, subdirectories]
    by_cases new : x = t.count
    · subst new
      have unrooted : t.root ≠ some t.count := fun same => Nat.lt_irrefl _ (rootInside _ same)
      have empty : t.subdirectories t.count = 0 := by
        rw [Inodes.subdirectories, none]; rfl
      have root : (t.inodeInit attr body).2.root = t.root := rfl
      rw [initInode, if_pos rfl, noReferences noEntry, empty, root, if_neg unrooted]
      simp
    · rw [old x (Nat.lt_of_le_of_ne (Nat.le_of_lt_succ below) new)]
      exact consistent.links x (Nat.lt_of_le_of_ne (Nat.le_of_lt_succ below) new)
  · rw [references]
    rcases before x directory with rfl | was
    · rw [noReferences noEntry]; exact Nat.zero_le 1
    · exact consistent.single x was
  · rw [contains]
    rcases before x directory with rfl | was
    · have orphan : ((t.inodeInit attr body).2.inode t.count).dir.parent = Option.none := by
        rw [initInode, if_pos rfl]
        cases body with
        | directory dir => rw [fresh dir rfl]; rfl
        | _ => rfl
      rw [orphan]
      exact ⟨fun some => (nomatch some), fun contained => absurd contained (noEntry q)⟩
    · rw [old x was.1]
      exact consistent.parents x q was

theorem Consistent.rooted (consistent : Consistent t) (linkage : Linkage t) (directory : t.Directory d)
    (missing : t.root = none) : Consistent (t.rooted d) := by
  have lists (x : Nat) : (t.rooted d).listing x = t.listing x :=
    listingCongr ((rootedLinkage linkage d).2 x) fun _ _ => rfl
  have is (x : Nat) : ((t.rooted d).inode x).IsDirectory ↔ (t.inode x).IsDirectory := by
    rw [rootedInode]; rfl
  have parent (x : Nat) : ((t.rooted d).inode x).dir = (t.inode x).dir := by
    rw [rootedInode]; rfl
  have references (x : Nat) : (t.rooted d).references x = t.references x :=
    @referencesCongr t (t.rooted d) rfl lists x
  have subdirectories (x : Nat) : (t.rooted d).subdirectories x = t.subdirectories x := by
    unfold subdirectories
    rw [lists]
    simp only [is]
  have root : (t.rooted d).root = some d := rfl
  refine consistentOf (fun x below => ?_) (fun x own => ?_) fun x q own => ?_
  · rw [references, subdirectories, root]
    simp only [is]
    rw [rootedInode, consistent.links x below, missing]
    by_cases same : x = d
    · subst same
      simp only [directory.2, if_true, reduceCtorEq, if_false]
      omega
    · have other : ¬ some d = some x := fun h => same (Option.some.inj h).symm
      simp [same, other]
  · rw [references]
    exact consistent.single x ⟨own.1, (is x).mp own.2⟩
  · unfold Contains
    rw [parent, lists]
    exact consistent.parents x q ⟨own.1, (is x).mp own.2⟩

/- A call that gets past the check changes a directory before it can fail. -/
theorem claimedChanges (directory : (t.inode i).IsDirectory) (unparented : t.Unparented i) :
    t.claimed p i ≠ t := by
  intro same
  have claims : ((t.claimed p i).inode i).dir.parent = some p := by
    rw [claimedInode, if_pos directory, if_pos rfl]; rfl
  rw [same] at claims
  exact unparented ⟨directory, by rw [claims]; rfl⟩

/-! ### Sequences of calls -/

structure Settled (t : Inodes) : Prop where
  linkage : Linkage t
  root : ∀ d, t.root = some d → t.Directory d

theorem Settled.effect {c : Call} {ok : Bool} (settled : Settled t) (valid : c.Valid t)
    (effect : t.Effect c ok next) : Settled next := by
  refine ⟨settled.linkage.effect valid effect, fun d root => ?_⟩
  cases effect with
  | refused => exact settled.root d root
  | created _ _ =>
    have was := settled.root d root
    refine ⟨Nat.lt_succ_of_lt was.1, ?_⟩
    rw [initInode, if_neg (Nat.ne_of_lt was.1)]
    exact was.2
  | failed _ =>
    rw [(claimedRest t _ _).2.2.2] at root
    exact (claimedDirectory ..).mpr (settled.root d root)
  | added _ =>
    have added := addedSpec settled.linkage valid
    rw [added.root] at root
    have was := settled.root d root
    exact ⟨added.count ▸ was.1, (added.directory d).mpr was.2⟩
  | rooted _ =>
    have own := Option.some.inj root
    subst own
    exact ⟨valid.1, by rw [rootedInode]; exact valid.2⟩

theorem consistentInit (compressor : Option Compressor) : Consistent (.init compressor) :=
  consistentOf (fun _ below => absurd below (Nat.not_lt_zero _))
    (fun _ directory => absurd directory.1 (Nat.not_lt_zero _))
    fun _ _ directory => absurd directory.1 (Nat.not_lt_zero _)

end Inodes

namespace Builder
open Inodes
variable {o : BuilderConfig} {env : Env} {trace : List (Event Builder (Call × Bool))}
  {b next : Builder}

/- The two allocations of add_entry succeed where a directory without a parent
is added. -/
def Provided (b : Builder) (l : Call × Bool) : Prop :=
  ∀ p name i, l.1 = .addEntry p name i → (b.inodes.inode i).IsDirectory →
    (b.inodes.inode i).dir.parent = none → b.env.mallocs 0 = true ∧ b.env.mallocs 1 = true

def Harmless (e : Event Builder (Call × Bool)) : Prop :=
  ∀ p name i, e.label = (.addEntry p name i, false) → e.after.inodes = e.before.inodes

theorem runSettled (run : Run (Builder.Step o) (.init o env) trace b) : b.inodes.Settled := by
  have free : Obeys (fun _ _ => True) trace := fun _ _ => trivial
  refine Run.invariant (I := fun b => b.inodes.Settled) ⟨linkageInit _, fun d root => ?_⟩ ?_ run free
  · intro b call next settled _ taken
    obtain ⟨valid, effect⟩ := stepEffect taken
    exact settled.effect valid effect
  · cases root

theorem failedDirectory {l : Call × Bool} {p : Nat} {name : Bytes} {i : Nat} (taken : b.Step o l next)
    (call : l.1 = .addEntry p name i) (unparented : b.inodes.Unparented i)
    (refused : ¬ (b.env.mallocs 0 = true ∧ b.env.mallocs 1 = true)) :
    l.2 = false ∧ next.inodes = b.inodes.claimed p i := by
  obtain ⟨c, ok⟩ := l
  cases call
  obtain ⟨_, result⟩ := taken
  simp only [run, directoryAddEntry] at result
  rw [if_neg unparented] at result
  cases first : b.env.mallocs 0 with
  | false =>
    simp only [Env.malloc, first, Bool.not_false, if_true] at result
    cases result
    exact ⟨rfl, rfl⟩
  | true =>
    have second : b.env.mallocs 1 = false := by
      cases given : b.env.mallocs 1 with
      | false => rfl
      | true => exact absurd ⟨first, given⟩ refused
    simp only [Env.malloc, first, second, Bool.not_true, Bool.false_eq_true, if_false, Bool.not_false,
      if_true] at result
    cases result
    exact ⟨rfl, rfl⟩

theorem addEntryHarmless {l : Call × Bool} (taken : b.Step o l next) (provided : Provided b l) :
    Harmless ⟨b, l, next⟩ := by
  intro p name i label
  simp only at label
  subst label
  obtain ⟨_, effect⟩ := stepEffect taken
  generalize next.inodes = after at effect ⊢
  cases effect with
  | refused => rfl
  | created _ creates => exact absurd rfl (creates p name i 0).1
  | failed unparented =>
    refine if_neg fun directory => (addEntryFails taken unparented).2 ?_
    refine provided p name i rfl directory (Option.not_isSome_iff_eq_none.mp fun some => ?_)
    exact unparented ⟨directory, some⟩

theorem consistentStep {l : Call × Bool} (taken : b.Step o l next) (settled : b.inodes.Settled)
    (consistent : b.inodes.Consistent) (provided : Provided b l) : next.inodes.Consistent := by
  obtain ⟨valid, effect⟩ := stepEffect taken
  have harmless := addEntryHarmless taken provided
  obtain ⟨c, ok⟩ := l
  generalize same : next.inodes = after at effect
  cases effect with
  | refused => exact consistent
  | created fresh _ =>
    exact consistent.created settled.linkage fresh fun d root => (settled.root d root).1
  | @failed p name i unparented =>
    have kept := harmless p name i rfl
    simp only at kept
    rw [← same, kept]
    exact consistent
  | added unparented => exact consistent.added settled.linkage valid unparented
  | rooted missing => exact consistent.rooted settled.linkage valid missing

theorem consistentRun (run : Run (Builder.Step o) (.init o env) trace b) (obeys : Obeys Provided trace) :
    b.inodes.Settled ∧ b.inodes.Consistent := by
  refine Run.invariant (I := fun b => b.inodes.Settled ∧ b.inodes.Consistent)
    ⟨runSettled .start, consistentInit _⟩ ?_ run obeys
  intro b l next ⟨settled, consistent⟩ provided taken
  obtain ⟨valid, effect⟩ := stepEffect taken
  exact ⟨settled.effect valid effect, consistentStep taken settled consistent provided⟩

theorem linkCountsIff (run : Run (Builder.Step o) (.init o env) trace b) :
    ((∀ e ∈ trace, e.before.inodes.Consistent) ∧ b.inodes.Consistent ∧ ∀ e ∈ trace, Harmless e) ↔
      Obeys Provided trace := by
  constructor
  · rintro ⟨_, _, harmless⟩ e member p name i call directory orphan
    obtain ⟨_, _, _, _, taken⟩ := run.reaches member
    have unparented : e.before.inodes.Unparented i := fun both => by
      rw [orphan] at both
      exact absurd both.2 (by simp)
    by_contra refused
    obtain ⟨failed, after⟩ := failedDirectory taken call unparented refused
    have same := harmless e member p name i (Prod.ext call failed)
    exact claimedChanges directory unparented (after.symm.trans same)
  · intro obeys
    refine ⟨fun e member => ?_, (consistentRun run obeys).2, fun e member => ?_⟩
    · obtain ⟨earlier, later, shape, reached, _⟩ := run.reaches member
      exact (consistentRun reached (shape ▸ obeys).earlier).2
    · obtain ⟨_, _, _, _, taken⟩ := run.reaches member
      exact addEntryHarmless taken (obeys e member)

theorem subdirectoryCounted : ∃ trace b,
    Run (Builder.Step ⟨.small, 4096, none⟩) (.init ⟨.small, 4096, none⟩ .fresh) trace b ∧
      b.inodes.listing 0 = [([100], 1)] ∧ b.inodes.Consistent := by
  let attr : InodeAttr := ⟨0, 0, 0, 0, 0, 0, none⟩
  let o : BuilderConfig := ⟨.small, 4096, none⟩
  let calls : List Call := [.directory attr, .setRoot 0, .directory attr, .addEntry 0 [100] 1]
  have valid : Along o (fun b l => l.1.Valid b.inodes) (.init o .fresh) calls := by decide
  obtain ⟨trace, run, _, obeys⟩ := allRun .start valid
  have provided : Obeys Provided trace := obeys Provided (fun _ member => nomatch member)
    ⟨fun _ _ _ call => (nomatch call), fun _ _ _ call => (nomatch call),
      fun _ _ _ call => (nomatch call), fun _ _ _ _ _ _ => ⟨rfl, rfl⟩, trivial⟩
  exact ⟨trace, _, run, rfl, ((linkCountsIff run).mpr provided).2.1⟩

/- The first allocation of the add_entry call fails: the directory has a parent
without an entry, and cannot be added any more. -/
theorem failedEntryCounted : ∃ trace before b,
    Run (Builder.Step ⟨.small, 4096, none⟩)
      (.init ⟨.small, 4096, none⟩ {Env.fresh with mallocs := fun n => n ≠ 2})
      (trace ++ [⟨before, (.addEntry 0 [100] 1, false), b⟩]) b ∧
    before.inodes.Consistent ∧ ¬ b.inodes.Consistent ∧ b.inodes ≠ before.inodes ∧
    ∀ env, (b.inodes.directoryAddEntry 0 [100] 1 env).1 = false := by
  let attr : InodeAttr := ⟨0, 0, 0, 0, 0, 0, none⟩
  let o : BuilderConfig := ⟨.small, 4096, none⟩
  let calls : List Call := [.directory attr, .directory attr]
  have valid : Along o (fun b l => l.1.Valid b.inodes)
    (.init o {Env.fresh with mallocs := fun n => n ≠ 2}) calls := by decide
  obtain ⟨trace, run, _, obeys⟩ := allRun .start valid
  have provided : Obeys Provided trace := obeys Provided (fun _ member => nomatch member)
    ⟨fun _ _ _ call => (nomatch call), fun _ _ _ call => (nomatch call), trivial⟩
  refine ⟨trace, _, _, run.move ⟨by decide, rfl⟩, (consistentRun run provided).2,
    fun consistent => ?_, fun same => ?_, fun env => rfl⟩
  · have counted := consistent.links 0 (by decide)
    revert counted
    decide
  · have counted := congrArg (fun t => (t.inode 0).nlink) same
    revert counted
    decide

end Builder
end Libsqfs
