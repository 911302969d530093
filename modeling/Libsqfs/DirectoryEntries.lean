import Libsqfs.Calls
import Mathlib.Data.List.TakeWhile

/-! The entries of the directories as linked lists, over any sequence of calls:
no entry is in two of them, and a new entry goes before the first one whose name
is not smaller. -/
namespace Libsqfs
namespace Inode

@[simp] theorem setDirDir (x : Inode) (dir : DirectoryInode) : (x.setDir dir).dir = dir := rfl

theorem setDirSelf {x : Inode} (directory : x.IsDirectory) : x.setDir x.dir = x := by
  obtain ⟨dir, body⟩ := directory
  simp only [setDir, Inode.dir, body]
  rw [← body]

theorem dirAbsent {x : Inode} (other : ¬ x.IsDirectory) : x.dir = .create := by
  unfold dir
  split
  · rename_i dir body
    exact absurd ⟨dir, body⟩ other
  · rfl

theorem isDirectoryCongr {x y : Inode} (same : x.body = y.body) : x.IsDirectory ↔ y.IsDirectory := by
  unfold IsDirectory
  rw [same]

theorem dirCongr {x y : Inode} (same : x.body = y.body) : x.dir = y.dir := by
  unfold dir
  rw [same]

end Inode

namespace Inodes
open LinkedList

abbrev Lists (t : Inodes) (dir : DirectoryInode) (l : List Nat) : Prop :=
  Represents (fun e => (t.entry e).prev) (fun e => (t.entry e).next) dir.first dir.last l

structure Linkage (t : Inodes) : Prop where
  lists : ∀ d, t.Lists (t.inode d).dir (t.entries d)
  made : ∀ d e, e ∈ t.entries d → e < t.entryCount
  apart : ∀ d d' e, e ∈ t.entries d → e ∈ t.entries d' → d = d'
  targets : ∀ e, e < t.entryCount → (t.entry e).inode < t.count
  beyond : ∀ d, t.count ≤ d → ¬ (t.inode d).IsDirectory

section
variable {t next : Inodes} {d e : Nat}

theorem entriesCongr (entry : ∀ e, (next.entry e).next = (t.entry e).next)
    (count : next.entryCount = t.entryCount)
    (first : (next.inode d).dir.first = (t.inode d).dir.first) : next.entries d = t.entries d := by
  unfold entries
  rw [count, first, funext entry]

theorem entriesNone (first : (t.inode d).dir.first = none) : t.entries d = [] := by
  unfold entries
  rw [first]
  cases t.entryCount <;> rfl

theorem Linkage.count (linkage : Linkage t) (d : Nat) : (t.entries d).length ≤ t.entryCount := by
  have inside : t.entries d ⊆ List.range t.entryCount :=
    fun e member => List.mem_range.mpr (linkage.made d e member)
  simpa using (List.subperm_of_subset (linkage.lists d).nodup inside).length_le

/- The lists are those that the ends and the links of the entries determine. -/
theorem entriesOf {l : List Nat} (lists : t.Lists (t.inode d).dir l) (short : l.length ≤ t.entryCount) :
    t.entries d = l := lists.forward short

theorem Linkage.foreign (linkage : Linkage t) (other : ¬ t.Directory d) : t.entries d = [] := by
  apply entriesNone
  by_cases inside : d < t.count
  · rw [Inode.dirAbsent fun is => other ⟨inside, is⟩]; rfl
  · rw [Inode.dirAbsent (linkage.beyond d (by omega))]; rfl

theorem Linkage.same (linkage : Linkage t) (entry : next.entry = t.entry)
    (entryCount : next.entryCount = t.entryCount) (count : t.count ≤ next.count)
    (ends : ∀ d, (next.inode d).dir.first = (t.inode d).dir.first ∧
      (next.inode d).dir.last = (t.inode d).dir.last)
    (beyond : ∀ d, next.count ≤ d → ¬ (next.inode d).IsDirectory) :
    Linkage next ∧ ∀ d, next.entries d = t.entries d := by
  have kept (d) : next.entries d = t.entries d :=
    entriesCongr (fun _ => by rw [entry]) entryCount (ends d).1
  refine ⟨⟨fun d => ?_, fun d e => ?_, fun d d' e => ?_, fun e below => ?_, beyond⟩, kept⟩
  · have lists := linkage.lists d
    unfold Lists at lists ⊢
    rw [kept, entry, (ends d).1, (ends d).2]
    exact lists
  · rw [kept, entryCount]; exact linkage.made d e
  · rw [kept, kept]; exact linkage.apart d d' e
  · rw [entry]
    exact Nat.lt_of_lt_of_le (linkage.targets e (entryCount ▸ below)) count

end

/-! ### What the calls change -/

section
variable {t : Inodes} {p d e i : Nat} {name : Bytes}

theorem initInode (t : Inodes) (attr : InodeAttr) (body : InodeBody) (x : Nat) :
    ((t.inodeInit attr body).2.inode x) = if x = t.count then
      ⟨attr, 0, ⟨2 ^ 32 - 1, 2 ^ 32 - 1⟩, Metatable.uint (t.count + 1), 0, 0, body⟩ else t.inode x := by
  simp only [inodeInit, setInode, Function.update_apply]

theorem claimedInode (t : Inodes) (p i x : Nat) :
    (t.claimed p i).inode x =
      if (t.inode i).IsDirectory then
        {(if x = i then (t.inode x).setDir {(t.inode x).dir with parent := some p} else t.inode x) with
          nlink := (t.inode x).nlink + if x = p then 1 else 0}
      else t.inode x := by
  unfold claimed
  split
  · simp only [claimParent, setInode, Function.update_apply]
    by_cases own : x = i <;> by_cases above : x = p
    · subst own; subst above; simp [Inode.setDir]
    · subst own; simp [above, Inode.setDir]
    · subst above; simp [own]
    · simp [own, above]
  · rfl

theorem claimedRest (t : Inodes) (p i : Nat) : (t.claimed p i).entry = t.entry ∧
    (t.claimed p i).entryCount = t.entryCount ∧ (t.claimed p i).count = t.count ∧
    (t.claimed p i).root = t.root := by
  unfold claimed
  split <;> exact ⟨rfl, rfl, rfl, rfl⟩

theorem linkEntryEntry (t : Inodes) (d e : Nat) (a b : Option Nat) (x : Nat) :
    (t.linkEntry d e a b).entry x = {t.entry x with
      prev := if b = some x then some e else if x = e then a else (t.entry x).prev
      next := if a = some x then some e else if x = e then b else (t.entry x).next} := by
  cases a with
  | none =>
    cases b with
    | none =>
      simp only [linkEntry, setEntry, setInode, Function.update_apply]
      by_cases own : x = e
      · subst own; simp
      · simp [own]
    | some y =>
      simp only [linkEntry, setEntry, setInode, Function.update_apply]
      by_cases own : x = e <;> by_cases before : x = y
      · subst own; subst before; simp
      · subst own; simp [before, Ne.symm before]
      · subst before; simp [own]
      · simp [own, before, Ne.symm before]
  | some y =>
    cases b with
    | none =>
      simp only [linkEntry, setEntry, setInode, Function.update_apply]
      by_cases own : x = e <;> by_cases before : x = y
      · subst own; subst before; simp
      · subst own; simp [before, Ne.symm before]
      · subst before; simp [own]
      · simp [own, before, Ne.symm before]
    | some z =>
      simp only [linkEntry, setEntry, Function.update_apply]
      by_cases own : x = e <;> by_cases before : x = y <;> by_cases after : x = z
      all_goals try subst own
      all_goals try subst before
      all_goals try subst after
      all_goals simp_all [Ne.symm]

theorem linkEntryPrev (t : Inodes) (d e : Nat) (a b : Option Nat) (x : Nat) :
    ((t.linkEntry d e a b).entry x).prev =
      if b = some x then some e else if x = e then a else (t.entry x).prev := by
  rw [linkEntryEntry]

theorem linkEntryNext (t : Inodes) (d e : Nat) (a b : Option Nat) (x : Nat) :
    ((t.linkEntry d e a b).entry x).next =
      if a = some x then some e else if x = e then b else (t.entry x).next := by
  rw [linkEntryEntry]

theorem linkEntryInode {a b : Option Nat} (directory : (t.inode d).IsDirectory) :
    (t.linkEntry d e a b).inode = Function.update t.inode d ((t.inode d).setDir {(t.inode d).dir with
      first := if a = none then some e else (t.inode d).dir.first
      last := if b = none then some e else (t.inode d).dir.last}) := by
  have self := Inode.setDirSelf directory
  cases a <;> cases b
  · simp [linkEntry, setEntry, setInode, Inode.setDir, Inode.dir]
  · simp [linkEntry, setEntry, setInode]
  · simp [linkEntry, setEntry, setInode]
  · simp only [linkEntry, setEntry, reduceCtorEq, if_false]
    exact (Function.update_eq_self d t.inode).symm.trans
      (congrArg (Function.update t.inode d) self.symm)

theorem linkEntryRest (t : Inodes) (d e : Nat) (a b : Option Nat) :
    (t.linkEntry d e a b).entryCount = t.entryCount ∧ (t.linkEntry d e a b).count = t.count ∧
      (t.linkEntry d e a b).root = t.root := by
  cases a <;> cases b <;> exact ⟨rfl, rfl, rfl⟩

def before (t : Inodes) (name : Bytes) (l : List Nat) : List Nat :=
  l.takeWhile fun e => strcmp name (t.entry e).name = .gt

def behind (t : Inodes) (name : Bytes) (l : List Nat) : List Nat :=
  l.dropWhile fun e => strcmp name (t.entry e).name = .gt

theorem beforeBehind (t : Inodes) (name : Bytes) (l : List Nat) :
    t.before name l ++ t.behind name l = l := List.takeWhile_append_dropWhile

theorem splitCongr {u : Inodes} {l : List Nat} (names : ∀ e ∈ l, (u.entry e).name = (t.entry e).name) :
    u.before name l = t.before name l ∧ u.behind name l = t.behind name l := by
  induction l with
  | nil => exact ⟨rfl, rfl⟩
  | cons e rest ih =>
    obtain ⟨first, second⟩ := ih fun x member => names x (List.mem_cons_of_mem _ member)
    have own := names e (by simp)
    by_cases smaller : strcmp name (t.entry e).name = .gt
    · exact ⟨by simpa [before, own, smaller] using first, by simpa [behind, own, smaller] using second⟩
    · exact ⟨by simp [before, own, smaller], by simp [behind, own, smaller]⟩

theorem insertionPointSplits (t : Inodes) (name : Bytes) (l : List Nat) (insertAfter : Option Nat) :
    t.insertionPoint name l insertAfter =
      ((t.before name l).getLast?.or insertAfter, (t.behind name l).head?) := by
  induction l generalizing insertAfter with
  | nil => rfl
  | cons e rest ih =>
    rw [insertionPoint]
    by_cases smaller : strcmp name (t.entry e).name = .gt
    · have passed : t.before name (e :: rest) = e :: t.before name rest ∧
          t.behind name (e :: rest) = t.behind name rest := by
        simp [before, behind, smaller]
      rw [if_pos smaller, ih, passed.1, passed.2, List.getLast?_cons]
      cases (t.before name rest).getLast? <;> rfl
    · have stops : t.before name (e :: rest) = [] ∧ t.behind name (e :: rest) = e :: rest := by
        simp [before, behind, smaller]
      rw [if_neg smaller, stops.1, stops.2]
      rfl

def unlinked (t : Inodes) (name : Bytes) (i : Nat) : Inodes :=
  {t.setEntry t.entryCount (.create name i) with entryCount := t.entryCount + 1}.setInode i
    {t.inode i with nlink := (t.inode i).nlink + 1}

theorem unlinkedInode (t : Inodes) (name : Bytes) (i x : Nat) :
    (t.unlinked name i).inode x =
      {t.inode x with nlink := (t.inode x).nlink + if x = i then 1 else 0} := by
  simp only [unlinked, setEntry, setInode, Function.update_apply]
  by_cases own : x = i
  · subst own; simp
  · simp [own]

theorem unlinkedEntry {x : Nat} (old : x < t.entryCount) :
    (t.unlinked name i).entry x = t.entry x := by
  simp only [unlinked, setEntry, setInode]
  exact Function.update_of_ne (Nat.ne_of_lt old) ..

theorem unlinkedNew : (t.unlinked name i).entry t.entryCount = .create name i := by
  simp [unlinked, setEntry, setInode]

theorem unlinkedEntries (linkage : Linkage t) (d : Nat) :
    (t.unlinked name i).Lists (t.inode d).dir (t.entries d) ∧
      (t.unlinked name i).entries d = t.entries d := by
  have lists : (t.unlinked name i).Lists (t.inode d).dir (t.entries d) := by
    refine (linkage.lists d).congr fun e member => ?_
    rw [unlinkedEntry (linkage.made d e member)]
    exact ⟨rfl, rfl⟩
  refine ⟨lists, entriesOf ?_ ?_⟩
  · rw [unlinkedInode]; exact lists
  · exact Nat.le_succ_of_le (linkage.count d)

structure Inserted (t next : Inodes) (p : Nat) (name : Bytes) (i : Nat) : Prop where
  inode : ∀ x, next.inode x = {(if x = p then (t.inode x).setDir {(t.inode x).dir with
      first := if t.before name (t.entries p) = [] then some t.entryCount else (t.inode x).dir.first
      last := if t.behind name (t.entries p) = [] then some t.entryCount else (t.inode x).dir.last}
    else t.inode x) with nlink := (t.inode x).nlink + if x = i then 1 else 0}
  count : next.count = t.count
  root : next.root = t.root
  entryCount : next.entryCount = t.entryCount + 1
  old : ∀ e, e < t.entryCount → (next.entry e).name = (t.entry e).name ∧
    (next.entry e).inode = (t.entry e).inode
  new : (next.entry t.entryCount).name = name ∧ (next.entry t.entryCount).inode = i
  list : next.entries p =
    t.before name (t.entries p) ++ t.entryCount :: t.behind name (t.entries p)
  others : ∀ d, d ≠ p → next.entries d = t.entries d
  linkage : Linkage next

theorem insertEntrySpec (linkage : Linkage t) (parent : t.Directory p) (target : i < t.count) :
    Inserted t (t.insertEntry p name i) p name i := by
  obtain ⟨lists, same⟩ := @unlinkedEntries t i name linkage p
  let u := t.unlinked name i
  let xs := t.before name (t.entries p)
  let ys := t.behind name (t.entries p)
  have split : xs ++ ys = t.entries p := beforeBehind t name _
  have fresh (d : Nat) : t.entryCount ∉ t.entries d :=
    fun member => absurd (linkage.made d _ member) (Nat.lt_irrefl _)
  have names (e) (member : e ∈ t.entries p) : (u.entry e).name = (t.entry e).name := by
    rw [unlinkedEntry (linkage.made p e member)]
  have point : u.insertionPoint name (t.entries p) none = (xs.getLast?, ys.head?) := by
    rw [insertionPointSplits, Option.or_none]
    rw [(splitCongr names).1, (splitCongr names).2]
  have shape : t.insertEntry p name i = u.linkEntry p t.entryCount xs.getLast? ys.head? := by
    have unfolded : t.insertEntry p name i = u.linkEntry p t.entryCount
        (u.insertionPoint name (u.entries p) none).1 (u.insertionPoint name (u.entries p) none).2 := rfl
    rw [unfolded, same, point]
  rw [shape]
  have directory : (u.inode p).IsDirectory := by
    refine (Inode.isDirectoryCongr ?_).mpr parent.2
    rw [unlinkedInode]
  obtain ⟨entryCount, count, root⟩ := linkEntryRest u p t.entryCount xs.getLast? ys.head?
  have inode (x : Nat) : (u.linkEntry p t.entryCount xs.getLast? ys.head?).inode x =
      {(if x = p then (t.inode x).setDir {(t.inode x).dir with
          first := if xs = [] then some t.entryCount else (t.inode x).dir.first
          last := if ys = [] then some t.entryCount else (t.inode x).dir.last}
        else t.inode x) with nlink := (t.inode x).nlink + if x = i then 1 else 0} := by
    rw [linkEntryInode directory, Function.update_apply]
    by_cases own : x = p
    · subst own
      rw [if_pos rfl, if_pos rfl, unlinkedInode]
      simp only [List.getLast?_eq_none_iff, List.head?_eq_none_iff]
      rfl
    · rw [if_neg own, if_neg own, unlinkedInode]
  have dirs (d : Nat) (other : d ≠ p) :
      ((u.linkEntry p t.entryCount xs.getLast? ys.head?).inode d).dir = (t.inode d).dir := by
    rw [inode, if_neg other]; rfl
  have inserted : (u.linkEntry p t.entryCount xs.getLast? ys.head?).Lists
      ((u.linkEntry p t.entryCount xs.getLast? ys.head?).inode p).dir (xs ++ t.entryCount :: ys) := by
    refine Represents.insert (split ▸ lists) (split ▸ fresh p) ?_ ?_ (fun x member => ?_)
      (fun x member => ?_) ?_ ?_
    · rw [linkEntryPrev, if_neg, if_pos rfl]
      exact fun head => fresh p (split ▸ List.mem_append_right _ (List.mem_of_mem_head? head))
    · rw [linkEntryNext, if_neg, if_pos rfl]
      exact fun last => fresh p (split ▸ List.mem_append_left _ (List.mem_of_getLast? last))
    · have other : x ≠ t.entryCount := fun same => fresh p (split ▸ same ▸ member)
      rw [linkEntryNext, if_neg other]
    · have other : x ≠ t.entryCount := fun same => fresh p (split ▸ same ▸ member)
      rw [linkEntryPrev, if_neg other]
    · rw [inode, if_pos rfl]; rfl
    · rw [inode, if_pos rfl]; rfl
  have short : (xs ++ t.entryCount :: ys).length ≤ t.entryCount + 1 := by
    have := linkage.count p
    rw [← split, List.length_append] at this
    simp only [List.length_append, List.length_cons]
    omega
  have list := entriesOf inserted (by rw [entryCount]; exact short)
  have kept (d : Nat) (other : d ≠ p) : (u.linkEntry p t.entryCount xs.getLast? ys.head?).Lists
      ((u.linkEntry p t.entryCount xs.getLast? ys.head?).inode d).dir (t.entries d) := by
    rw [dirs d other]
    refine (@unlinkedEntries t i name linkage d).1.congr fun x member => ?_
    have new : x ≠ t.entryCount := fun same => fresh d (same ▸ member)
    have foreign : x ∉ xs ++ ys := fun mine => other (linkage.apart d p x member (split ▸ mine))
    rw [linkEntryPrev, linkEntryNext, if_neg, if_neg new, if_neg, if_neg new]
    · exact ⟨rfl, rfl⟩
    · exact fun last => foreign (List.mem_append_left _ (List.mem_of_getLast? last))
    · exact fun head => foreign (List.mem_append_right _ (List.mem_of_mem_head? head))
  have others (d : Nat) (other : d ≠ p) :
      (u.linkEntry p t.entryCount xs.getLast? ys.head?).entries d = t.entries d :=
    entriesOf (kept d other) (by rw [entryCount]; exact Nat.le_succ_of_le (linkage.count d))
  have made (d e : Nat)
      (member : e ∈ (u.linkEntry p t.entryCount xs.getLast? ys.head?).entries d) :
      e = t.entryCount ∧ d = p ∨ e ∈ t.entries d := by
    by_cases own : d = p
    · subst own
      rw [list, List.mem_append, List.mem_cons] at member
      rcases member with low | new | high
      · exact .inr (split ▸ List.mem_append_left _ low)
      · exact .inl ⟨new, rfl⟩
      · exact .inr (split ▸ List.mem_append_right _ high)
    · rw [others d own] at member
      exact .inr member
  have old (e : Nat) (below : e < t.entryCount) :
      ((u.linkEntry p t.entryCount xs.getLast? ys.head?).entry e).name = (t.entry e).name ∧
        ((u.linkEntry p t.entryCount xs.getLast? ys.head?).entry e).inode = (t.entry e).inode := by
    rw [linkEntryEntry, unlinkedEntry below]
    exact ⟨rfl, rfl⟩
  have new : ((u.linkEntry p t.entryCount xs.getLast? ys.head?).entry t.entryCount).name = name ∧
      ((u.linkEntry p t.entryCount xs.getLast? ys.head?).entry t.entryCount).inode = i := by
    rw [linkEntryEntry, unlinkedNew]
    exact ⟨rfl, rfl⟩
  refine ⟨inode, count, root, entryCount, old, new, list, others, ⟨fun d => ?_, fun d e member => ?_,
    fun d d' e member member' => ?_, fun e below => ?_, fun d outside => ?_⟩⟩
  · by_cases own : d = p
    · subst own; rw [list]; exact inserted
    · rw [others d own]; exact kept d own
  · rw [entryCount]
    rcases made d e member with ⟨rfl, _⟩ | before
    · exact Nat.lt_succ_self _
    · exact Nat.lt_succ_of_lt (linkage.made d e before)
  · rcases made d e member with ⟨rfl, own⟩ | before
    · rcases made d' _ member' with ⟨_, own'⟩ | before'
      · rw [own, own']
      · exact absurd before' (fresh d')
    · rcases made d' e member' with ⟨rfl, _⟩ | before'
      · exact absurd before (fresh d)
      · exact linkage.apart d d' e before before'
  · rw [count]
    by_cases last : e = t.entryCount
    · subst last; rw [new.2]; exact target
    · have below' : e < t.entryCount := by
        rw [entryCount] at below
        exact Nat.lt_of_le_of_ne (Nat.le_of_lt_succ below) last
      rw [(old e below').2]
      exact linkage.targets e below'
  · rw [count] at outside
    have other : d ≠ p := fun same => absurd parent.1 (by rw [← same]; exact Nat.not_lt.mpr outside)
    intro is
    refine linkage.beyond d outside ((Inode.isDirectoryCongr ?_).mp is)
    rw [inode, if_neg other]

theorem initLinkage {attr : InodeAttr} {body : InodeBody} (linkage : Linkage t) (fresh : body.Fresh) :
    Linkage (t.inodeInit attr body).2 ∧ ∀ d, (t.inodeInit attr body).2.entries d = t.entries d := by
  refine linkage.same rfl rfl (Nat.le_succ _) (fun d => ?_) fun d outside => ?_
  · rw [initInode]
    split
    · rename_i new
      subst new
      rw [Inode.dirAbsent (linkage.beyond _ (Nat.le_refl _))]
      cases body with
      | directory dir => rw [fresh dir rfl]; exact ⟨rfl, rfl⟩
      | _ => exact ⟨rfl, rfl⟩
    · exact ⟨rfl, rfl⟩
  · have later : d ≠ t.count := Nat.ne_of_gt outside
    rw [initInode, if_neg later]
    exact linkage.beyond d (Nat.le_of_succ_le outside)

theorem claimedLinkage (linkage : Linkage t) (p : Nat) (target : i < t.count) :
    Linkage (t.claimed p i) ∧ ∀ d, (t.claimed p i).entries d = t.entries d := by
  obtain ⟨entry, entryCount, count, _⟩ := claimedRest t p i
  refine linkage.same entry entryCount (Nat.le_of_eq count.symm) (fun d => ?_) fun d outside => ?_
  · rw [claimedInode]
    split
    · by_cases own : d = i
      · rw [if_pos own]; exact ⟨rfl, rfl⟩
      · rw [if_neg own]; exact ⟨rfl, rfl⟩
    · exact ⟨rfl, rfl⟩
  · rw [count] at outside
    have other : d ≠ i := fun same => by omega
    rw [claimedInode, if_neg other]
    split <;> exact linkage.beyond d outside

theorem claimedDirectory (t : Inodes) (p i d : Nat) :
    (t.claimed p i).Directory d ↔ t.Directory d := by
  have is : ((t.claimed p i).inode d).IsDirectory ↔ (t.inode d).IsDirectory := by
    rw [claimedInode]
    split
    · rename_i directory
      by_cases own : d = i
      · rw [if_pos own, own]
        exact ⟨fun _ => directory, fun _ => ⟨_, rfl⟩⟩
      · rw [if_neg own]; rfl
    · rfl
  rw [Directory, Directory, is, (claimedRest t p i).2.2.1]

theorem rootedInode (t : Inodes) (d x : Nat) : (t.rooted d).inode x =
    {t.inode x with nlink := (t.inode x).nlink + if x = d then 1 else 0} := by
  simp only [rooted, setInode, Function.update_apply]
  by_cases own : x = d
  · subst own; simp
  · simp [own]

theorem rootedLinkage (linkage : Linkage t) (d : Nat) :
    Linkage (t.rooted d) ∧ ∀ x, (t.rooted d).entries x = t.entries x := by
  refine linkage.same rfl rfl (Nat.le_refl _) (fun x => ?_) fun x outside => ?_
  · rw [rootedInode]; exact ⟨rfl, rfl⟩
  · rw [rootedInode]; exact linkage.beyond x outside

theorem addedEntries (linkage : Linkage t) (valid : Call.Valid t (.addEntry p name i)) :
    Inserted (t.claimed p i) ((t.claimed p i).insertEntry p name i) p name i :=
  insertEntrySpec (claimedLinkage linkage p valid.2).1 ((claimedDirectory t p i p).mpr valid.1)
    ((claimedRest t p i).2.2.1 ▸ valid.2)

theorem Linkage.effect {c : Call} {ok : Bool} {next : Inodes} (linkage : Linkage t)
    (valid : c.Valid t) (effect : t.Effect c ok next) : Linkage next := by
  cases effect with
  | refused => exact linkage
  | created fresh _ => exact (initLinkage linkage fresh).1
  | failed _ => exact (claimedLinkage linkage _ valid.2).1
  | added _ => exact (addedEntries linkage valid).linkage
  | rooted _ => exact (rootedLinkage linkage _).1

theorem linkageInit (compressor : Option Compressor) : Linkage (.init compressor) := by
  have none (d : Nat) : (init compressor).entries d = [] := entriesNone rfl
  refine ⟨fun d => ?_, fun d e member => ?_, fun d d' e member => ?_, fun e below => ?_,
    fun d _ is => ?_⟩
  · rw [none]; exact ⟨rfl, rfl, trivial, List.nodup_nil⟩
  · rw [none] at member; cases member
  · rw [none] at member; cases member
  · cases below
  · obtain ⟨dir, body⟩ := is
    cases body

end
end Inodes
end Libsqfs
