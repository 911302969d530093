import Libsqfs.DirectoryEntries
import Mathlib.Data.List.Sort

/-! A directory as a sorted map: its listing is the insertion sort of what the
successful calls added to it, the newest first. -/
namespace Libsqfs
open Transition LinkedList

def added (d : Nat) (calls : List (Call × Bool)) : List (Bytes × Nat) :=
  calls.filterMap fun
    | (.addEntry p name i, true) => if p = d then some (name, i) else none
    | _ => none

def Inodes.pair (t : Inodes) (e : Nat) : Bytes × Nat := ((t.entry e).name, (t.entry e).inode)

def Inodes.listing (t : Inodes) (d : Nat) : List (Bytes × Nat) := (t.entries d).map t.pair

instance : Std.TransCmp strcmp := inferInstanceAs (Std.TransOrd (List UInt8))

instance : Std.LawfulEqCmp strcmp := inferInstanceAs (Std.LawfulEqOrd (List UInt8))

def NotAfter (x y : Bytes × Nat) : Prop := strcmp x.1 y.1 ≠ .gt

instance : DecidableRel NotAfter := fun x y => inferInstanceAs (Decidable (strcmp x.1 y.1 ≠ .gt))

instance : Std.Total NotAfter where
  total x y := by
    by_cases after : strcmp x.1 y.1 = .gt
    · right
      have swapped : strcmp y.1 x.1 = .lt := Std.OrientedCmp.lt_of_gt after
      simp [NotAfter, swapped]
    · exact .inl after

instance : IsTrans (Bytes × Nat) NotAfter where
  trans x y z first second := by
    have low : (strcmp x.1 y.1).isLE := Ordering.isLE_iff_ne_gt.mpr first
    have high : (strcmp y.1 z.1).isLE := Ordering.isLE_iff_ne_gt.mpr second
    exact Ordering.isLE_iff_ne_gt.mp (Std.TransCmp.isLE_trans low high)

/- Sorting by insertion keeps the first of the elements that the order does not
tell apart. -/
theorem findInserted {α : Type} {r : α → α → Prop} [DecidableRel r] {p : α → Bool} {a : α}
    (alike : ∀ b, p a = true → p b = true → r a b) (l : List α) :
    (l.orderedInsert r a).find? p = (a :: l).find? p := by
  induction l with
  | nil => rfl
  | cons b rest ih =>
    rw [List.orderedInsert_cons]
    split
    · rfl
    · rename_i later
      by_cases own : p a = true
      · have other : ¬ p b = true := fun same => later (alike b own same)
        rw [List.find?_cons_of_neg other, ih, List.find?_cons_of_pos own, List.find?_cons_of_pos own]
      · rw [List.find?_cons_of_neg own] at ih ⊢
        rw [List.find?_cons, List.find?_cons, ih]

theorem findSorted {α : Type} {r : α → α → Prop} [DecidableRel r] {p : α → Bool}
    (alike : ∀ a b, p a = true → p b = true → r a b) (l : List α) :
    (l.insertionSort r).find? p = l.find? p := by
  induction l with
  | nil => rfl
  | cons a rest ih =>
    rw [List.insertionSort_cons, findInserted (alike a), List.find?_cons, List.find?_cons, ih]

namespace Inodes
variable {t next : Inodes} {p i : Nat} {name : Bytes}

theorem splitSorted (t : Inodes) (name : Bytes) (i : Nat) (l : List Nat) :
    (t.before name l).map t.pair ++ (name, i) :: (t.behind name l).map t.pair =
      (l.map t.pair).orderedInsert NotAfter (name, i) := by
  induction l with
  | nil => rfl
  | cons e rest ih =>
    rw [List.map_cons, List.orderedInsert_cons]
    by_cases smaller : strcmp name (t.entry e).name = .gt
    · have passed : ¬ NotAfter (name, i) (t.pair e) := fun first => first smaller
      rw [if_neg passed, ← ih]
      simp [before, behind, smaller]
    · have stops : NotAfter (name, i) (t.pair e) := smaller
      rw [if_pos stops]
      simp [before, behind, smaller]

theorem listingCongr {d : Nat} (entries : next.entries d = t.entries d)
    (pairs : ∀ e ∈ t.entries d, next.pair e = t.pair e) : next.listing d = t.listing d := by
  unfold listing
  rw [entries]
  exact List.map_congr_left pairs

theorem Inserted.pairs (inserted : Inserted t next p name i) {e : Nat} (below : e < t.entryCount) :
    next.pair e = t.pair e := by
  obtain ⟨sameName, sameInode⟩ := inserted.old e below
  unfold pair
  rw [sameName, sameInode]

theorem Inserted.sorted (inserted : Inserted t next p name i) (linkage : Linkage t) :
    next.listing p = (t.listing p).orderedInsert NotAfter (name, i) := by
  have split := beforeBehind t name (t.entries p)
  have low : (t.before name (t.entries p)).map next.pair = (t.before name (t.entries p)).map t.pair :=
    List.map_congr_left fun e member => inserted.pairs
      (linkage.made p e (split ▸ List.mem_append_left _ member))
  have high : (t.behind name (t.entries p)).map next.pair = (t.behind name (t.entries p)).map t.pair :=
    List.map_congr_left fun e member => inserted.pairs
      (linkage.made p e (split ▸ List.mem_append_right _ member))
  have own : next.pair t.entryCount = (name, i) := Prod.ext inserted.new.1 inserted.new.2
  unfold listing
  rw [inserted.list, List.map_append, List.map_cons, low, high, own, splitSorted]

theorem Inserted.aside (inserted : Inserted t next p name i) (linkage : Linkage t) {d : Nat}
    (other : d ≠ p) : next.listing d = t.listing d :=
  listingCongr (inserted.others d other) fun e member => inserted.pairs (linkage.made d e member)

theorem lookupListing (t : Inodes) (d : Nat) (name : Bytes) : t.directoryInodeLookup d name =
    ((t.listing d).find? fun x => strcmp x.1 name = .eq).map Prod.snd := by
  unfold directoryInodeLookup listing
  rw [List.find?_map, Option.map_map]
  rfl

theorem effectListing {c : Call} {ok : Bool} (linkage : Linkage t) (valid : c.Valid t)
    (effect : t.Effect c ok next) (d : Nat) :
    next.listing d = (added d [(c, ok)]).foldr (List.orderedInsert NotAfter) (t.listing d) := by
  cases effect with
  | refused => cases c <;> rfl
  | @created c ok attr body fresh creates =>
    have none : added d [(c, ok)] = [] := by
      cases c with
      | addEntry p name i => exact absurd rfl (creates p name i 0).1
      | _ => rfl
    rw [none]
    exact listingCongr ((initLinkage linkage fresh).2 d) fun _ _ => rfl
  | @failed p name i _ =>
    obtain ⟨entry, _⟩ := claimedRest t p i
    refine listingCongr ((claimedLinkage linkage p valid.2).2 d) fun e _ => ?_
    unfold pair
    rw [entry]
  | @added p name i _ =>
    obtain ⟨entry, _⟩ := claimedRest t p i
    obtain ⟨claimed, entries⟩ := claimedLinkage linkage p valid.2
    have inserted := addedEntries linkage valid
    have kept (x : Nat) : (t.claimed p i).listing x = t.listing x := by
      refine listingCongr (entries x) fun e _ => ?_
      unfold pair
      rw [entry]
    by_cases own : p = d
    · subst own
      rw [inserted.sorted claimed, kept]
      simp [Libsqfs.added]
    · rw [inserted.aside claimed (Ne.symm own), kept]
      simp [Libsqfs.added, own]
  | rooted _ => exact listingCongr ((rootedLinkage linkage _).2 d) fun _ _ => rfl

end Inodes

namespace Builder
variable {o : BuilderConfig} {env : Env} {trace : List (Event Builder (Call × Bool))} {b : Builder}

theorem runLinkage (run : Run (Builder.Step o) (.init o env) trace b) : b.inodes.Linkage := by
  have free : Obeys (fun _ _ => True) trace := fun _ _ => trivial
  refine Run.invariant (I := fun b => b.inodes.Linkage) (Inodes.linkageInit _) ?_ run free
  intro b call next linkage _ taken
  obtain ⟨valid, effect⟩ := stepEffect taken
  exact linkage.effect valid effect

theorem runListing (run : Run (Builder.Step o) (.init o env) trace b) (d : Nat) :
    b.inodes.listing d = ((added d (labels trace)).reverse).insertionSort NotAfter := by
  induction run with
  | start => exact congrArg (List.map _) (Inodes.entriesNone rfl)
  | @move trace b label next run taken ih =>
    obtain ⟨valid, effect⟩ := stepEffect taken
    have grown : added d (labels trace ++ [label]) = added d (labels trace) ++ added d [label] := by
      simp [added]
    rw [Inodes.effectListing (runLinkage run) valid effect, ih, labelsSnoc, grown, List.reverse_append]
    have short : (added d [label]).length ≤ 1 := List.length_filterMap_le _ [label]
    match shape : added d [label], short with
    | [], _ => rfl
    | [x], _ => rfl

theorem sameListing {o' : BuilderConfig} {env' : Env} {trace' : List (Event Builder (Call × Bool))}
    {b' : Builder} {d d' : Nat} (run : Run (Builder.Step o) (.init o env) trace b)
    (run' : Run (Builder.Step o') (.init o' env') trace' b')
    (distinct : ((added d (labels trace)).map Prod.fst).Nodup)
    (same : (added d' (labels trace')).Perm (added d (labels trace))) :
    b'.inodes.listing d' = b.inodes.listing d := by
  rw [runListing run, runListing run']
  have perm : ((added d' (labels trace')).reverse.insertionSort NotAfter).Perm
      ((added d (labels trace)).reverse.insertionSort NotAfter) :=
    (List.perm_insertionSort _ _).trans ((List.reverse_perm _).trans
      (same.trans ((List.reverse_perm _).symm.trans (List.perm_insertionSort _ _).symm)))
  refine List.Perm.eq_of_pairwise (fun x y first second low high => ?_)
    (List.pairwise_insertionSort NotAfter _) (List.pairwise_insertionSort NotAfter _) perm
  have names : x.1 = y.1 := by
    have le : (strcmp x.1 y.1).isLE := Ordering.isLE_iff_ne_gt.mpr low
    have ge : (strcmp y.1 x.1).isLE := Ordering.isLE_iff_ne_gt.mpr high
    exact Std.LawfulEqCmp.eq_of_compare (Std.OrientedCmp.isLE_antisymm le ge)
  have member (z : Bytes × Nat) :
      z ∈ (added d (labels trace)).reverse.insertionSort NotAfter ↔ z ∈ added d (labels trace) := by
    rw [List.mem_insertionSort, List.mem_reverse]
  exact List.inj_on_of_nodup_map distinct ((member x).mp (perm.mem_iff.mp first))
    ((member y).mp second) names

theorem directorySorted {d : Nat} (run : Run (Builder.Step o) (.init o env) trace b) :
    ∃ l : List Nat,
      (∀ fuel, l.length ≤ fuel →
        follow (fun e => (b.inodes.entry e).next) fuel (b.inodes.inode d).dir.first = l ∧
        follow (fun e => (b.inodes.entry e).prev) fuel (b.inodes.inode d).dir.last = l.reverse) ∧
      (l.map fun e => (b.inodes.entry e).name).Pairwise (fun x y => strcmp x y ≠ .gt) ∧
      (l.map b.inodes.pair).Perm (added d (labels trace)) ∧
      (∀ name, b.inodes.directoryInodeLookup d name =
        ((added d (labels trace)).reverse.find? fun x => x.1 = name).map Prod.snd) ∧
      ∀ o' env' trace' b' d', Run (Builder.Step o') (.init o' env') trace' b' →
        ((added d (labels trace)).map Prod.fst).Nodup →
        (added d' (labels trace')).Perm (added d (labels trace)) →
        b'.inodes.listing d' = l.map b.inodes.pair := by
  have lists := (runLinkage run).lists d
  have sorted := runListing run d
  refine ⟨b.inodes.entries d, fun fuel enough => ⟨lists.forward enough, lists.backward enough⟩,
    ?_, ?_, fun name => ?_, fun o' env' trace' b' d' run' distinct same =>
      sameListing run run' distinct same⟩
  · have ordered : (b.inodes.listing d).Pairwise NotAfter :=
      sorted ▸ List.pairwise_insertionSort NotAfter _
    rw [List.pairwise_map]
    exact List.pairwise_map.mp ordered
  · have perm : (b.inodes.listing d).Perm (added d (labels trace)).reverse :=
      sorted ▸ List.perm_insertionSort NotAfter _
    exact perm.trans (List.reverse_perm _)
  · rw [Inodes.lookupListing, sorted, findSorted]
    · congr 2
      funext x
      exact decide_eq_decide.mpr Std.LawfulEqCmp.compare_eq_iff_eq
    · intro x y first second
      have left : x.1 = name := Std.LawfulEqCmp.eq_of_compare (of_decide_eq_true first)
      have right : y.1 = name := Std.LawfulEqCmp.eq_of_compare (of_decide_eq_true second)
      simp [NotAfter, strcmp, left, right]

theorem laterNameFirst : ∃ trace b,
    Run (Builder.Step ⟨.small, 4096, none⟩) (.init ⟨.small, 4096, none⟩ .fresh) trace b ∧
      b.inodes.directoryInodeLookup 0 [98] = some 1 ∧
      (b.inodes.listing 0).Perm [([98], 1), ([97], 2)] := by
  let attr : InodeAttr := ⟨0, 0, 0, 0, 0, 0, none⟩
  let o : BuilderConfig := ⟨.small, 4096, none⟩
  let calls : List Call :=
    [.directory attr, .fifo attr, .fifo attr, .addEntry 0 [98] 1, .addEntry 0 [97] 2]
  have valid : Along o (fun b l => l.1.Valid b.inodes) (.init o .fresh) calls := by decide
  obtain ⟨trace, run, made, _⟩ := allRun .start valid
  obtain ⟨l, links, _, pairs, found, again⟩ := directorySorted (d := 0) run
  have same : added 0 (labels trace) = [([98], 1), ([97], 2)] := by rw [made]; rfl
  rw [same] at pairs found again
  refine ⟨trace, _, run, found [98], ?_⟩
  rw [again _ _ _ _ 0 run (by decide) (by rw [same])]
  exact pairs

end Builder
end Libsqfs
