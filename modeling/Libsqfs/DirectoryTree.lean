import Libsqfs.Forest
import Libsqfs.LinkCounts
import Libsqfs.SerializeFrame
import Mathlib.Algebra.Order.BigOperators.Group.Finset

/-! The directories below the root, and the recursion that serializes them. -/
namespace Libsqfs
open Transition Relation Forest

namespace Inodes

def Encloses (t : Inodes) (d x : Nat) : Prop := t.Contains d x ∧ t.Directory x

structure DirectoryTree (t : Inodes) (r : Nat) : Prop where
  acyclic : ∀ d, ReflTransGen t.Encloses r d → ¬ TransGen t.Encloses d d
  single : ∀ d, ReflTransGen t.Encloses r d → d ≠ r → t.references d = 1
  root : t.references r = 0

/- The recursion returns, and begins each directory once. -/
def VisitsEach (t : Inodes) (r : Nat) : Prop :=
  ∀ o fuel env, t.count < fuel → ∃ ok u after, inodeSerialize o fuel t r env = some (ok, u, after) ∧
    u.begun.Nodup ∧ (∀ d ∈ u.begun, ReflTransGen t.Encloses r d) ∧
    (ok = true → ∀ d, ReflTransGen t.Encloses r d → d ∈ u.begun)

/- What the calls keep, whether they succeed or not. -/
structure Sheltered (t : Inodes) : Prop where
  single : ∀ i, t.Directory i → t.references i ≤ 1
  orphans : ∀ i p, t.Directory i → (t.inode i).dir.parent = none → ¬ t.Contains p i
  unencoded : ∀ i, (t.inode i).encodedType = 0
  unindexed : ∀ i, (t.inode i).dir.indexedCount = 0
  begun : t.begun = []

variable {t next : Inodes} {p i d x : Nat} {name : Bytes}

theorem containsChild : t.Contains d x ↔ x ∈ t.children d := by
  unfold Contains children listing
  constructor
  · rintro ⟨y, member, rfl⟩
    obtain ⟨e, inside, rfl⟩ := List.mem_map.mp member
    exact List.mem_map.mpr ⟨e, inside, rfl⟩
  · intro member
    obtain ⟨e, inside, rfl⟩ := List.mem_map.mp member
    exact ⟨t.pair e, List.mem_map.mpr ⟨e, inside, rfl⟩, rfl⟩

theorem Linkage.container (linkage : Linkage t) (contained : t.Contains d x) : t.Directory d := by
  by_contra other
  obtain ⟨y, member, _⟩ := contained
  rw [linkage.noListing other] at member
  cases member

theorem containedReferences (linkage : Linkage t) (contained : t.Contains d x) :
    0 < t.references x := by
  obtain ⟨y, member, same⟩ := contained
  have counted : 0 < (t.listing d).countP fun z => z.2 = x :=
    List.countP_pos_iff.mpr ⟨y, member, decide_eq_true same⟩
  have inside := (linkage.container ⟨y, member, same⟩).1
  exact Nat.lt_of_lt_of_le counted
    (Finset.single_le_sum (f := fun d => (t.listing d).countP fun z => z.2 = x)
      (fun _ _ => Nat.zero_le _) (Finset.mem_range.mpr inside))

/- One reference leaves room for one container, and one place in it. -/
theorem containerUnique (linkage : Linkage t) (single : t.references x ≤ 1) {a b : Nat}
    (left : t.Contains a x) (right : t.Contains b x) : a = b := by
  by_contra other
  have counted {d : Nat} (contained : t.Contains d x) : 0 < (t.listing d).countP fun z => z.2 = x := by
    obtain ⟨y, member, same⟩ := contained
    exact List.countP_pos_iff.mpr ⟨y, member, decide_eq_true same⟩
  have both : {a, b} ⊆ Finset.range t.count := by
    intro y member
    rcases Finset.mem_insert.mp member with rfl | last
    · exact Finset.mem_range.mpr (linkage.container left).1
    · rw [Finset.mem_singleton.mp last]
      exact Finset.mem_range.mpr (linkage.container right).1
  have sum := Finset.sum_le_sum_of_subset (f := fun d => (t.listing d).countP fun z => z.2 = x) both
  rw [Finset.sum_pair other] at sum
  have first := counted left
  have second := counted right
  unfold references at single
  omega

theorem childrenCount (linkage : Linkage t) (d x : Nat) : (t.children d).count x ≤ t.references x := by
  have same : (t.children d).count x = (t.listing d).countP fun z => z.2 = x := by
    unfold children listing
    rw [List.count, List.countP_map, List.countP_map]
    refine List.countP_congr fun e _ => ?_
    exact beq_iff_eq.trans decide_eq_true_iff.symm
  by_cases directory : t.Directory d
  · rw [same]
    exact Finset.single_le_sum (f := fun d => (t.listing d).countP fun z => z.2 = x)
      (fun _ _ => Nat.zero_le _) (Finset.mem_range.mpr directory.1)
  · rw [same, linkage.noListing directory]
    exact Nat.zero_le _

/-! ### What the calls keep -/

theorem Sheltered.created {attr : InodeAttr} {body : InodeBody} (sheltered : Sheltered t)
    (linkage : Linkage t) (fresh : body.Fresh) : Sheltered (t.inodeInit attr body).2 := by
  obtain ⟨lists, references⟩ := @createdReferences t attr body linkage fresh
  have contains (d x : Nat) : (t.inodeInit attr body).2.Contains d x ↔ t.Contains d x := by
    unfold Contains
    rw [lists]
  have old {y : Nat} (directory : (t.inodeInit attr body).2.Directory y) (other : y ≠ t.count) :
      t.Directory y ∧ (t.inodeInit attr body).2.inode y = t.inode y := by
    have same : (t.inodeInit attr body).2.inode y = t.inode y := by rw [initInode, if_neg other]
    exact ⟨⟨Nat.lt_of_le_of_ne (Nat.le_of_lt_succ directory.1) other, same ▸ directory.2⟩, same⟩
  refine ⟨fun i directory => ?_, fun i p directory none => ?_, fun i => ?_, fun i => ?_, sheltered.begun⟩
  · rw [references]
    by_cases new : i = t.count
    · rw [new, noReferences linkage.uncontained]
      exact Nat.zero_le 1
    · exact sheltered.single i (old directory new).1
  · rw [contains]
    by_cases new : i = t.count
    · rw [new]
      exact linkage.uncontained p
    · obtain ⟨was, same⟩ := old directory new
      exact sheltered.orphans i p was (same ▸ none)
  · rw [initInode]
    split
    · rfl
    · exact sheltered.unencoded i
  · rw [initInode]
    split
    · cases body with
      | directory dir => rw [fresh dir rfl]; rfl
      | _ => rfl
    · exact sheltered.unindexed i

theorem Sheltered.claimed (sheltered : Sheltered t) (linkage : Linkage t) (p : Nat) (target : i < t.count) :
    Sheltered (t.claimed p i) := by
  obtain ⟨entry, _, count, _⟩ := claimedRest t p i
  have lists (d : Nat) : (t.claimed p i).listing d = t.listing d := by
    refine listingCongr ((claimedLinkage linkage p target).2 d) fun e _ => ?_
    unfold pair
    rw [entry]
  refine ⟨fun y directory => ?_, fun y q directory none => ?_, fun y => ?_, fun y => ?_, ?_⟩
  · rw [referencesCongr count lists]
    exact sheltered.single y ((claimedDirectory t p i y).mp directory)
  · have was := (claimedDirectory t p i y).mp directory
    have orphan : (t.inode y).dir.parent = .none := by
      rw [claimedInode] at none
      split at none
      · by_cases own : y = i
        · rw [if_pos own] at none
          cases none
        · rw [if_neg own] at none
          exact none
      · exact none
    unfold Contains
    rw [lists]
    exact sheltered.orphans y q was orphan
  · rw [claimedInode]
    split
    · by_cases own : y = i
      · rw [if_pos own]
        exact sheltered.unencoded y
      · rw [if_neg own]
        exact sheltered.unencoded y
    · exact sheltered.unencoded y
  · rw [claimedInode]
    split
    · by_cases own : y = i
      · rw [if_pos own]
        exact sheltered.unindexed y
      · rw [if_neg own]
        exact sheltered.unindexed y
    · exact sheltered.unindexed y
  · unfold Inodes.claimed
    split <;> exact sheltered.begun

theorem Sheltered.added (sheltered : Sheltered t) (linkage : Linkage t)
    (valid : Call.Valid t (.addEntry p name i)) (unparented : t.Unparented i) :
    Sheltered ((t.claimed p i).insertEntry p name i) := by
  have added := addedSpec linkage valid
  have inserted := addedEntries linkage valid
  have claimed := sheltered.claimed linkage p valid.2
  have was {y : Nat} (directory : ((t.claimed p i).insertEntry p name i).Directory y) : t.Directory y :=
    ⟨added.count ▸ directory.1, (added.directory y).mp directory.2⟩
  refine ⟨fun y directory => ?_, fun y q directory none => ?_, fun y => ?_, fun y => ?_, ?_⟩
  · rw [added.references valid.1.1]
    by_cases own : y = i
    · subst own
      have orphan : (t.inode y).dir.parent = none :=
        Option.not_isSome_iff_eq_none.mp fun some => unparented ⟨(was directory).2, some⟩
      rw [if_pos rfl, noReferences fun q => sheltered.orphans y q (was directory) orphan]
    · rw [if_neg own]
      exact sheltered.single y (was directory)
  · rw [added.parent] at none
    split at none
    · cases none
    · rename_i other
      rw [added.contains]
      rintro (old | ⟨_, rfl⟩)
      · exact sheltered.orphans y q (was directory) none old
      · exact other ⟨(was directory).2, rfl⟩
  · have kept : (((t.claimed p i).insertEntry p name i).inode y).encodedType =
        ((t.claimed p i).inode y).encodedType := by
      rw [inserted.inode]
      by_cases own : y = p
      · rw [if_pos own]; rfl
      · rw [if_neg own]
    rw [kept, claimed.unencoded]
  · have kept : (((t.claimed p i).insertEntry p name i).inode y).dir.indexedCount =
        ((t.claimed p i).inode y).dir.indexedCount := by
      rw [inserted.inode]
      by_cases own : y = p
      · rw [if_pos own]; rfl
      · rw [if_neg own]; rfl
    rw [kept, claimed.unindexed]
  · have kept : ((t.claimed p i).insertEntry p name i).begun = (t.claimed p i).begun := by
      unfold insertEntry linkEntry
      simp only
      split <;> split <;> rfl
    rw [kept, claimed.begun]

theorem Sheltered.rooted (sheltered : Sheltered t) (linkage : Linkage t) (d : Nat) :
    Sheltered (t.rooted d) := by
  have lists (x : Nat) : (t.rooted d).listing x = t.listing x :=
    listingCongr ((rootedLinkage linkage d).2 x) fun _ _ => rfl
  have is (x : Nat) : (t.rooted d).Directory x ↔ t.Directory x := by
    unfold Directory
    rw [rootedInode]
    rfl
  refine ⟨fun y directory => ?_, fun y q directory none => ?_, fun y => ?_, fun y => ?_, sheltered.begun⟩
  · rw [@referencesCongr t (t.rooted d) rfl lists]
    exact sheltered.single y ((is y).mp directory)
  · unfold Contains
    rw [lists]
    rw [rootedInode] at none
    exact sheltered.orphans y q ((is y).mp directory) none
  · rw [rootedInode]
    exact sheltered.unencoded y
  · rw [rootedInode]
    exact sheltered.unindexed y

theorem Sheltered.effect {c : Call} {ok : Bool} (sheltered : Sheltered t) (linkage : Linkage t)
    (valid : c.Valid t) (effect : t.Effect c ok next) : Sheltered next := by
  cases effect with
  | refused => exact sheltered
  | created fresh _ => exact sheltered.created linkage fresh
  | failed _ => exact sheltered.claimed linkage _ valid.2
  | added unparented => exact sheltered.added linkage valid unparented
  | rooted _ => exact sheltered.rooted linkage _

theorem shelteredInit (compressor : Option Compressor) : Sheltered (.init compressor) :=
  ⟨fun _ directory => absurd directory.1 (Nat.not_lt_zero _),
    fun _ _ directory => absurd directory.1 (Nat.not_lt_zero _), fun _ => rfl, fun _ => rfl, rfl⟩

/-! ### The recursion -/

/- From `t` to `u` the directories of `below` were begun, as far as it went well. -/
structure Visited (built t u : Inodes) (below : Nat → Prop) (ok : Bool) : Prop where
  framed : Framed built u
  begun : ∃ new, u.begun = t.begun ++ new ∧ new.Nodup ∧ (∀ d ∈ new, built.Directory d ∧ below d) ∧
    (ok = true → ∀ d, built.Directory d → below d → d ∈ new)
  others : ∀ x, built.Directory x → ¬ below x → u.inode x = t.inode x

def Unvisited (built t : Inodes) (below : Nat → Prop) : Prop :=
  ∀ x, built.Directory x → below x → (t.inode x).encodedType = 0

section
variable {built u : Inodes} {o : SerializeConfig} {r : Nat}

theorem visitEach {serialize : Inodes → Nat → Env → Serialized} {below : Nat → Nat → Prop} {cs : List Nat}
    (one : ∀ c ∈ cs, ∀ t env, Framed built t → Unvisited built t (below c) →
      ∃ ok u after, serialize t c env = some (ok, u, after) ∧ Visited built t u (below c) ok)
    (apart : cs.Pairwise fun c c' => ∀ x, built.Directory x → ¬ (below c x ∧ below c' x))
    {t : Inodes} (framed : Framed built t) (env : Env)
    (fresh : Unvisited built t fun x => ∃ c ∈ cs, below c x) :
    ∃ ok u after, serializeEach serialize cs t env = some (ok, u, after) ∧
      Visited built t u (fun x => ∃ c ∈ cs, below c x) ok := by
  induction cs generalizing t env with
  | nil =>
    refine ⟨true, t, env, rfl, framed, ⟨[], (List.append_nil _).symm, List.nodup_nil, ?_, ?_⟩, fun _ _ _ => rfl⟩
    · intro d member
      cases member
    · rintro - d - ⟨c, member, -⟩
      cases member
  | cons c rest ih =>
    rw [List.pairwise_cons] at apart
    obtain ⟨ok, u, after, first, visited⟩ := one c (by simp) t env framed fun x directory inside =>
      fresh x directory ⟨c, by simp, inside⟩
    obtain ⟨new, begun, nodup, inside, all⟩ := visited.begun
    rw [serializeEach, first]
    cases ok with
    | false =>
      refine ⟨false, u, after, rfl, visited.framed, ⟨new, begun, nodup, fun d member => ?_,
        fun good => absurd good Bool.false_ne_true⟩,
        fun x directory outside => visited.others x directory fun below => outside ⟨c, by simp, below⟩⟩
      exact ⟨(inside d member).1, c, by simp, (inside d member).2⟩
    | true =>
      obtain ⟨ok, v, last, others, visited'⟩ := ih
        (fun c' member => one c' (List.mem_cons_of_mem _ member)) apart.2 visited.framed after
        fun x directory later => by
          obtain ⟨c', member, below⟩ := later
          rw [visited.others x directory fun own => apart.1 c' member x directory ⟨own, below⟩]
          exact fresh x directory ⟨c', List.mem_cons_of_mem _ member, below⟩
      obtain ⟨new', begun', nodup', inside', all'⟩ := visited'.begun
      refine ⟨ok, v, last, others, visited'.framed, ⟨new ++ new', ?_, ?_, fun d member => ?_,
        fun good d directory => ?_⟩, fun x directory outside => ?_⟩
      · rw [begun', begun, List.append_assoc]
      · refine List.nodup_append'.mpr ⟨nodup, nodup', fun d left right => ?_⟩
        obtain ⟨directory, own⟩ := inside d left
        obtain ⟨_, c', member, below⟩ := inside' d right
        exact apart.1 c' member d directory ⟨own, below⟩
      · rcases List.mem_append.mp member with left | right
        · exact ⟨(inside d left).1, c, by simp, (inside d left).2⟩
        · obtain ⟨directory, c', member', below⟩ := inside' d right
          exact ⟨directory, c', List.mem_cons_of_mem _ member', below⟩
      · rintro ⟨c', member, below⟩
        rcases List.mem_cons.mp member with rfl | later
        · exact List.mem_append_left _ (all rfl d directory below)
        · exact List.mem_append_right _ (all' good d directory ⟨c', later, below⟩)
      · have apart' : ¬ ∃ c ∈ rest, below c x := by
          rintro ⟨c', member, below⟩
          exact outside ⟨c', List.mem_cons_of_mem _ member, below⟩
        rw [visited'.others x directory apart',
          visited.others x directory fun below => outside ⟨c, by simp, below⟩]

theorem leafBelow (linkage : built.Linkage) (leaf : ¬ built.Directory i) (directory : built.Directory x) :
    ¬ ReflTransGen built.Encloses i x := by
  intro path
  rcases ReflTransGen.cases_head path with rfl | ⟨y, step, _⟩
  · exact leaf directory
  · exact leaf (linkage.container step.1)

theorem visitLeaf (linkage : built.Linkage) (leaf : ¬ built.Directory i) {t : Inodes} (ok : Bool)
    (writes : Writes t u i) (framed : Framed built t) :
    Visited built t u (ReflTransGen built.Encloses i) ok := by
  refine ⟨framed.trans writes.framed, ⟨[], by rw [writes.begun, List.append_nil], List.nodup_nil, ?_, ?_⟩,
    fun x directory _ => ?_⟩
  · intro d member
    cases member
  · intro _ d directory path
    exact absurd path (leafBelow linkage leaf directory)
  · rw [writes.others x fun same => leaf (same ▸ directory)]

theorem childrenApart (linkage : built.Linkage) (single : ∀ x, built.Directory x → built.references x ≤ 1)
    (tree : Tree built.Encloses r) (path : ReflTransGen built.Encloses r i) :
    (built.children i).Pairwise fun c c' => ∀ x, built.Directory x →
      ¬ (ReflTransGen built.Encloses c x ∧ ReflTransGen built.Encloses c' x) := by
  have distinct : ((built.children i).filter fun c => decide (built.Directory c)).Nodup := by
    refine List.nodup_iff_count_le_one.mpr fun c => ?_
    by_cases directory : built.Directory c
    · rw [List.count_filter (by simpa using directory)]
      exact (childrenCount linkage i c).trans (single c directory)
    · rw [List.count_eq_zero_of_not_mem fun member => directory (by simpa using (List.mem_filter.mp member).2)]
      exact Nat.zero_le 1
  refine (List.pairwise_filter.mp distinct).imp_of_mem fun {c c'} left right different x is ⟨below, below'⟩ => ?_
  have first : built.Directory c := by
    by_contra leaf
    exact leafBelow linkage leaf is below
  have second : built.Directory c' := by
    by_contra leaf
    exact leafBelow linkage leaf is below'
  exact different (decide_eq_true first) (decide_eq_true second)
    (tree.apart path ⟨containsChild.mpr left, first⟩ ⟨containsChild.mpr right, second⟩ below below')

theorem serializeVisits (linkage : built.Linkage) (single : ∀ x, built.Directory x → built.references x ≤ 1)
    (tree : Tree built.Encloses r) (o : SerializeConfig) (fuel : Nat) {stack : List Nat}
    (nodup : stack.Nodup) (room : built.count < fuel + stack.length) {t : Inodes} (env : Env)
    (inside : i < built.count) (framed : Framed built t)
    (reached : built.Directory i → ReflTransGen built.Encloses r i)
    (above : ∀ a ∈ stack, built.Directory a ∧ (built.Directory i → TransGen built.Encloses a i))
    (fresh : Unvisited built t (ReflTransGen built.Encloses i)) :
    ∃ ok u after, inodeSerialize o fuel t i env = some (ok, u, after) ∧
      Visited built t u (ReflTransGen built.Encloses i) ok := by
  induction fuel generalizing stack t i env with
  | zero =>
    have short := boundedPath nodup fun a member => (above a member).1.1
    omega
  | succ fuel ih =>
    have is : (t.inode i).IsDirectory ↔ built.Directory i := by
      rw [← framed.directory, Directory, framed.count]
      exact ⟨fun own => ⟨inside, own⟩, And.right⟩
    by_cases directory : built.Directory i
    · -- its entries one after the other, then its own record
      have path := reached directory
      have foreign : i ∉ stack := fun member => tree.acyclic path ((above i member).2 directory)
      have cycle {c : Nat} (step : built.Contains i c) (is : built.Directory c) :
          ¬ ReflTransGen built.Encloses c i :=
        fun back => tree.acyclic path (TransGen.head' ⟨step, is⟩ back)
      obtain ⟨dir, body⟩ := is.mpr directory
      let begun : Inodes := {t with begun := t.begun ++ [i]}
      have same : Framed built begun := framed.trans ⟨rfl, rfl, rfl, fun _ => ⟨rfl, rfl, rfl, rfl⟩, fun _ => .refl _⟩
      have one (c : Nat) (member : c ∈ built.children i) (t' : Inodes) (env : Env) (framed : Framed built t')
          (fresh : Unvisited built t' (ReflTransGen built.Encloses c)) :
          ∃ ok u after, inodeSerialize o fuel t' c env = some (ok, u, after) ∧
            Visited built t' u (ReflTransGen built.Encloses c) ok := by
        have contained := containsChild.mpr member
        have target : c < built.count := by
          obtain ⟨y, listed, rfl⟩ := contained
          exact linkage.target listed
        refine ih (nodup.cons foreign) (by simp only [List.length_cons]; omega) env target framed
          (fun is => path.tail ⟨contained, is⟩) (fun a member => ?_) fresh
        rcases List.mem_cons.mp member with rfl | old
        · exact ⟨directory, fun is => .single ⟨contained, is⟩⟩
        · exact ⟨(above a old).1, fun is => ((above a old).2 directory).tail ⟨contained, is⟩⟩
      have apart := childrenApart linkage single tree path
      obtain ⟨ok, u, after, ran, visited⟩ := visitEach one apart same env fun x is inner => by
        obtain ⟨c, member, below⟩ := inner
        have child : built.Directory c := by
          by_contra leaf
          exact leafBelow linkage leaf is below
        exact fresh x is (.head ⟨containsChild.mpr member, child⟩ below)
      obtain ⟨new, grown, distinct, found, all⟩ := visited.begun
      have step {x c : Nat} (member : c ∈ built.children i) (is : built.Directory x)
          (below : ReflTransGen built.Encloses c x) : built.Encloses i c := by
        refine ⟨containsChild.mpr member, ?_⟩
        by_contra leaf
        exact leafBelow linkage leaf is below
      have spread (good : Bool) (sound : good = true → ok = true) {v : Inodes} (framed' : Framed built v)
          (kept : v.begun = u.begun) (others : ∀ x, x ≠ i → v.inode x = u.inode x) :
          Visited built t v (ReflTransGen built.Encloses i) good := by
        refine ⟨framed', ⟨i :: new, ?_, List.nodup_cons.mpr ⟨fun member => ?_, distinct⟩, fun d member => ?_,
          fun ended d is below => ?_⟩, fun x is outside => ?_⟩
        · rw [kept, grown]
          simp only [begun, List.append_assoc, List.cons_append, List.nil_append]
        · obtain ⟨is, c, child, below⟩ := found i member
          exact cycle (step child is below).1 (step child is below).2 below
        · rcases List.mem_cons.mp member with rfl | later
          · exact ⟨directory, .refl⟩
          · obtain ⟨is, c, child, below⟩ := found d later
            exact ⟨is, .head (step child is below) below⟩
        · rcases ReflTransGen.cases_head below with rfl | ⟨c, enclosed, below⟩
          · exact List.mem_cons_self
          · refine List.mem_cons_of_mem _ (all (sound ended) d is ⟨c, containsChild.mp enclosed.1, below⟩)
        · have other : x ≠ i := fun same => outside (same ▸ .refl)
          rw [others x other]
          refine visited.others x is ?_
          rintro ⟨c, child, below⟩
          exact outside (.head (step child is below) below)
      have blank := fresh i directory .refl
      rw [serializeDirectory o fuel env blank ⟨dir, body⟩, framed.children, ran]
      cases ok with
      | false => exact ⟨false, u, after, rfl, spread false (fun bad => absurd bad Bool.false_ne_true) visited.framed rfl fun _ _ => rfl⟩
      | true =>
        have writes := @directoryWriteWrites u i o after ((visited.framed.inode i).isDirectory.mpr
          directory.2)
        exact ⟨_, _, _, rfl, spread _ (fun _ => rfl) (visited.framed.trans writes.framed) writes.begun
          writes.others⟩
    · by_cases marked : (t.inode i).encodedType = 0
      · rw [serializeLeaf o fuel env marked fun own => directory (is.mp own)]
        exact ⟨_, _, _, rfl, visitLeaf linkage directory _ (inodeEncodeWrites o t i env) framed⟩
      · rw [serializeAgain o fuel env marked]
        exact ⟨true, t, env, rfl, visitLeaf linkage directory true (.refl t i) framed⟩

end

/-! ### What the root makes of it -/

theorem rootTree (linkage : t.Linkage) (sheltered : Sheltered t) {r : Nat} (free : ∀ p, ¬ t.Contains p r) :
    Tree t.Encloses r := by
  refine ⟨fun x _ a b left right => ?_, fun a enclosed => free a enclosed.1⟩
  exact containerUnique linkage (sheltered.single x left.2) left.1 right.1

theorem treeOf (linkage : t.Linkage) (sheltered : Sheltered t) {r : Nat} (free : ∀ p, ¬ t.Contains p r) :
    DirectoryTree t r := by
  have tree := rootTree linkage sheltered free
  refine ⟨fun d path => tree.acyclic path, fun d path other => ?_, noReferences free⟩
  rcases ReflTransGen.cases_tail path with same | ⟨a, _, enclosed⟩
  · exact absurd same other
  · exact Nat.le_antisymm (sheltered.single d enclosed.2) (containedReferences linkage enclosed.1)

theorem visitsOf (linkage : t.Linkage) (sheltered : Sheltered t) {r : Nat} (root : t.Directory r)
    (free : ∀ p, ¬ t.Contains p r) : VisitsEach t r := by
  intro o fuel env enough
  obtain ⟨ok, u, after, ran, visited⟩ := serializeVisits linkage sheltered.single
    (rootTree linkage sheltered free) o fuel List.nodup_nil (by simpa using enough) env root.1 (.refl t)
    (fun _ => .refl) (fun a member => nomatch member) fun x _ _ => sheltered.unencoded x
  obtain ⟨new, begun, nodup, inside, all⟩ := visited.begun
  rw [sheltered.begun, List.nil_append] at begun
  refine ⟨ok, u, after, ran, begun ▸ nodup, fun d member => (inside d (begun ▸ member)).2, fun good d path => ?_⟩
  rw [begun]
  refine all good d ?_ path
  rcases ReflTransGen.cases_tail path with same | ⟨_, _, enclosed⟩
  · exact same ▸ root
  · exact enclosed.2

theorem selfEntryLoops {d : Nat} {rest : List Nat} (directory : (t.inode d).IsDirectory)
    (blank : (t.inode d).encodedType = 0) (own : t.children d = d :: rest) (o : SerializeConfig)
    (fuel : Nat) (env : Env) : inodeSerialize o fuel t d env = none := by
  induction fuel generalizing t with
  | zero => rfl
  | succ fuel ih =>
    have again := @ih {t with begun := t.begun ++ [d]} directory blank own
    rw [serializeDirectory o fuel env blank directory, own, serializeEach, again]

end Inodes

namespace Builder
open Inodes
variable {o : BuilderConfig} {env : Env} {trace : List (Event Builder (Call × Bool))} {b : Builder}

theorem runSheltered (run : Run (Builder.Step o) (.init o env) trace b) :
    b.inodes.Settled ∧ b.inodes.Sheltered := by
  have free : Obeys (fun _ _ => True) trace := fun _ _ => trivial
  refine Run.invariant (I := fun b => b.inodes.Settled ∧ b.inodes.Sheltered)
    ⟨runSettled .start, shelteredInit _⟩ ?_ run free
  intro b l next ⟨settled, sheltered⟩ _ taken
  obtain ⟨valid, effect⟩ := stepEffect taken
  exact ⟨settled.effect valid effect, sheltered.effect settled.linkage valid effect⟩

/- The entries are those that add_entry made. -/
theorem listingIff (run : Run (Builder.Step o) (.init o env) trace b) (p : Nat) (x : Bytes × Nat) :
    x ∈ b.inodes.listing p ↔ (Call.addEntry p x.1 x.2, true) ∈ labels trace := by
  rw [runListing run, List.mem_insertionSort, List.mem_reverse]
  unfold added
  rw [List.mem_filterMap]
  constructor
  · rintro ⟨⟨c, ok⟩, member, own⟩
    cases c with
    | addEntry q name j =>
      cases ok with
      | false => cases own
      | true =>
        simp only [Option.ite_none_right_eq_some, Option.some.injEq] at own
        obtain ⟨rfl, rfl⟩ := own
        exact member
    | _ => cases own
  · intro member
    exact ⟨_, member, if_pos rfl⟩

theorem containsIff (run : Run (Builder.Step o) (.init o env) trace b) (p i : Nat) :
    b.inodes.Contains p i ↔ ∃ name, (Call.addEntry p name i, true) ∈ labels trace := by
  constructor
  · rintro ⟨x, member, rfl⟩
    exact ⟨x.1, (listingIff run p x).mp member⟩
  · rintro ⟨name, member⟩
    exact ⟨(name, i), (listingIff run p (name, i)).mpr member, rfl⟩

theorem treeIff {r : Nat} (run : Run (Builder.Step o) (.init o env) trace b)
    (root : b.inodes.root = some r) :
    b.inodes.DirectoryTree r ∧ b.inodes.VisitsEach r ↔
      ∀ p name, (Call.addEntry p name r, true) ∉ labels trace := by
  obtain ⟨settled, sheltered⟩ := runSheltered run
  constructor
  · rintro ⟨tree, _⟩ p name member
    have counted := containedReferences settled.linkage ((containsIff run p r).mpr ⟨name, member⟩)
    rw [tree.root] at counted
    exact Nat.lt_irrefl 0 counted
  · intro absent
    have free (p : Nat) : ¬ b.inodes.Contains p r := fun contained => by
      obtain ⟨name, member⟩ := (containsIff run p r).mp contained
      exact absent p name member
    exact ⟨treeOf settled.linkage sheltered free, visitsOf settled.linkage sheltered (settled.root r root) free⟩

theorem nestedDirectories : ∃ trace b,
    Run (Builder.Step ⟨.small, 4096, none⟩) (.init ⟨.small, 4096, none⟩ .fresh) trace b ∧
      b.inodes.root = some 0 ∧ b.inodes.children 0 = [1] ∧ b.inodes.children 1 = [2] ∧
      b.inodes.DirectoryTree 0 ∧ b.inodes.VisitsEach 0 := by
  let attr : InodeAttr := ⟨0, 0, 0, 0, 0, 0, none⟩
  let o : BuilderConfig := ⟨.small, 4096, none⟩
  let calls : List Call := [.directory attr, .directory attr, .directory attr, .addEntry 1 [98] 2,
    .addEntry 0 [97] 1, .setRoot 0]
  have valid : Along o (fun b l => l.1.Valid b.inodes) (.init o .fresh) calls := by decide
  obtain ⟨trace, run, made, _⟩ := allRun .start valid
  have steps : labels trace = calls.map fun c => (c, true) := made
  refine ⟨trace, _, run, rfl, rfl, rfl, (treeIff run rfl).mpr fun p name member => ?_⟩
  rw [steps] at member
  simp [calls] at member

theorem rootInItself : ∃ trace b,
    Run (Builder.Step ⟨.small, 4096, none⟩) (.init ⟨.small, 4096, none⟩ .fresh) trace b ∧
      labels trace = [(.directory ⟨0, 0, 0, 0, 0, 0, none⟩, true), (.setRoot 0, true),
        (.addEntry 0 [97] 0, true)] ∧ b.inodes.root = some 0 ∧
      TransGen b.inodes.Encloses 0 0 ∧ b.inodes.references 0 = 1 ∧
      ∀ o fuel env, inodeSerialize o fuel b.inodes 0 env = none := by
  let attr : InodeAttr := ⟨0, 0, 0, 0, 0, 0, none⟩
  let o : BuilderConfig := ⟨.small, 4096, none⟩
  let calls : List Call := [.directory attr, .setRoot 0, .addEntry 0 [97] 0]
  have valid : Along o (fun b l => l.1.Valid b.inodes) (.init o .fresh) calls := by decide
  obtain ⟨trace, run, made, _⟩ := allRun .start valid
  refine ⟨trace, _, run, made, rfl, .single ⟨⟨([97], 0), by decide, rfl⟩, by decide⟩, by decide, ?_⟩
  exact selfEntryLoops ⟨_, rfl⟩ rfl rfl

end Builder
end Libsqfs
