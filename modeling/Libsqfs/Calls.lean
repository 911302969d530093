import Libsqfs.Inodes
import Libsqfs.Transition

/-! Sequences of the calls that build the tree, with any allocation failing. A
call is given handles that earlier calls returned, as their types demand. -/
namespace Libsqfs
open Transition

inductive Call where
  | directory (attr : InodeAttr)
  | symlink (attr : InodeAttr) (name : Bytes)
  | device (attr : InodeAttr) (type : UInt8) (major minor : Nat)
  | fifo (attr : InodeAttr)
  | regular (attr : InodeAttr) (data : Option Bytes)
  | addEntry (parent : Nat) (name : Bytes) (inode : Nat)
  | setRoot (dir : Nat)
  deriving DecidableEq, Repr

structure BuilderConfig where
  fragments : FragmentsOption
  blockSize : Nat
  inodeCompressor : Option Compressor

structure Builder where
  inodes : Inodes
  items : List Item
  env : Env

namespace Builder

def init (o : BuilderConfig) (env : Env) : Builder := ⟨.init o.inodeCompressor, [], env⟩

def run (o : BuilderConfig) (b : Builder) : Call → Bool × Builder
  | .directory attr =>
    let (i, t, env) := b.inodes.directoryInodeCreate attr b.env
    (i.isSome, ⟨t, b.items, env⟩)
  | .symlink attr name =>
    let (i, t, env) := b.inodes.symlinkInodeCreate attr name b.env
    (i.isSome, ⟨t, b.items, env⟩)
  | .device attr type major minor =>
    let (i, t, env) := b.inodes.deviceInodeCreate attr type major minor b.env
    (i.isSome, ⟨t, b.items, env⟩)
  | .fifo attr =>
    let (i, t, env) := b.inodes.fifoInodeCreate attr b.env
    (i.isSome, ⟨t, b.items, env⟩)
  | .regular attr data =>
    let (i, items, t, env) := Inodes.regularInodeCreate o.fragments o.blockSize b.items.length
      b.inodes attr data b.env
    (i.isSome, ⟨t, b.items ++ items, env⟩)
  | .addEntry parent name i =>
    let (ok, t, env) := b.inodes.directoryAddEntry parent name i b.env
    (ok, ⟨t, b.items, env⟩)
  | .setRoot dir =>
    let (ok, t) := b.inodes.setRoot dir
    (ok, ⟨t, b.items, b.env⟩)

end Builder

def Inodes.Directory (t : Inodes) (d : Nat) : Prop := d < t.count ∧ (t.inode d).IsDirectory

instance (t : Inodes) (d : Nat) : Decidable (t.Directory d) := inferInstanceAs (Decidable (_ ∧ _))

def Call.Valid (t : Inodes) : Call → Prop
  | .addEntry parent _ i => t.Directory parent ∧ i < t.count
  | .setRoot dir => t.Directory dir
  | _ => True

def Builder.Step (o : BuilderConfig) (b : Builder) (l : Call × Bool) (next : Builder) : Prop :=
  l.1.Valid b.inodes ∧ b.run o l.1 = (l.2, next)

instance (t : Inodes) : (c : Call) → Decidable (c.Valid t)
  | .addEntry parent _ i => inferInstanceAs (Decidable (t.Directory parent ∧ i < t.count))
  | .setRoot dir => inferInstanceAs (Decidable (t.Directory dir))
  | .directory _ | .symlink .. | .device .. | .fifo _ | .regular .. => .isTrue trivial

def InodeBody.Fresh (body : InodeBody) : Prop := ∀ dir, body = .directory dir → dir = .create

namespace Inodes

/- What an add_entry call leaves behind that gets past the check of the parent. -/
def claimed (t : Inodes) (parent i : Nat) : Inodes :=
  if (t.inode i).IsDirectory then t.claimParent parent i else t

def Unparented (t : Inodes) (i : Nat) : Prop :=
  ¬ ((t.inode i).IsDirectory ∧ (t.inode i).dir.parent.isSome = true)

def rooted (t : Inodes) (dir : Nat) : Inodes :=
  {t.setInode dir {t.inode dir with nlink := (t.inode dir).nlink + 1} with root := some dir}

inductive Effect (t : Inodes) : Call → Bool → Inodes → Prop where
  | refused {c} : Effect t c false t
  | created {c ok attr body} (fresh : InodeBody.Fresh body)
      (creates : ∀ p name i d, c ≠ .addEntry p name i ∧ c ≠ .setRoot d) :
      Effect t c ok (t.inodeInit attr body).2
  | failed {p name i} (unparented : t.Unparented i) :
      Effect t (.addEntry p name i) false (t.claimed p i)
  | added {p name i} (unparented : t.Unparented i) :
      Effect t (.addEntry p name i) true ((t.claimed p i).insertEntry p name i)
  | rooted {d} (missing : t.root = none) :
      Effect t (.setRoot d) true (t.rooted d)

end Inodes

namespace Builder
variable {o : BuilderConfig} {b next : Builder}

theorem regularCases {fragments : FragmentsOption} {blockSize chunks : Nat} {t : Inodes}
    {attr : InodeAttr} {data : Option Bytes} {env : Env} :
    (Inodes.regularInodeCreate fragments blockSize chunks t attr data env).2.2.1 = t ∧
        (Inodes.regularInodeCreate fragments blockSize chunks t attr data env).1 = none ∨
      ∃ reg, (Inodes.regularInodeCreate fragments blockSize chunks t attr data env).2.2.1 =
        (t.inodeInit attr (.regular reg)).2 := by
  unfold Inodes.regularInodeCreate
  cases data with
  | none => exact .inl ⟨rfl, rfl⟩
  | some data =>
    simp only
    split
    · exact .inl ⟨rfl, rfl⟩
    · split
      · exact .inl ⟨rfl, rfl⟩
      · right
        split
        · exact ⟨_, rfl⟩
        · split
          · exact ⟨_, rfl⟩
          · split
            · exact ⟨_, rfl⟩
            · exact ⟨_, rfl⟩

theorem runEffect (o : BuilderConfig) (b : Builder) (c : Call) :
    b.inodes.Effect c (b.run o c).1 (b.run o c).2.inodes := by
  have fresh (body : InodeBody) (other : ∀ dir, body ≠ .directory dir) : body.Fresh :=
    fun dir same => absurd same (other dir)
  cases c with
  | directory attr =>
    simp only [run, Inodes.directoryInodeCreate]
    split
    · exact .refused
    · exact .created (fun dir same => (InodeBody.directory.inj same).symm) (by simp)
  | symlink attr name =>
    simp only [run, Inodes.symlinkInodeCreate]
    split
    · exact .refused
    · split
      · exact .refused
      · exact .created (fresh _ (by simp)) (by simp)
  | device attr type major minor =>
    simp only [run, Inodes.deviceInodeCreate]
    split
    · exact .refused
    · split
      · exact .refused
      · exact .created (fresh _ (by simp)) (by simp)
  | fifo attr =>
    simp only [run, Inodes.fifoInodeCreate]
    split
    · exact .refused
    · exact .created (fresh _ (by simp)) (by simp)
  | regular attr data =>
    rcases @regularCases o.fragments o.blockSize b.items.length b.inodes attr data b.env with
      ⟨same, none⟩ | ⟨reg, made⟩
    · simp only [run, same, none]
      exact .refused
    · simp only [run, made]
      exact .created (fresh _ (by simp)) (by simp)
  | addEntry parent name i =>
    simp only [run, Inodes.directoryAddEntry]
    split
    · exact .refused
    · rename_i unparented
      split
      · exact .failed unparented
      · split
        · exact .failed unparented
        · exact .added unparented
  | setRoot dir =>
    simp only [run, Inodes.setRoot]
    split
    · exact .refused
    · rename_i missing
      exact .rooted (by simpa using missing)

theorem stepEffect {l : Call × Bool} (taken : b.Step o l next) :
    l.1.Valid b.inodes ∧ b.inodes.Effect l.1 l.2 next.inodes := by
  have effect := runEffect o b l.1
  rw [taken.2] at effect
  exact ⟨taken.1, effect⟩

def runAll (o : BuilderConfig) : Builder → List Call → List (Call × Bool) × Builder
  | b, [] => ([], b)
  | b, c :: rest =>
    let (done, last) := runAll o (b.run o c).2 rest
    ((c, (b.run o c).1) :: done, last)

def Along (o : BuilderConfig) (p : Builder → Call × Bool → Prop) : Builder → List Call → Prop
  | _, [] => True
  | b, c :: rest => p b (c, (b.run o c).1) ∧ Along o p (b.run o c).2 rest

instance decideAlong (o : BuilderConfig) (p : Builder → Call × Bool → Prop) [∀ b l, Decidable (p b l)] :
    (b : Builder) → (calls : List Call) → Decidable (Along o p b calls)
  | _, [] => .isTrue trivial
  | b, c :: rest =>
    have := decideAlong o p (b.run o c).2 rest
    inferInstanceAs (Decidable (p b (c, (b.run o c).1) ∧ Along o p (b.run o c).2 rest))

theorem allRun {first : Builder} {trace : List (Event Builder (Call × Bool))} {calls : List Call}
    (run : Run (Builder.Step o) first trace b) (valid : Along o (fun b l => l.1.Valid b.inodes) b calls) :
    ∃ trace', Run (Builder.Step o) first trace' (runAll o b calls).2 ∧
      labels trace' = labels trace ++ (runAll o b calls).1 ∧
      ∀ allowed, Obeys allowed trace → Along o allowed b calls → Obeys allowed trace' := by
  induction calls generalizing b trace with
  | nil => exact ⟨trace, run, (List.append_nil _).symm, fun _ obeys _ => obeys⟩
  | cons c rest ih =>
    obtain ⟨own, others⟩ := valid
    have taken : b.Step o (c, (b.run o c).1) (b.run o c).2 := ⟨own, rfl⟩
    obtain ⟨trace', run', same, kept⟩ := ih (run.move taken) others
    refine ⟨trace', run', ?_, fun allowed obeys along => kept allowed (obeysAppend obeys along.1) along.2⟩
    rw [same, labelsSnoc, List.append_assoc]
    rfl

/- An add_entry call fails on a directory without a parent only for lack of memory. -/
theorem addEntryFails {p : Nat} {name : Bytes} {i : Nat} (taken : b.Step o (.addEntry p name i, false) next)
    (unparented : b.inodes.Unparented i) :
    next.inodes = b.inodes.claimed p i ∧ ¬ (b.env.mallocs 0 = true ∧ b.env.mallocs 1 = true) := by
  obtain ⟨_, result⟩ := taken
  simp only [run, Inodes.directoryAddEntry] at result
  rw [if_neg unparented] at result
  split at result
  · rename_i first
    cases result
    exact ⟨rfl, fun both => by simp [Env.malloc, both.1] at first⟩
  · split at result
    · rename_i second
      cases result
      exact ⟨rfl, fun both => by simp [Env.malloc, both.2] at second⟩
    · cases result

end Builder
end Libsqfs
