import Libsqfs.ImageContents
import Libsqfs.XattrContents

/-! What a reader learns of an inode of a finished image beside its contents: the class,
the owners, the mode, the times and the extended attributes. -/
namespace Libsqfs
open Transition Relation Metatable FramedStream
open Bytes (field)

inductive Kind where
  | regular (size : Nat)
  | directory (parent : Nat)
  | symlink (target : Bytes)
  | device (type : DeviceType) (rdev : Nat)
  | fifo
  deriving DecidableEq, Repr

def RecordData.kind : RecordData → Kind
  | .regular fileSize _ _ _ => .regular fileSize
  | .directory _ _ _ parent => .directory parent
  | .symlink target => .symlink target
  | .device type rdev => .device type rdev
  | .fifo => .fifo

def Inode.xattrId (x : Inode) : Option Nat :=
  match x.body with
  | .symlink _ => none
  | _ => x.attr.xattrset

namespace Inodes

def kind (t : Inodes) : InodeBody → Kind
  | .regular reg => .regular reg.fileSize
  | .directory dir => .directory (uint (t.parentNumber dir))
  | .symlink name => .symlink name
  | .device type major minor => .device type (rdev major minor)
  | .fifo => .fifo

section
variable {t : Inodes} {o : SerializeConfig} {x : Inode} {blockSize : Nat}

theorem Framed.kind {u : Inodes} (framed : Framed t u) (i : Nat) :
    u.kind (u.inode i).body = t.kind (t.inode i).body := by
  have parent := (framed.inode i).dir.1
  obtain ⟨_, _, _, built⟩ := framed.inode i
  have number (p : Nat) := (framed.inode p).2.2.1
  cases own : (t.inode i).body with
  | directory dir =>
    cases body : (u.inode i).body with
    | directory dir' =>
      simp only [Inode.dir, own, body] at parent
      simp only [Inodes.kind, parentNumber, parent, framed.count, number]
    | _ =>
      rw [own, body] at built
      cases built
  | _ =>
    cases body : (u.inode i).body <;> rw [own, body] at built <;> cases built
    rfl

end
end Inodes

theorem Inode.Kept.xattrId {x y : Inode} (kept : x.Kept y) : y.xattrId = x.xattrId := by
  obtain ⟨attr, _, _, built⟩ := kept
  unfold Inode.xattrId
  rw [attr]
  cases own : x.body <;> cases body : y.body <;> rw [own, body] at built <;> first | rfl | cases built

theorem Inode.Kept.sameBody {x y : Inode} (kept : x.Kept y) (other : ¬ y.IsDirectory) : x.body = y.body := by
  obtain ⟨_, _, _, built⟩ := kept
  cases own : y.body with
  | directory dir => exact absurd ⟨dir, own⟩ other
  | _ =>
    cases body : x.body <;> rw [own, body] at built <;> cases built
    all_goals rfl

theorem Session.callLabelled {l : (Call × Bool) ⊕ Label} {c : Call} {ok : Bool} (label : callLabel l = some (c, ok)) :
    l = .inl (c, ok) := by
  rcases l with ⟨c', ok'⟩ | l
  · cases c' <;> cases ok' <;> simp_all [callLabel]
  · cases label

/-! ### The owners -/

namespace IdTable
variable {tab : IdTable} {id : UInt32} {env : Env}

end IdTable

namespace AttrCall
variable {calls : List AttrCall} {tab : IdTable} {env : Env} {attr : InodeAttr}

end AttrCall

namespace Assembly
variable {o : FinalizeConfig} {image next last : Assembly} {env after : Env} {decompress : Bytes → Option Bytes} {r : Nat}
  {op : Later} {ok : Bool} {depth : Nat} {stages : List (Event (List Later × Assembly × Env) (Later × Bool))}
  {rest : List Later}

section
variable {trace : List (Event Session ((Call × Bool) ⊕ Label))} {s : Session} {i : Nat}

theorem Prepared.inodeNumber {host : Bytes.Host} (prepared : Prepared host image env trace s)
    (inside : i < image.inodes.count) : (image.inodes.inode i).inodeNumber < 2 ^ 32 := by
  obtain ⟨start, session⟩ := prepared.run
  obtain ⟨events, calls, b, apart⟩ := Session.apartRun (by simp [threadConfig, operations]) session prepared.calm
  rw [prepared.tree.trans apart.tree] at inside ⊢
  rw [(Inodes.runNumbered apart.builder).2.number i inside]
  exact Nat.mod_lt _ (by decide)

theorem Prepared.sliced (prepared : Prepared o.host image env trace s)
    (reverses : Reverses (image.compressor.compress true) decompress image.options.blockSize)
    (sized : 0 < image.options.blockSize ∧ image.options.blockSize ≤ 2 ^ 20)
    (numbered : image.bulkdata.fragmentBlockCount < 2 ^ 32) (bound : env.size < 2 ^ 63) {data : Bytes}
    (created : Session.Created trace i data) (length : data.length < 2 ^ 63) :
    ∃ reg, (image.inodes.inode i).body = .regular reg ∧
      reg.Sliced (serializeConfig o image.bulkdata) image.options.fragments image.options.blockSize := by
  obtain ⟨buffered, _, item, n, first, _, rfl, realizes, closed, fits, stands, body⟩ := prepared.filed sized.1 created
  refine ⟨_, body, ?_⟩
  have saves := savesRule reverses buffered image.options.dataCompression image.options.fragmentCompression
  have small : image.options.blockSize < 2 ^ 24 := by omega
  rw [prepared.bulkdata]
  exact realizes.sliced saves closed sized.1 small (prepared.size ▸ bound) (prepared.bulkdata ▸ numbered) fits length
    stands

theorem Prepared.inside {host : Bytes.Host} (prepared : Prepared host image env trace s) (root : image.inodes.root = some r)
    (below : ReflTransGen image.inodes.Contains r i) : i < image.inodes.count := by
  obtain ⟨start, session⟩ := prepared.run
  obtain ⟨events, calls, b, apart⟩ := Session.apartRun (by simp [threadConfig, operations]) session prepared.calm
  rw [prepared.tree.trans apart.tree] at root below ⊢
  rcases ReflTransGen.cases_tail below with rfl | ⟨d, _, x, member, rfl⟩
  · exact ((Builder.runSettled apart.builder).root _ root).1
  · exact (Inodes.runNumbered apart.builder).1.target member

end

end Assembly
end Libsqfs
