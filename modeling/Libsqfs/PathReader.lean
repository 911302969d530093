import Libsqfs.ImageStat

/-! Paths in a finished image: from the root_inode of the superblock name by name over
the listings, to the place of a record. -/
namespace Libsqfs
open Transition Relation Metatable Unfolding FramedStream

theorem Metatable.Finds.more {decompress : Bytes → Option Bytes} {medium stream : Bytes} {tab : Metatable}
    (finds : Finds decompress medium tab stream) (more : Bytes) : Finds decompress (medium ++ more) tab stream := by
  intro place bytes k n placed within
  exact readAtMore (fun raw content rest => readMetablockMore more raw content rest) rfl (finds place bytes k n placed within)

theorem AttrCall.runAllMember {calls : List AttrCall} {tab : IdTable} {env : Env} {attr : InodeAttr}
    (member : some attr ∈ (runAll calls tab env).1) :
    ∃ (call : AttrCall) (tab : IdTable) (env : Env), (call.run tab env).1 = some attr := by
  induction calls generalizing tab env with
  | nil => cases member
  | cons call rest ih =>
    rcases List.mem_cons.mp member with own | later
    · exact ⟨call, tab, env, own.symm⟩
    · exact ih later

namespace Inodes

end Inodes

namespace Assembly

section
variable {o : FinalizeConfig} {image last : Assembly} {env after : Env} {s : Session} {decompress : Bytes → Option Bytes}
  {trace : List (Event Session ((Call × Bool) ⊕ Label))} {rest : List Later} {r i : Nat}
  {stages : List (Event (List Later × Assembly × Env) (Later × Bool))}

theorem Prepared.narrow {host : Bytes.Host} (prepared : Prepared host image env trace s) (inside : i < image.inodes.count) :
    (image.inodes.inode i).attr.Narrow := by
  obtain ⟨start, session⟩ := prepared.run
  obtain ⟨events, calls, b, apart⟩ := Session.apartRun (by simp [threadConfig, operations]) session prepared.calm
  rw [prepared.tree.trans apart.tree] at inside ⊢
  obtain ⟨c, ok, member, own⟩ := Builder.attrGiven apart.builder inside
  obtain ⟨handles, granted, granting, table, each⟩ := prepared.owners
  rw [apart.callLabels, List.mem_filterMap] at member
  obtain ⟨l, member, label⟩ := member
  obtain ⟨call, tab, env, returned⟩ := AttrCall.runAllMember (each c ok _ (Session.callLabelled label ▸ member) own)
  exact AttrCall.runNarrow returned

end

end Assembly
end Libsqfs
