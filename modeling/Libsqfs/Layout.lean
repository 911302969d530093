import Libsqfs.OperationTables
import Libsqfs.SerializePlaces

/-! Where libsqfs_image_finalize writes. What is claimed by libsqfs_image_create
for the superblock and the options of the compressor is filled at the end; every
other write lies behind what was claimed before it. -/
namespace Libsqfs
open Transition

namespace Env

structure Quiet (env after : Env) : Prop where
  size : after.size = env.size
  written : after.written = env.written

/- Whether the operations succeeded or not. -/
structure Adds (low : Nat) (env after : Env) : Prop where
  size : env.size ≤ after.size
  written : ∃ more, after.written = env.written ++ more ∧ ∀ w ∈ more, low ≤ w.1

variable {low bytes offset : Nat} {env mid after : Env} {data : Bytes}

theorem Quiet.refl (env : Env) : Quiet env env := ⟨rfl, rfl⟩

theorem Quiet.trans (first : Quiet env mid) (second : Quiet mid after) : Quiet env after :=
  ⟨second.size.trans first.size, second.written.trans first.written⟩

theorem mallocQuiet (env : Env) : Quiet env env.malloc.2 := ⟨rfl, rfl⟩

theorem Adds.refl (low : Nat) (env : Env) : Adds low env env := ⟨le_refl _, [], by simp⟩

theorem Adds.trans (first : Adds low env mid) (second : Adds low mid after) : Adds low env after := by
  obtain ⟨grown, more, log, above⟩ := first
  obtain ⟨grown', more', log', above'⟩ := second
  refine ⟨grown.trans grown', more ++ more', by rw [log', log, List.append_assoc], fun w member => ?_⟩
  rcases List.mem_append.mp member with old | new
  · exact above w old
  · exact above' w new

theorem Quiet.adds (quiet : Quiet env after) : Adds low env after :=
  ⟨Nat.le_of_eq quiet.size.symm, [], by rw [quiet.written, List.append_nil], by simp⟩

theorem reserveAdds (low bytes : Nat) (env : Env) : Adds low env (env.reserve bytes).2 :=
  ⟨by simp, [], by simp⟩

theorem pwriteAdds (above : low ≤ offset) (env : Env) (data : Bytes) :
    Adds low env (env.pwrite data offset).2 := by
  unfold pwrite
  simp only
  split
  · exact ⟨le_refl _, [(offset, data)], rfl, by simpa using above⟩
  · exact ⟨le_refl _, [], by simp⟩

theorem Adds.filled {ok : Bool} (above : low ≤ env.size) (adds : Adds low env mid)
    (done : (mid.reserve bytes).2.pwrite data (mid.reserve bytes).1 = (ok, after)) : Adds low env after := by
  have last := (adds.trans (reserveAdds low bytes mid)).trans
    (pwriteAdds (above.trans adds.size) (mid.reserve bytes).2 data)
  rw [reserveStart] at done
  rw [done] at last
  exact last

end Env

namespace Metatable
open Env
variable {low offset : Nat} {host : Bytes.Host}

theorem getblockMemory (tab : Metatable) (env : Env) :
    ∃ mallocs, (tab.getblock env).2 = {env with mallocs := mallocs} := by
  unfold getblock
  split
  · exact ⟨env.mallocs, rfl⟩
  · simp only
    split <;> exact ⟨_, rfl⟩

theorem appendMemory (fuel : Nat) (tab : Metatable) (data : Bytes) (env : Env) :
    ∃ mallocs, (appendLoop fuel tab data env).2.2 = {env with mallocs := mallocs} := by
  induction fuel generalizing tab data env with
  | zero => cases data <;> exact ⟨env.mallocs, rfl⟩
  | succ fuel ih =>
    cases data with
    | nil => exact ⟨env.mallocs, rfl⟩
    | cons b rest =>
      rw [appendLoop]
      obtain ⟨mallocs, allocated⟩ := getblockMemory tab env
      generalize tab.getblock env = result at allocated ⊢
      obtain ⟨_ | ⟨block, next⟩, env'⟩ := result
      · exact ⟨mallocs, allocated⟩
      · obtain ⟨later, last⟩ := ih (next.copyIn block _) (List.drop _ (b :: rest)) env'
        exact ⟨later, by rw [last]; subst allocated; rfl⟩

theorem appendEachMemory (pieces : List Bytes) (tab : Metatable) (env : Env) :
    ∃ mallocs, (appendEach pieces tab env).2.2 = {env with mallocs := mallocs} := by
  induction pieces generalizing tab env with
  | nil => exact ⟨env.mallocs, rfl⟩
  | cons data rest ih =>
    obtain ⟨mallocs, first⟩ := appendMemory data.length tab data env
    rw [appendEach, append]
    generalize appendLoop data.length tab data env = result at first ⊢
    obtain ⟨_ | _, next, env'⟩ := result
    · exact ⟨mallocs, first⟩
    · obtain ⟨later, last⟩ := ih next env'
      exact ⟨later, by rw [last]; subst first; rfl⟩

theorem appendQuiet (tab : Metatable) (data : Bytes) (env : Env) : Quiet env (tab.append data env).2.2 := by
  obtain ⟨mallocs, same⟩ := appendMemory data.length tab data env
  rw [append, same]
  exact ⟨rfl, rfl⟩

theorem appendEachQuiet (pieces : List Bytes) (tab : Metatable) (env : Env) :
    Quiet env (appendEach pieces tab env).2.2 := by
  obtain ⟨mallocs, same⟩ := appendEachMemory pieces tab env
  rw [same]
  exact ⟨rfl, rfl⟩

theorem writeBlocksAdds (above : low ≤ offset) (blocks : List Metablock) (env : Env) :
    Adds low env (writeBlocks host blocks offset env).2 := by
  induction blocks generalizing offset env with
  | nil => exact .refl low env
  | cons block rest ih =>
    rw [writeBlocks]
    have first := pwriteAdds above env (Bytes.store host 2 (Bytes.cpuToLe host 2 (header block)))
    generalize env.pwrite (Bytes.store host 2 (Bytes.cpuToLe host 2 (header block))) offset = result at first ⊢
    obtain ⟨_ | _, env₁⟩ := result
    · exact first
    · have second := pwriteAdds (show low ≤ offset + 2 by omega) env₁ (block.data.take block.size)
      dsimp only
      generalize env₁.pwrite (block.data.take block.size) (offset + 2) = result at second ⊢
      obtain ⟨_ | _, env₂⟩ := result
      · exact first.trans second
      · exact (first.trans second).trans (ih (by omega) env₂)

theorem writeAdds {env : Env} (above : low ≤ env.size) (host : Bytes.Host) (tab : Metatable) :
    Adds low env (tab.write host env).2.2 := by
  unfold write
  simp only
  have reserved := reserveAdds low tab.flush.size env
  have blocks := @writeBlocksAdds low (env.reserve tab.flush.size).1 host above tab.flush.blocks
    (env.reserve tab.flush.size).2
  generalize writeBlocks host tab.flush.blocks (env.reserve tab.flush.size).1 (env.reserve tab.flush.size).2 =
    result at blocks ⊢
  obtain ⟨_ | _, after⟩ := result
  · exact reserved.trans blocks
  · exact reserved.trans blocks

theorem writeWithIndexAdds {env : Env} (above : low ≤ env.size) (host : Bytes.Host) (tab : Metatable) :
    Adds low env (tab.writeWithIndex host env).2.2 := by
  have table := writeAdds above host tab
  unfold writeWithIndex
  generalize tab.write host env = result at table ⊢
  obtain ⟨_ | _, next, mid⟩ := result
  · exact table
  · simp only
    split
    · rename_i failed
      exact table.filled above failed
    · rename_i filled
      exact table.filled above filled

theorem appendedAdds {env : Env} (above : low ≤ env.size) (host : Bytes.Host) (tab : Metatable) (data : Bytes) :
    Adds low env (if (tab.append data env).1 then
      (tab.append data env).2.1.writeWithIndex host (tab.append data env).2.2
      else (false, (tab.append data env).2.1, (tab.append data env).2.2)).2.2 := by
  have appended := appendQuiet tab data env
  split
  · exact appended.adds.trans (writeWithIndexAdds (by rw [appended.size]; exact above) host _)
  · exact appended.adds

end Metatable

/-! ### Serializing asks for nothing but memory -/

namespace Inodes
open Env
variable {t u : Inodes} {o : SerializeConfig} {i d : Nat} {env after : Env}

theorem encodeLoopQuiet (host : Bytes.Host) (stale : Nat) (xs : List Listed) (enc : Encoder) (env : Env) :
    Quiet env (Encoder.encodeLoop host stale xs enc env).2.2 := by
  induction xs generalizing enc env with
  | nil => exact .refl env
  | cons x rest ih =>
    have entry : Quiet env (enc.encodeEntry host stale x env).2.2 := by
      unfold Encoder.encodeEntry
      simp only
      split <;> exact mallocQuiet env
    rw [Encoder.encodeLoop]
    generalize enc.encodeEntry host stale x env = result at entry ⊢
    obtain ⟨_ | _, next, mid⟩ := result
    · exact entry
    · exact entry.trans (ih next mid)

theorem appendEntriesQuiet (d : Nat) (es : List Nat) (first : Bool) (t : Inodes) (env : Env) :
    Quiet env (appendEntries d es first t env).2.2 := by
  induction es generalizing t first env with
  | nil => exact .refl env
  | cons e rest ih =>
    rw [appendEntriesTurn]
    have entry := Metatable.appendQuiet t.dirTable ((t.entry e).encodedData.getD []) env
    generalize t.dirTable.append ((t.entry e).encodedData.getD []) env = result at entry ⊢
    obtain ⟨_ | _, table, mid⟩ := result
    · exact entry
    · exact entry.trans (ih ..)

theorem directoryEncodeQuiet (o : SerializeConfig) (t : Inodes) (d : Nat) (env : Env) :
    Quiet env (t.directoryEncode o d env).2.2 := by
  have encoded := encodeLoopQuiet o.host o.stale ((t.entries d).map t.listed) .start env
  unfold directoryEncode encodeEntries
  simp only
  generalize Encoder.encodeLoop o.host o.stale ((t.entries d).map t.listed) .start env = result at encoded ⊢
  obtain ⟨ok, enc, mid⟩ := result
  split
  · exact encoded
  · exact encoded.trans (appendEntriesQuiet ..)

theorem writeRecordQuiet (t : Inodes) (i type base : Nat) (pieces : List Bytes) (env : Env) :
    Quiet env (t.writeRecord i type base pieces env).2.2 :=
  Metatable.appendEachQuiet pieces t.inodeTable env

theorem inodeEncodeQuiet (o : SerializeConfig) (t : Inodes) (i : Nat) (env : Env) :
    Quiet env (t.inodeEncode o i env).2.2 := by
  obtain ⟨pieces, same, _⟩ := inodeEncodeRecord o t i env
  rw [same]
  exact writeRecordQuiet ..

theorem directoryWriteQuiet (o : SerializeConfig) (t : Inodes) (d : Nat) (env : Env) :
    Quiet env (t.directoryWrite o d env).2.2 := by
  have encoded := directoryEncodeQuiet o t d env
  unfold directoryWrite
  generalize t.directoryEncode o d env = result at encoded ⊢
  obtain ⟨_ | _, v, mid⟩ := result
  · exact encoded
  · exact encoded.trans (writeRecordQuiet ..)

theorem serializeQuiet {fuel : Nat} {ok : Bool} (ran : inodeSerialize o fuel t i env = some (ok, u, after)) :
    Quiet env after :=
  (serializeRelates (R := fun s s' => Quiet s.2 s'.2) (fun s => .refl s.2) (fun first second => first.trans second)
    (fun _ _ env => .refl env) (fun t i env _ _ => inodeEncodeQuiet o t i env)
    (fun t i env _ => directoryWriteQuiet o t i env) ran).2

end Inodes

/-! ### The operations of libsqfs_image_finalize -/

namespace Assembly
open Env

/- libsqfs_image_create starts at 0 and claims space for the superblock and, if
there are any, for the options behind a field of two bytes. -/
def reserveHead (data : Option Bytes) (env : Env) : Nat × Env :=
  let (_, env) := env.reserve 96
  match data with
  | none => (0, env)
  | some data => env.reserve (data.length + 2)

structure Opened (image : Assembly) (env : Env) : Prop where
  located : image.compressorOptionDataLoc = (reserveHead image.compressorOptionData .fresh).1
  size : (reserveHead image.compressorOptionData .fresh).2.size ≤ env.size

def InHead : Later → Prop
  | .compressorOptions | .superblock => True
  | _ => False

variable {low : Nat} {o : FinalizeConfig} {image next : Assembly} {env after : Env} {op : Later} {ok : Bool}

theorem xattrTableAdds (above : low ≤ env.size) {host : Bytes.Host} {tab table : XattrTable}
    (written : tab.write host env = some (ok, table, after)) : Adds low env after := by
  unfold XattrTable.write at written
  split at written
  · cases written
    exact .refl ..
  · have data := Metatable.writeAdds above host tab.xattrData
    split at written
    · rename_i first
      rw [first] at data
      cases written
      exact data
    · rename_i mid first
      rw [first] at data
      dsimp only at data written
      have both := data.trans (Metatable.writeAdds (above.trans data.size) host tab.xattrDescriptors)
      split at written
      · rename_i second
        rw [second] at both
        cases written
        exact both
      · rename_i mid' second
        rw [second] at both
        dsimp only at both written
        split at written
        · rename_i failed
          cases written
          exact both.filled above failed
        · rename_i last filled
          have header := both.filled above filled
          split at written
          · cases written
          · split at written
            · rename_i failed
              cases written
              exact header.filled above failed
            · rename_i indexed
              cases written
              exact header.filled above indexed

theorem performAdds {depth : Nat} (above : low ≤ env.size) (tables : ¬ InHead op)
    (ran : image.perform o depth env op = some (ok, next, after)) : Adds low env after := by
  replace ran := (performed.mp ran).1
  cases op with
  | serialize =>
    simp only [operate, Option.bind_eq_some_iff, Option.map_eq_some_iff] at ran
    obtain ⟨root, _, ⟨good, u, last⟩, returned, same⟩ := ran
    cases same
    exact (Inodes.serializeQuiet returned).adds
  | inodeTable =>
    have table := Metatable.writeAdds above o.host image.inodes.inodeTable
    cases ran
    exact table
  | dirTable =>
    have table := Metatable.writeAdds above o.host image.inodes.dirTable
    cases ran
    exact table
  | fragmentTable =>
    simp only [operate, writeFragmentTable] at ran
    split at ran
    · cases ran
      exact reserveAdds low 0 env
    · have table := Metatable.appendedAdds above o.host (.init (some image.compressor))
        (fragmentEntries o.host image.bulkdata).flatten
      cases ran
      exact table
  | exportTable =>
    have table := Metatable.appendedAdds above o.host (.init none) (exportEntries o.host image.inodes).flatten
    cases ran
    exact table
  | idTable =>
    have table := Metatable.appendedAdds above o.host (.init none) (IdTable.encode o.host image.idtable.ids)
    cases ran
    exact table
  | xattrTable =>
    obtain ⟨⟨good, table, last⟩, written, same⟩ := Option.map_eq_some_iff.mp ran
    cases same
    exact xattrTableAdds above written
  | compressorOptions => exact absurd trivial tables
  | superblock => exact absurd trivial tables

theorem performHead {depth : Nat} (ran : image.perform o depth env op = some (ok, next, after)) :
    next.compressorOptionData = image.compressorOptionData ∧
      next.compressorOptionDataLoc = image.compressorOptionDataLoc := by
  replace ran := (performed.mp ran).1
  cases op with
  | serialize =>
    simp only [operate, Option.bind_eq_some_iff, Option.map_eq_some_iff] at ran
    obtain ⟨root, _, serialized, _, same⟩ := ran
    cases same
    exact ⟨rfl, rfl⟩
  | fragmentTable =>
    simp only [operate, writeFragmentTable] at ran
    split at ran <;> cases ran <;> exact ⟨rfl, rfl⟩
  | xattrTable =>
    obtain ⟨_, _, same⟩ := Option.map_eq_some_iff.mp ran
    cases same
    exact ⟨rfl, rfl⟩
  | superblock =>
    obtain ⟨_, _, same⟩ := Option.map_eq_some_iff.mp ran
    cases same
    exact ⟨rfl, rfl⟩
  | _ =>
    cases ran
    exact ⟨rfl, rfl⟩

theorem superblockLength (host : Bytes.Host) (image : Assembly) (root : Inode) (size : Nat) :
    (superblock host image root size).length = 96 := by
  simp [superblock]

structure Spares (low high : Nat) (env after : Env) : Prop where
  size : env.size ≤ after.size
  written : ∃ more, after.written = env.written ++ more ∧
    ∀ w ∈ more, ∀ i, low ≤ i → i < high → ¬ Medium.Covers w i

theorem Spares.trans {low high : Nat} {mid : Env} (first : Spares low high env mid)
    (second : Spares low high mid after) : Spares low high env after := by
  obtain ⟨grown, more, log, apart⟩ := first
  obtain ⟨grown', more', log', apart'⟩ := second
  refine ⟨grown.trans grown', more ++ more', by rw [log', log, List.append_assoc], fun w member => ?_⟩
  rcases List.mem_append.mp member with old | new
  · exact apart w old
  · exact apart' w new

theorem Spares.read {low high start count : Nat} (spares : Spares low high env after) (from' : low ≤ start)
    (below : start + count ≤ high) :
    Medium.read after.written start count = Medium.read env.written start count := by
  obtain ⟨_, more, log, apart⟩ := spares
  rw [log]
  exact Medium.readKept fun w member i first last => apart w member i (by omega) (by omega)

theorem addsSpares {low high : Nat} (adds : Adds high env after) : Spares low high env after := by
  obtain ⟨grown, more, log, above⟩ := adds
  refine ⟨grown, more, log, fun w member i _ last covered => ?_⟩
  have := above w member
  have := covered.1
  omega

theorem pwriteSpares {low high offset : Nat} {data : Bytes} (below : offset + data.length ≤ low)
    (done : env.pwrite data offset = (ok, after)) : Spares low high env after := by
  cases ok with
  | true =>
    obtain ⟨log, size, _⟩ := Env.pwriteWritten done
    refine ⟨Nat.le_of_eq size.symm, _, log, fun w member i first _ covered => ?_⟩
    obtain rfl := List.mem_singleton.mp member
    have last := covered.2
    dsimp only at last
    omega
  | false =>
    have size := Env.pwriteSize env data offset
    have log : (env.pwrite data offset).2.written = env.written := by
      unfold Env.pwrite at done ⊢
      simp only at done ⊢
      split at done
      · cases done
      · rename_i refused
        rw [if_neg refused]
    rw [done] at size log
    exact ⟨Nat.le_of_eq size.symm, [], by rw [log, List.append_nil], by simp⟩

theorem performSpares {low high depth : Nat} (opened : Opened image env)
    (head : (reserveHead image.compressorOptionData .fresh).2.size ≤ low) (above : high ≤ env.size)
    (ran : image.perform o depth env op = some (ok, next, after)) : Spares low high env after := by
  by_cases tables : InHead op
  · replace ran := (performed.mp ran).1
    cases op with
    | compressorOptions =>
      have located := opened.located
      simp only [operate, writeCompressorOptions] at ran
      cases given : image.compressorOptionData with
      | none =>
        rw [given] at ran
        cases ran
        exact addsSpares (.refl ..)
      | some data =>
        rw [given] at ran located head
        have first : image.compressorOptionDataLoc = 96 := located
        have room : 96 + (data.length + 2) ≤ low := head
        have length : (Bytes.put o.host 2 (data.length ||| 2 ^ 15)).length = 2 := by simp
        simp only [first] at ran
        split at ran
        · rename_i failed
          cases ran
          exact pwriteSpares (by rw [length]; omega) failed
        · rename_i sized
          cases ran
          exact (pwriteSpares (by rw [length]; omega) sized).trans (pwriteSpares (by omega) rfl)
    | superblock =>
      obtain ⟨root, _, same⟩ := Option.map_eq_some_iff.mp ran
      cases same
      have room : 96 ≤ (reserveHead image.compressorOptionData .fresh).2.size := by
        unfold reserveHead
        cases image.compressorOptionData with
        | none => exact le_refl 96
        | some data => exact Nat.le_add_right 96 _
      exact pwriteSpares (by rw [superblockLength]; omega) rfl
    | _ => exact absurd tables id
  · exact addsSpares (performAdds above tables ran)

theorem stageSpares {low high : Nat} {s last : List Later × Assembly × Env} {l : Later × Bool}
    (opened : Opened s.2.1 s.2.2) (head : (reserveHead s.2.1.compressorOptionData .fresh).2.size ≤ low)
    (above : high ≤ s.2.2.size) (taken : Stage o s l last) :
    Spares low high s.2.2 last.2.2 ∧ Opened last.2.1 last.2.2 ∧
      last.2.1.compressorOptionData = s.2.1.compressorOptionData := by
  obtain ⟨rest, _, ⟨depth, ran⟩, _⟩ := taken
  have spares := performSpares opened head above ran
  obtain ⟨data, loc⟩ := performHead ran
  refine ⟨spares, ⟨?_, ?_⟩, data⟩
  · rw [loc, data]
    exact opened.located
  · rw [data]
    exact opened.size.trans spares.size

theorem runSpares {low high : Nat} {first s : List Later × Assembly × Env}
    {trace : List (Event (List Later × Assembly × Env) (Later × Bool))} (opened : Opened first.2.1 first.2.2)
    (head : (reserveHead first.2.1.compressorOptionData .fresh).2.size ≤ low) (above : high ≤ first.2.2.size)
    (run : Run (Stage o) first trace s) :
    Spares low high first.2.2 s.2.2 ∧ Opened s.2.1 s.2.2 ∧
      s.2.1.compressorOptionData = first.2.1.compressorOptionData := by
  have free : Obeys (fun _ _ => True) trace := fun _ _ => trivial
  refine Run.invariant (I := fun s => Spares low high first.2.2 s.2.2 ∧ Opened s.2.1 s.2.2 ∧
    s.2.1.compressorOptionData = first.2.1.compressorOptionData) ⟨addsSpares (.refl ..), opened, rfl⟩ ?_ run free
  intro s l next ⟨spares, opened, data⟩ _ taken
  obtain ⟨spares', opened', data'⟩ := stageSpares opened (data ▸ head) (above.trans spares.size) taken
  exact ⟨spares.trans spares', opened', data'.trans data⟩

end Assembly
end Libsqfs
