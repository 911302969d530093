import Libsqfs.DirectoryEntries
import Libsqfs.ImageRun

/-! The chunks of one file: what libsqfs_regular_inode_create submits, and what the
inode keeps of it for as long as the image is built. -/
namespace Libsqfs
open Transition

section
variable {α : Type}

theorem sliceBlocks (l : List α) (size n : Nat) :
    ((List.range n).flatMap fun k => (l.drop (k * size)).take size) = l.take (n * size) := by
  induction n with
  | zero => simp
  | succ n ih =>
    rw [List.range_succ, List.flatMap_append, ih, List.flatMap_singleton, Nat.succ_mul, List.take_add]

end

namespace Inodes

def blockItems (blockSize : Nat) (data : Bytes) (n : Nat) : List Item :=
  (List.range n).map fun k => ⟨.fullBlock, blockPiece data blockSize k⟩

def tailItems (data : Bytes) (size : Nat) : List Item :=
  if size = 0 then [] else [⟨.fragmentPiece, ⟨data, size, data.length - size⟩⟩]

def fileItems (fragments : FragmentsOption) (blockSize : Nat) (data : Bytes) : List Item :=
  blockItems blockSize data (slicing fragments blockSize data.length).1 ++
    tailItems data (slicing fragments blockSize data.length).2

def fileInode (fragments : FragmentsOption) (blockSize : Nat) (data : Bytes) (first : Nat) : RegularInode where
  fileSize := data.length
  sparseSize := 0
  blocks := List.range' first (slicing fragments blockSize data.length).1
  tailPiece := if (slicing fragments blockSize data.length).2 = 0 then none
    else some (first + (slicing fragments blockSize data.length).1)

section
variable {fragments : FragmentsOption} {blockSize chunks n i : Nat} {data : Bytes} {t t' : Inodes} {attr : InodeAttr}
  {items : List Item} {env after : Env}

theorem submitBlocksItems {ns : List Nat} (ok : submitBlocks data blockSize ns env = (true, items, after)) :
    items = ns.map fun k => ⟨.fullBlock, blockPiece data blockSize k⟩ := by
  induction ns generalizing env items with
  | nil =>
    cases ok
    rfl
  | cons n rest ih =>
    simp only [submitBlocks] at ok
    split at ok
    · cases ok
    · generalize shape : submitBlocks data blockSize rest env.malloc.2 = result at ok
      obtain ⟨good, more, last⟩ := result
      simp only [Prod.mk.injEq] at ok
      obtain ⟨rfl, rfl, rfl⟩ := ok
      rw [ih shape, List.map_cons]

/- Where memory runs out, no chunk follows. -/
theorem submitBlocksPrefix (data : Bytes) (blockSize : Nat) (ns : List Nat) (env : Env) :
    (submitBlocks data blockSize ns env).2.1 <+: ns.map fun k => ⟨.fullBlock, blockPiece data blockSize k⟩ := by
  induction ns generalizing env with
  | nil => exact List.prefix_refl _
  | cons n rest ih =>
    simp only [submitBlocks]
    split
    · exact List.nil_prefix
    · exact List.prefix_cons_inj _ |>.mpr (ih _)

theorem createdFile
    (ok : t.regularInodeCreate fragments blockSize chunks attr (some data) env = (some i, items, t', after)) :
    items = fileItems fragments blockSize data ∧ i = t.count ∧
      t' = (t.inodeInit attr (.regular (fileInode fragments blockSize data chunks))).2 := by
  unfold fileItems fileInode tailItems
  simp only [regularInodeCreate] at ok
  split at ok
  · cases ok
  · split at ok
    · cases ok
    · generalize shape : submitBlocks data blockSize _ _ = result at ok
      obtain ⟨good, submitted, last⟩ := result
      simp only at ok
      split at ok
      · cases ok
      · rename_i stored
        simp only [Bool.not_eq_true', Bool.not_eq_false] at stored
        rw [stored] at shape
        have blocks : submitted = blockItems blockSize data (slicing fragments blockSize data.length).1 :=
          submitBlocksItems shape
        have counted : submitted.length = (slicing fragments blockSize data.length).1 := by simp [blocks, blockItems]
        rw [counted] at ok
        split at ok
        · rename_i whole
          simp only [Prod.mk.injEq, Option.some.injEq] at ok
          obtain ⟨rfl, rfl, rfl, -⟩ := ok
          exact ⟨by rw [if_pos whole, List.append_nil, blocks], rfl, by rw [if_pos whole]⟩
        · rename_i tail
          split at ok
          · cases ok
          · simp only [Prod.mk.injEq, Option.some.injEq] at ok
            obtain ⟨rfl, rfl, rfl, -⟩ := ok
            exact ⟨by rw [if_neg tail, blocks], rfl, by rw [if_neg tail]⟩

theorem createdPrefix (t : Inodes) (attr : InodeAttr) (data : Bytes) (env : Env) :
    (t.regularInodeCreate fragments blockSize chunks attr (some data) env).2.1 <+: fileItems fragments blockSize data := by
  have blocks (env : Env) : (submitBlocks data blockSize (List.range (slicing fragments blockSize data.length).1) env).2.1 <+:
      fileItems fragments blockSize data :=
    (submitBlocksPrefix ..).trans (List.prefix_append _ _)
  cases made : t.regularInodeCreate fragments blockSize chunks attr (some data) env with
  | mk i? rest =>
    obtain ⟨items, u, after⟩ := rest
    cases i? with
    | some i =>
      have same := (createdFile made).1
      exact same ▸ List.prefix_refl items
    | none =>
      simp only [regularInodeCreate] at made
      split at made
      · cases made
        exact List.nil_prefix
      · split at made
        · cases made
          exact List.nil_prefix
        · split at made
          · cases made
            exact blocks _
          · split at made
            · cases made
            · split at made
              · cases made
                exact blocks _
              · cases made

/-! ### Their bytes -/

theorem blockPread (data : Bytes) (blockSize k : Nat) :
    (blockPiece data blockSize k).pread = (data.drop (k * blockSize)).take blockSize := by
  simp only [DataPiece.pread, blockPiece, Bytes.slice]
  split
  · rename_i short
    rw [← List.length_drop, List.take_length, List.take_of_length_le (by rw [List.length_drop]; omega)]
  · rfl

theorem blockItemsBytes (data : Bytes) (blockSize n : Nat) :
    ((blockItems blockSize data n).flatMap fun x => x.data.pread) = data.take (n * blockSize) := by
  rw [blockItems, List.flatMap_map, ← sliceBlocks]
  exact List.flatMap_congr fun k _ => blockPread data blockSize k

theorem slicingTail (size : Nat) : (slicing fragments blockSize size).2 ≤ size := by
  cases fragments with
  | never => exact Nat.zero_le _
  | small =>
    simp only [slicing]
    split
    · exact le_refl _
    · exact Nat.zero_le _
  | always => exact Nat.mod_le _ _

/- The blocks reach to the tail, or to the end and beyond where there is none. -/
theorem slicingWhole (positive : 0 < blockSize) (size : Nat) :
    size - (slicing fragments blockSize size).2 ≤ (slicing fragments blockSize size).1 * blockSize ∧
      ((slicing fragments blockSize size).2 ≠ 0 →
        (slicing fragments blockSize size).1 * blockSize = size - (slicing fragments blockSize size).2) := by
  have rounded : size ≤ (size + blockSize - 1) / blockSize * blockSize := by
    have split := Nat.div_add_mod (size + blockSize - 1) blockSize
    have below := Nat.mod_lt (size + blockSize - 1) positive
    rw [Nat.mul_comm] at split
    omega
  cases fragments with
  | never => exact ⟨by simpa [slicing] using rounded, fun tail => absurd rfl tail⟩
  | small =>
    simp only [slicing]
    split
    · exact ⟨by omega, fun _ => by omega⟩
    · exact ⟨by omega, fun tail => absurd rfl tail⟩
  | always =>
    have split := Nat.div_add_mod size blockSize
    rw [Nat.mul_comm] at split
    simp only [slicing]
    omega

structure Readable (blockSize : Nat) (p : DataPiece) : Prop where
  positive : 0 < p.size
  bound : p.size ≤ blockSize
  whole : p.pread.length = p.size

theorem slicingInside (positive : 0 < blockSize) (size : Nat) {k : Nat}
    (inside : k < (slicing fragments blockSize size).1) : k * blockSize < size := by
  have rounded (below : k < (size + blockSize - 1) / blockSize) : k * blockSize < size := by
    have := (Nat.le_div_iff_mul_le positive).mp below
    rw [Nat.succ_mul] at this
    omega
  cases fragments with
  | never => exact rounded inside
  | small =>
    simp only [slicing] at inside
    split at inside
    · exact absurd inside (Nat.not_lt_zero k)
    · exact rounded inside
  | always =>
    have := (Nat.le_div_iff_mul_le positive).mp (show k + 1 ≤ size / blockSize from inside)
    rw [Nat.succ_mul] at this
    omega

theorem slicingTailBound (positive : 0 < blockSize) (size : Nat) :
    (slicing fragments blockSize size).2 ≤ blockSize := by
  cases fragments with
  | never => exact Nat.zero_le _
  | small =>
    simp only [slicing]
    split
    · omega
    · exact Nat.zero_le _
  | always => exact (Nat.mod_lt _ positive).le

theorem fileItemsReadable (positive : 0 < blockSize) {x : Item} (member : x ∈ fileItems fragments blockSize data) :
    x.kind ≠ .closingPiece ∧ Readable blockSize x.data := by
  rcases List.mem_append.mp member with block | tail
  · obtain ⟨k, inside, rfl⟩ := List.mem_map.mp block
    have below := slicingInside positive data.length (List.mem_range.mp inside)
    refine ⟨by simp, ?_, ?_, ?_⟩
    · simp only [blockPiece]
      split <;> omega
    · simp only [blockPiece]
      split <;> omega
    · rw [blockPread, List.length_take, List.length_drop]
      simp only [blockPiece]
      split <;> omega
  · rw [tailItems] at tail
    split at tail
    · cases tail
    · rename_i some
      obtain rfl := List.mem_singleton.mp tail
      have within := @slicingTail fragments blockSize data.length
      exact ⟨by simp, Nat.pos_of_ne_zero some, slicingTailBound positive _,
        Bytes.sliceLength (by dsimp only; omega)⟩

theorem Effect.body {c : Call} {ok : Bool} (linkage : t.Linkage) (valid : c.Valid t) (effect : t.Effect c ok t')
    (inside : i < t.count) {reg : RegularInode} (body : (t.inode i).body = .regular reg) :
    i < t'.count ∧ (t'.inode i).body = .regular reg := by
  have file {x : Nat} (directory : (t.inode x).IsDirectory) : i ≠ x := by
    rintro rfl
    obtain ⟨dir, same⟩ := directory
    rw [body] at same
    cases same
  have claimed (p j : Nat) : ((t.claimed p j).inode i).body = .regular reg := by
    rw [claimedInode]
    split
    · rename_i directory
      rw [if_neg (file directory)]
      exact body
    · exact body
  cases effect with
  | refused => exact ⟨inside, body⟩
  | created => exact ⟨Nat.lt_succ_of_lt inside, by rw [initInode, if_neg (Nat.ne_of_lt inside)]; exact body⟩
  | failed => exact ⟨by rw [(claimedRest ..).2.2.1]; exact inside, claimed _ _⟩
  | added =>
    have inserted := addedEntries linkage valid
    refine ⟨by rw [inserted.count, (claimedRest ..).2.2.1]; exact inside, ?_⟩
    rw [inserted.inode, if_neg (file valid.1.2)]
    exact claimed _ _
  | rooted =>
    refine ⟨inside, ?_⟩
    rw [rootedInode]
    exact body

end
end Inodes

/-! ### While the image is built -/

namespace Session

/- The chunks of a file are in their place in the chain. -/
structure Filed (config : BuilderConfig) (b : Builder) (i : Nat) (data : Bytes) : Prop where
  created : i < b.inodes.count
  chunks : ∃ before after, b.items = before ++ Inodes.fileItems config.fragments config.blockSize data ++ after ∧
    (b.inodes.inode i).body = .regular (Inodes.fileInode config.fragments config.blockSize data before.length)

def Created (trace : List (Event Session ((Call × Bool) ⊕ Label))) (i : Nat) (data : Bytes) : Prop :=
  ∃ e ∈ trace, ∃ attr, e.label = .inl (.regular attr (some data), true) ∧ e.before.builder.inodes.count = i

section
variable {o : ImageConfig} {config : BuilderConfig} {s next : Session} {l : (Call × Bool) ⊕ Label}
  {trace : List (Event Session ((Call × Bool) ⊕ Label))} {b after : Builder} {i : Nat} {data : Bytes}

theorem Filed.items (filed : Filed config b i data) {more : List Item} (items : after.items = b.items ++ more)
    (inodes : i < after.inodes.count ∧ (after.inodes.inode i).body = (b.inodes.inode i).body) :
    Filed config after i data := by
  obtain ⟨_, before, rest, shape, body⟩ := filed
  exact ⟨inodes.1, before, rest ++ more, by rw [items, shape, List.append_assoc], inodes.2.trans body⟩

theorem Filed.call (filed : Filed config b i data) (linkage : b.inodes.Linkage) {c : Call × Bool}
    (taken : b.Step config c after) : Filed config after i data := by
  obtain ⟨_, _, _, body⟩ := filed.chunks
  obtain ⟨valid, effect⟩ := Builder.stepEffect taken
  obtain ⟨inside, same⟩ := effect.body linkage valid filed.created body
  exact filed.items (callItems taken).symm ⟨inside, same.trans body.symm⟩

theorem createdFiled {attr : InodeAttr} (taken : b.Step config (.regular attr (some data), true) after) :
    Filed config after b.inodes.count data := by
  have result := taken.2
  simp only [Builder.run] at result
  generalize shape : Inodes.regularInodeCreate _ _ _ _ _ _ _ = made at result
  obtain ⟨i?, items, t, env⟩ := made
  obtain ⟨ok, rfl⟩ := Prod.mk.inj result
  obtain ⟨i, rfl⟩ := Option.isSome_iff_exists.mp ok
  obtain ⟨rfl, rfl, rfl⟩ := Inodes.createdFile shape
  exact ⟨Nat.lt_succ_self _, b.items, [], by rw [List.append_nil], by rw [Inodes.initInode, if_pos rfl]⟩

theorem recordItems (b : Builder) (l : Label) :
    (∃ more, (record b l).items = b.items ++ more) ∧ (record b l).inodes = b.inodes := by
  cases l with
  | «seal» => exact ⟨⟨_, rfl⟩, rfl⟩
  | _ => exact ⟨⟨[], (List.append_nil _).symm⟩, rfl⟩

structure Filing (config : BuilderConfig) (trace : List (Event Session ((Call × Bool) ⊕ Label))) (s : Session) : Prop where
  linkage : s.builder.inodes.Linkage
  filed : ∀ i data, Created trace i data → Filed config s.builder i data

theorem createdSnoc {e : Event Session ((Call × Bool) ⊕ Label)} (created : Created (trace ++ [e]) i data) :
    Created trace i data ∨
      ∃ attr, e.label = .inl (.regular attr (some data), true) ∧ e.before.builder.inodes.count = i := by
  obtain ⟨x, member, attr, label, number⟩ := created
  rcases List.mem_append.mp member with old | new
  · exact .inl ⟨x, old, attr, label, number⟩
  · obtain rfl := List.mem_singleton.mp new
    exact .inr ⟨attr, label, number⟩

theorem Filing.called (filing : Filing config trace s) {c : Call × Bool} (taken : s.builder.Step config c next.builder) :
    Filing config (trace ++ [⟨s, .inl c, next⟩]) next := by
  obtain ⟨valid, effect⟩ := Builder.stepEffect taken
  refine ⟨filing.linkage.effect valid effect, fun i data created => ?_⟩
  rcases createdSnoc created with old | ⟨attr, same, rfl⟩
  · exact (filing.filed i data old).call filing.linkage taken
  · cases same
    exact createdFiled taken

theorem Filing.still (filing : Filing config trace s) (inodes : next.builder.inodes = s.builder.inodes)
    (items : ∃ more, next.builder.items = s.builder.items ++ more)
    (other : ∀ attr data, l ≠ .inl (.regular attr data, true)) : Filing config (trace ++ [⟨s, l, next⟩]) next := by
  refine ⟨by rw [inodes]; exact filing.linkage, fun i data created => ?_⟩
  rcases createdSnoc created with old | ⟨attr, same, _⟩
  · have filed := filing.filed i data old
    obtain ⟨more, shape⟩ := items
    exact filed.items shape ⟨by rw [inodes]; exact filed.created, by rw [inodes]⟩
  · exact absurd same (other _ _)

theorem Filing.step (filing : Filing config trace s) (taken : Step o config s l next) :
    Filing config (trace ++ [⟨s, l, next⟩]) next := by
  cases taken with
  | call free idle other taken => exact filing.called taken
  | setRoot idle missing taken rooted found => exact filing.called taken
  | setRootFails => exact filing.still rfl ⟨[], (List.append_nil _).symm⟩ (by simp)
  | submit => exact filing.still rfl ⟨[], (List.append_nil _).symm⟩ (by simp)
  | work other root busy taken =>
    obtain ⟨items, inodes⟩ := recordItems s.builder _
    exact filing.still inodes items (by simp)

/- Each file that was created has its chunks in the chain, whatever was created since. -/
theorem runFiled {compressBlocks compressFragments : Bool} {size : Nat} {env : Env}
    (run : Run (Step o config) (init config compressBlocks compressFragments size env) trace s)
    (created : Created trace i data) : Filed config s.builder i data := by
  have free : Obeys (fun _ _ => True) trace := fun _ _ => trivial
  refine (Run.history (I := Filing config) ⟨Inodes.linkageInit _, fun i data none => ?_⟩ ?_ run free).filed i data created
  · obtain ⟨_, member, _⟩ := none
    cases member
  · exact fun trace s l next filing _ taken => filing.step taken

def Fitting (config : BuilderConfig) (x : Item) : Prop :=
  x.kind = .closingPiece ∨ Inodes.Readable config.blockSize x.data

theorem callFitting (positive : 0 < config.blockSize) {c : Call × Bool} (taken : b.Step config c after)
    (fitting : ∀ x ∈ b.items, Fitting config x) : ∀ x ∈ after.items, Fitting config x := by
  obtain ⟨c, ok⟩ := c
  obtain ⟨_, result⟩ := taken
  have still (same : after.items = b.items) : ∀ x ∈ after.items, Fitting config x := by rwa [same]
  cases c with
  | regular attr data =>
    have items := congrArg (fun r : Bool × Builder => r.2.items) result
    dsimp only [Builder.run] at items
    rw [← items]
    intro x member
    rcases List.mem_append.mp member with old | new
    · exact fitting x old
    · cases data with
      | none => cases new
      | some data =>
        obtain ⟨more, shape⟩ := Inodes.createdPrefix b.inodes attr data b.env
        exact .inr (Inodes.fileItemsReadable positive (by rw [← shape]; exact List.mem_append_left _ new)).2
  | _ =>
    cases result
    exact still rfl

theorem runFitting {compressBlocks compressFragments : Bool} {size : Nat} {env : Env} (positive : 0 < config.blockSize)
    (run : Run (Step o config) (init config compressBlocks compressFragments size env) trace s) :
    ∀ x ∈ s.builder.items, Fitting config x := by
  have free : Obeys (fun _ _ => True) trace := fun _ _ => trivial
  refine Run.invariant (I := fun s => ∀ x ∈ s.builder.items, Fitting config x) (fun x none => ?_) ?_ run free
  · cases none
  · intro s l next fitting _ taken
    cases taken with
    | call free idle other taken => exact callFitting positive taken fitting
    | setRoot idle missing taken => exact callFitting positive taken fitting
    | setRootFails => exact fitting
    | submit => exact fitting
    | @work i image other root busy taken =>
      intro x member
      cases i with
      | «seal» =>
        rcases List.mem_append.mp member with old | new
        · exact fitting x old
        · rw [List.mem_singleton.mp new]
          exact .inl rfl
      | _ => exact fitting x member

end
end Session
end Libsqfs
