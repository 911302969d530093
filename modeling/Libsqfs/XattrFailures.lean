import Libsqfs.XattrCodec

/-! Creations of attribute sets whose allocations may fail: an allocation for the
record of the set leaves no trace, one for a block of the two tables leaves a number
without a descriptor. -/
namespace Libsqfs
open FramedStream

structure Env.Needs (env : Env) (n : Nat) (ok : Bool) (after : Env) : Prop where
  granted : ok = true ↔ ∀ i < n, env.mallocs i = true
  rest : ok = true → after.mallocs = fun i => env.mallocs (n + i)

namespace Env
variable {env middle after : Env} {n m : Nat}

theorem Needs.none (env : Env) : env.Needs 0 true env :=
  ⟨by simp, fun _ => by simp⟩

theorem Needs.comp {ok : Bool} (head : env.Needs n true middle) (tail : middle.Needs m ok after) :
    env.Needs (n + m) ok after := by
  have here := head.granted.mp rfl
  constructor
  · rw [tail.granted, head.rest rfl]
    constructor
    · intro granted i inside
      by_cases early : i < n
      · exact here i early
      · have late := granted (i - n) (by omega)
        simp only [show n + (i - n) = i by omega] at late
        exact late
    · exact fun granted i inside => granted (n + i) (by omega)
  · intro ok
    rw [tail.rest ok, head.rest rfl]
    simp only [Nat.add_assoc]

theorem Needs.failed (head : env.Needs n false middle) (m : Nat) (last : Env) : env.Needs (n + m) false last := by
  refine ⟨⟨nofun, fun granted => ?_⟩, nofun⟩
  exact absurd (head.granted.mpr fun i inside => granted i (by omega)) (by simp)

end Env

namespace Metatable
variable {decompress : Bytes → Option Bytes} {tab : Metatable} {stream : Bytes}

def blocksOpened (k n : Nat) : Nat :=
  (k + n + metadataSize - 1) / metadataSize - (k + metadataSize - 1) / metadataSize

theorem openedTogether (k m n : Nat) : blocksOpened k (m + n) = blocksOpened k m + blocksOpened (k + m) n := by
  have low : (k + metadataSize - 1) / metadataSize ≤ (k + m + metadataSize - 1) / metadataSize :=
    Nat.div_le_div_right (by omega)
  have high : (k + m + metadataSize - 1) / metadataSize ≤ (k + m + n + metadataSize - 1) / metadataSize :=
    Nat.div_le_div_right (by omega)
  unfold blocksOpened
  rw [← Nat.add_assoc k m n]
  omega

theorem openedNone {k n : Nat} (inside : k % metadataSize ≠ 0) (fits : k % metadataSize + n ≤ metadataSize) :
    blocksOpened k n = 0 := by
  unfold blocksOpened metadataSize at *
  omega

theorem openedOne {k n : Nat} (edge : k % metadataSize = 0) (positive : 0 < n) (fits : n ≤ metadataSize) :
    blocksOpened k n = 1 := by
  unfold blocksOpened metadataSize at *
  omega

theorem openedExactly (h : Holds decompress tab stream) :
    tab.openedBlockFill = stream.length % metadataSize ∧
      (tab.openedBlock = none ↔ stream.length % metadataSize = 0) := by
  obtain ⟨_, fill, _⟩ := positionStream h
  refine ⟨fill, ?_⟩
  rw [← fill]
  constructor
  · exact h.closed
  · intro empty
    cases shape : tab.openedBlock with
    | none => rfl
    | some b =>
      obtain ⟨same, _, _, positive⟩ := h.opened b shape
      omega

/- An append needs the blocks that its bytes open, and falls short without one. -/
theorem appendLoopNeeds {fuel : Nat} (data : Bytes) (env : Env) (h : Holds decompress tab stream)
    (enough : data.length ≤ fuel) :
    env.Needs (blocksOpened stream.length data.length) (appendLoop fuel tab data env).1
        (appendLoop fuel tab data env).2.2 ∧
      ((appendLoop fuel tab data env).1 = false → ∀ s, Holds decompress (appendLoop fuel tab data env).2.1 s →
        s.length < stream.length + data.length) := by
  induction fuel generalizing tab stream data env with
  | zero =>
    have none : data = [] := List.eq_nil_of_length_eq_zero (by omega)
    subst none
    have opened : blocksOpened stream.length 0 = 0 := Nat.sub_self _
    rw [List.length_nil, opened]
    exact ⟨.none env, by simp [appendLoop]⟩
  | succ fuel ih =>
    cases data with
    | nil =>
      have opened : blocksOpened stream.length 0 = 0 := Nat.sub_self _
      rw [List.length_nil, opened]
      exact ⟨.none env, by simp [appendLoop]⟩
    | cons x rest =>
      obtain ⟨fill, edge⟩ := openedExactly h
      have room := h.room
      obtain ⟨n, count⟩ : ∃ n, n = min (metadataSize - tab.openedBlockFill) (x :: rest).length := ⟨_, rfl⟩
      have positive : 0 < n := by simp only [List.length_cons] at count; omega
      have part : ((x :: rest).take n).length = n := by rw [List.length_take]; omega
      have split : (x :: rest).length = n + ((x :: rest).drop n).length := by rw [List.length_drop]; omega
      have turn (b : Metablock) (env' : Env) (target : tab.openedBlock = some b ∨
          tab.openedBlock = none ∧ b = ⟨metadataSize, tab.size, false, []⟩) :=
        ih ((x :: rest).drop n) env' (copyInHolds ((x :: rest).take n) h target (by omega) (by omega)).1
          (by simp only [List.length_cons] at enough split; omega)
      rw [List.length_append, part] at turn
      simp only [appendLoop, getblock]
      rw [split, openedTogether, ← Nat.add_assoc]
      cases shape : tab.openedBlock with
      | some b =>
        have inside : stream.length % metadataSize ≠ 0 := by
          rw [Ne, ← edge, shape]
          simp
        rw [openedNone inside (by omega), Nat.zero_add]
        simp only [← split, ← count]
        exact turn b env (.inl shape)
      | none =>
        have empty := edge.mp shape
        rw [openedOne empty positive (by omega)]
        cases allocated : env.mallocs 0 with
        | false =>
          have lacking : env.Needs 1 false env := by
            refine ⟨⟨fun bad => absurd bad Bool.false_ne_true, fun granted => ?_⟩,
              fun bad => absurd bad Bool.false_ne_true⟩
            rw [granted 0 (by omega)] at allocated
            cases allocated
          simp only [Env.malloc, allocated, Bool.false_eq_true, if_false]
          refine ⟨lacking.failed _ _, fun _ s holds => ?_⟩
          rw [holds.stream, ← h.stream]
          omega
        | true =>
          have taken : env.Needs 1 true env.malloc.2 := by
            refine ⟨⟨fun _ i first => ?_, fun _ => rfl⟩, fun _ => ?_⟩
            · rw [show i = 0 by omega, allocated]
            · simp only [Env.malloc, Nat.add_comm 1]
          obtain ⟨needs, short⟩ := turn ⟨metadataSize, tab.size, false, []⟩ env.malloc.2 (.inr ⟨shape, rfl⟩)
          have zero : tab.openedBlockFill = 0 := fill.trans empty
          have same (b : Metablock) (d : Bytes) :
              {tab with openedBlock := some b, openedBlockFill := 0}.copyIn b d = tab.copyIn b d := by
            simp only [copyIn, zero]
          rw [zero] at count
          simp only [Env.malloc, allocated, if_true, ← split, ← count, same]
          exact ⟨taken.comp needs, short⟩

theorem appendNeeds (data : Bytes) (env : Env) (h : Holds decompress tab stream) :
    env.Needs (blocksOpened stream.length data.length) (tab.append data env).1 (tab.append data env).2.2 ∧
      ((tab.append data env).1 = false → ∀ s, Holds decompress (tab.append data env).2.1 s →
        s.length < stream.length + data.length) :=
  appendLoopNeeds data env h (Nat.le_refl _)

theorem appendEachNeeds (pieces : List Bytes) (env : Env) (h : Holds decompress tab stream) :
    env.Needs (blocksOpened stream.length pieces.flatten.length) (appendEach pieces tab env).1
      (appendEach pieces tab env).2.2 := by
  induction pieces generalizing tab stream env with
  | nil =>
    have opened : blocksOpened stream.length 0 = 0 := Nat.sub_self _
    rw [List.flatten_nil, List.length_nil, opened]
    exact .none env
  | cons data rest ih =>
    obtain ⟨taken, _, holds, _, all, _⟩ := appendSpec data env h
    have head := (appendNeeds data env h).1
    rw [appendEach, List.flatten_cons, List.length_append, openedTogether]
    generalize tab.append data env = result at holds all head
    obtain ⟨ok, next, after⟩ := result
    cases ok with
    | false => exact head.failed _ _
    | true =>
      rw [all rfl] at holds
      have tail := ih after holds
      rw [List.length_append] at tail
      exact head.comp tail

end Metatable

namespace Xattrset
open Metatable
variable {decompress : Bytes → Option Bytes} {table : Metatable} {stream : Bytes}

theorem serializeLoopNeeds (host : Bytes.Host) (attrs : List Xattr) (first : Bool) (set : Xattrset) (env : Env)
    (h : Holds decompress table stream) :
    env.Needs (blocksOpened stream.length (bytes host attrs).length) (serializeLoop host attrs first set table env).1
      (serializeLoop host attrs first set table env).2.2.2 := by
  induction attrs generalizing first set table stream env with
  | nil =>
    have opened : blocksOpened stream.length 0 = 0 := Nat.sub_self _
    rw [bytes, List.flatMap_nil, List.length_nil, opened]
    exact .none env
  | cons xattr rest ih =>
    have split : bytes host (xattr :: rest) =
        xattr.entry host ++ ((xattr.pieces host).flatten ++ bytes host rest) := by
      simp [bytes, Xattr.bytes]
    obtain ⟨taken, _, holds, _, all, _⟩ := appendSpec (xattr.entry host) env h
    have head := (appendNeeds (xattr.entry host) env h).1
    rw [serializeLoop, split, List.length_append, openedTogether]
    generalize table.append (xattr.entry host) env = result at holds all head
    obtain ⟨ok, next, after⟩ := result
    cases ok with
    | false => exact head.failed _ _
    | true =>
      rw [all rfl] at holds
      apply head.comp
      obtain ⟨taken', _, holds', _, all', _⟩ := appendEachSpec (xattr.pieces host) after holds
      have body := appendEachNeeds (xattr.pieces host) after holds
      rw [List.length_append] at body
      rw [List.length_append, openedTogether]
      simp only
      generalize appendEach (xattr.pieces host) next after = result at holds' all' body
      obtain ⟨ok, next', after'⟩ := result
      cases ok with
      | false => exact body.failed _ _
      | true =>
        rw [all' rfl] at holds'
        have tail := ih false {set with
            storedPos := if first then table.position else set.storedPos
            storedSize := set.storedSize + (4 + xattr.suffix.length + 4 + xattr.value.length)} after' holds'
        rw [List.length_append, List.length_append] at tail
        exact body.comp tail

/- The descriptor comes behind all data, and not in parts. -/
theorem serializeDataNeeds (host : Bytes.Host) (set : Xattrset) {tab : XattrTable} {descriptors : Bytes} (env : Env)
    (data : Holds decompress tab.xattrData stream) (rows : Holds decompress tab.xattrDescriptors descriptors) :
    env.Needs (blocksOpened stream.length (bytes host set.attrs).length + blocksOpened descriptors.length 16)
        (set.serializeData host tab env).1 (set.serializeData host tab env).2.2.2 ∧
      ((set.serializeData host tab env).1 = false →
        (set.serializeData host tab env).2.2.1.nids = tab.nids ∧
        ∃ s rows', Holds decompress (set.serializeData host tab env).2.2.1.xattrData s ∧
          Holds decompress (set.serializeData host tab env).2.2.1.xattrDescriptors rows' ∧
          rows'.length < descriptors.length + 16) := by
  have loop := serializeLoopNeeds host set.attrs true {set with storedSize := 0} env data
  obtain ⟨taken, _, holds, _⟩ := serializeLoopSpec host set.attrs true {set with storedSize := 0} env data
  rw [serializeData]
  generalize serializeLoop host set.attrs true {set with storedSize := 0} tab.xattrData env = result at loop holds
  obtain ⟨ok, next, table, after⟩ := result
  cases ok with
  | false =>
    refine ⟨loop.failed _ _, fun _ => ⟨rfl, _, descriptors, holds, rows, ?_⟩⟩
    omega
  | true =>
    obtain ⟨last, short⟩ := appendNeeds (next.descriptor host) after rows
    obtain ⟨taken', _, rows', _⟩ := appendSpec (next.descriptor host) after rows
    rw [descriptorLength] at last short
    exact ⟨loop.comp last, fun failed => ⟨rfl, _, _, holds, rows', short failed _ rows'⟩⟩

end Xattrset

namespace XattrTable
open Metatable
variable {host : Bytes.Host} {stale : MetatableEntry} {tab : XattrTable} {stream descriptors : Bytes}

/- What a creation does, by the answers of the allocator: two for the record of the
set, then one for each block. -/
inductive Outcome (host : Bytes.Host) (stale : MetatableEntry) (attrs : List Xattr) (tab : XattrTable)
    (stream descriptors : Bytes) (mallocs : Nat → Bool) : Option Nat × XattrTable × Env → Prop where
  | refused {after : Env} (lacking : ¬ (mallocs 0 = true ∧ mallocs 1 = true))
      (rest : after.mallocs = fun i => mallocs ((if mallocs 0 then 2 else 1) + i)) :
      Outcome host stale attrs tab stream descriptors mallocs (none, tab, after)
  | created {next : XattrTable} {after : Env} {set : Xattrset} (linked : mallocs 0 = true ∧ mallocs 1 = true)
      (granted : ∀ i < blocksOpened stream.length (Xattrset.bytes host attrs).length +
        blocksOpened descriptors.length 16, mallocs (2 + i) = true)
      (rest : after.mallocs = fun i => mallocs (2 + (blocksOpened stream.length (Xattrset.bytes host attrs).length +
        blocksOpened descriptors.length 16 + i)))
      (last : next.xattrsets.getLast? = some set) (id : set.id = tab.nids) (nids : next.nids = tab.nids + 1)
      (data : Holds raw next.xattrData (stream ++ Xattrset.bytes host attrs))
      (rows : Holds raw next.xattrDescriptors (descriptors ++ set.descriptor host)) :
      Outcome host stale attrs tab stream descriptors mallocs (some set.id, next, after)
  | failed {next : XattrTable} {after : Env} {stream' descriptors' : Bytes}
      (linked : mallocs 0 = true ∧ mallocs 1 = true)
      (lacking : ¬ ∀ i < blocksOpened stream.length (Xattrset.bytes host attrs).length +
        blocksOpened descriptors.length 16, mallocs (2 + i) = true)
      (nids : next.nids = tab.nids + 1) (data : Holds raw next.xattrData stream')
      (rows : Holds raw next.xattrDescriptors descriptors') (short : descriptors'.length < descriptors.length + 16) :
      Outcome host stale attrs tab stream descriptors mallocs (none, next, after)

theorem createOutcome (attrs : List Xattr) (env : Env) (data : Holds raw tab.xattrData stream)
    (rows : Holds raw tab.xattrDescriptors descriptors) :
    Outcome host stale attrs tab stream descriptors env.mallocs (tab.xattrsetCreate host stale attrs env) := by
  simp only [xattrsetCreate]
  cases first : env.mallocs 0 with
  | false =>
    simp only [Env.malloc, first, Bool.not_false, if_true]
    exact .refused (by simp [first]) (by simp only [first, Bool.false_eq_true, if_false, Nat.add_comm 1])
  | true =>
    cases second : env.mallocs 1 with
    | false =>
      simp only [Env.malloc, first, second, Bool.not_true, Bool.not_false, Bool.false_eq_true, if_false, if_true]
      exact .refused (by simp [second]) (by simp only [first, if_true, Nat.add_comm 2])
    | true =>
      have data' : Holds raw {tab with nids := tab.nids + 1}.xattrData stream := data
      obtain ⟨needs, short⟩ :=
        Xattrset.serializeDataNeeds host ⟨attrs, tab.nids, stale, 0⟩ env.malloc.2.malloc.2 data' rows
      have shift : env.malloc.2.malloc.2.mallocs = fun i => env.mallocs (2 + i) := by
        simp only [Env.malloc, Nat.add_comm 2]
      have first' : env.malloc.1 = true := first
      have second' : env.malloc.2.malloc.1 = true := second
      simp only [first', second', Bool.not_true, Bool.false_eq_true, if_false]
      generalize env.malloc.2.malloc.2 = later at needs short shift ⊢
      generalize shape : Xattrset.serializeData host ⟨attrs, tab.nids, stale, 0⟩ {tab with nids := tab.nids + 1}
        later = result at needs short ⊢
      obtain ⟨ok, set, out, after⟩ := result
      have granted := needs.granted
      rw [shift] at granted
      cases ok with
      | false =>
        obtain ⟨nids, s, rows', holds, last, less⟩ := short rfl
        exact .failed ⟨first, second⟩ (fun all => absurd (granted.mpr all) (by simp)) nids holds last less
      | true =>
        obtain ⟨_, id, _, _, nids, holds, last⟩ := Xattrset.serializeDataSpec host data' rows shape
        refine .created ⟨first, second⟩ (granted.mp rfl) ?_ (List.getLast?_concat ..) id nids holds last
        rw [needs.rest rfl, shift]

/-! ### Over a run -/

def returnedSets (host : Bytes.Host) (stale : MetatableEntry) :
    List (List Xattr) → XattrTable → Env → List Xattrset
  | [], _, _ => []
  | attrs :: rest, tab, env =>
    let head := tab.xattrsetCreate host stale attrs env
    (if head.1.isSome then head.2.1.xattrsets.getLast?.toList else []) ++
      returnedSets host stale rest head.2.1 head.2.2

def writtenDescriptors (tab : XattrTable) : Bytes :=
  contents (framing raw) tab.xattrDescriptors.flush.blocks

structure Usable (host : Bytes.Host) (returned : List Xattrset) (tab : XattrTable) : Prop where
  own : ∀ set ∈ returned, Bytes.slice tab.writtenDescriptors (16 * set.id) 16 = set.descriptor host
  count : tab.writtenDescriptors.length = 16 * tab.nids
  written : ∀ later, tab.write host later ≠ none

def BlocksGranted (host : Bytes.Host) : Nat → Nat → List (List Xattr) → (Nat → Bool) → Prop
  | _, _, [], _ => True
  | k, nids, attrs :: rest, mallocs =>
    let size := (Xattrset.bytes host attrs).length
    let opened := blocksOpened k size + blocksOpened (16 * nids) 16
    if mallocs 0 = true ∧ mallocs 1 = true then
      (∀ i < opened, mallocs (2 + i) = true) ∧
        BlocksGranted host (k + size) (nids + 1) rest fun i => mallocs (2 + (opened + i))
    else BlocksGranted host k nids rest fun i => mallocs ((if mallocs 0 then 2 else 1) + i)

theorem writtenStream (rows : Holds raw tab.xattrDescriptors descriptors) : tab.writtenDescriptors = descriptors :=
  (flushClosed rows).stream

theorem writeReturns (rows : Holds raw tab.xattrDescriptors descriptors)
    (count : descriptors.length = 16 * tab.nids) (env : Env) : tab.write host env ≠ none := by
  rw [write]
  split
  · simp
  split
  · simp
  · rename_i data env₁ _
    dsimp only
    split
    · simp
    · rename_i next env₂ written
      have closed := (writeClosed rows written).1
      have blocks : next.blocks.length = indexEntries {tab with xattrData := data, xattrDescriptors := next} := by
        rw [closed.cut.count, closed.stream, indexEntries, count, Nat.mul_comm]
      dsimp only [Env.reserve]
      split
      · simp
      · rw [← blocks, if_neg (Nat.lt_irrefl _)]
        split <;> simp

/- The state between the calls while every block was granted. -/
structure Aligned (host : Bytes.Host) (returned : List Xattrset) (tab : XattrTable) (stream descriptors : Bytes) :
    Prop where
  data : Holds raw tab.xattrData stream
  rows : Holds raw tab.xattrDescriptors descriptors
  count : descriptors.length = 16 * tab.nids
  own : ∀ set ∈ returned, Bytes.slice descriptors (16 * set.id) 16 = set.descriptor host
  known : ∀ set ∈ returned, set.id < tab.nids

theorem Aligned.usable {returned : List Xattrset} (aligned : Aligned host returned tab stream descriptors) :
    Usable host returned tab where
  own := by rw [writtenStream aligned.rows]; exact aligned.own
  count := by rw [writtenStream aligned.rows]; exact aligned.count
  written := writeReturns aligned.rows aligned.count

theorem Aligned.created {returned : List Xattrset} {next : XattrTable} {set : Xattrset} {taken : Bytes}
    (aligned : Aligned host returned tab stream descriptors) (id : set.id = tab.nids) (nids : next.nids = tab.nids + 1)
    (data : Holds raw next.xattrData (stream ++ taken))
    (rows : Holds raw next.xattrDescriptors (descriptors ++ set.descriptor host)) :
    Aligned host (returned ++ [set]) next (stream ++ taken) (descriptors ++ set.descriptor host) := by
  have size := Xattrset.descriptorLength host set
  refine ⟨data, rows, ?_, fun x member => ?_, fun x member => ?_⟩
  · rw [List.length_append, aligned.count, size, nids]
    omega
  · rcases List.mem_append.mp member with old | new
    · have inside := aligned.known x old
      have count := aligned.count
      rw [← aligned.own x old, Bytes.slice, Bytes.slice, List.drop_append_of_le_length (by omega),
        List.take_append_of_le_length (by rw [List.length_drop]; omega)]
    · rw [List.mem_singleton.mp new, id, ← aligned.count, Bytes.slice, List.drop_left, ← size, List.take_length]
  · rw [nids]
    rcases List.mem_append.mp member with old | new
    · exact Nat.lt_succ_of_lt (aligned.known x old)
    · rw [List.mem_singleton.mp new, id]
      exact Nat.lt_succ_self _

theorem grantedUsable {returned : List Xattrset} (sets : List (List Xattr)) (env : Env)
    (aligned : Aligned host returned tab stream descriptors)
    (granted : BlocksGranted host stream.length tab.nids sets env.mallocs) :
    Usable host (returned ++ returnedSets host stale sets tab env) (createAll host stale sets tab env).2.1 := by
  induction sets generalizing returned tab stream descriptors env with
  | nil =>
    rw [returnedSets, List.append_nil]
    exact aligned.usable
  | cons attrs rest ih =>
    have outcome := @createOutcome host stale tab stream descriptors attrs env aligned.data aligned.rows
    rw [BlocksGranted, ← aligned.count] at granted
    simp only [returnedSets, createAll]
    generalize tab.xattrsetCreate host stale attrs env = result at outcome ⊢
    cases outcome with
    | refused lacking rest =>
      rw [if_neg lacking, ← rest] at granted
      exact ih _ aligned granted
    | created linked blocks rest last id nids data rows =>
      rw [if_pos linked, ← rest, ← List.length_append, ← nids] at granted
      simp only [Option.isSome_some, if_true, last, Option.toList_some, ← List.append_assoc]
      exact ih _ (aligned.created id nids data rows) granted.2
    | failed linked lacking =>
      rw [if_pos linked] at granted
      exact absurd granted.1 lacking

theorem staysBehind (sets : List (List Xattr)) (env : Env) (data : Holds raw tab.xattrData stream)
    (rows : Holds raw tab.xattrDescriptors descriptors) (behind : descriptors.length < 16 * tab.nids) :
    ∃ rows', Holds raw (createAll host stale sets tab env).2.1.xattrDescriptors rows' ∧
      rows'.length < 16 * (createAll host stale sets tab env).2.1.nids := by
  induction sets generalizing tab stream descriptors env with
  | nil => exact ⟨descriptors, rows, behind⟩
  | cons attrs rest ih =>
    have outcome := @createOutcome host stale tab stream descriptors attrs env data rows
    simp only [createAll]
    generalize tab.xattrsetCreate host stale attrs env = result at outcome ⊢
    cases outcome with
    | refused => exact ih _ data rows behind
    | @created next after set linked granted rest last id nids data' rows' =>
      refine ih _ data' rows' ?_
      rw [List.length_append, Xattrset.descriptorLength, nids]
      omega
    | failed linked lacking nids data' rows' short =>
      refine ih _ data' rows' ?_
      rw [nids]
      omega

theorem lackingBehind {returned : List Xattrset} (sets : List (List Xattr)) (env : Env)
    (aligned : Aligned host returned tab stream descriptors)
    (lacking : ¬ BlocksGranted host stream.length tab.nids sets env.mallocs) :
    ∃ rows', Holds raw (createAll host stale sets tab env).2.1.xattrDescriptors rows' ∧
      rows'.length < 16 * (createAll host stale sets tab env).2.1.nids := by
  induction sets generalizing returned tab stream descriptors env with
  | nil => exact absurd trivial lacking
  | cons attrs rest ih =>
    have outcome := @createOutcome host stale tab stream descriptors attrs env aligned.data aligned.rows
    have count := aligned.count
    rw [BlocksGranted, ← aligned.count] at lacking
    simp only [createAll]
    generalize tab.xattrsetCreate host stale attrs env = result at outcome ⊢
    cases outcome with
    | refused none rest =>
      rw [if_neg none, ← rest] at lacking
      exact ih _ aligned lacking
    | created linked blocks rest last id nids data rows =>
      rw [if_pos linked, ← rest, ← List.length_append, ← nids] at lacking
      exact ih _ (aligned.created id nids data rows) fun granted => lacking ⟨blocks, granted⟩
    | failed linked none nids data rows short =>
      refine staysBehind rest _ data rows ?_
      rw [nids]
      omega

theorem usableIff (sets : List (List Xattr)) (env : Env) :
    Usable host (returnedSets host stale sets init env) (createAll host stale sets init env).2.1 ↔
      BlocksGranted host 0 0 sets env.mallocs := by
  have start : Aligned host [] init [] [] := ⟨(initTables raw).1, (initTables raw).2, rfl, by simp, by simp⟩
  constructor
  · intro usable
    by_contra lacking
    obtain ⟨rows', holds, behind⟩ := @lackingBehind host stale init [] [] [] sets env start lacking
    have count := usable.count
    rw [writtenStream holds] at count
    omega
  · intro granted
    have usable := @grantedUsable host stale init [] [] [] sets env start granted
    exact usable

def onceScarce : Env := ⟨0, [], fun n => n ≠ 2, fun _ => true⟩

def oneFailed : XattrTable := (createAll .little ⟨0, 0⟩ [[sampleXattr []]] init onceScarce).2.1

/- The second set is number 1 and has the first descriptor; with the first alone,
writing the table follows a null pointer. -/
theorem laterSetMisnumbered :
    ¬ Usable .little (returnedSets .little ⟨0, 0⟩ [[sampleXattr []], [sampleXattr [7]]] init onceScarce)
        (createAll .little ⟨0, 0⟩ [[sampleXattr []], [sampleXattr [7]]] init onceScarce).2.1 ∧
      oneFailed.write .little .fresh = none := by
  refine ⟨fun usable => ?_, Option.isNone_iff_eq_none.mp (by decide +kernel)⟩
  have own := usable.own ⟨[sampleXattr [7]], 1, ⟨0, 0⟩, 10⟩ (List.mem_singleton.mpr rfl)
  cases own

end XattrTable
end Libsqfs
