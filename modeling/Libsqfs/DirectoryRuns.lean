import Libsqfs.DirectoryEncode
import Libsqfs.GreedyRuns

/-! The encoded listing as a sequence of runs, a header and the entries after
it. The encoder cuts the entries greedily: a run goes on as long as it stays
legal. -/
namespace Libsqfs
open Metatable (uint)
open Bytes (put)
open GreedyRuns

def runSize (run : List Listed) : Nat :=
  dirHeaderSize + (run.map fun x => dirEntrySize + x.name.length).sum

/- What a reader demands of a header and the entries after it. -/
def Legal : List Listed → Prop
  | [] => False
  | first :: more =>
    (first :: more).length ≤ 256 ∧
    (∀ x ∈ first :: more, x.place.block = first.place.block) ∧
    (∀ x ∈ first :: more, -32768 ≤ (x.inodeNumber : Int) - first.inodeNumber ∧
      (x.inodeNumber : Int) - first.inodeNumber ≤ 32767) ∧
    (runSize (first :: more) ≤ metadataSize ∨ more = [])

def fitsRun : List Listed → Listed → Bool
  | [], _ => false
  | first :: more, x =>
    x.place.block = first.place.block ∧
    -32768 ≤ (x.inodeNumber : Int) - first.inodeNumber ∧
    (x.inodeNumber : Int) - first.inodeNumber ≤ 32767 ∧
    runSize (first :: more) + (dirEntrySize + x.name.length) ≤ metadataSize ∧
    (first :: more).length ≤ 255

def runData (host : Bytes.Host) (count : Nat) : List Listed → List Bytes
  | [] => []
  | first :: more =>
    (dirHeader host count first.place.block first.inodeNumber ++ dirEntry host first first.inodeNumber) ::
      more.map fun x => dirEntry host x first.inodeNumber

def runsData (host : Bytes.Host) (runs : List (List Listed)) : List Bytes :=
  runs.flatMap fun run => runData host (run.length - 1) run

def runStarts (start : Nat) : List (List Listed) → List Nat
  | [] => []
  | run :: rest => start :: runStarts (start + run.length) rest

section
variable {host : Bytes.Host} {stale : Nat} {first x : Listed} {run more : List Listed}

theorem runSizeSnoc (run : List Listed) (x : Listed) :
    runSize (run ++ [x]) = runSize run + (dirEntrySize + x.name.length) := by
  simp [runSize, Nat.add_assoc]

theorem legalSingle (x : Listed) : Legal [x] := by
  refine ⟨by simp, by simp, fun y member => ?_, .inr rfl⟩
  rw [List.mem_singleton.mp member]
  omega

theorem fitsLegal (legal : Legal run) : fitsRun run x = true ↔ Legal (run ++ [x]) := by
  cases run with
  | nil => exact legal.elim
  | cons first more =>
    obtain ⟨count, block, number, size⟩ := legal
    have longer := runSizeSnoc (first :: more) x
    simp only [fitsRun, decide_eq_true_eq, List.cons_append, Legal]
    rw [← List.cons_append, longer]
    constructor
    · rintro ⟨sameBlock, low, high, fit, short⟩
      refine ⟨by simp at short ⊢; omega, fun y member => ?_, fun y member => ?_, .inl fit⟩
      · rcases List.mem_append.mp member with old | new
        · exact block y old
        · rw [List.mem_singleton.mp new]; exact sameBlock
      · rcases List.mem_append.mp member with old | new
        · exact number y old
        · rw [List.mem_singleton.mp new]; exact ⟨low, high⟩
    · rintro ⟨short, block', number', fit⟩
      obtain ⟨low, high⟩ := number' x (by simp)
      refine ⟨block' x (by simp), low, high, fit.resolve_right (by simp), ?_⟩
      simp at short ⊢; omega

@[simp] theorem dirHeaderLength (host : Bytes.Host) (count block number : Nat) :
    (dirHeader host count block number).length = dirHeaderSize := by
  simp [dirHeader, dirHeaderSize]

@[simp] theorem dirEntryLength (host : Bytes.Host) (x : Listed) (base : Nat) :
    (dirEntry host x base).length = dirEntrySize + x.name.length := by
  simp [dirEntry, dirEntrySize]
  omega

theorem runDataLength (host : Bytes.Host) (count : Nat) (first : Listed) (more : List Listed) :
    (runData host count (first :: more)).flatten.length = runSize (first :: more) := by
  have entries : (more.map fun x => dirEntry host x first.inodeNumber).flatten.length =
      (more.map fun x => dirEntrySize + x.name.length).sum := by
    rw [List.length_flatten, List.map_map]
    exact congrArg List.sum (List.map_congr_left fun x _ => dirEntryLength host x first.inodeNumber)
  simp only [runData, List.flatten_cons, List.length_append, dirHeaderLength, dirEntryLength, entries,
    runSize, List.map_cons, List.sum_cons, Nat.add_assoc]

theorem runDataSnoc (host : Bytes.Host) (count : Nat) (first : Listed) (more : List Listed) (x : Listed) :
    runData host count (first :: more ++ [x]) =
      runData host count (first :: more) ++ [dirEntry host x first.inodeNumber] := by
  simp [runData]

@[simp] theorem runDataCount (host : Bytes.Host) (count : Nat) (run : List Listed) :
    (runData host count run).length = run.length := by
  cases run <;> simp [runData]

theorem runsDataSnoc (host : Bytes.Host) (runs : List (List Listed)) (run : List Listed) :
    runsData host (runs ++ [run]) = runsData host runs ++ runData host (run.length - 1) run := by
  simp [runsData]

theorem runsDataCount (host : Bytes.Host) (runs : List (List Listed)) :
    (runsData host runs).length = runs.flatten.length := by
  induction runs with
  | nil => rfl
  | cons run rest ih =>
    have rest' : (rest.flatMap fun run => runData host (run.length - 1) run).length = rest.flatten.length := ih
    simp only [runsData, List.flatMap_cons, List.length_append, rest', runDataCount, List.flatten_cons]

theorem runStartsSnoc (start : Nat) (runs : List (List Listed)) (run : List Listed) :
    runStarts start (runs ++ [run]) = runStarts start runs ++ [start + runs.flatten.length] := by
  induction runs generalizing start with
  | nil => simp [runStarts]
  | cons first rest ih =>
    rw [List.cons_append, runStarts, ih, runStarts, List.flatten_cons, List.length_append, Nat.add_assoc]
    rfl

/- The count of a run goes where its header left room for it. -/
theorem recordedHeader (host : Bytes.Host) (stale count : Nat) (first : Listed) (rest : Bytes) :
    put host 4 count ++ (dirHeader host stale first.place.block first.inodeNumber ++ rest).drop 4 =
      dirHeader host count first.place.block first.inodeNumber ++ rest := by
  have room : (put host 4 stale).length = 4 := by simp
  unfold dirHeader
  rw [List.append_assoc, List.append_assoc, List.append_assoc, List.drop_left' room,
    List.append_assoc]

end

/-! ### The loop -/

structure Layout (enc : Encoder) (pieces : List Bytes) (entries : List Listed) (starts : List Nat) :
    Prop where
  data : enc.done.map EncodedEntry.encodedData = pieces
  listed : enc.done.map EncodedEntry.listed = entries
  sizes : ∀ x ∈ enc.done, x.encodedSize = x.encodedData.length
  serialno : enc.serialno = enc.done.length
  offset : enc.offset = pieces.flatten.length
  places : ∀ (k : Nat) (x : EncodedEntry), enc.done[k]? = some x →
    x.serialno = k ∧ x.offset = (pieces.take k).flatten.length
  indexed : enc.indexed = starts

def Encoder.pushed (enc : Encoder) (x : Listed) (d : Bytes) (count : Nat) (reference : Option Nat)
    (indexed : List Nat) : Encoder :=
  ⟨count, reference, enc.offset + d.length, enc.serialno + 1,
    enc.done ++ [⟨x, enc.serialno, enc.offset, d, d.length⟩], indexed⟩

structure Opened (host : Bytes.Host) (stale : Nat) (enc : Encoder) (closed : List (List Listed))
    (opened : List Listed) : Prop where
  layout : Layout enc (runsData host closed ++ runData host stale opened) (closed.flatten ++ opened)
    (runStarts 0 (closed ++ [opened]))
  reference : enc.reference = some closed.flatten.length
  count : enc.count = opened.length
  legal : Legal opened

section
variable {host : Bytes.Host} {stale : Nat} {enc : Encoder} {pieces : List Bytes} {entries : List Listed}
  {starts : List Nat} {closed : List (List Listed)} {opened : List Listed} {x : Listed}

theorem Layout.push (layout : Layout enc pieces entries starts) (x : Listed) (d : Bytes) (count : Nat)
    (reference : Option Nat) (starts' : List Nat) :
    Layout (enc.pushed x d count reference starts') (pieces ++ [d]) (entries ++ [x]) starts' := by
  have length : pieces.length = enc.done.length := by rw [← layout.data, List.length_map]
  refine ⟨by simp [Encoder.pushed, layout.data], by simp [Encoder.pushed, layout.listed],
    fun y member => ?_, by simp [Encoder.pushed, layout.serialno],
    by simp [Encoder.pushed, layout.offset], fun k y found => ?_, rfl⟩
  · rcases List.mem_append.mp member with old | new
    · exact layout.sizes y old
    · rw [List.mem_singleton.mp new]
  · rw [Encoder.pushed, List.getElem?_append] at found
    split at found
    · rename_i inside
      obtain ⟨serialno, offset⟩ := layout.places k y found
      refine ⟨serialno, ?_⟩
      rw [offset, List.take_append_of_le_length (by omega)]
    · rename_i outside
      obtain ⟨zero, own⟩ := List.getElem?_eq_some_iff.mp found
      have last : k = enc.done.length := by
        simp only [List.length_singleton] at zero
        omega
      subst last
      simp only [Nat.sub_self, List.getElem_cons_zero] at own
      subst own
      refine ⟨layout.serialno, ?_⟩
      rw [← length, List.take_left]
      exact layout.offset

theorem mapModify {α β : Type} {g : α → β} {f : α → α} {f' : β → β} (swap : ∀ a, g (f a) = f' (g a))
    (l : List α) (r : Nat) : (l.modify r f).map g = (l.map g).modify r f' := by
  induction l generalizing r with
  | nil => simp
  | cons a rest ih =>
    cases r with
    | zero => simp [swap]
    | succ r => simp [ih]

theorem modifyMiddle {α : Type} (xs : List α) (y : α) (ys : List α) (f : α → α) :
    (xs ++ y :: ys).modify xs.length f = xs ++ f y :: ys := by
  induction xs with
  | nil => rfl
  | cons x rest ih => simpa using ih

theorem flattenModify {f : Bytes → Bytes} {l : List Bytes} {r : Nat}
    (same : ∀ d, l[r]? = some d → (f d).length = d.length) (k : Nat) :
    ((l.modify r f).take k).flatten.length = (l.take k).flatten.length := by
  induction l generalizing r k with
  | nil => simp
  | cons d rest ih =>
    cases k with
    | zero => rfl
    | succ k =>
      cases r with
      | zero => simp [same d rfl]
      | succ r =>
        have tail := ih (fun d found => same d (by simpa using found)) k
        simp only [List.modify_succ_cons, List.take_succ_cons, List.flatten_cons, List.length_append, tail]

theorem Layout.patch (layout : Layout enc pieces entries starts) {r : Nat} {f : Bytes → Bytes}
    (same : ∀ d, pieces[r]? = some d → (f d).length = d.length) :
    Layout {enc with done := enc.done.modify r fun x => {x with encodedData := f x.encodedData}}
      (pieces.modify r f) entries starts := by
  have found {k : Nat} {x : EncodedEntry}
      (at_k : (enc.done.modify r fun x => {x with encodedData := f x.encodedData})[k]? = some x) :
      ∃ y, enc.done[k]? = some y ∧ x.serialno = y.serialno ∧ x.offset = y.offset ∧
        x.encodedSize = y.encodedSize ∧ x.encodedData.length = y.encodedData.length := by
    rw [List.getElem?_modify] at at_k
    obtain ⟨y, own, rfl⟩ := Option.map_eq_some_iff.mp at_k
    refine ⟨y, own, ?_⟩
    split
    · rename_i here
      subst here
      refine ⟨rfl, rfl, rfl, same _ ?_⟩
      rw [← layout.data, List.getElem?_map, own]
      rfl
    · exact ⟨rfl, rfl, rfl, rfl⟩
  refine ⟨?_, ?_, fun x member => ?_, ?_, ?_, fun k x at_k => ?_, layout.indexed⟩
  · have swapped : (enc.done.modify r fun x => {x with encodedData := f x.encodedData}).map
        EncodedEntry.encodedData = (enc.done.map EncodedEntry.encodedData).modify r f :=
      mapModify (by intro x; rfl) _ _
    rw [swapped, layout.data]
  · have kept : (enc.done.modify r fun x => {x with encodedData := f x.encodedData}).map
        EncodedEntry.listed = (enc.done.map EncodedEntry.listed).modify r id :=
      mapModify (by intro x; rfl) _ _
    rw [kept, List.modify_id, layout.listed]
  · obtain ⟨k, at_k⟩ := List.getElem?_of_mem member
    obtain ⟨y, own, _, _, size, length⟩ := found at_k
    rw [size, length]
    exact layout.sizes y (List.mem_of_getElem? own)
  · simp [layout.serialno]
  · have whole := flattenModify same (pieces.modify r f).length
    rw [List.take_length, List.length_modify, List.take_length] at whole
    rw [whole]
    exact layout.offset
  · obtain ⟨y, own, serialno, offset, _⟩ := found at_k
    rw [serialno, offset, flattenModify same]
    exact layout.places k y own

theorem Opened.record (h : Opened host stale enc closed opened) :
    Layout (enc.recordCount host) (runsData host (closed ++ [opened])) (closed ++ [opened]).flatten
      (runStarts 0 (closed ++ [opened])) ∧
    (enc.recordCount host).count = enc.count ∧ (enc.recordCount host).reference = enc.reference := by
  cases opened with
  | nil => exact h.legal.elim
  | cons first more =>
    have short : more.length + 1 ≤ 256 := h.legal.1
    have count : uintSub enc.count 1 = more.length := by
      rw [h.count, uintSub, List.length_cons]
      omega
    have length : (runsData host closed).length = closed.flatten.length := runsDataCount host closed
    have recorded : (runsData host closed ++ runData host stale (first :: more)).modify
        closed.flatten.length (fun d => put host 4 (uintSub enc.count 1) ++ d.drop 4) =
        runsData host (closed ++ [first :: more]) := by
      rw [count, runsDataSnoc, ← length]
      simp only [runData, modifyMiddle, recordedHeader, List.length_cons, Nat.add_sub_cancel]
    have same (d : Bytes) (at_r : (runsData host closed ++ runData host stale (first :: more))[
        closed.flatten.length]? = some d) :
        (put host 4 (uintSub enc.count 1) ++ d.drop 4).length = d.length := by
      rw [← length, List.getElem?_append_right (Nat.le_refl _), Nat.sub_self] at at_r
      obtain rfl := Option.some.inj at_r
      simp [dirHeaderSize]
      omega
    have shape : enc.recordCount host = {enc with done := enc.done.modify closed.flatten.length fun x =>
        {x with encodedData := put host 4 (uintSub enc.count 1) ++ x.encodedData.drop 4}} := by
      simp only [Encoder.recordCount, h.reference]
    have patched := h.layout.patch same
    rw [recorded] at patched
    rw [shape]
    exact ⟨by simpa using patched, rfl, rfl⟩

theorem Opened.referenceEntry {first : Listed} {more : List Listed}
    (h : Opened host stale enc closed (first :: more)) :
    ∃ y, enc.reference.bind (fun r => enc.done[r]?) = some y ∧ y.listed = first ∧
      enc.serialno - y.serialno = (first :: more).length ∧
      enc.offset - y.offset = runSize (first :: more) ∧ y.offset ≤ enc.offset := by
  obtain ⟨layout, reference, _⟩ := h
  have length : (runsData host closed).length = closed.flatten.length := runsDataCount host closed
  have total : enc.done.length = closed.flatten.length + (first :: more).length := by
    rw [← List.length_append, ← layout.listed, List.length_map]
  have inside : closed.flatten.length < enc.done.length := by
    rw [total, List.length_cons]; omega
  obtain ⟨y, found⟩ : ∃ y, enc.done[closed.flatten.length]? = some y :=
    ⟨_, List.getElem?_eq_getElem inside⟩
  obtain ⟨serialno, offset⟩ := layout.places _ y found
  rw [← length, List.take_left] at offset
  have listed : (enc.done.map EncodedEntry.listed)[closed.flatten.length]? = some y.listed := by
    rw [List.getElem?_map, found]; rfl
  rw [layout.listed, List.getElem?_append_right (Nat.le_refl _), Nat.sub_self] at listed
  have whole := layout.offset
  rw [List.flatten_append, List.length_append, runDataLength] at whole
  refine ⟨y, by rw [reference]; exact found, (Option.some.inj listed).symm, ?_, ?_, ?_⟩
  · rw [layout.serialno, serialno, total]; omega
  · omega
  · omega

theorem Opened.needs (h : Opened host stale enc closed opened) (x : Listed) :
    needNewDirHeader ⟨x, enc.serialno, enc.offset, [], dirEntrySize + x.name.length⟩
      (enc.reference.bind fun r => enc.done[r]?) = !fitsRun opened x := by
  cases opened with
  | nil => exact h.legal.elim
  | cons first more =>
    obtain ⟨y, found, listed, serialno, offset, below⟩ := h.referenceEntry
    rw [found, needNewDirHeader]
    simp only [listed, serialno, fitsRun]
    have size : dirEntrySize + x.name.length + enc.offset - y.offset =
        runSize (first :: more) + (dirEntrySize + x.name.length) := by omega
    rw [size]
    by_cases block : x.place.block = first.place.block
    · by_cases number : (x.inodeNumber : Int) - first.inodeNumber < -32768 ∨
          (x.inodeNumber : Int) - first.inodeNumber > 32767
      · have outside : ¬ (-32768 ≤ (x.inodeNumber : Int) - first.inodeNumber ∧
            (x.inodeNumber : Int) - first.inodeNumber ≤ 32767) := by omega
        simp only [block, ne_eq, not_true, if_false, number, if_true, true_and]
        simp; omega
      · simp only [block, ne_eq, not_true, if_false, number, true_and]
        by_cases large : runSize (first :: more) + (dirEntrySize + x.name.length) > metadataSize
        · simp [large, Nat.not_le.mpr large]
        · by_cases many : (first :: more).length > 255
          · simp only [large, many, if_true, if_false]
            simp; simp at many; omega
          · simp only [large, many, if_false]
            simp; simp at many; omega
    · simp [block]

theorem Opened.stay (h : Opened host stale enc closed opened) {x : Listed} {env : Env}
    (allocated : env.malloc.1 = true) (fits : fitsRun opened x = true) :
    ∃ enc', enc.encodeEntry host stale x env = (true, enc', env.malloc.2) ∧
      Opened host stale enc' closed (opened ++ [x]) := by
  cases opened with
  | nil => exact h.legal.elim
  | cons first more =>
    obtain ⟨y, found, listed, _⟩ := h.referenceEntry
    have need := h.needs x
    rw [fits] at need
    have legal := (fitsLegal h.legal).mp fits
    have pushed := h.layout.push x (dirEntry host x first.inodeNumber) (uint (enc.count + 1))
      enc.reference enc.indexed
    refine ⟨enc.pushed x (dirEntry host x first.inodeNumber) (uint (enc.count + 1)) enc.reference
      enc.indexed, ?_, ⟨?_, h.reference, ?_, legal⟩⟩
    · simp only [Encoder.encodeEntry, need, allocated]
      simp only [Bool.not_true, Bool.false_eq_true, if_false, found, Option.map_some, Option.getD_some,
        listed, List.nil_append, Encoder.pushed, dirEntryLength]
    · have starts : runStarts 0 (closed ++ [first :: more ++ [x]]) = enc.indexed := by
        rw [h.layout.indexed, runStartsSnoc, runStartsSnoc]
      rw [runDataSnoc, ← List.append_assoc, ← List.append_assoc, starts]
      exact pushed
    · have short : (first :: more ++ [x]).length ≤ 256 := legal.1
      rw [List.length_append, List.length_singleton] at short ⊢
      have whole : uint ((first :: more).length + 1) = (first :: more).length + 1 :=
        Nat.mod_eq_of_lt (by omega)
      rw [← whole, ← h.count]
      rfl

theorem encodeFirst {entries : List Listed} (layout : Layout enc (runsData host closed) entries
      (runStarts 0 closed))
    (flat : entries = closed.flatten) (x : Listed) :
    Opened host stale
      (enc.pushed x (dirHeader host stale x.place.block x.inodeNumber ++ dirEntry host x x.inodeNumber)
        (uint (0 + 1)) (some enc.serialno) (enc.indexed ++ [enc.serialno])) closed [x] := by
  have serialno : enc.serialno = closed.flatten.length := by
    rw [layout.serialno, ← flat, ← layout.listed, List.length_map]
  refine ⟨?_, congrArg some serialno, rfl, legalSingle x⟩
  have starts : runStarts 0 (closed ++ [[x]]) = enc.indexed ++ [enc.serialno] := by
    rw [runStartsSnoc, Nat.zero_add, layout.indexed, serialno]
  rw [starts, ← flat]
  exact layout.push x _ _ _ _

theorem recordCountRest (host : Bytes.Host) (enc : Encoder) :
    (enc.recordCount host).serialno = enc.serialno ∧ (enc.recordCount host).offset = enc.offset ∧
      (enc.recordCount host).indexed = enc.indexed := by
  unfold Encoder.recordCount
  split <;> exact ⟨rfl, rfl, rfl⟩

theorem Opened.break (h : Opened host stale enc closed opened) {x : Listed} {env : Env}
    (allocated : env.malloc.1 = true) (unfit : fitsRun opened x = false) :
    ∃ enc', enc.encodeEntry host stale x env = (true, enc', env.malloc.2) ∧
      Opened host stale enc' (closed ++ [opened]) [x] := by
  have need := h.needs x
  rw [unfit] at need
  obtain ⟨layout, _⟩ := h.record
  obtain ⟨serialno, offset, indexed⟩ := recordCountRest host enc
  refine ⟨_, ?_, encodeFirst layout rfl x⟩
  simp only [Encoder.encodeEntry, need, allocated]
  simp only [Bool.not_false, Bool.not_true, Bool.false_eq_true, if_false, if_true, Encoder.pushed,
    List.length_append, dirHeaderLength, dirEntryLength, serialno, offset, indexed]
  rw [Nat.add_comm (dirEntrySize + x.name.length)]

/- The open run goes on greedily. -/
theorem encodeLoopSpec {l : List Listed} {env env' : Env} {last : Encoder}
    (h : Opened host stale enc closed opened)
    (ok : Encoder.encodeLoop host stale l enc env = (true, last, env')) :
    Layout last (runsData host (closed ++ runsFrom fitsRun opened l))
      (closed ++ runsFrom fitsRun opened l).flatten
      (runStarts 0 (closed ++ runsFrom fitsRun opened l)) := by
  induction l generalizing enc env closed opened with
  | nil =>
    simp only [Encoder.encodeLoop, Prod.mk.injEq, true_and] at ok
    obtain ⟨rfl, rfl⟩ := ok
    exact h.record.1
  | cons x rest ih =>
    rw [Encoder.encodeLoop] at ok
    cases allocated : env.malloc.1 with
    | false =>
      simp only [Encoder.encodeEntry, allocated] at ok
      simp at ok
    | true =>
      rw [runsFrom]
      cases fits : fitsRun opened x with
      | true =>
        obtain ⟨enc', taken, grown⟩ := h.stay allocated fits
        rw [taken] at ok
        exact ih grown ok
      | false =>
        obtain ⟨enc', taken, fresh⟩ := h.break allocated fits
        rw [taken] at ok
        have result := ih fresh ok
        rw [List.append_assoc] at result
        exact result

theorem layoutStart : Layout .start [] [] [] :=
  ⟨rfl, rfl, fun _ member => (nomatch member), rfl, rfl, fun _ _ found => (nomatch found), rfl⟩

theorem encodeEntriesSpec {l : List Listed} {env env' : Env} {last : Encoder}
    (ok : encodeEntries host stale l env = (true, last, env')) :
    Layout last (runsData host (runs fitsRun l)) l (runStarts 0 (runs fitsRun l)) := by
  cases l with
  | nil =>
    simp only [encodeEntries, Encoder.encodeLoop, Prod.mk.injEq, true_and] at ok
    obtain ⟨rfl, rfl⟩ := ok
    exact layoutStart
  | cons x rest =>
    rw [encodeEntries, Encoder.encodeLoop] at ok
    cases allocated : env.malloc.1 with
    | false =>
      simp only [Encoder.encodeEntry, allocated] at ok
      simp at ok
    | true =>
      have first : Encoder.start.encodeEntry host stale x env = (true, Encoder.start.pushed x
          (dirHeader host stale x.place.block x.inodeNumber ++ dirEntry host x x.inodeNumber)
          (uint (0 + 1)) (some 0) [0], env.malloc.2) := by
        simp only [Encoder.encodeEntry, allocated, Encoder.start, needNewDirHeader, Option.bind_none]
        simp only [Bool.not_true, Bool.false_eq_true, if_false, if_true, Encoder.pushed,
          List.length_append, dirHeaderLength, dirEntryLength, Encoder.recordCount, List.nil_append]
        rw [Nat.add_comm (dirEntrySize + x.name.length)]
      rw [first] at ok
      have opened : Opened host stale _ [] [x] := encodeFirst layoutStart rfl x
      have result := encodeLoopSpec opened ok
      rw [List.nil_append, runsFromFlatten] at result
      exact result

theorem encodeLoopGranted (host : Bytes.Host) (stale : Nat) (l : List Listed) (enc : Encoder) {env : Env}
    (granting : env.Granting) :
    (Encoder.encodeLoop host stale l enc env).1 = true ∧
      (Encoder.encodeLoop host stale l enc env).2.2.Granting := by
  induction l generalizing enc env with
  | nil => exact ⟨rfl, granting⟩
  | cons x rest ih =>
    obtain ⟨allocated, still⟩ := Env.mallocGranting granting
    rw [Encoder.encodeLoop]
    simp only [Encoder.encodeEntry, allocated, Bool.not_true, Bool.false_eq_true, if_false]
    exact ih _ still

theorem encodeGranted (host : Bytes.Host) (stale : Nat) (l : List Listed) {env : Env}
    (granting : env.Granting) : ∃ enc env', encodeEntries host stale l env = (true, enc, env') := by
  obtain ⟨ok, _⟩ := encodeLoopGranted host stale l .start granting
  exact ⟨_, _, Prod.ext ok rfl⟩

end
end Libsqfs
