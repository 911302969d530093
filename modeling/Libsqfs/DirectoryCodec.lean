import Libsqfs.DirectoryRuns

/-! Reading a listing by the format. -/
namespace Libsqfs
open Bytes (field take? put)
open GreedyRuns

def signed16 (n : Nat) : Int := if n < 2 ^ 15 then n else (n : Int) - 2 ^ 16

def readEntry (startBlock base : Nat) (raw : Bytes) : Option (Listed × Bytes) := do
  let (offset, raw) ← field 2 raw
  let (delta, raw) ← field 2 raw
  let (type, raw) ← field 2 raw
  let (size, raw) ← field 2 raw
  let (name, raw) ← take? (size + 1) raw
  some (⟨name, ⟨startBlock, offset⟩, ((base + signed16 delta) % 2 ^ 32).toNat, type⟩, raw)

def readEntries (startBlock base : Nat) : Nat → Bytes → Option (List Listed × Bytes)
  | 0, raw => some ([], raw)
  | n + 1, raw => do
    let (x, raw) ← readEntry startBlock base raw
    let (rest, raw) ← readEntries startBlock base n raw
    some (x :: rest, raw)

def readRun (raw : Bytes) : Option (List Listed × Bytes) := do
  let (count, raw) ← field 4 raw
  let (startBlock, raw) ← field 4 raw
  let (inodeNumber, raw) ← field 4 raw
  readEntries startBlock inodeNumber (count + 1) raw

/- Every run takes some bytes, so their number is fuel enough. -/
def readListingFrom : Nat → Bytes → Option (List Listed)
  | _, [] => some []
  | 0, _ :: _ => none
  | fuel + 1, b :: rest => do
    let (run, raw) ← readRun (b :: rest)
    let later ← readListingFrom fuel raw
    some (run ++ later)

def readListing (raw : Bytes) : Option (List Listed) := readListingFrom raw.length raw

structure Listed.Typed (x : Listed) : Prop where
  name : 1 ≤ x.name.length ∧ x.name.length ≤ 65536
  block : x.place.block < 2 ^ 32
  offset : x.place.offset < metadataSize
  inodeNumber : x.inodeNumber < 2 ^ 32
  type : x.type < 2 ^ 16

section
variable {x : Listed} {base : Nat}

/- The 16 bits that are stored stand for the difference of the numbers. -/
theorem deltaSigned {number base : Nat} (low : -32768 ≤ (number : Int) - base)
    (high : (number : Int) - base ≤ 32767) :
    signed16 (uintSub number base % 256 ^ 2) = (number : Int) - base := by
  unfold signed16 uintSub
  split <;> omega

theorem numberBack {number base : Nat} (low : -32768 ≤ (number : Int) - base)
    (high : (number : Int) - base ≤ 32767) (small : number < 2 ^ 32) :
    ((base + signed16 (uintSub number base % 256 ^ 2)) % 2 ^ 32).toNat = number := by
  rw [deltaSigned low high]
  omega

theorem nameSizeBack {n : Nat} (long : 1 ≤ n) (short : n ≤ 65536) : sizetSub n 1 % 256 ^ 2 + 1 = n := by
  unfold sizetSub
  omega

theorem readEntryFields {size : Nat} {name : Bytes} (long : size % 256 ^ 2 + 1 = name.length)
    (offset delta type startBlock base : Nat) (rest : Bytes) :
    readEntry startBlock base (Bytes.le 2 offset ++ (Bytes.le 2 delta ++ (Bytes.le 2 type ++
      (Bytes.le 2 size ++ (name ++ rest))))) =
    some (⟨name, ⟨startBlock, offset % 256 ^ 2⟩,
      ((base + signed16 (delta % 256 ^ 2)) % 2 ^ 32).toNat, type % 256 ^ 2⟩, rest) := by
  simp only [readEntry, Bytes.fieldAppend, bind, Option.bind_some, long, Bytes.takeAppend]

theorem readEntryAppend (host : Bytes.Host) (typed : x.Typed) (startBlock : Nat) (block : x.place.block = startBlock)
    (low : -32768 ≤ (x.inodeNumber : Int) - base) (high : (x.inodeNumber : Int) - base ≤ 32767)
    (rest : Bytes) :
    readEntry startBlock base (dirEntry host x base ++ rest) = some (x, rest) := by
  obtain ⟨⟨long, short⟩, _, offset, number, type⟩ := typed
  unfold metadataSize at offset
  have size := nameSizeBack long short
  have number' := numberBack low high number
  have offset' : x.place.offset % 256 ^ 2 = x.place.offset := Nat.mod_eq_of_lt (by omega)
  have type' : x.type % 256 ^ 2 = x.type := Nat.mod_eq_of_lt (by omega)
  have shape : dirEntry host x base ++ rest = Bytes.le 2 x.place.offset ++
      (Bytes.le 2 (uintSub x.inodeNumber base) ++ (Bytes.le 2 x.type ++
        (Bytes.le 2 (sizetSub x.name.length 1) ++ (x.name ++ rest)))) := by
    simp only [dirEntry, Bytes.putLe, List.append_assoc]
  rw [shape, readEntryFields size, number', offset', type', ← block]

theorem readEntriesAppend (host : Bytes.Host) (startBlock : Nat) (rest : Bytes) {run : List Listed}
    (typed : ∀ x ∈ run, x.Typed) (block : ∀ x ∈ run, x.place.block = startBlock)
    (number : ∀ x ∈ run, -32768 ≤ (x.inodeNumber : Int) - base ∧ (x.inodeNumber : Int) - base ≤ 32767) :
    readEntries startBlock base run.length ((run.map fun x => dirEntry host x base).flatten ++ rest) =
      some (run, rest) := by
  induction run with
  | nil => rfl
  | cons x more ih =>
    obtain ⟨low, high⟩ := number x (by simp)
    have own := readEntryAppend host (typed x (by simp)) startBlock (block x (by simp)) low high
    have others := ih (fun y member => typed y (List.mem_cons_of_mem _ member))
      (fun y member => block y (List.mem_cons_of_mem _ member))
      (fun y member => number y (List.mem_cons_of_mem _ member))
    simp only [List.map_cons, List.flatten_cons, List.append_assoc, List.length_cons, readEntries, own,
      others, bind, Option.bind_some]

theorem readRunAppend (host : Bytes.Host) {run : List Listed} (legal : Legal run) (typed : ∀ x ∈ run, x.Typed)
    (rest : Bytes) :
    readRun ((runData host (run.length - 1) run).flatten ++ rest) = some (run, rest) := by
  cases run with
  | nil => exact legal.elim
  | cons first more =>
    obtain ⟨count, block, number, _⟩ := legal
    have own := typed first (by simp)
    have entries := readEntriesAppend host first.place.block rest typed block number
    have small : (first :: more).length - 1 < 256 ^ 4 := by omega
    have shape : (runData host ((first :: more).length - 1) (first :: more)).flatten ++ rest =
        Bytes.le 4 ((first :: more).length - 1) ++ (Bytes.le 4 first.place.block ++
          (Bytes.le 4 first.inodeNumber ++
            (((first :: more).map fun x => dirEntry host x first.inodeNumber).flatten ++ rest))) := by
      simp only [runData, dirHeader, Bytes.putLe, List.map_cons, List.flatten_cons, List.append_assoc]
    rw [shape]
    have block' : first.place.block < 256 ^ 4 := own.block
    have number' : first.inodeNumber < 256 ^ 4 := own.inodeNumber
    simp only [readRun, bind, Bytes.fieldBounded small, Bytes.fieldBounded block',
      Bytes.fieldBounded number', Option.bind_some]
    exact entries

theorem runDataPositive (host : Bytes.Host) {run : List Listed} (legal : Legal run) (count : Nat) :
    dirHeaderSize ≤ (runData host count run).flatten.length := by
  cases run with
  | nil => exact legal.elim
  | cons first more =>
    rw [runDataLength, runSize]
    exact Nat.le_add_right _ _

theorem readListingRuns (host : Bytes.Host) {fuel : Nat} {runs : List (List Listed)} (legal : ∀ run ∈ runs, Legal run)
    (typed : ∀ x ∈ runs.flatten, x.Typed) (enough : (runsData host runs).flatten.length ≤ fuel) :
    readListingFrom fuel (runsData host runs).flatten = some runs.flatten := by
  induction runs generalizing fuel with
  | nil => cases fuel <;> rfl
  | cons run rest ih =>
    have own := legal run (by simp)
    have positive := runDataPositive host own (run.length - 1)
    have shape : (runsData host (run :: rest)).flatten =
        (runData host (run.length - 1) run).flatten ++ (runsData host rest).flatten := by
      simp [runsData]
    rw [shape, List.length_append] at enough
    unfold dirHeaderSize at positive
    obtain ⟨fuel, rfl⟩ : ∃ n, fuel = n + 1 := ⟨fuel - 1, by omega⟩
    have parsed := readRunAppend host own
      (fun x member => typed x (by rw [List.flatten_cons]; exact List.mem_append_left _ member))
      (runsData host rest).flatten
    have later := ih (fun r member => legal r (List.mem_cons_of_mem _ member))
      (fun x member => typed x (by rw [List.flatten_cons]; exact List.mem_append_right _ member))
      (show (runsData host rest).flatten.length ≤ fuel by omega)
    rw [shape]
    generalize whole : (runData host (run.length - 1) run).flatten ++ (runsData host rest).flatten = raw at parsed
    cases raw with
    | nil =>
      have zero := congrArg List.length whole
      rw [List.length_append, List.length_nil] at zero
      omega
    | cons b bytes =>
      simp only [readListingFrom, parsed, later, bind, Option.bind_some, List.flatten_cons]

theorem greedyLegal (entries : List Listed) : ∀ run ∈ runs fitsRun entries, Legal run :=
  runsAll legalSingle (fun _ _ legal fits => (fitsLegal legal).mp fits) entries

theorem listingRoundTrip {host : Bytes.Host} {stale : Nat} {entries : List Listed} {env env' : Env} {enc : Encoder}
    (typed : ∀ x ∈ entries, x.Typed)
    (ok : encodeEntries host stale entries env = (true, enc, env')) :
    (enc.done.flatMap EncodedEntry.encodedData).length = enc.offset ∧
      readListing (enc.done.flatMap EncodedEntry.encodedData) = some entries := by
  have layout := encodeEntriesSpec ok
  have flat := @runsFlatten _ fitsRun entries
  rw [List.flatMap_def, layout.data]
  refine ⟨layout.offset.symm, ?_⟩
  have read := readListingRuns host (greedyLegal entries) (by rw [flat]; exact typed) (Nat.le_refl _)
  rw [flat] at read
  exact read

def sampleEntries : List Listed := [⟨[97], ⟨0, 32⟩, 3, 2⟩, ⟨[98, 99], ⟨5, 0⟩, 2, 1⟩]

theorem twoEntriesRoundTrip : ∃ enc env',
    encodeEntries .little 7 sampleEntries .fresh = (true, enc, env') ∧
      readListing (enc.done.flatMap EncodedEntry.encodedData) = some sampleEntries := by
  have typed : ∀ x ∈ sampleEntries, x.Typed := by
    intro x member
    simp only [sampleEntries, List.mem_cons, List.not_mem_nil, or_false] at member
    rcases member with rfl | rfl <;> exact ⟨by decide, by decide, by decide, by decide, by decide⟩
  obtain ⟨enc, env', ok⟩ := @encodeGranted .little 7 sampleEntries .fresh fun _ => rfl
  exact ⟨enc, env', ok, (listingRoundTrip typed ok).2⟩

/-! ### The limits of the runs -/

structure Governs (host : Bytes.Host) (run : List Listed) (raw : Bytes) : Prop where
  count : 1 ≤ run.length ∧ run.length ≤ 256 ∧ Bytes.readLE (Bytes.slice raw 0 4) + 1 = run.length
  block : ∀ x ∈ run, Bytes.readLE (Bytes.slice raw 4 4) = x.place.block
  delta : ∀ x ∈ run, -32768 ≤ (x.inodeNumber : Int) - Bytes.readLE (Bytes.slice raw 8 4) ∧
    (x.inodeNumber : Int) - Bytes.readLE (Bytes.slice raw 8 4) ≤ 32767 ∧
    signed16 (Bytes.readLE (Bytes.slice (dirEntry host x (Bytes.readLE (Bytes.slice raw 8 4))) 2 2)) =
      (x.inodeNumber : Int) - Bytes.readLE (Bytes.slice raw 8 4)
  size : raw.length ≤ metadataSize ∨ run.length = 1

theorem headerSlices (host : Bytes.Host) (count startBlock inodeNumber : Nat) (rest : Bytes) :
    Bytes.slice (dirHeader host count startBlock inodeNumber ++ rest) 0 4 = Bytes.le 4 count ∧
    Bytes.slice (dirHeader host count startBlock inodeNumber ++ rest) 4 4 = Bytes.le 4 startBlock ∧
    Bytes.slice (dirHeader host count startBlock inodeNumber ++ rest) 8 4 = Bytes.le 4 inodeNumber := by
  have first := Bytes.sliceMiddle [] (Bytes.le 4 count)
    (Bytes.le 4 startBlock ++ (Bytes.le 4 inodeNumber ++ rest))
  have second := Bytes.sliceMiddle (Bytes.le 4 count) (Bytes.le 4 startBlock)
    (Bytes.le 4 inodeNumber ++ rest)
  have third := Bytes.sliceMiddle (Bytes.le 4 count ++ Bytes.le 4 startBlock) (Bytes.le 4 inodeNumber) rest
  simp only [List.length_append, Bytes.leLength, List.append_assoc, List.nil_append, List.length_nil]
    at first second third
  simp only [dirHeader, Bytes.putLe, List.append_assoc]
  exact ⟨first, second, third⟩

theorem deltaSlice (host : Bytes.Host) (x : Listed) (base : Nat) :
    Bytes.slice (dirEntry host x base) 2 2 = Bytes.le 2 (uintSub x.inodeNumber base) := by
  have middle := Bytes.sliceMiddle (Bytes.le 2 x.place.offset) (Bytes.le 2 (uintSub x.inodeNumber base))
    (Bytes.le 2 x.type ++ (Bytes.le 2 (sizetSub x.name.length 1) ++ x.name))
  simp only [Bytes.leLength] at middle
  simp only [dirEntry, Bytes.putLe, List.append_assoc]
  exact middle

theorem legalGoverns (host : Bytes.Host) {run : List Listed} (legal : Legal run)
    (typed : ∀ x ∈ run, x.place.block < 2 ^ 32 ∧ x.inodeNumber < 2 ^ 32) :
    Governs host run (runData host (run.length - 1) run).flatten := by
  cases run with
  | nil => exact legal.elim
  | cons first more =>
    obtain ⟨count, block, number, size⟩ := legal
    obtain ⟨small, small'⟩ := typed first (by simp)
    have shape : (runData host ((first :: more).length - 1) (first :: more)).flatten =
        dirHeader host ((first :: more).length - 1) first.place.block first.inodeNumber ++
          (dirEntry host first first.inodeNumber ++
            (more.map fun x => dirEntry host x first.inodeNumber).flatten) := by
      simp only [runData, List.flatten_cons, List.append_assoc]
    have slices := headerSlices host ((first :: more).length - 1) first.place.block first.inodeNumber
      (dirEntry host first first.inodeNumber ++
        (more.map fun x => dirEntry host x first.inodeNumber).flatten)
    rw [← shape] at slices
    obtain ⟨countAt, blockAt, numberAt⟩ := slices
    have base : Bytes.readLE (Bytes.slice (runData host ((first :: more).length - 1)
        (first :: more)).flatten 8 4) = first.inodeNumber := by
      rw [numberAt]
      exact Bytes.readLeBounded small'
    have few : (first :: more).length - 1 < 256 ^ 4 := by omega
    refine ⟨⟨by simp, count, ?_⟩, fun x member => ?_, fun x member => ?_, ?_⟩
    · rw [countAt, Bytes.readLeBounded few]
      simp
    · rw [blockAt, block x member]
      exact Bytes.readLeBounded small
    · obtain ⟨low, high⟩ := number x member
      rw [base]
      refine ⟨low, high, ?_⟩
      rw [deltaSlice, Bytes.readLeMod]
      exact deltaSigned low high
    · rw [runDataLength]
      exact size.imp_right fun alone => by rw [alone]; rfl

/- Runs are broken only where the next entry would make them illegal. -/
theorem runsLegal {host : Bytes.Host} {stale : Nat} {entries : List Listed} {env env' : Env} {enc : Encoder}
    (typed : ∀ x ∈ entries, x.place.block < 2 ^ 32 ∧ x.inodeNumber < 2 ^ 32)
    (ok : encodeEntries host stale entries env = (true, enc, env')) :
    ∃ runs : List (List Listed), runs.flatten = entries ∧
      enc.done.map EncodedEntry.encodedData =
        runs.flatMap (fun run => runData host (run.length - 1) run) ∧
      (∀ run ∈ runs, Governs host run (runData host (run.length - 1) run).flatten) ∧
      runs.IsChain fun run next => ∃ x rest, next = x :: rest ∧ ¬ Legal (run ++ [x]) := by
  have layout := encodeEntriesSpec ok
  have legal := greedyLegal entries
  have flat := @runsFlatten _ fitsRun entries
  refine ⟨runs fitsRun entries, flat, layout.data, fun run member => ?_, ?_⟩
  · refine legalGoverns host (legal run member) fun x inside => typed x ?_
    rw [← flat]
    exact List.mem_flatten_of_mem member inside
  · refine List.IsChain.imp_of_mem_imp (fun run next member _ broken => ?_) (@runsBroken _ fitsRun entries)
    obtain ⟨x, more, shape, unfit⟩ := broken
    refine ⟨x, more, shape, fun still => ?_⟩
    rw [(fitsLegal (legal run member)).mpr still] at unfit
    cases unfit

theorem blocksApart : ∃ enc env', encodeEntries .big 0 sampleEntries .fresh = (true, enc, env') ∧
    ∃ runs : List (List Listed), runs.flatten = sampleEntries ∧
      ∀ run ∈ runs, Governs .big run (runData .big (run.length - 1) run).flatten := by
  obtain ⟨enc, env', ok⟩ := @encodeGranted .big 0 sampleEntries .fresh fun _ => rfl
  have typed : ∀ x ∈ sampleEntries, x.place.block < 2 ^ 32 ∧ x.inodeNumber < 2 ^ 32 := by decide
  obtain ⟨runs, flat, _, governs, _⟩ := runsLegal typed ok
  exact ⟨enc, env', ok, runs, flat, governs⟩

end
end Libsqfs
