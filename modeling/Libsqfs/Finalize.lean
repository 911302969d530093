import Libsqfs.SerializeFrame
import Libsqfs.Superblock

/-! libsqfs_image_finalize as one call of the thread that uses the image, with
every operation carried out on the tables and the destination. -/
namespace Libsqfs

namespace Bulkdata

def sealChunks (bd : Bulkdata) (env : Env) : Bool × Bulkdata × Env :=
  if bd.mayAddChunks then
    let (created, env) := env.malloc
    if created then (true, bd.sealed, env) else (false, bd, env)
  else (true, bd, env)

/- libsqfs_bulkdata_process where nothing is left to do. What the threads do with
chunks that wait is told by `Image.Step`. -/
def process (bd : Bulkdata) : Option Bulkdata :=
  if bd.popNext = none ∧ bd.Leaves then some bd else none

/- What sealing returns is not looked at. -/
def finish (bd : Bulkdata) (env : Env) : Option (Bulkdata × Env) :=
  let (_, bd, env) := bd.sealChunks env
  bd.process.map fun bd => (bd, env)

structure Done (bd : Bulkdata) : Prop where
  finished : bd.finished = bd.count
  closed : bd.mayAddChunks = false
  idle : bd.popNext = none

end Bulkdata

/- `truncates` is what comes of the truncation, where one is made. -/
structure FinalizeConfig where
  host : Bytes.Host
  stale : Nat
  truncates : Bool

namespace Assembly

/- What the chunks hold for the inodes. A piece that is in no fragment block has no
number to be read. -/
def serializeConfig (o : FinalizeConfig) (bd : Bulkdata) : SerializeConfig where
  host := o.host
  stale := o.stale
  block c := ⟨(bd.chunk c).dst.offset.elim (-1) Int.ofNat, (bd.chunk c).dst.size, (bd.chunk c).dst.compressed⟩
  piece c := ⟨(bd.chunk c).fragmentBlock.getD 0, (bd.chunk c).offset.getD 0⟩

/- Written to the image in this order, each only if those before succeeded. -/
def writes (options : ImageOptions) : List Later :=
  [.inodeTable, .dirTable, .fragmentTable] ++ (if options.exportable then [.exportTable] else []) ++
    [.idTable, .xattrTable, .compressorOptions, .superblock]

def operations (options : ImageOptions) : List Later := .serialize :: writes options

/- What an operation does when every function it calls is there. None where it does
not come back: the recursion over the tree goes deeper than `depth`, or a null
pointer is followed. -/
def operate (o : FinalizeConfig) (depth : Nat) (image : Assembly) (env : Env) :
    Later → Option (Bool × Assembly × Env)
  | .serialize =>
    image.inodes.root.bind fun root =>
      (image.inodes.inodeSerialize (serializeConfig o image.bulkdata) depth root env).map
        fun (ok, inodes, env) => (ok, {image with inodes := inodes}, env)
  | .inodeTable =>
    let (ok, table, env) := image.inodes.inodeTable.write o.host env
    some (ok, {image with inodes := {image.inodes with inodeTable := table}}, env)
  | .dirTable =>
    let (ok, table, env) := image.inodes.dirTable.write o.host env
    some (ok, {image with inodes := {image.inodes with dirTable := table}}, env)
  | .fragmentTable => some (image.writeFragmentTable o.host env)
  | .exportTable => some (image.writeExportTable o.host env)
  | .idTable =>
    let (ok, table, env) := image.idtable.write o.host env
    some (ok, {image with idtable := table}, env)
  | .xattrTable =>
    (image.xattrTable.write o.host env).map fun (ok, table, env) =>
      (ok, {image with xattrTable := table}, env)
  | .compressorOptions =>
    let (ok, env) := image.writeCompressorOptions o.host env
    some (ok, image, env)
  | .superblock =>
    image.inodes.root.map fun root =>
      let (ok, env) := image.writeSuperblock o.host (image.inodes.inode root) env
      (ok, image, env)

/- A block was closed in a table whose compressor has no function for it. -/
def nullCalled (o : FinalizeConfig) (image : Assembly) (env : Env) (op : Later) (next : Assembly) : Bool :=
  match op with
  | .fragmentTable => image.bulkdata.fragmentBlockCount != 0 &&
      (Metatable.init (some image.compressor)).nullCalled (image.fragmentTable o.host env).2.1
  | _ => image.inodes.inodeTable.nullCalled next.inodes.inodeTable ||
      image.inodes.dirTable.nullCalled next.inodes.dirTable

def perform (o : FinalizeConfig) (depth : Nat) (image : Assembly) (env : Env) (op : Later) :
    Option (Bool × Assembly × Env) :=
  (image.operate o depth env op).filter fun r => !image.nullCalled o env op r.2.1

/- The result of libsqfs_inode_serialize is not looked at. -/
def performEach (o : FinalizeConfig) (depth : Nat) :
    List Later → Assembly → Env → Option (Bool × Assembly × Env)
  | [], image, env => some (true, image, env)
  | op :: rest, image, env =>
    match image.perform o depth env op with
    | none => none
    | some (ok, image, env) =>
      if ok || op == .serialize then performEach o depth rest image env else some (false, image, env)

def paddedSize (size : Nat) : Nat := (size + 4095) / 4096 * 4096

def conclude (image : Assembly) (success : Bool) (env : Env) : ImageState × Assembly × Env :=
  if success then (.finalized, {image with state := .finalized}, env)
  else
    let (image, env) := image.flagError "Cannot finalize image (unknown error)" env
    (image.state, image, env)

/- The return after a truncation that fails is `false`, which is the value of
libsqfs_image_building. -/
def padAndConclude (o : FinalizeConfig) (success : Bool) (image : Assembly) (env : Env) :
    ImageState × Assembly × Env :=
  if success ∧ image.options.padding ∧ paddedSize env.size ≠ env.size ∧ ¬ o.truncates then
    (.building, image, env)
  else image.conclude success env

def finalize (o : FinalizeConfig) (depth : Nat) (image : Assembly) (env : Env) :
    Option (ImageState × Assembly × Env) :=
  if image.state ≠ .building then some (image.state, image, env)
  else if image.inodes.root.isNone then
    let (image, env) := image.flagError "No root directory set" env
    some (image.conclude false env)
  else match image.bulkdata.sealChunks env with
    | (false, bd, env) => some ({image with bulkdata := bd}.conclude false env)
    | (true, bd, env) =>
      (bd.finish env).bind fun (bd, env) =>
        (performEach o depth (operations image.options) {image with bulkdata := bd} env).map
          fun (success, image, env) => image.padAndConclude o success env

/-! ### How the operations go -/

def Performs (o : FinalizeConfig) (image : Assembly) (env : Env) (op : Later)
    (result : Bool × Assembly × Env) : Prop :=
  ∃ depth, image.perform o depth env op = some result

def Padded (o : FinalizeConfig) (image : Assembly) (env : Env) : Prop :=
  image.options.padding = true → paddedSize env.size ≠ env.size → o.truncates = true

def Succeed (o : FinalizeConfig) : List Later → Assembly → Env → Prop
  | [], image, env => image.Padded o env
  | op :: rest, image, env =>
    ∃ next after, image.Performs o env op (true, next, after) ∧ Succeed o rest next after

def Fail (o : FinalizeConfig) : List Later → Assembly → Env → Prop
  | [], _, _ => False
  | op :: rest, image, env =>
    ∃ ok next after, image.Performs o env op (ok, next, after) ∧ (ok = true → Fail o rest next after)

/- The call tells what happened, and so does any further one, which does nothing. -/
def Reports (o : FinalizeConfig) (image : Assembly) (env : Env) : Prop :=
  ∃ depth state next after, image.finalize o depth env = some (state, next, after) ∧
    (state = .finalized ↔ Succeed o (operations image.options) image env) ∧
    (state ≠ .finalized → state = .fatalError) ∧ next.state = state ∧
    ∀ o' depth' env', next.finalize o' depth' env' = some (state, next, env')

/- The serialization returns, and succeeds unless something after it fails; the
truncation does not fail. -/
def Heeded (o : FinalizeConfig) (image : Assembly) (env : Env) : Prop :=
  ∃ ok next after, image.Performs o env .serialize (ok, next, after) ∧
    (Fail o (writes image.options) next after ∨ ok = true ∧ Succeed o (writes image.options) next after)

variable {o : FinalizeConfig} {image next : Assembly} {env after : Env} {op : Later} {ops : List Later}
  {depth : Nat}

/-! ### One operation -/

theorem performed {result : Bool × Assembly × Env} : image.perform o depth env op = some result ↔
    image.operate o depth env op = some result ∧ image.nullCalled o env op result.2.1 = false := by
  simp [perform, Option.filter_eq_some_iff]

theorem Performs.operates {result : Bool × Assembly × Env} (ran : image.Performs o env op result) :
    ∃ depth, image.operate o depth env op = some result := by
  obtain ⟨depth, ran⟩ := ran
  exact ⟨depth, (performed.mp ran).1⟩

theorem performPlain (inodes : image.inodes.inodeTable.compressor = none)
    (dirs : image.inodes.dirTable.compressor = none) (fragments : image.bulkdata.fragmentBlockCount = 0) :
    image.perform o depth env op = image.operate o depth env op := by
  have found (next : Assembly) : image.nullCalled o env op next = false := by
    unfold nullCalled Metatable.nullCalled
    rw [inodes, dirs, fragments]
    split <;> simp
  rw [perform]
  cases image.operate o depth env op <;> simp [Option.filter, found]

theorem performKept {ok : Bool} (other : op ≠ .fragmentTable)
    (ran : image.operate o depth env op = some (ok, next, after)) (inodes : next.inodes = image.inodes) :
    image.perform o depth env op = some (ok, next, after) := by
  refine performed.mpr ⟨ran, ?_⟩
  unfold nullCalled Metatable.nullCalled
  cases op <;> first | exact absurd rfl other | simp [inodes]

theorem operateAny (other : op ≠ .serialize) (depth depth' : Nat) :
    image.operate o depth env op = image.operate o depth' env op := by
  cases op with
  | serialize => exact absurd rfl other
  | _ => rfl

theorem performAny (other : op ≠ .serialize) (depth depth' : Nat) :
    image.perform o depth env op = image.perform o depth' env op := by
  rw [perform, operateAny other depth depth', perform]

theorem operateDeeper {depth depth' : Nat} (deeper : depth ≤ depth') {result : Bool × Assembly × Env}
    (ran : image.operate o depth env op = some result) : image.operate o depth' env op = some result := by
  by_cases tree : op = .serialize
  · subst tree
    simp only [operate, Option.bind_eq_some_iff, Option.map_eq_some_iff] at ran ⊢
    obtain ⟨root, rooted, serialized, returned, same⟩ := ran
    exact ⟨root, rooted, serialized, Inodes.serializeDeeper deeper returned, same⟩
  · rw [operateAny tree depth' depth]
    exact ran

theorem performDeeper {depth depth' : Nat} (deeper : depth ≤ depth') {result : Bool × Assembly × Env}
    (ran : image.perform o depth env op = some result) : image.perform o depth' env op = some result := by
  obtain ⟨operated, found⟩ := performed.mp ran
  exact performed.mpr ⟨operateDeeper deeper operated, found⟩

theorem performsUnique {result result' : Bool × Assembly × Env} (left : image.Performs o env op result)
    (right : image.Performs o env op result') : result = result' := by
  obtain ⟨depth, ran⟩ := left
  obtain ⟨depth', ran'⟩ := right
  have first := performDeeper (Nat.le_max_left depth depth') ran
  have second := performDeeper (Nat.le_max_right depth depth') ran'
  exact Option.some.inj (first.symm.trans second)

theorem operateOptions {ok : Bool} (ran : image.operate o depth env op = some (ok, next, after)) :
    next.options = image.options := by
  cases op with
  | serialize =>
    simp only [operate, Option.bind_eq_some_iff, Option.map_eq_some_iff] at ran
    obtain ⟨root, _, serialized, _, same⟩ := ran
    cases same
    rfl
  | fragmentTable =>
    simp only [operate, writeFragmentTable] at ran
    split at ran <;> cases ran <;> rfl
  | xattrTable =>
    obtain ⟨_, _, same⟩ := Option.map_eq_some_iff.mp ran
    cases same
    rfl
  | superblock =>
    obtain ⟨_, _, same⟩ := Option.map_eq_some_iff.mp ran
    cases same
    rfl
  | _ =>
    cases ran
    rfl

theorem performOptions {ok : Bool} (ran : image.perform o depth env op = some (ok, next, after)) :
    next.options = image.options := operateOptions (performed.mp ran).1

/-! ### All of them -/

theorem succeedCons {ok : Bool} (ran : image.Performs o env op (ok, next, after)) :
    Succeed o (op :: ops) image env ↔ ok = true ∧ Succeed o ops next after := by
  constructor
  · rintro ⟨next', after', ran', rest⟩
    cases performsUnique ran ran'
    exact ⟨rfl, rest⟩
  · rintro ⟨rfl, rest⟩
    exact ⟨next, after, ran, rest⟩

theorem failCons {ok : Bool} (ran : image.Performs o env op (ok, next, after)) :
    Fail o (op :: ops) image env ↔ (ok = true → Fail o ops next after) := by
  constructor
  · rintro ⟨ok', next', after', ran', rest⟩
    cases performsUnique ran ran'
    exact rest
  · exact fun rest => ⟨ok, next, after, ran, rest⟩

structure Outcome (o : FinalizeConfig) (ops : List Later) (image : Assembly) (env : Env)
    (result : Option (Bool × Assembly × Env)) : Prop where
  succeeded : ∀ next after, result = some (true, next, after) →
    (Succeed o ops image env ↔ next.Padded o after) ∧ ¬ Fail o ops image env
  failed : ∀ next after, result = some (false, next, after) →
    Fail o ops image env ∧ ¬ Succeed o ops image env
  stuck : result = none → ¬ Fail o ops image env ∧ ¬ Succeed o ops image env

theorem writesOutcome (tree : .serialize ∉ ops) (depth : Nat) (image : Assembly) (env : Env) :
    Outcome o ops image env (performEach o depth ops image env) := by
  induction ops generalizing image env with
  | nil =>
    simp only [performEach]
    refine ⟨fun next after ran => ?_, fun _ _ ran => ?_, fun ran => ?_⟩
    · cases ran
      exact ⟨Iff.rfl, id⟩
    · simp at ran
    · simp at ran
  | cons op ops ih =>
    have other : op ≠ .serialize := fun same => tree (same ▸ List.mem_cons_self)
    cases ran : image.perform o depth env op with
    | none =>
      have never (result : Bool × Assembly × Env) : ¬ image.Performs o env op result := by
        rintro ⟨depth', ran'⟩
        rw [performAny other depth' depth, ran] at ran'
        cases ran'
      simp only [performEach, ran]
      refine ⟨fun _ _ ended => ?_, fun _ _ ended => ?_, fun _ => ⟨?_, ?_⟩⟩
      · cases ended
      · cases ended
      · rintro ⟨_, _, _, performed, _⟩
        exact never _ performed
      · rintro ⟨_, _, performed, _⟩
        exact never _ performed
    | some result =>
      obtain ⟨ok, next, after⟩ := result
      have performed : image.Performs o env op (ok, next, after) := ⟨depth, ran⟩
      rw [performEach, ran]
      cases ok with
      | false =>
        have stops : (op == Later.serialize) = false := by simpa using other
        simp only [Bool.false_or, stops, Bool.false_eq_true, if_false]
        refine ⟨fun _ _ ended => ?_, fun _ _ _ => ⟨?_, fun all => ?_⟩, fun ended => ?_⟩
        · simp at ended
        · exact (failCons performed).mpr fun own => absurd own Bool.false_ne_true
        · exact Bool.false_ne_true ((succeedCons performed).mp all).1
        · simp at ended
      | true =>
        have rest := ih (fun member => tree (List.mem_cons_of_mem _ member)) next after
        have fails : Fail o (op :: ops) image env ↔ Fail o ops next after :=
          (failCons performed).trans (by simp)
        have all : Succeed o (op :: ops) image env ↔ Succeed o ops next after :=
          (succeedCons performed).trans (by simp)
        simp only [Bool.true_or, if_true]
        exact ⟨fun next' after' ended => by rw [all, fails]; exact rest.succeeded next' after' ended,
          fun next' after' ended => by rw [all, fails]; exact rest.failed next' after' ended,
          fun ended => by rw [all, fails]; exact rest.stuck ended⟩

theorem writesTree (options : ImageOptions) : .serialize ∉ writes options := by
  unfold writes
  split <;> decide

/-! ### The call -/

theorem concludeState (image : Assembly) (success : Bool) (env : Env) :
    (image.conclude success env).1 = (if success then .finalized else .fatalError) ∧
      (image.conclude success env).2.1.state = (image.conclude success env).1 := by
  cases success with
  | true => exact ⟨rfl, rfl⟩
  | false =>
    unfold conclude flagError
    cases image.errorMsg <;> exact ⟨rfl, rfl⟩

theorem padAndConcludePadded (padded : image.Padded o env) (success : Bool) :
    image.padAndConclude o success env = image.conclude success env :=
  if_neg fun bad => bad.2.2.2 (padded bad.2.1 bad.2.2.1)

theorem padAndConcludeFailed : image.padAndConclude o false env = image.conclude false env :=
  if_neg fun bad => Bool.false_ne_true bad.1

theorem padAndConcludeUnpadded (unpadded : ¬ image.Padded o env) :
    image.padAndConclude o true env = (.building, image, env) := by
  simp only [Padded, Classical.not_imp] at unpadded
  exact if_pos ⟨rfl, unpadded⟩

theorem finalizeOver (isOver : image.state ≠ .building) (o : FinalizeConfig) (depth : Nat) (env : Env) :
    image.finalize o depth env = some (image.state, image, env) := if_pos isOver

theorem finalizeDone (building : image.state = .building) (rooted : image.inodes.root.isSome)
    (done : image.bulkdata.Done) (o : FinalizeConfig) (depth : Nat) (env : Env) :
    image.finalize o depth env =
      (performEach o depth (operations image.options) image env).map fun (success, image, env) =>
        image.padAndConclude o success env := by
  have present : ¬ image.inodes.root.isNone = true := by simpa using Option.ne_none_iff_isSome.mpr rooted
  have closed : image.bulkdata.sealChunks env = (true, image.bulkdata, env) := by
    simp [Bulkdata.sealChunks, done.closed]
  have idle : image.bulkdata.finish env = some (image.bulkdata, env) := by
    simp [Bulkdata.finish, closed, Bulkdata.process, done.idle, Bulkdata.Leaves, done.finished, done.closed]
  rw [finalize, if_neg (not_not.mpr building), if_neg present, closed]
  simp only [idle, Option.bind_some]

theorem performOperations {ok : Bool} (ran : image.perform o depth env .serialize = some (ok, next, after)) :
    performEach o depth (operations image.options) image env =
      performEach o depth (writes image.options) next after := by
  simp [operations, performEach, ran]

theorem reportsConclude {success : Bool} (ran : image.finalize o depth env = some (next.conclude success after))
    (told : success = true ↔ Succeed o (operations image.options) image env) : image.Reports o env := by
  obtain ⟨state, kept⟩ := concludeState next success after
  generalize next.conclude success after = result at ran state kept
  obtain ⟨value, last, final⟩ := result
  simp only at state kept
  refine ⟨depth, value, last, final, ran, ?_, ?_, kept, fun o' depth' env' => ?_⟩
  · rw [← told, state]
    cases success <;> simp
  · rw [state]
    cases success <;> simp
  · have isOver : last.state ≠ .building := by
      rw [kept, state]
      cases success <;> simp
    rw [finalizeOver isOver, kept]

theorem finalizeReportsIff (building : image.state = .building) (rooted : image.inodes.root.isSome)
    (done : image.bulkdata.Done) : image.Reports o env ↔ image.Heeded o env := by
  constructor
  · rintro ⟨depth, state, last, final, ran, told, never, _, _⟩
    rw [finalizeDone building rooted done] at ran
    obtain ⟨⟨success, next', after'⟩, performed, ended⟩ := Option.map_eq_some_iff.mp ran
    cases serialized : image.perform o depth env .serialize with
    | none => simp [operations, performEach, serialized] at performed
    | some result =>
      obtain ⟨ok, next, after⟩ := result
      refine ⟨ok, next, after, ⟨depth, serialized⟩, ?_⟩
      rw [performOperations serialized] at performed
      have outcome := @writesOutcome o _ (writesTree image.options) depth next after
      cases success with
      | false => exact .inl (outcome.failed _ _ performed).1
      | true =>
        simp only at ended
        have padded : next'.Padded o after' := by
          by_contra unpadded
          rw [padAndConcludeUnpadded unpadded] at ended
          cases ended
          exact absurd (never (by simp)) (by simp)
        have finalized : state = .finalized := by
          rw [padAndConcludePadded padded] at ended
          cases ended
          rfl
        have all := (succeedCons ⟨depth, serialized⟩).mp (told.mp finalized)
        exact .inr all
  · rintro ⟨ok, next, after, ⟨depth, serialized⟩, outcome⟩
    have ends := finalizeDone building rooted done o depth env
    rw [performOperations serialized] at ends
    have all := @succeedCons o image next env after _ (writes image.options) ok ⟨depth, serialized⟩
    have seen := @writesOutcome o _ (writesTree image.options) depth next after
    cases performed : performEach o depth (writes image.options) next after with
    | none =>
      obtain ⟨none, notAll⟩ := seen.stuck performed
      rcases outcome with fails | ⟨_, succeeds⟩
      · exact absurd fails none
      · exact absurd succeeds notAll
    | some result =>
      obtain ⟨success, next', after'⟩ := result
      rw [performed, Option.map_some] at ends
      simp only at ends
      cases success with
      | false =>
        have notAll := (seen.failed _ _ performed).2
        rw [padAndConcludeFailed] at ends
        exact reportsConclude ends (by simp only [operations, all, notAll, and_false, Bool.false_eq_true])
      | true =>
        obtain ⟨padded, none⟩ := seen.succeeded _ _ performed
        rcases outcome with fails | ⟨good, succeeds⟩
        · exact absurd fails none
        · rw [padAndConcludePadded (padded.mp succeeds)] at ends
          exact reportsConclude ends (by simp only [operations, all, good, succeeds, and_self])

def rootOnly : Assembly where
  options := ⟨false, false, false, .never, false, 1, true, 4096, 12⟩
  creationTime := 0
  state := .building
  errorMsg := none
  bulkdata := ({(Bulkdata.init false false).sealed with workq := fun _ => [], finished := 1}).setState 0 .finished
  fragTableLoc := none
  idtable := (IdTable.init.map 0 .fresh).2.1
  inodes := (((Inodes.init none).directoryInodeCreate ⟨0, 0, 493, 0, 0, 0, none⟩ .fresh).2.1.setRoot 0).2
  exportOffset := none
  xattrTable := .init
  compressor := ⟨fun _ _ => none, some fun _ => none⟩
  compressorOptionData := none
  compressorOptionDataLoc := 0

def firstMalloc (ok : Bool) : Env := ⟨96, [], fun n => ok || n != 0, fun _ => true⟩

theorem rootOnlySerialized (ok truncates : Bool) (depth : Nat) :
    (rootOnly.perform ⟨.little, 0, truncates⟩ (depth + 1) (firstMalloc ok) .serialize).map Prod.fst = some ok := by
  cases ok <;> rfl

theorem rootOnlyFinalized (ok truncates : Bool) (depth : Nat) :
    (rootOnly.finalize ⟨.little, 0, truncates⟩ (depth + 1) (firstMalloc ok)).map Prod.fst =
      some (if truncates then .finalized else .building) := by
  cases ok <;> cases truncates <;> rfl

def nullRoot : Assembly :=
  {rootOnly with
    options := ⟨true, false, false, .never, false, 0, true, 4096, 12⟩
    inodes := (((Inodes.init (some ⟨fun _ _ => none, none⟩)).directoryInodeCreate ⟨0, 0, 493, 0, 0, 0, none⟩ .fresh).2.1.setRoot 0).2
    compressor := ⟨fun _ _ => none, none⟩}

theorem nullRootStuck : ∃ next after, nullRoot.Performs ⟨.little, 0, true⟩ (firstMalloc true) .serialize (true, next, after) ∧
    ∀ result, ¬ next.Performs ⟨.little, 0, true⟩ after .inodeTable result := by
  have serialized : ((nullRoot.perform ⟨.little, 0, true⟩ 1 (firstMalloc true) .serialize).map fun r =>
      (r.1, (r.2.1.perform ⟨.little, 0, true⟩ 0 r.2.2 .inodeTable).isNone)) = some (true, true) := by
    decide +kernel
  obtain ⟨⟨ok, next, after⟩, ran, found⟩ := Option.map_eq_some_iff.mp serialized
  obtain ⟨rfl, none⟩ := Prod.mk.inj found
  refine ⟨next, after, ⟨1, ran⟩, fun result ⟨depth, written⟩ => ?_⟩
  rw [performAny (by simp) depth 0, Option.isNone_iff_eq_none.mp none] at written
  cases written

/- The root could not be serialized; the padding could not be made; a null pointer is
called. -/
theorem failuresNotReported :
    ¬ rootOnly.Reports ⟨.little, 0, true⟩ (firstMalloc false) ∧
      ¬ rootOnly.Reports ⟨.little, 0, false⟩ (firstMalloc true) ∧
      ¬ nullRoot.Reports ⟨.little, 0, true⟩ (firstMalloc true) := by
  refine ⟨?_, ?_, ?_⟩
  · rintro ⟨depth, state, next, after, ran, told, _⟩
    cases depth with
    | zero => cases ran
    | succ depth =>
      have value := rootOnlyFinalized false true depth
      rw [ran] at value
      cases value
      obtain ⟨_, _, ⟨depth', serialized⟩, _⟩ := told.mp rfl
      cases depth' with
      | zero => cases serialized
      | succ depth' =>
        have failed := rootOnlySerialized false true depth'
        rw [serialized] at failed
        cases failed
  · rintro ⟨depth, state, next, after, ran, _, never, _⟩
    cases depth with
    | zero => cases ran
    | succ depth =>
      have value := rootOnlyFinalized true false depth
      rw [ran] at value
      cases value
      exact absurd (never (by simp)) (by simp)
  · intro reports
    obtain ⟨next, after, serialized, stuck⟩ := nullRootStuck
    obtain ⟨_, _, _, returned, outcome⟩ := (finalizeReportsIff rfl rfl ⟨rfl, rfl, rfl⟩).mp reports
    cases performsUnique serialized returned
    rcases outcome with ⟨_, _, _, written, _⟩ | ⟨_, _, _, written, _⟩ <;> exact stuck _ written

theorem rootOnlyReports : rootOnly.Reports ⟨.little, 0, true⟩ (firstMalloc true) := by
  refine (finalizeReportsIff rfl rfl ⟨rfl, rfl, rfl⟩).mpr ?_
  refine ⟨true, _, _, ⟨1, rfl⟩, .inr ⟨rfl, ?_⟩⟩
  exact ⟨_, _, ⟨0, rfl⟩, _, _, ⟨0, rfl⟩, _, _, ⟨0, rfl⟩, _, _, ⟨0, rfl⟩, _, _, ⟨0, rfl⟩, _, _, ⟨0, rfl⟩,
    _, _, ⟨0, rfl⟩, fun _ _ => rfl⟩

/-! ### The call among the threads -/

section
open Transition
variable {p : ImageConfig} {first s : Image} {trace : List (Event Image Label)} {success : Bool}

/- Each operation is one step of the thread that is in libsqfs_image_finalize. -/
theorem performEachFollows (run : Run (Image.Step p) first trace s) (fine : s.fault = none)
    (here : s.api = .later ops true)
    (ran : performEach o depth ops image env = some (success, next, after)) :
    ∃ later rest, Run (Image.Step p) first (trace ++ later) {s with api := .later rest success} ∧
      (success = true → rest = []) ∧ next.options = image.options := by
  induction ops generalizing image env s trace with
  | nil =>
    cases ran
    exact ⟨[], [], by rw [List.append_nil, ← here]; exact run, fun _ => rfl, rfl⟩
  | cons op ops ih =>
    rw [performEach] at ran
    cases performed : image.perform o depth env op with
    | none =>
      rw [performed] at ran
      cases ran
    | some result =>
      obtain ⟨ok, image', env'⟩ := result
      rw [performed] at ran
      have taken := run.move ⟨fine, @Image.Move.later p s op ops ok here⟩
      cases goesOn : ok || op == .serialize with
      | true =>
        rw [goesOn] at taken
        simp only [goesOn, if_true] at ran
        obtain ⟨later, rest, whole, done, same⟩ := ih taken fine rfl ran
        exact ⟨_ :: later, rest, by rw [List.append_cons]; exact whole, done,
          same.trans (performOptions performed)⟩
      | false =>
        rw [goesOn] at taken
        simp only [goesOn, Bool.false_eq_true, if_false] at ran
        cases ran
        exact ⟨_, ops, taken, nofun, performOptions performed⟩

/- What the call returns and leaves as the state is what the threads come to
when no other thread steps in between. -/
theorem finalizeFollows (building : image.state = .building) (rooted : image.inodes.root.isSome)
    (done : image.bulkdata.Done) {state : ImageState}
    (ran : image.finalize o depth env = some (state, next, after))
    (run : Run (Image.Step p) first trace s) (fine : s.fault = none)
    (here : s.api = .later (operations image.options) true) (same : s.state = .building)
    (idle : s.pc 0 = .out) (unlocked : s.lock = none) (padding : p.padding = image.options.padding) :
    ∃ later last, Run (Image.Step p) first (trace ++ later) last ∧
      (labels later).getLast? = some (.returned state) ∧ last.state = state ∧ last.Free := by
  rw [finalizeDone building rooted done] at ran
  obtain ⟨⟨success, image', env'⟩, performed, ended⟩ := Option.map_eq_some_iff.mp ran
  obtain ⟨later, rest, reached, all, options⟩ := performEachFollows run fine here performed
  simp only at ended
  cases success with
  | true =>
    obtain rfl := all rfl
    by_cases padded : image'.Padded o env'
    · rw [padAndConcludePadded padded] at ended
      cases ended
      have concluded := (reached.move ⟨fine, .conclude rfl⟩).move ⟨fine, .returns rfl idle⟩
      simp only [List.append_assoc] at concluded
      exact ⟨_, _, concluded, by simp [labels], rfl, rfl, idle⟩
    · rw [padAndConcludeUnpadded padded] at ended
      cases ended
      have needed : p.padding = true := by
        simp only [Padded, Classical.not_imp] at padded
        rw [padding, ← options, padded.1]
      have left := reached.move ⟨fine, .truncateFails rfl needed⟩
      simp only [List.append_assoc] at left
      exact ⟨_, _, left, by simp [labels], same, rfl, idle⟩
  | false =>
    rw [padAndConcludeFailed] at ended
    have told : state = .fatalError := by
      have value := (concludeState image' false env').1
      rwa [ended, if_neg Bool.false_ne_true] at value
    subst told
    have flagging := reached.move ⟨fine, .concludeFailed rfl idle⟩
    have flagged := flagging.move ⟨fine, .flag (t := 0) (c := none) (by simp [Image.goto])⟩
    have aborted := flagged.move ⟨fine, .abort (t := 0) (c := none) (by simp [Image.goto]) unlocked⟩
    have returned := aborted.move ⟨fine, .returns rfl (by simp [Image.goto])⟩
    simp only [List.append_assoc] at returned
    exact ⟨_, _, returned, by simp [labels, Image.goto], rfl, rfl, by simp [Image.goto]⟩

end

end Assembly
end Libsqfs
