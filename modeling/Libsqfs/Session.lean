import Libsqfs.Calls
import Libsqfs.PipelineSealed

/-! The calls that build the tree and the threads of one image together. Thread 0
makes the calls; the chunks of a file go to the bulk data one after the other, with
the threads at work between them. -/
namespace Libsqfs
open Transition Image

/- `pending` is what the call under way has still to submit. -/
structure Session where
  image : Image
  builder : Builder
  pending : List Item

namespace Session

def init (config : BuilderConfig) (compressBlocks compressFragments : Bool) (size : Nat) (env : Env) : Session :=
  ⟨.init compressBlocks compressFragments size, .init config env, []⟩

/- The closing piece takes a place in the chain like what a call submits. -/
def record (b : Builder) : Label → Builder
  | .seal => {b with items := b.items ++ [⟨.closingPiece, ⟨[], 0, 0⟩⟩]}
  | _ => b

inductive Step (o : ImageConfig) (config : BuilderConfig) (s : Session) :
    (Call × Bool) ⊕ Label → Session → Prop where
  | call {c ok next} (free : s.image.Free) (idle : s.pending = []) (other : ∀ dir, c ≠ .setRoot dir)
      (taken : s.builder.Step config (c, ok) next) :
      Step o config s (.inl (c, ok)) ⟨s.image, next, next.items.drop s.builder.items.length⟩
  | setRoot {dir image next} (idle : s.pending = []) (missing : s.image.root = false)
      (taken : s.builder.Step config (.setRoot dir, true) next) (rooted : s.image.Step o (.thread 0) image)
      (found : image.root = true) : Step o config s (.inl (.setRoot dir, true)) ⟨image, next, []⟩
  | setRootFails {dir} (free : s.image.Free) (idle : s.pending = [])
      (isOver : s.image.root = true ∨ s.image.state ≠ .building) :
      Step o config s (.inl (.setRoot dir, false)) s
  | submit {i rest image} (next : s.pending = i :: rest)
      (taken : s.image.Step o (.submit i.kind i.data) image) :
      Step o config s (.inr (.submit i.kind i.data)) ⟨image, s.builder, rest⟩
  -- a step of another thread, or of thread 0 outside the calls above
  | work {l image} (other : ∀ kind data, l ≠ .submit kind data) (root : image.root = s.image.root)
      (busy : s.pending = [] ∨ image.api = s.image.api ∧ image.pc 0 = s.image.pc 0)
      (taken : s.image.Step o l image) : Step o config s (.inr l) ⟨image, record s.builder l, s.pending⟩

section
variable {o : ImageConfig} {config : BuilderConfig} {s next : Session} {l : (Call × Bool) ⊕ Label}
  {trace : List (Event Session ((Call × Bool) ⊕ Label))} {x : Event Session ((Call × Bool) ⊕ Label)}

/-! ### What a call submits -/

theorem submitBlocksNil {data : Bytes} {blockSize n : Nat} {env : Env} :
    (Inodes.submitBlocks data blockSize (List.range n) env).2.1 = [] ↔ n = 0 ∨ env.mallocs 0 = false := by
  cases n with
  | zero => simp [Inodes.submitBlocks]
  | succ n =>
    rw [List.range_succ_eq_map, Inodes.submitBlocks]
    cases granted : env.mallocs 0 <;> simp [Env.malloc, granted]

def Sliced (config : BuilderConfig) (data : Option Bytes) : Prop :=
  ∃ d, data = some d ∧ Inodes.slicing config.fragments config.blockSize d.length ≠ (0, 0)

/- A file whose data is in chunks, with memory for the first of them. -/
def Chunked (config : BuilderConfig) (env : Env) (data : Option Bytes) : Prop :=
  Sliced config data ∧ env.mallocs 0 = true ∧ env.mallocs 1 = true ∧ env.mallocs 2 = true

theorem submitBlocksFails {data : Bytes} {blockSize n : Nat} {env : Env} (some : n ≠ 0)
    (none : (Inodes.submitBlocks data blockSize (List.range n) env).2.1 = []) :
    (Inodes.submitBlocks data blockSize (List.range n) env).1 = false := by
  have missing := (submitBlocksNil.mp none).resolve_left some
  cases n with
  | zero => exact absurd rfl some
  | succ n =>
    rw [List.range_succ_eq_map, Inodes.submitBlocks]
    simp [Env.malloc, missing]

theorem regularItems {t : Inodes} {attr : InodeAttr} {data : Option Bytes} {chunks : Nat} {env : Env} :
    ((Inodes.regularInodeCreate config.fragments config.blockSize chunks t attr data env).2.1 ≠ [] ↔
        Chunked config env data) ∧
      ((Inodes.regularInodeCreate config.fragments config.blockSize chunks t attr data env).2.1 = [] →
        Sliced config data →
        (Inodes.regularInodeCreate config.fragments config.blockSize chunks t attr data env).1 = none) := by
  cases data with
  | none => simp [Inodes.regularInodeCreate, Chunked, Sliced]
  | some d =>
    have first : env.malloc.1 = env.mallocs 0 := rfl
    have second : env.malloc.2.malloc.1 = env.mallocs 1 := rfl
    have third : env.malloc.2.malloc.2.mallocs 0 = env.mallocs 2 := rfl
    simp only [Chunked, Sliced, Option.some.injEq, exists_eq_left', ne_eq, ← first, ← second, ← third]
    unfold Inodes.regularInodeCreate
    simp only
    have blocks := @submitBlocksNil d config.blockSize
      (Inodes.slicing config.fragments config.blockSize d.length).1 env.malloc.2.malloc.2
    have fails := @submitBlocksFails d config.blockSize
      (Inodes.slicing config.fragments config.blockSize d.length).1 env.malloc.2.malloc.2
    split
    · simp_all
    · split
      · simp_all
      · generalize Inodes.slicing config.fragments config.blockSize d.length = sliced at *
        obtain ⟨n, tail⟩ := sliced
        simp only [Prod.mk.injEq] at *
        cases n with
        | zero =>
          simp only [List.range_zero, Inodes.submitBlocks, Bool.not_true, Bool.false_eq_true, if_false]
          split
          · simp_all
          · split
            · simp_all [Env.malloc]
            · simp_all [Env.malloc]
        | succ n =>
          split
          · simp_all
          · rename_i granted
            have some := mt (fails (by simp)) (by simpa using granted)
            split
            · simp_all
            · split
              · simp_all
              · simp_all

theorem callPending {c : Call} {ok : Bool} {b after : Builder} (taken : b.Step config (c, ok) after) :
    (after.items.drop b.items.length ≠ [] ↔ ∃ attr data, c = .regular attr data ∧ Chunked config b.env data) ∧
      (after.items.drop b.items.length = [] → ∀ attr data, c = .regular attr data → Sliced config data →
        ok = false) := by
  obtain ⟨_, result⟩ := taken
  cases c with
  | regular attr data =>
    cases result
    obtain ⟨items, refused⟩ := @regularItems config b.inodes attr data b.items.length b.env
    simp only [List.drop_left]
    refine ⟨⟨fun some => ⟨attr, data, rfl, items.mp some⟩, ?_⟩, ?_⟩
    · rintro ⟨_, _, same, chunked⟩
      cases same
      exact items.mpr chunked
    · rintro empty _ _ same sliced
      cases same
      exact congrArg Option.isSome (refused empty sliced)
  | directory | symlink | device | fifo | addEntry | setRoot =>
    cases result
    simp

/-! ### Sealing is final -/

def Closes (x : Event Session ((Call × Bool) ⊕ Label)) : Prop :=
  ∃ l, x.label = .inr l ∧ Seals x.before.image l x.after.image

def Chunking (config : BuilderConfig) (x : Event Session ((Call × Bool) ⊕ Label)) : Prop :=
  ∃ attr data ok, x.label = .inl (.regular attr data, ok) ∧ Chunked config x.before.builder.env data

/- The closing piece is the last of the pieces and of the chunks, and what
libsqfs_fragment_piece_assign looks for is there. -/
structure Intact (s : Image) : Prop where
  closing : s.bd.mayAddChunks = false → s.bd.aborted = false →
    ∃ c, c < s.bd.count ∧ (s.bd.chunk c).kind = .closingPiece
  last : ∀ c, c < s.bd.count → (s.bd.chunk c).kind = .closingPiece → c + 1 = s.bd.count ∧ s.bd.lastPiece = some c
  assigns : ∀ t c p, s.pc t = .popped .assignq c → (s.bd.chunk c).prevPiece = some p →
    (s.bd.chunk p).fragmentBlock.isSome = true

/- Nothing is appended or left to be, and no file is created that needs chunks. -/
structure Final (config : BuilderConfig) (x : Event Session ((Call × Bool) ⊕ Label)) : Prop where
  still : Still x.before.image.bd x.after.image.bd
  idle : x.after.pending = []
  refused : ∀ attr data ok, x.label = .inl (.regular attr data, ok) → Sliced config data → ok = false
  before : Intact x.before.image
  after : Intact x.after.image

theorem orderedIntact {image : Image} (ordered : Ordered image) : Intact image :=
  ⟨ordered.closing, ordered.last, fun _ _ _ here prev => ordered.assigns here prev⟩

structure Kept (trace : List (Event Session ((Call × Bool) ⊕ Label))) (s : Session) : Prop where
  ordered : Ordered s.image
  outside : s.pending ≠ [] → s.image.api = .outside
  unclosed : (∀ e ∈ trace, ¬ Closes e) → Unclosed s.image.bd
  shut : (∃ e ∈ trace, Closes e) → Shut s.image ∧ s.pending = []

theorem Kept.worked (kept : Kept trace s) {i : Label} (pending : next.pending = s.pending)
    (taken : s.image.Step o i next.image) (other : ∀ kind data, i ≠ .submit kind data)
    (busy : s.pending = [] ∨ next.image.api = s.image.api) (seals : i = .seal → Closes ⟨s, l, next⟩)
    (closes : Closes ⟨s, l, next⟩ → Seals s.image i next.image) : Kept (trace ++ [⟨s, l, next⟩]) next where
  ordered := kept.ordered.step (fun kind data same => absurd same (other kind data)) taken.2
  outside some := by
    rw [pending] at some
    rw [busy.resolve_left some]
    exact kept.outside some
  unclosed never := by
    have unsealed : i ≠ .seal := fun same => never _ (by simp) (seals same)
    exact (kept.ordered.still taken.2 other unsealed).unclosed
      (kept.unclosed fun e member => never e (List.mem_append_left _ member))
  shut := by
    rintro ⟨e, member, here⟩
    rcases List.mem_append.mp member with old | new
    · obtain ⟨shut, idle⟩ := kept.shut ⟨e, old, here⟩
      obtain ⟨unsealed, open'⟩ := shut.step taken.2 other
      have still := kept.ordered.still taken.2 other unsealed
      refine ⟨⟨?_, open'⟩, pending.trans idle⟩
      cases more : next.image.bd.mayAddChunks with
      | false => rfl
      | true => exact absurd (still.mayAddChunks more) (by simp [shut.closed])
    · obtain rfl := List.mem_singleton.mp new
      have sealing := closes here
      refine ⟨sealsShut taken.2 sealing, pending.trans ?_⟩
      by_contra some
      have away := kept.outside some
      rcases sealing with same | ⟨was, _⟩ | ⟨was, _⟩
      · have move := taken.2
        subst same
        generalize next.image = image at move
        cases move with
        | closingQueued here | closingQueuedAgain here =>
          rw [away] at here
          cases here
      · rw [away] at was
        cases was
      · rw [away] at was
        cases was

theorem Kept.called (kept : Kept trace s) {c : Call × Bool} (image : next.image = s.image) (free : s.image.Free)
    (idle : (∃ e ∈ trace, Closes e) → next.pending = []) : Kept (trace ++ [⟨s, .inl c, next⟩]) next where
  ordered := by rw [image]; exact kept.ordered
  outside _ := by rw [image]; exact free.1
  unclosed never := by
    rw [image]
    exact kept.unclosed fun e member => never e (List.mem_append_left _ member)
  shut := by
    rintro ⟨e, member, here⟩
    rcases List.mem_append.mp member with old | new
    · rw [image]
      exact ⟨(kept.shut ⟨e, old, here⟩).1, idle ⟨e, old, here⟩⟩
    · obtain rfl := List.mem_singleton.mp new
      obtain ⟨_, same, _⟩ := here
      cases same

theorem Kept.submitted (kept : Kept trace s) {i : Item} {rest : List Item} (shape : s.pending = i :: rest)
    (taken : s.image.Step o (.submit i.kind i.data) next.image) :
    Kept (trace ++ [⟨s, .inr (.submit i.kind i.data), next⟩]) next := by
  have early : ¬ ∃ e ∈ trace, Closes e := fun closed => by
    rw [(kept.shut closed).2] at shape
    cases shape
  have unclosed := kept.unclosed fun e member here => early ⟨e, member, here⟩
  obtain ⟨submitted, outside⟩ : Unclosed next.image.bd ∧ next.image.api = .outside := by
    have move := taken.2
    generalize next.image = image at move ⊢
    cases move with
    | @submit _ _ pc free unlocked own signal =>
      obtain ⟨_, only⟩ := @Ordered.appended s.image s.image.pc kept.ordered i.kind i.data unclosed (.refl _)
      refine ⟨fun c inside closing => own (only c ?_ closing).2, free.1⟩
      rwa [(Bulkdata.submitGrows kept.ordered.tracked.linked i.kind i.data).count] at inside
  refine ⟨kept.ordered.step (fun _ _ _ => unclosed) taken.2, fun _ => outside, fun _ => submitted, ?_⟩
  rintro ⟨e, member, here⟩
  rcases List.mem_append.mp member with old | new
  · exact absurd ⟨e, old, here⟩ early
  · obtain rfl := List.mem_singleton.mp new
    obtain ⟨_, same, seals⟩ := here
    cases same
    rcases seals with same | ⟨was, now⟩ | ⟨was, now⟩
    · cases same
    · simp [outside] at now
    · simp [outside] at now

theorem Kept.step (kept : Kept trace s) (spared : (∃ e ∈ trace, Closes e) → ¬ Chunking config ⟨s, l, next⟩)
    (taken : Step o config s l next) : Kept (trace ++ [⟨s, l, next⟩]) next := by
  cases taken with
  | @call c ok after free idle other taken =>
    refine kept.called rfl free fun closed => ?_
    by_contra some
    obtain ⟨attr, data, rfl, chunked⟩ := (callPending taken).1.mp some
    exact spared closed ⟨attr, data, ok, rfl, chunked⟩
  | setRoot idle missing taken rooted found =>
    refine kept.worked idle.symm rooted (by simp) (.inl idle) (by simp) fun here => ?_
    obtain ⟨_, same, _⟩ := here
    cases same
  | setRootFails free idle isOver => exact kept.called rfl free fun _ => idle
  | submit shape taken => exact kept.submitted shape taken
  | @work i image other root busy taken =>
    refine kept.worked rfl taken other (busy.imp_right And.left) (fun same => ⟨i, rfl, .inl same⟩) ?_
    rintro ⟨_, same, seals⟩
    cases same
    exact seals

theorem Kept.final (kept : Kept trace s) (closed : ∃ e ∈ trace, Closes e)
    (spared : ¬ Chunking config ⟨s, l, next⟩) (taken : Step o config s l next) : Final config ⟨s, l, next⟩ := by
  have later := kept.step (fun _ => spared) taken
  obtain ⟨shut, idle⟩ := kept.shut closed
  obtain ⟨_, idle'⟩ := later.shut (closed.imp fun e here => ⟨List.mem_append_left _ here.1, here.2⟩)
  have refused : Still s.image.bd next.image.bd ∧
      ∀ attr data ok, l = .inl (.regular attr data, ok) → Sliced config data → ok = false := by
    cases taken with
    | call free _ other taken =>
      refine ⟨.refl _, fun attr data ok same sliced => ?_⟩
      cases same
      exact (callPending taken).2 idle' attr data rfl sliced
    | setRoot _ missing taken rooted found =>
      exact ⟨kept.ordered.still rooted.2 (by simp) (by simp), by simp⟩
    | setRootFails => exact ⟨.refl _, by simp⟩
    | submit shape taken =>
      rw [idle] at shape
      cases shape
    | work other root busy taken =>
      exact ⟨kept.ordered.still taken.2 other (shut.step taken.2 other).1, by simp⟩
  exact ⟨refused.1, idle', refused.2, orderedIntact kept.ordered, orderedIntact later.ordered⟩

theorem chunkedPending {attr : InodeAttr} {data : Option Bytes} {ok : Bool}
    (taken : Step o config s (.inl (.regular attr data, ok)) next) (chunked : Chunked config s.builder.env data) :
    next.pending ≠ [] := by
  cases taken with
  | call free idle other taken => exact (callPending taken).1.mpr ⟨attr, data, rfl, chunked⟩

theorem initKept (config : BuilderConfig) (compressBlocks compressFragments : Bool) (size : Nat) (env : Env) :
    Kept [] (init config compressBlocks compressFragments size env) where
  ordered := {
    tracked := ⟨fun _ => [], by
      have sound := initSound (P := fun _ => True) compressBlocks compressFragments size
      exact sound.chunks⟩
    adding := fun _ c inside => absurd inside (by simp [init, Image.init, Bulkdata.init])
    unsealed := fun again here => by cases here
    last := fun c inside => absurd inside (by simp [init, Image.init, Bulkdata.init])
    closing := fun shut => by cases shut
    apart := fun _ => .inl rfl }
  outside some := absurd rfl some
  unclosed _ c inside := absurd inside (by simp [init, Image.init, Bulkdata.init])
  shut := by simp

theorem sealingFinal {compressBlocks compressFragments : Bool} {size : Nat} {env : Env}
    (run : Run (Step o config) (init config compressBlocks compressFragments size env) trace s) :
    Since Closes (fun x => ¬ Chunking config x) trace ↔ Since Closes (Final config) trace := by
  constructor
  · intro spared
    have whole : Kept trace s ∧ Since Closes (Final config) trace := by
      induction run with
      | start => exact ⟨initKept _ _ _ _ _, fun before e after shape => by simp at shape⟩
      | move run taken ih =>
        obtain ⟨earlier, last⟩ := sinceSnoc.mp spared
        obtain ⟨kept, final⟩ := ih earlier
        exact ⟨kept.step last taken, sinceSnoc.mpr ⟨final, fun closed => kept.final closed (last closed) taken⟩⟩
    exact whole.2
  · rintro final before e after shape closes x member ⟨attr, data, ok, label, chunked⟩
    have here := final before e after shape closes x member
    have inside : x ∈ trace := by
      rw [shape]
      exact List.mem_append_right _ (List.mem_cons_of_mem _ member)
    obtain ⟨_, _, _, _, taken⟩ := run.reaches inside
    rw [label] at taken
    exact chunkedPending taken chunked here.idle

end

theorem onward {o : ImageConfig} {config : BuilderConfig} {first : Session} {b : Builder} {i next : Image} {l : Label}
    {trace : List (Event Session ((Call × Bool) ⊕ Label))} (run : Run (Step o config) first trace ⟨i, b, []⟩)
    (move : Move o i l next)
    (apart : i.fault = none ∧ next.root = i.root ∧ ∀ kind data, l ≠ .submit kind data) :
    Run (Step o config) first (trace ++ [⟨⟨i, b, []⟩, .inr l, ⟨next, record b l, []⟩⟩]) ⟨next, record b l, []⟩ :=
  run.move (.work apart.2.2 apart.2.1 (.inl rfl) ⟨apart.1, move⟩)

theorem worked {o : ImageConfig} {config : BuilderConfig} {b : Builder} {i next : Image} {events : List (Event Image Label)}
    (run : Run (Image.Step o) i events next)
    (others : ∀ e ∈ events, (∀ kind data, e.label ≠ .submit kind data) ∧ e.after.root = e.before.root) : ∃ trace,
      Run (Step o config) ⟨i, b, []⟩ trace ⟨next, (labels events).foldl record b, []⟩ ∧
        labels trace = (labels events).map .inr := by
  induction run with
  | start => exact ⟨[], .start, rfl⟩
  | @move events s l next run taken ih =>
    obtain ⟨trace, reached, same⟩ := ih fun e member => others e (List.mem_append_left _ member)
    obtain ⟨other, root⟩ := others ⟨s, l, next⟩ (by simp)
    have step : Step o config ⟨s, (labels events).foldl record b, []⟩ (.inr l)
        ⟨next, record ((labels events).foldl record b) l, []⟩ := .work other root (.inl rfl) taken
    rw [labelsSnoc, List.foldl_append]
    refine ⟨_, reached.move step, ?_⟩
    rw [labelsSnoc, same, List.map_append]
    rfl

def sampleConfig : BuilderConfig := ⟨.small, 4096, none⟩
def sampleAttr : InodeAttr := ⟨0, 0, 0, 0, 0, 0, none⟩
def sampleRooted : Builder :=
  (((Builder.init sampleConfig .fresh).run sampleConfig (.directory sampleAttr)).2.run sampleConfig (.setRoot 0)).2
def sampleClosing : Image := {Image.init true true 96 with root := true, api := .closing false}
def sampleShut : Image := {sampleClosing with bd := sampleClosing.bd.sealed, api := .seal true}

theorem sampleBegun (o : ImageConfig) {env : Env} {built rooted : Builder}
    (made : (Builder.init sampleConfig env).Step sampleConfig (.directory sampleAttr, true) built)
    (linked : built.Step sampleConfig (.setRoot 0, true) rooted) (none : built.items = []) : ∃ trace,
    Run (Step o sampleConfig) (init sampleConfig true true 96 env) trace
        ⟨{Image.init true true 96 with root := true}, rooted, []⟩ ∧
      labels trace = [.inl (.directory sampleAttr, true), .inl (.setRoot 0, true)] := by
  have called : Step o sampleConfig (init sampleConfig true true 96 env) (.inl (.directory sampleAttr, true))
      ⟨.init true true 96, built, built.items.drop 0⟩ := .call ⟨rfl, rfl⟩ rfl (by simp) made
  rw [none] at called
  have root : Step o sampleConfig ⟨.init true true 96, built, []⟩ (.inl (.setRoot 0, true))
      ⟨{Image.init true true 96 with root := true}, rooted, []⟩ :=
    .setRoot rfl rfl linked ⟨rfl, .setRoot ⟨rfl, rfl⟩ rfl rfl⟩ rfl
  exact ⟨_, (Run.start.move called).move root, rfl⟩

theorem sampleRun (o : ImageConfig) {env : Env} {built rooted : Builder}
    (made : (Builder.init sampleConfig env).Step sampleConfig (.directory sampleAttr, true) built)
    (linked : built.Step sampleConfig (.setRoot 0, true) rooted) (none : built.items = []) : ∃ trace,
    Run (Step o sampleConfig) (init sampleConfig true true 96 env) trace ⟨sampleClosing, rooted, []⟩ ∧
      Step o sampleConfig ⟨sampleClosing, rooted, []⟩ (.inr .seal) ⟨sampleShut, record rooted .seal, []⟩ ∧
      ∀ x ∈ trace, ¬ Chunking sampleConfig x := by
  obtain ⟨begun, root, first⟩ := sampleBegun o made linked none
  have entered := onward root (.enter ⟨rfl, rfl⟩ rfl) ⟨rfl, rfl, by simp⟩
  have needed := onward (onward entered (.rootFound rfl rfl) ⟨rfl, rfl, by simp⟩) (.sealNeeded rfl rfl rfl)
    ⟨rfl, rfl, by simp⟩
  have quiet : Signal sampleClosing.pc sampleClosing.pc := .idle fun t => by simp [sampleClosing, Image.init]
  refine ⟨_, needed, .work (by simp) rfl (.inl rfl) ⟨rfl, .closingQueued rfl rfl quiet quiet⟩, fun x member => ?_⟩
  rintro ⟨attr, data, ok, label, _⟩
  have listed : x.label ∈ labels begun ++ [.inr .enter, .inr (.thread 0), .inr (.thread 0)] := by
    have inside := List.mem_map_of_mem (f := Event.label) member
    simpa [labels] using inside
  rw [first, label] at listed
  simp at listed

theorem recordUnsealed (b : Builder) {ls : List Label} (unsealed : .seal ∉ ls) : ls.foldl record b = b := by
  induction ls with
  | nil => rfl
  | cons l rest ih =>
    obtain ⟨other, later⟩ := List.ne_and_not_mem_of_not_mem_cons unsealed
    have same : record b l = b := by
      cases l <;> first | rfl | exact absurd rfl other
    rw [List.foldl_cons, same, ih later]

/- Thread 0 finalizes the image behind the closing piece. -/
theorem sampleFinalized : ∃ (events : List (Event Image Label)) (s : Image),
    Run (Image.Step ⟨4096, fun _ _ => none, [], false⟩) sampleShut events s ∧
      (∀ e ∈ events, e.label ∈ [.thread 0, .conclude, .returned .finalized] ∧ e.after.root = e.before.root) ∧
      s.Free ∧ s.state = .finalized := by
  have locked : Run (Image.Step ⟨4096, fun _ _ => none, [], false⟩) sampleShut _ _ :=
    .move (.move .start ⟨rfl, .sealedAgain rfl rfl rfl⟩) ⟨rfl, .locked (t := 0) rfl rfl⟩
  have read := (locked.move ⟨rfl, .pop (t := 0) rfl rfl⟩).move ⟨rfl, @Move.again _ _ 0 _ _ true _ _ rfl rfl⟩
  have deduplicated := (read.move ⟨rfl, .pop (t := 0) rfl rfl⟩).move ⟨rfl, @Move.again _ _ 0 _ _ true _ _ rfl rfl⟩
  have assigned := (deduplicated.move ⟨rfl, .pop (t := 0) rfl rfl⟩).move ⟨rfl, @Move.again _ _ 0 _ _ true _ _ rfl rfl⟩
  have finished := (assigned.move ⟨rfl, .pop (t := 0) rfl rfl⟩).move ⟨rfl, @Move.again _ _ 0 _ _ true _ _ rfl rfl⟩
  have processed := (finished.move ⟨rfl, .leave (t := 0) rfl rfl (by decide)⟩).move ⟨rfl, .processed rfl rfl⟩
  have returned := (processed.move ⟨rfl, .conclude rfl⟩).move ⟨rfl, .returns rfl rfl⟩
  exact ⟨_, _, returned, by simp [goto], ⟨rfl, rfl⟩, rfl⟩

/- Memory for the root directory alone: a file is asked for behind the seal, and refused. -/
theorem nothingCreated : ∃ (o : ImageConfig) (config : BuilderConfig) (env : Env)
    (before after : List (Event Session ((Call × Bool) ⊕ Label))) (e : Event Session ((Call × Bool) ⊕ Label))
    (s : Session) (attr : InodeAttr) (data : Option Bytes), Closes e ∧ s.image.state = .finalized ∧
      .inl (.regular attr data, false) ∈ labels after ∧ Sliced config data ∧
      Run (Step o config) (init config true true 96 env) (before ++ e :: after) s ∧
        Since Closes (Final config) (before ++ e :: after) := by
  let o : ImageConfig := ⟨4096, fun _ _ => none, [], false⟩
  let env : Env := {Env.fresh with mallocs := fun n => n == 0}
  let built : Builder := ((Builder.init sampleConfig env).run sampleConfig (.directory sampleAttr)).2
  let rooted : Builder := (built.run sampleConfig (.setRoot 0)).2
  let refused : Builder := ((record rooted .seal).run sampleConfig (.regular sampleAttr (some [7]))).2
  obtain ⟨before, opening, closing, early⟩ := @sampleRun o env built rooted ⟨trivial, rfl⟩ ⟨by decide, rfl⟩ rfl
  obtain ⟨events, image, finalized, alone, free, final⟩ := sampleFinalized
  obtain ⟨trace, worked, same⟩ := @worked o sampleConfig (record rooted .seal) _ _ _ finalized
    fun e member => ⟨fun kind data bad => by simpa [bad] using (alone e member).1, (alone e member).2⟩
  have builder : (labels events).foldl record (record rooted .seal) = record rooted .seal :=
    recordUnsealed _ fun sealing => by
      obtain ⟨e, member, label⟩ := List.mem_map.mp sealing
      simpa [label] using (alone e member).1
  rw [builder] at worked
  have create : Step o sampleConfig ⟨image, record rooted .seal, []⟩ (.inl (.regular sampleAttr (some [7]), false))
      ⟨image, refused, []⟩ := .call free rfl (by simp) ⟨trivial, rfl⟩
  have isOver := opening.through closing (worked.move create)
  refine ⟨o, sampleConfig, env, before, _, _, _, sampleAttr, some [7], ⟨.seal, rfl, .inl rfl⟩, final, by simp [labels],
    ⟨[7], rfl, by decide⟩, isOver, (sealingFinal isOver).mp ?_⟩
  intro earlier e later shape _ x member
  have inside : x ∈ earlier ++ e :: later := List.mem_append_right _ (List.mem_cons_of_mem _ member)
  rw [← shape] at inside
  rcases List.mem_append.mp inside with old | new
  · exact early x old
  · rintro ⟨_, _, _, label, _, granted, _⟩
    rcases List.mem_cons.mp new with rfl | new
    · cases label
    · rcases List.mem_append.mp new with work | last
      · have quiet := List.mem_map_of_mem (f := Event.label) work
        rw [← labels, same, label] at quiet
        simp at quiet
      · rw [List.mem_singleton.mp last] at granted
        cases granted

/- The image is finalized, a file is created, and a worker finds no fragment block
behind the closing piece. -/
theorem createdAfterFinalize : ∃ (o : ImageConfig) (config : BuilderConfig)
    (before after : List (Event Session ((Call × Bool) ⊕ Label))) (e : Event Session ((Call × Bool) ⊕ Label))
    (s : Session) (attr : InodeAttr) (data : Option Bytes) (c p : Nat),
    Run (Step o config) (init config true true 96 .fresh) (before ++ e :: after) s ∧ Closes e ∧
      s.image.state = .finalized ∧ .inl (.regular attr data, true) ∈ labels after ∧ Sliced config data ∧
      e.after.image.bd.count < s.image.bd.count ∧ s.image.bd.lastPiece = some c ∧
      s.image.pc 1 = .popped .assignq c ∧ (s.image.bd.chunk c).prevPiece = some p ∧
      (s.image.bd.chunk p).kind = .closingPiece ∧ (s.image.bd.chunk p).fragmentBlock = none := by
  let o : ImageConfig := ⟨4096, fun _ _ => none, [], false⟩
  let made : Builder := ((record sampleRooted .seal).run sampleConfig (.regular sampleAttr (some [7]))).2
  let tail : Item := ⟨.fragmentPiece, ⟨[7], 1, 0⟩⟩
  obtain ⟨before, opening, closing, _⟩ := @sampleRun o .fresh _ sampleRooted ⟨trivial, rfl⟩ ⟨by decide, rfl⟩ rfl
  have created (i : Image) (free : i.Free) : Step o sampleConfig ⟨i, record sampleRooted .seal, []⟩
      (.inl (.regular sampleAttr (some [7]), true)) ⟨i, made, [tail]⟩ := .call free rfl (by simp) ⟨trivial, rfl⟩
  have sealed : Run (Step o sampleConfig) ⟨sampleShut, record sampleRooted .seal, []⟩ [] _ := .start
  have locked := onward (onward sealed (.sealedAgain rfl rfl rfl) ⟨rfl, rfl, by simp⟩)
    (.locked (t := 0) rfl rfl) ⟨rfl, rfl, by simp⟩
  have read := onward (onward locked (.pop (t := 0) rfl rfl) ⟨rfl, rfl, by simp⟩)
    (@Move.again _ _ 0 _ _ true _ _ rfl rfl) ⟨rfl, rfl, by simp⟩
  have deduplicated := onward (onward read (.pop (t := 0) rfl rfl) ⟨rfl, rfl, by simp⟩)
    (@Move.again _ _ 0 _ _ true _ _ rfl rfl) ⟨rfl, rfl, by simp⟩
  have assigned := onward (onward deduplicated (.pop (t := 0) rfl rfl) ⟨rfl, rfl, by simp⟩)
    (@Move.again _ _ 0 _ _ true _ _ rfl rfl) ⟨rfl, rfl, by simp⟩
  have finished := onward (onward assigned (.pop (t := 0) rfl rfl) ⟨rfl, rfl, by simp⟩)
    (@Move.again _ _ 0 _ _ true _ _ rfl rfl) ⟨rfl, rfl, by simp⟩
  have processed := onward (onward finished (.leave (t := 0) rfl rfl (by decide)) ⟨rfl, rfl, by simp⟩)
    (.processed rfl rfl) ⟨rfl, rfl, by simp⟩
  have returned := onward (onward processed (.conclude rfl) ⟨rfl, rfl, by simp⟩) (.returns rfl rfl)
    ⟨rfl, rfl, by simp⟩
  have submitted := (returned.move (created _ ⟨rfl, rfl⟩)).move (.submit (i := tail) rfl
    ⟨rfl, .submit ⟨rfl, rfl⟩ rfl (by simp [tail]) (.idle fun t => by cases t <;> exact nofun)⟩)
  have spawned := onward (onward submitted (.spawn (t := 1) ⟨rfl, rfl⟩ rfl (by simp)) ⟨rfl, rfl, by simp⟩)
    (.opened (t := 1) rfl) ⟨rfl, rfl, by simp⟩
  have popped := onward (onward spawned (.locked (t := 1) rfl rfl) ⟨rfl, rfl, by simp⟩) (.pop (t := 1) rfl rfl)
    ⟨rfl, rfl, by simp⟩
  have reading := onward popped (@Move.released _ _ 1 _ _ true _ _ _ rfl rfl) ⟨rfl, rfl, by simp⟩
  have read := onward (onward reading (.read (t := 1) rfl rfl rfl) ⟨rfl, rfl, by simp⟩) (.pop (t := 1) rfl rfl)
    ⟨rfl, rfl, by simp⟩
  have deduplicated := onward (onward read (@Move.again _ _ 1 _ _ true _ _ rfl rfl) ⟨rfl, rfl, by simp⟩)
    (.pop (t := 1) rfl rfl) ⟨rfl, rfl, by simp⟩
  refine ⟨o, sampleConfig, before, _, _, _, sampleAttr, some [7], 1, 0, opening.through closing deduplicated,
    ⟨.seal, rfl, .inl rfl⟩, rfl, ?_, ⟨[7], rfl, by decide⟩, Nat.one_lt_two, rfl, rfl, rfl, rfl, rfl⟩
  simp only [labelsSnoc]
  simp

end Session
end Libsqfs
