import Libsqfs.PipelineReference
import Libsqfs.Session

/-! The runs of an image that come without error to the operations which
libsqfs_image_finalize carries out behind the bulk data. -/
namespace Libsqfs
open Transition

namespace Image
open Bulkdata

/- No fatal error is flagged, and those operations have not begun. -/
def Calm : Label → Prop
  | .flag _ | .abort _ | .later _ => False
  | _ => True

/- Where thread 0 is once nothing more is to be added. -/
def Shutting (o : ImageConfig) (api : Api) : Prop :=
  api = .seal true ∨ api = .processing ∨ api = .later o.later true

structure Begun (o : ImageConfig) (events : List (Event Image Label)) (s : Image) : Prop where
  sound : Sound (fun _ => True) s
  healthy : ∀ t, (s.pc t).Healthy
  alert : Alert s
  ordered : Ordered s
  clean : Obeys Clean events
  closed : s.bd.mayAddChunks = false → Shutting o s.api ∧ .seal ∈ labels events
  opened : ∀ rest, s.api = .later rest true → rest = o.later ∧ s.bd.mayAddChunks = false

section
variable {o : ImageConfig} {events : List (Event Image Label)} {s next : Image} {l : Label}

theorem Begun.adding (begun : Begun o events s) (outside : s.api = .outside) : s.bd.mayAddChunks = true := by
  cases more : s.bd.mayAddChunks with
  | true => rfl
  | false =>
    obtain ⟨shutting, _⟩ := begun.closed more
    rw [outside] at shutting
    rcases shutting with same | same | same <;> cases same

theorem Begun.cleanStep (begun : Begun o events s) (calm : Calm l) (move : Move o s l next) : Clean s l := by
  cases move with
  | submit free => exact begun.adding free.1
  | flag | abort => exact calm
  | _ => trivial

theorem shuttingStep (some : o.later ≠ []) (calm : Calm l) (move : Move o s l next)
    (shut : s.bd.mayAddChunks = false) (shutting : Shutting o s.api) : Shutting o next.api := by
  cases move with
  | later => exact calm.elim
  | sealNeeded here unlocked adding =>
    rw [shut] at adding
    cases adding
  | sealedAgain | closingFailsAgain | closingQueuedAgain => exact .inr (.inl rfl)
  | closingQueued => exact .inl rfl
  | processed => exact .inr (.inr rfl)
  | submit free | spawn free | setRoot free | enter free =>
    rw [Shutting, free.1] at shutting
    rcases shutting with same | same | same <;> cases same
  | rootMissing here | rootFound here | sealed here | closingFails here | concludeFailed here
  | returns here =>
    rw [Shutting, here] at shutting
    rcases shutting with same | same | same <;> cases same
  | truncateFails here | conclude here =>
    rw [Shutting, here] at shutting
    rcases shutting with same | same | same
    · cases same
    · cases same
    · exact absurd (Api.later.inj same).1.symm some
  | _ => exact shutting

theorem laterStep (calm : Calm l) (move : Move o s l next) {rest : List Later}
    (here : next.api = .later rest true) :
    s.api = .later rest true ∨ rest = o.later ∧ s.pc 0 = .gone := by
  cases move with
  | later => exact calm.elim
  | processed _ left =>
    cases here
    exact .inr ⟨rfl, left⟩
  | enter | rootMissing | rootFound | sealNeeded | sealed | sealedAgain | closingFails | closingFailsAgain
  | closingQueued | closingQueuedAgain | truncateFails | conclude | concludeFailed | returns => cases here
  | _ => exact .inl here

theorem Begun.step (begun : Begun o events s) (some : o.later ≠ []) (calm : Calm l) (move : Move o s l next) :
    Begun o (events ++ [⟨s, l, next⟩]) next := by
  have clean := begun.cleanStep calm move
  have undisturbed : Undisturbed (fun _ => True) s l := by
    cases l <;> trivial
  have sound := begun.sound.step undisturbed move
  have unflagged (t : Nat) : l ≠ .flag t := by
    rintro rfl
    exact calm
  have ordered := begun.ordered.step (fun kind data same => by
    subst same
    exact begun.ordered.adding clean) move
  have same (unsubmitted : ∀ kind data, l ≠ .submit kind data) (unsealed : l ≠ .seal) :
      next.bd.mayAddChunks = s.bd.mayAddChunks :=
    ((begun.ordered.still move unsubmitted unsealed).aborted sound.running).2
  refine ⟨sound, healthyStep begun.healthy unflagged move,
    begun.alert.step begun.sound begun.healthy clean move, ordered, obeysAppend begun.clean clean, fun shut => ?_,
    fun rest here => ?_⟩
  · rw [labelsSnoc, List.mem_append, List.mem_singleton]
    by_cases unsealed : l = .seal
    · subst unsealed
      refine ⟨?_, .inr rfl⟩
      cases move with
      | closingQueued => exact .inl rfl
      | closingQueuedAgain => exact .inr (.inl rfl)
    · have unsubmitted (kind : ChunkKind) (data : DataPiece) : l ≠ .submit kind data := by
        rintro rfl
        have adding := (submitGrows begun.ordered.tracked.linked kind data).mayAddChunks
        cases move
        rw [adding] at shut
        exact absurd (clean.symm.trans shut) (by decide)
      rw [same unsubmitted unsealed] at shut
      obtain ⟨shutting, early⟩ := begun.closed shut
      exact ⟨shuttingStep some calm move shut shutting, .inl early⟩
  · have apart : (∀ kind data, l ≠ .submit kind data) ∧ l ≠ .seal := by
      constructor
      · rintro kind data rfl
        cases move with
        | submit free =>
          have outside := free.1
          exact absurd (outside.symm.trans here) (by simp)
      · rintro rfl
        cases move <;> cases here
    rw [same apart.1 apart.2]
    rcases laterStep calm move here with before | ⟨whole, left⟩
    · exact begun.opened rest before
    · exact ⟨whole, (begun.sound.calls.returned left).2⟩

theorem initBegun (o : ImageConfig) (compressBlocks compressFragments : Bool) (size : Nat) :
    Begun o [] (init compressBlocks compressFragments size) where
  sound := initSound compressBlocks compressFragments size
  healthy t := by simp [init, Pc.Healthy]
  alert := ⟨fun _ _ _ member => (List.not_mem_nil member).elim, fun _ more => (by cases more),
    fun more => (by cases more)⟩
  ordered := (Session.initKept ⟨.never, 0, none⟩ compressBlocks compressFragments size .fresh).ordered
  clean _ member := absurd member List.not_mem_nil
  closed shut := by cases shut
  opened rest here := by cases here

theorem Begun.realizes {compressBlocks compressFragments : Bool} {size : Nat} {buffered : Nat → Bool}
    (begun : Begun o events s) (run : Run (Step o) (init compressBlocks compressFragments size) events s)
    (agrees : ∀ e ∈ events, Agrees o buffered e) (here : s.api = .later o.later true) :
    s.bd.finished = s.bd.count ∧
      Realizes s (Plan.sequential (o.rule buffered compressBlocks compressFragments) size (submitted (labels events))) := by
  have shut := (begun.opened _ here).2
  have done := begun.alert.isOver shut (by rw [here]; simp [Sealing])
  exact ⟨done, planRealized run begun.clean agrees (begun.closed shut).2 done⟩

end
end Image

/-! ### The calls of the user among the threads -/

namespace Session
open Image

def imageLabel : (Call × Bool) ⊕ Label → Option Label
  | .inl (.setRoot _, true) => some (.thread 0)
  | .inl _ => none
  | .inr l => some l

/- A refused root leaves the tree as it was. -/
def callLabel : (Call × Bool) ⊕ Label → Option (Call × Bool)
  | .inl (.setRoot _, false) => none
  | .inl l => some l
  | .inr _ => none

def Calm (l : (Call × Bool) ⊕ Label) : Prop := ∀ i, imageLabel l = some i → Image.Calm i

/- No block is lost because malloc gave no buffer for it. -/
def Buffered (o : ImageConfig) (e : Event Session ((Call × Bool) ⊕ Label)) : Prop :=
  ∀ i, e.label = .inr i → Image.Buffered o ⟨e.before.image, i, e.after.image⟩

def Seen (trace : List (Event Session ((Call × Bool) ⊕ Label))) (e : Event Image Label) : Prop :=
  ∀ c, Compresses e c → ∃ x ∈ trace, x.label = .inr e.label ∧ x.before.image = e.before ∧ x.after.image = e.after

/- The image and the tree apart: what the threads did, what the calls did, and that the
chunks were submitted as the calls asked for. -/
structure Apart (o : ImageConfig) (config : BuilderConfig) (first : Session)
    (trace : List (Event Session ((Call × Bool) ⊕ Label))) (s : Session) (events : List (Event Image Label))
    (calls : List (Event Builder (Call × Bool))) (b : Builder) : Prop where
  image : Run (Image.Step o) first.image events s.image
  begun : Begun o events s.image
  imageLabels : labels events = (labels trace).filterMap imageLabel
  builder : Run (Builder.Step config) first.builder calls b
  callLabels : labels calls = (labels trace).filterMap callLabel
  adding : s.image.bd.mayAddChunks = true → s.builder = b
  tree : s.builder.inodes = b.inodes
  items : submitted (labels events) ++ s.pending = s.builder.items
  outside : s.pending ≠ [] → s.image.api = .outside
  threads : ∀ e ∈ events, Seen trace e

section
variable {o : ImageConfig} {config : BuilderConfig} {first s next : Session} {l : (Call × Bool) ⊕ Label}
  {trace : List (Event Session ((Call × Bool) ⊕ Label))} {events : List (Event Image Label)}
  {calls : List (Event Builder (Call × Bool))} {b : Builder}

theorem callItems {c : Call} {ok : Bool} {b after : Builder} (taken : b.Step config (c, ok) after) :
    b.items ++ after.items.drop b.items.length = after.items := by
  obtain ⟨_, result⟩ := taken
  cases c with
  | regular attr data =>
    cases result
    exact congrArg (b.items ++ ·) List.drop_left
  | directory | symlink | device | fifo | addEntry | setRoot =>
    cases result
    exact (congrArg (b.items ++ ·) List.drop_length).trans (List.append_nil _)

theorem rootStep {s next : Image} {l : Label} (move : Image.Move o s l next) (missing : s.root = false)
    (found : next.root = true) : s.Free ∧ l = .thread 0 := by
  cases move with
  | setRoot free => exact ⟨free, rfl⟩
  | _ => exact absurd (missing.symm.trans found) (by decide)

theorem sealOutside {s next : Image} (move : Image.Move o s .seal next) : next.api ≠ s.api := by
  cases move with
  | closingQueued here | closingQueuedAgain here =>
    rw [here]
    simp [Image.goto]

theorem seenKept {x : Event Session ((Call × Bool) ⊕ Label)} (threads : ∀ e ∈ events, Seen trace e) :
    ∀ e ∈ events, Seen (trace ++ [x]) e := by
  intro e member c compresses
  obtain ⟨y, inside, same⟩ := threads e member c compresses
  exact ⟨y, List.mem_append_left _ inside, same⟩

theorem seenMore {x : Event Session ((Call × Bool) ⊕ Label)} {e : Event Image Label}
    (threads : ∀ e ∈ events, Seen trace e)
    (own : ∀ c, Compresses e c → x.label = .inr e.label ∧ x.before.image = e.before ∧ x.after.image = e.after) :
    ∀ e' ∈ events ++ [e], Seen (trace ++ [x]) e' := by
  intro e' member
  rcases List.mem_append.mp member with old | new
  · exact seenKept threads e' old
  · cases List.mem_singleton.mp new
    intro c compresses
    exact ⟨x, by simp, own c compresses⟩

theorem Apart.step (apart : Apart o config first trace s events calls b) (some : o.later ≠ []) (calm : Calm l)
    (taken : Step o config s l next) :
    ∃ events calls b, Apart o config first (trace ++ [⟨s, l, next⟩]) next events calls b := by
  cases taken with
  | @call c ok after free idle other taken =>
    have same := apart.adding (apart.begun.adding free.1)
    have items := apart.items
    rw [idle, List.append_nil] at items
    refine ⟨events, calls ++ [⟨b, (c, ok), after⟩], after, apart.image, apart.begun, ?_,
      apart.builder.move (same ▸ taken), ?_, fun _ => rfl, rfl, ?_, fun _ => free.1, seenKept apart.threads⟩
    · rw [labelsSnoc, List.filterMap_append, apart.imageLabels]
      cases c with
      | setRoot dir => exact absurd rfl (other dir)
      | _ => simp [imageLabel]
    · rw [labelsSnoc, labelsSnoc, List.filterMap_append, apart.callLabels]
      cases c with
      | setRoot dir => exact absurd rfl (other dir)
      | _ => simp [callLabel]
    · rw [items]
      exact callItems taken
  | @setRoot dir image after idle missing taken rooted found =>
    obtain ⟨free, _⟩ := rootStep rooted.2 missing found
    have same := apart.adding (apart.begun.adding free.1)
    have items := apart.items
    rw [idle, List.append_nil] at items
    have kept : after.items = s.builder.items := by
      have result := congrArg (fun r : Bool × Builder => r.2.items) taken.2
      exact result.symm
    refine ⟨events ++ [⟨s.image, .thread 0, image⟩], calls ++ [⟨b, (.setRoot dir, true), after⟩], after,
      apart.image.move rooted, apart.begun.step some (by trivial) rooted.2, ?_, apart.builder.move (same ▸ taken), ?_,
      fun _ => rfl, rfl, ?_, fun more => absurd rfl more, seenMore apart.threads fun c compresses => ?_⟩
    · rw [labelsSnoc, labelsSnoc, List.filterMap_append, apart.imageLabels]
      simp [imageLabel]
    · rw [labelsSnoc, labelsSnoc, List.filterMap_append, apart.callLabels]
      simp [callLabel]
    · simp only [labelsSnoc, submitted, List.filterMap_append, List.append_nil]
      rw [kept, ← items]
      simp [submission, submitted]
    · obtain ⟨t, own, here, _⟩ := compresses
      cases own
      exact absurd (here.symm.trans free.2) (by simp)
  | setRootFails free idle isOver =>
    refine ⟨events, calls, b, apart.image, apart.begun, ?_, apart.builder, ?_, apart.adding, apart.tree, apart.items,
      apart.outside, seenKept apart.threads⟩
    · rw [labelsSnoc, List.filterMap_append, apart.imageLabels]
      simp [imageLabel]
    · rw [labelsSnoc, List.filterMap_append, apart.callLabels]
      simp [callLabel]
  | @submit i rest image shape taken =>
    have outside := apart.outside (by rw [shape]; simp)
    have same := apart.adding (apart.begun.adding outside)
    refine ⟨events ++ [⟨s.image, .submit i.kind i.data, image⟩], calls, b, apart.image.move taken,
      apart.begun.step some (by trivial) taken.2, ?_, apart.builder, ?_, fun _ => same, apart.tree, ?_, fun _ => ?_,
      seenMore apart.threads fun _ _ => ⟨rfl, rfl, rfl⟩⟩
    · rw [labelsSnoc, labelsSnoc, List.filterMap_append, apart.imageLabels]
      simp [imageLabel]
    · rw [labelsSnoc, List.filterMap_append, apart.callLabels]
      simp [callLabel]
    · rw [← apart.items, shape]
      simp [submission, submitted]
    · have move := taken.2
      generalize image = after at move
      cases move with
      | submit free => exact free.1
  | @work i image other root busy taken =>
    have begun := apart.begun.step some (calm i rfl) taken.2
    refine ⟨events ++ [⟨s.image, i, image⟩], calls, b, apart.image.move taken, begun, ?_, apart.builder, ?_,
      fun adding => ?_, ?_, ?_, fun more => ?_, seenMore apart.threads fun _ _ => ⟨rfl, rfl, rfl⟩⟩
    · rw [labelsSnoc, labelsSnoc, List.filterMap_append, apart.imageLabels]
      simp [imageLabel]
    · rw [labelsSnoc, List.filterMap_append, apart.callLabels]
      simp [callLabel]
    · have unsealed : i ≠ .seal := by
        rintro rfl
        have move := taken.2
        dsimp only at adding
        generalize image = after at move adding
        cases move <;> cases adding
      have before := (apart.begun.ordered.still taken.2 other unsealed).mayAddChunks adding
      rw [← apart.adding before]
      cases i <;> first | rfl | exact absurd rfl unsealed
    · rw [← apart.tree]
      cases i <;> rfl
    · rw [labelsSnoc, submitted, List.filterMap_append]
      have items := apart.items
      rw [submitted] at items
      cases i with
      | submit kind data => exact absurd rfl (other kind data)
      | «seal» =>
        have none : s.pending = [] := by
          rcases busy with none | ⟨api, _⟩
          · exact none
          · exact absurd api (sealOutside taken.2)
        rw [none, List.append_nil] at items
        rw [none, List.append_nil, items]
        rfl
      | _ => simpa [submission, record, List.filterMap_cons] using items
    · rcases busy with none | ⟨api, _⟩
      · exact absurd none more
      · exact api.trans (apart.outside more)

theorem initApart (compressBlocks compressFragments : Bool) (size : Nat) (env : Env) :
    Apart o config (init config compressBlocks compressFragments size env) []
      (init config compressBlocks compressFragments size env) [] [] (.init config env) where
  image := .start
  begun := initBegun o compressBlocks compressFragments size
  imageLabels := rfl
  builder := .start
  callLabels := rfl
  adding _ := rfl
  tree := rfl
  items := rfl
  outside more := absurd rfl more
  threads _ absent := absurd absent List.not_mem_nil

theorem apartRun {compressBlocks compressFragments : Bool} {size : Nat} {env : Env} (some : o.later ≠ [])
    (run : Run (Step o config) (init config compressBlocks compressFragments size env) trace s)
    (calm : ∀ l ∈ labels trace, Calm l) :
    ∃ events calls b, Apart o config (init config compressBlocks compressFragments size env) trace s events calls b := by
  have allowed : Obeys (fun _ l => Calm l) trace := fun e member => calm _ (List.mem_map_of_mem member)
  refine Run.history (I := fun trace s => ∃ events calls b,
    Apart o config (init config compressBlocks compressFragments size env) trace s events calls b) ?_ ?_ run allowed
  · exact ⟨[], [], _, initApart compressBlocks compressFragments size env⟩
  · intro trace s l next ⟨events, calls, b, apart⟩ calm taken
    exact apart.step some calm taken

/- The chain behind the seal: what the calls asked for, and the closing piece. -/
theorem Apart.gathered {compressBlocks compressFragments : Bool} {size : Nat} {env : Env}
    (apart : Apart o config (init config compressBlocks compressFragments size env) trace s events calls b)
    (closed : s.image.bd.mayAddChunks = false) :
    submitted (labels events) = s.builder.items ∧
      submitted (labels events) = (List.range s.image.bd.count).map s.image.bd.item ∧
      (⟨.closingPiece, ⟨[], 0, 0⟩⟩ : Item) ∈ submitted (labels events) ∧
      ∀ c, c < s.image.bd.count → (s.image.bd.item c).kind = .closingPiece → c + 1 = s.image.bd.count := by
  obtain ⟨shutting, sealed⟩ := apart.begun.closed closed
  have idle : s.pending = [] := by
    by_contra some
    rw [Shutting, apart.outside some] at shutting
    rcases shutting with same | same | same <;> cases same
  have items := apart.items
  rw [idle, List.append_nil] at items
  exact ⟨items, runChain apart.image apart.begun.clean, closingSubmitted sealed,
    fun c inside kind => (apart.begun.ordered.last c inside kind).1⟩

theorem Apart.buffered (apart : Apart o config first trace s events calls b) (buffered : ∀ e ∈ trace, Buffered o e) :
    ∀ e ∈ events, Image.Buffered o e := by
  intro e member c compresses
  obtain ⟨x, inside, label, before, after⟩ := apart.threads e member c compresses
  have own := buffered x inside _ label
  rw [before, after] at own
  exact own c compresses

theorem bufferedUnlessNothing (never : ∀ src, o.compress false src ≠ some []) (run : Run (Step o config) first trace s) :
    ∀ e ∈ trace, Buffered o e := by
  intro e member i label
  obtain ⟨_, _, _, _, taken⟩ := run.reaches member
  rw [label] at taken
  generalize e.after = next at taken
  cases taken with
  | submit _ taken => exact Image.bufferedStep never taken
  | work _ _ _ taken => exact Image.bufferedStep never taken

/- Which blocks had a buffer: all of them where that is promised. -/
theorem Apart.agrees {compressBlocks compressFragments : Bool} {size : Nat} {env : Env}
    (apart : Apart o config (init config compressBlocks compressFragments size env) trace s events calls b) :
    ∃ buffered, (∀ e ∈ events, Agrees o buffered e) ∧ ((∀ e ∈ trace, Buffered o e) → buffered = fun _ => true) := by
  by_cases whole : ∀ e ∈ trace, Buffered o e
  · exact ⟨fun _ => true, apart.buffered whole, fun _ => rfl⟩
  · obtain ⟨buffered, agrees⟩ := agreesSome apart.image apart.begun.clean
    exact ⟨buffered, agrees, fun promised => absurd promised whole⟩

theorem quiet {events : List (Event Image Label)} {allowed : List Label} {l : (Call × Bool) ⊕ Label}
    (alone : ∀ e ∈ events, e.label ∈ allowed) (calm : ∀ i ∈ allowed, Image.Calm i)
    (member : l ∈ (labels events).map Sum.inr) : Calm l ∧ ∀ c ok, l ≠ .inl (c, ok) := by
  obtain ⟨i, inside, rfl⟩ := List.mem_map.mp member
  obtain ⟨e, here, rfl⟩ := List.mem_map.mp inside
  refine ⟨fun i same => ?_, by simp⟩
  cases same
  exact calm _ (alone e here)

end
end Session
end Libsqfs
