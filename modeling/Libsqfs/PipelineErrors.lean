import Libsqfs.PipelineProgress

/-! When an error is not lost: libsqfs_image_finalize overwrites the state of
the image with its last assignment, whatever was flagged since it looked. -/
namespace Libsqfs

/- Between the test of the state and the last assignment, nothing having failed
so far. -/
def Api.Finalizing : Api → Prop
  | .entered | .seal _ | .closing _ | .processing | .later _ true => True
  | _ => False

namespace Image
open Bulkdata Transition

/- No fatal error is flagged in that part of libsqfs_image_finalize, and nothing
is submitted to a finished image. -/
def Heeded (s : Image) : Label → Prop
  | .flag _ => ¬ s.api.Finalizing
  | .submit _ _ => s.state ≠ .finalized
  | _ => True

section
variable {P : DataPiece → Prop} {o : ImageConfig} {s next : Image} {l : Label}

theorem stateStep (move : Move o s l next) :
    next.state = s.state ∨
      (∃ t, l = .flag t) ∧ next.state = .fatalError ∧ next.api = s.api ∨
      s.api = .later [] true ∧ next.state = .finalized ∧ next.api = .returning := by
  cases move with
  | @flag t c here => exact .inr (.inl ⟨⟨t, rfl⟩, rfl, rfl⟩)
  | conclude here => exact .inr (.inr ⟨here, rfl, rfl⟩)
  | _ => exact .inl rfl

theorem finalizingStep (move : Move o s l next) (finalizing : next.api.Finalizing) :
    s.api.Finalizing ∨ s.state = .building := by
  cases move with
  | enter free building => exact .inr building
  | rootFound here | sealNeeded here | sealed here | sealedAgain here | closingFailsAgain here
  | closingQueued here | closingQueuedAgain here | processed here | later here =>
    exact .inl (by rw [here]; trivial)
  | rootMissing | closingFails | truncateFails | conclude | concludeFailed | returns =>
    exact finalizing.elim
  | _ => exact .inl finalizing

def Over (s : Image) : Prop := (∃ rest, s.api = .later rest true) ∨ s.state = .finalized

theorem overStep (move : Move o s l next) (isOver : Over next) : s.pc 0 = .gone ∨ Over s := by
  have kept (same : next.state = s.state) (other : ∀ rest, next.api ≠ .later rest true) :
      s.pc 0 = .gone ∨ Over s := by
    rcases isOver with ⟨rest, here⟩ | final
    · exact absurd here (other rest)
    · exact .inr (.inr (same.symm.trans final))
  cases move with
  | processed here left => exact .inl left
  | later here | conclude here => exact .inr (.inl ⟨_, here⟩)
  | enter | rootMissing | rootFound | sealNeeded | sealed | sealedAgain | closingFails
  | closingFailsAgain | closingQueued | closingQueuedAgain | truncateFails | concludeFailed
  | returns => exact kept rfl (by simp [Image.goto])
  | flag here =>
    rcases isOver with reached | final
    · exact .inr (.inl reached)
    · cases final
  | _ => exact .inr isOver

theorem Sound.settled (sound : Sound P s) (done : s.bd.finished = s.bd.count) (t : Nat) :
    (s.pc t).held = none := by
  have located := sound.chunks.located
  refine Option.eq_none_iff_forall_ne_some.mpr fun c holds => ?_
  obtain ⟨inside, ready, _⟩ := located.held t c holds
  exact ready.1 ((located.finished c inside).mpr (by omega))

theorem Sound.done (sound : Sound P s) (healthy : ∀ t, (s.pc t).Healthy)
    (done : s.bd.finished = s.bd.count) (unsubmitted : ∀ kind data, l ≠ .submit kind data)
    (unsealed : l ≠ .seal) (move : Move o s l next) : next.bd.finished = next.bd.count := by
  have settled := sound.settled done
  cases move with
  | submit => exact absurd rfl (unsubmitted _ _)
  | closingQueued | closingQueuedAgain => exact absurd rfl unsealed
  | pop here popped =>
    obtain ⟨rest, shape, rfl⟩ := popSpec popped
    exact done
  | @again t _ _ _ _ _ here | @released t _ _ _ _ _ _ here | @outOfMemory t _ _ _ _ here
  | @read t _ here | @compressed t _ _ _ here | @compressFails t _ _ _ here
  | @written t _ _ _ _ here =>
    have idle := settled t
    rw [here] at idle
    cases idle
  | @abort t c here => exact absurd here ((healthy t).2 c)
  | _ => exact done

end

structure Heedful (trace : List (Event Image Label)) (s : Image) : Prop where
  stays : ∀ e ∈ trace, e.before.state = .fatalError → s.state = .fatalError
  window : s.api.Finalizing → s.state = .building
  clear : s.state ≠ .fatalError →
    Sound (fun _ => True) s ∧ (∀ t, (s.pc t).Healthy) ∧ ∀ t, .flag t ∉ labels trace
  done : Over s → s.bd.finished = s.bd.count

section
variable {o : ImageConfig} {trace : List (Event Image Label)} {s next : Image} {l : Label}

theorem Heedful.fatal (heedful : Heedful trace s) (move : Move o s l next)
    (fatal : s.state = .fatalError) : next.state = .fatalError := by
  rcases stateStep move with same | ⟨_, now, _⟩ | ⟨here, _⟩
  · exact same.trans fatal
  · exact now
  · have building := heedful.window (by rw [here]; trivial)
    rw [fatal] at building
    cases building

theorem Heedful.unfailed (heedful : Heedful trace s) (move : Move o s l next)
    (clear : next.state ≠ .fatalError) :
    Sound (fun _ => True) s ∧ (∀ t, (s.pc t).Healthy) ∧ (∀ t, .flag t ∉ labels trace) ∧
      ∀ t, l ≠ .flag t := by
  obtain ⟨sound, healthy, unflagged⟩ :=
    heedful.clear fun fatal => clear (heedful.fatal move fatal)
  refine ⟨sound, healthy, unflagged, ?_⟩
  rintro t rfl
  cases move
  exact clear rfl

theorem Heedful.isOver (heedful : Heedful trace s) (heeded : Heeded s l) (move : Move o s l next)
    (window : next.api.Finalizing → next.state = .building) (isOver : Over next) :
    next.bd.finished = next.bd.count := by
  have clear : next.state ≠ .fatalError := by
    rcases isOver with ⟨rest, here⟩ | final
    · rw [window (by rw [here]; trivial)]; simp
    · rw [final]; simp
  obtain ⟨sound, healthy, _, _⟩ := heedful.unfailed move clear
  have done : s.bd.finished = s.bd.count := by
    rcases overStep move isOver with left | before
    · exact (sound.calls.returned left).1
    · exact heedful.done before
  refine sound.done healthy done ?_ ?_ move
  · rintro kind data rfl
    cases move with
    | submit free =>
      rcases isOver with ⟨rest, here⟩ | final
      · exact absurd (free.1.symm.trans here) (by simp)
      · exact heeded final
  · rintro rfl
    have building (again : Bool) (here : s.api = .closing again) : s.state ≠ .finalized := by
      rw [heedful.window (by rw [here]; trivial)]; simp
    cases move with
    | closingQueued here | closingQueuedAgain here =>
      rcases isOver with ⟨rest, here'⟩ | final
      · cases here'
      · exact building _ here final

theorem Heedful.step (heedful : Heedful trace s) (heeded : Heeded s l) (move : Move o s l next) :
    Heedful (trace ++ [⟨s, l, next⟩]) next := by
  have window (finalizing : next.api.Finalizing) : next.state = .building := by
    have before : s.state = .building := by
      rcases finalizingStep move finalizing with still | building
      · exact heedful.window still
      · exact building
    rcases stateStep move with same | ⟨⟨t, rfl⟩, _, api⟩ | ⟨_, _, left⟩
    · exact same.trans before
    · rw [api] at finalizing
      exact absurd finalizing heeded
    · rw [left] at finalizing
      exact finalizing.elim
  refine ⟨fun e member fatal => ?_, window, fun clear => ?_, heedful.isOver heeded move window⟩
  · rcases List.mem_append.mp member with old | new
    · exact heedful.fatal move (heedful.stays e old fatal)
    · rw [List.mem_singleton] at new
      subst new
      exact heedful.fatal move fatal
  · obtain ⟨sound, healthy, unflagged, other⟩ := heedful.unfailed move clear
    have undisturbed : Undisturbed (fun _ => True) s l := by
      cases l with
      | abort t =>
        cases move with
        | abort here => exact absurd here ((healthy _).2 _)
      | _ => trivial
    refine ⟨sound.step undisturbed move, healthyStep healthy other move, fun t member => ?_⟩
    rw [labelsSnoc] at member
    rcases List.mem_append.mp member with old | new
    · exact unflagged t old
    · exact other t (List.mem_singleton.mp new).symm

end

theorem errorsHeeded {o : ImageConfig} {compressBlocks compressFragments : Bool} {size : Nat}
    {trace : List (Event Image Label)} {s : Image}
    (run : Run (Step o) (init compressBlocks compressFragments size) trace s)
    (heeded : Obeys Heeded trace) :
    (∀ e ∈ trace, e.before.state = .fatalError → s.state = .fatalError) ∧
    (∀ next, Step o s (.returned .finalized) next →
      (∀ t, .flag t ∉ labels trace) ∧ ∀ c, c < s.bd.count → (s.bd.chunk c).state = .finished) ∧
    (∀ next, Step o s (.later .serialize) next → ∀ c, c < s.bd.count →
      (s.bd.chunk c).state = .finished ∧
      ((s.bd.chunk c).kind = .fragmentPiece → (s.bd.chunk c).fragmentBlock.isSome = true)) := by
  have first : Heedful [] (init compressBlocks compressFragments size) :=
    ⟨fun _ member => absurd member List.not_mem_nil, fun _ => rfl, fun _ =>
      ⟨initSound compressBlocks compressFragments size, fun t => by simp [init, Pc.Healthy],
        fun t => List.not_mem_nil⟩, fun _ => rfl⟩
  have heedful : Heedful trace s := Run.history (I := Heedful) first
    (fun _ _ _ _ known allowed taken => known.step allowed taken.2) run heeded
  have finished (isOver : Over s) (clear : s.state ≠ .fatalError) (c : Nat) (inside : c < s.bd.count) :
      (s.bd.chunk c).state = .finished :=
    ((heedful.clear clear).1.chunks.located.finished c inside).mpr (by rw [heedful.done isOver]; exact inside)
  refine ⟨heedful.stays, fun next taken => ?_, fun next taken c inside => ?_⟩
  · have final : s.state = .finalized := by
      obtain ⟨_, move⟩ := taken
      generalize same : Label.returned .finalized = l at move
      cases move with
      | refuse | returns => exact (Label.returned.inj same).symm
      | _ => cases same
    have clear : s.state ≠ .fatalError := by rw [final]; simp
    exact ⟨(heedful.clear clear).2.2, finished (.inr final) clear⟩
  · obtain ⟨rest, here⟩ : ∃ rest, s.api = .later rest true := by
      obtain ⟨_, move⟩ := taken
      cases move with
      | later here => exact ⟨_, here⟩
    have clear : s.state ≠ .fatalError := by
      rw [heedful.window (by rw [here]; trivial)]; simp
    have isOver := finished (.inl ⟨rest, here⟩) clear c inside
    exact ⟨isOver, fun kind => (heedful.clear clear).1.chunks.placed c inside kind (by rw [isOver]; decide)⟩

/- A run that is finalized, and one whose first read fails before the image is finalized. -/
theorem pairHeeded : (∃ (o : ImageConfig) (trace : List (Event Image Label)) (s next : Image),
      Run (Step o) (init true true 96) trace s ∧ Step o s (.returned .finalized) next ∧ s.bd.count = 3 ∧
        (∀ t, .flag t ∉ labels trace) ∧ ∀ c, c < s.bd.count → (s.bd.chunk c).state = .finished) ∧
    ∃ (o : ImageConfig) (trace : List (Event Image Label)) (s : Image), Run (Step o) (init true true 96) trace s ∧
      .flag 1 ∈ labels trace ∧ (s.bd.chunk 0).state = .none ∧ s.state = .fatalError := by
  constructor
  · obtain ⟨trace, s, run, _, _, each, done⟩ := pairRun [.serialize]
    have heeded : Obeys Heeded trace := fun e member => by
      obtain ⟨own, building⟩ := each e member
      simp only [List.mem_cons, List.not_mem_nil, or_false] at own
      rcases own with own | own | own | own | own | own <;> rw [own]
      · trivial
      · trivial
      · simp [Heeded, building ⟨_, _, own⟩]
      · simp [Heeded, building ⟨_, _, own⟩]
      · trivial
      · trivial
    have serialized := (run.move ⟨done.alive, .processed done.api (by rw [done.places]; rfl)⟩).move
      ⟨done.alive, @Move.later _ _ .serialize [] true rfl⟩
    have concluded := serialized.move ⟨done.alive, .conclude rfl⟩
    have told := (errorsHeeded concluded (obeysAppend (obeysAppend (obeysAppend heeded trivial) trivial) trivial)).2.1 _
      ⟨done.alive, .returns rfl rfl⟩
    exact ⟨_, _, _, _, concluded, ⟨done.alive, .returns rfl rfl⟩, done.count, told.1, told.2⟩
  · let o : ImageConfig := ⟨4096, fun _ _ => none, [.serialize], false⟩
    have submitted : Run (Step o) (init true true 96) _ _ :=
      .move .start ⟨rfl, @Move.submit _ _ .fullBlock ⟨[7], 1, 0⟩ _ ⟨rfl, rfl⟩ rfl (by simp)
        (.idle fun t => by simp [init])⟩
    have locked := ((submitted.move ⟨rfl, .spawn (t := 1) ⟨rfl, rfl⟩ rfl (by decide)⟩).move
      ⟨rfl, .opened (t := 1) rfl⟩).move ⟨rfl, .locked (t := 1) rfl rfl⟩
    have failed := ((locked.move ⟨rfl, .pop (t := 1) rfl rfl⟩).move
      ⟨rfl, @Move.released _ _ 1 _ _ true _ _ _ rfl rfl⟩).move ⟨rfl, .readFails (t := 1) rfl⟩
    have aborted := (failed.move ⟨rfl, .flag (t := 1) rfl⟩).move ⟨rfl, .abort (t := 1) rfl rfl⟩
    refine ⟨o, _, _, aborted, by simp [labels], rfl, (errorsHeeded aborted ?_).1 _ (List.mem_append_right _
      (List.mem_singleton_self _)) rfl⟩
    simp [Obeys, Heeded, Api.Finalizing]
    exact ⟨by simp [init], id⟩

/- The source cannot be read, and the image is finalized all the same. -/
theorem readErrorOverwritten : ∃ (o : ImageConfig) (before after : List (Event Image Label))
    (s s' serialized next : Image),
    o.later = [.serialize, .inodeTable, .dirTable, .fragmentTable, .idTable, .xattrTable,
      .compressorOptions, .superblock] ∧
    Run (Step o) (init true true 96) before s ∧ s.bd.count = 2 ∧ .flag 0 ∈ labels before ∧
      s.state = .fatalError ∧ (s.bd.chunk 0).state = .none ∧ Step o s (.later .serialize) serialized ∧
    Run (Step o) s after s' ∧ s'.state = .finalized ∧ (s'.bd.chunk 0).state = .none ∧
      Step o s' (.returned .finalized) next := by
  let o : ImageConfig := ⟨4096, fun _ _ => none, [.serialize, .inodeTable, .dirTable,
    .fragmentTable, .idTable, .xattrTable, .compressorOptions, .superblock], false⟩
  have submitted : Run (Step o) (init true true 96) _ _ :=
    .move .start ⟨rfl, @Move.submit _ _ .fullBlock ⟨[7], 1, 0⟩ _ ⟨rfl, rfl⟩ rfl (by simp)
      (.idle fun t => by simp [init])⟩
  have entered := (submitted.move ⟨rfl, .setRoot ⟨rfl, rfl⟩ rfl rfl⟩).move
    ⟨rfl, .enter ⟨rfl, rfl⟩ rfl⟩
  have needed := (entered.move ⟨rfl, .rootFound rfl rfl⟩).move ⟨rfl, .sealNeeded rfl rfl rfl⟩
  have closed := needed.move
    ⟨rfl, .closingQueued rfl rfl (.idle fun t => by simp [init]) (.idle fun t => by simp [init])⟩
  have popped := ((closed.move ⟨rfl, .sealedAgain rfl rfl rfl⟩).move
    ⟨rfl, .locked (t := 0) rfl rfl⟩).move ⟨rfl, .pop (t := 0) rfl rfl⟩
  have failed := (popped.move ⟨rfl, @Move.released _ _ 0 _ _ true _ _ _ rfl rfl⟩).move
    ⟨rfl, .readFails (t := 0) rfl⟩
  have aborted := (failed.move ⟨rfl, .flag (t := 0) rfl⟩).move ⟨rfl, .abort (t := 0) rfl rfl⟩
  have processed := (aborted.move ⟨rfl, .leaveFailed (t := 0) rfl rfl (by decide)⟩).move
    ⟨rfl, .processed rfl rfl⟩
  obtain ⟨before, s, run, api, alive, idle, flagged, count, fatal, unread⟩ :
      ∃ before s, Run (Step o) (init true true 96) before s ∧ s.api = .later o.later true ∧
        s.fault = none ∧ s.pc 0 = .out ∧ .flag 0 ∈ labels before ∧ s.bd.count = 2 ∧
        s.state = .fatalError ∧ (s.bd.chunk 0).state = .none :=
    ⟨_, _, processed, rfl, rfl, rfl, by simp [labels], rfl, rfl, rfl⟩
  have serialize : Step o s (.later .serialize) _ := ⟨alive, @Move.later _ _ .serialize _ true api⟩
  have tables := (((Run.start.move serialize).move
    ⟨alive, @Move.later _ _ .inodeTable _ true rfl⟩).move
    ⟨alive, @Move.later _ _ .dirTable _ true rfl⟩).move
    ⟨alive, @Move.later _ _ .fragmentTable _ true rfl⟩
  have superblock := (((tables.move ⟨alive, @Move.later _ _ .idTable _ true rfl⟩).move
    ⟨alive, @Move.later _ _ .xattrTable _ true rfl⟩).move
    ⟨alive, @Move.later _ _ .compressorOptions _ true rfl⟩).move
    ⟨alive, @Move.later _ _ .superblock _ true rfl⟩
  exact ⟨o, before, _, s, _, _, _, rfl, run, count, flagged, fatal, unread, serialize,
    superblock.move ⟨alive, .conclude rfl⟩, rfl, unread, ⟨alive, .returns rfl idle⟩⟩

end Image
end Libsqfs
