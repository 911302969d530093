import Libsqfs.FragmentBlocks
import Libsqfs.PipelineReference

/-! The fragment blocks while the threads run: what they are made of in every
state, and that each is compressed once, by the chunk that closed it. -/
namespace Libsqfs
namespace Image
open Bulkdata Transition

/- Thread t is in libsqfs_fragment_piece_compress for chunk c, which flushes block f. -/
structure Flushing (s : Image) (t c f : Nat) : Prop where
  here : s.pc t = .compressing c
  piece : (s.bd.chunk c).kind ≠ .fullBlock
  block : s.bd.flushed c = .ok f

def Flush (e : Event Image Label) (c f : Nat) : Prop :=
  ∃ t, Flushing e.before t c f ∧ e.after.pc t = .loop

structure Shifts (s : Image) (l : Label) (next : Image) : Prop where
  laid : Laid s.bd → Laid next.bd
  shut : ∀ d f, d < s.bd.count → s.bd.Flusher d → s.bd.flushed d = .ok f →
    (next.bd.fragmentBlock f).pieces = (s.bd.fragmentBlock f).pieces
  flushes : ∀ d, d < next.bd.count → next.bd.Flusher d → 4 ≤ (next.bd.chunk d).state.value →
    d < s.bd.count ∧ 4 ≤ (s.bd.chunk d).state.value ∨ ∃ t, s.pc t = .compressing d ∧ next.pc t = .loop
  rises : ∀ d, d < s.bd.count → (s.bd.chunk d).state.value ≤ (next.bd.chunk d).state.value ∧
    ((s.bd.chunk d).flushPreviousBlock = true → (next.bd.chunk d).flushPreviousBlock = true)
  adding : next.bd.mayAddChunks = s.bd.mayAddChunks ∨ l = .seal

section
variable {P : DataPiece → Prop} {r : Rule} {first limit : Nat} {o : ImageConfig} {buffered : Nat → Bool} {s next : Image}
  {l : Label} {bd : Bulkdata} {t c f : Nat}

theorem Shifts.same (bd : next.bd = s.bd) : Shifts s l next where
  laid := by rw [bd]; exact id
  shut d f _ _ _ := by rw [bd]
  flushes d := by rw [bd]; exact fun below _ high => .inl ⟨below, high⟩
  rises d _ := by rw [bd]; exact ⟨Nat.le_refl _, id⟩
  adding := .inl (by rw [bd])

theorem Shifts.packs (packs : Packs s.bd next.bd) (frame : Frame s.bd next.bd)
    (rank : ∀ d, (s.bd.chunk d).state.value ≤ (next.bd.chunk d).state.value) : Shifts s l next where
  laid := packs.laid
  shut := packs.shut
  flushes d below flusher high :=
    .inl ⟨by rw [← frame.count]; exact below, packs.unflushed d flusher high⟩
  rises d _ := ⟨rank d, frame.flush d⟩
  adding := .inl frame.mayAddChunks

theorem Shifts.grown {kind : ChunkKind} {data : DataPiece} (packed : Packed r first limit s.bd)
    (grown : Grown s.bd (s.bd.submit kind data) kind data) {workq : Workq → List Nat} {adding : Bool}
    (bd : next.bd = {s.bd.submit kind data with workq := workq, mayAddChunks := adding})
    (label : adding = s.bd.mayAddChunks ∨ l = .seal) : Shifts s l next := by
  obtain ⟨e, packing⟩ := packed.packing
  have old (d) (below : d < s.bd.count) : (next.bd.chunk d).state = (s.bd.chunk d).state ∧
      (next.bd.chunk d).flushPreviousBlock = (s.bd.chunk d).flushPreviousBlock := by
    rw [bd]
    simp only [grown.old d below, and_self]
  refine ⟨fun laid => ?_, fun d f _ _ _ => ?_, fun d below flusher high => ?_, fun d below => ?_, ?_⟩
  · have more := laid.grown packed grown
    rw [bd]
    exact ⟨more.order, more.sizes, more.offsets⟩
  · rw [bd]
    simp only [grown.fragmentBlock]
  · have count : next.bd.count = s.bd.count + 1 := by rw [bd]; exact grown.count
    by_cases new : d = s.bd.count
    · have flag := flusher.2
      rw [bd, new] at flag
      simp only [grown.new] at flag
      cases flag
    · rw [(old d (by omega)).1] at high
      exact .inl ⟨by omega, high⟩
  · obtain ⟨state, flag⟩ := old d below
    rw [state, flag]
    exact ⟨Nat.le_refl _, id⟩
  · rw [bd]; exact label

def TurnPacks (bd : Bulkdata) : Turn → Prop
  | .again next _ => Packs bd next
  | .released next _ _ => Packs bd next
  | .outOfMemory _ => True

theorem stagePacks {allocated : Bool} {size : Nat} {q : Workq} {turn : Turn}
    (packed : Packed r first limit bd) (block : r.blockSize = o.blockSize) (inside : c < bd.count)
    (state : (bd.chunk c).state = q.state) (ready : bd.Ready c)
    (ok : stage o allocated bd size q c = .ok turn) : TurnPacks bd turn := by
  have same : Packs bd bd := ⟨id, fun _ _ => id, fun _ _ _ _ _ => rfl⟩
  have deduplicated {next} (passed : (bd.chunk c).state = .read ∧ Passed bd next c .deduplicated) :
      Packs bd next :=
    passed.2.packs (by rw [passed.1]; decide) (fun _ => by rw [passed.1]; decide)
      (by simp [ChunkState.value])
  cases q with
  | readq =>
    cases kind : (bd.chunk c).kind <;> simp only [stage, kind] at ok
    case closingPiece =>
      cases ok
      have early : (bd.chunk c).state = .none := state
      exact ((passedState bd c .read).pushFront .dedupq c).packs (by rw [early]; decide)
        (fun _ => by rw [early]; decide) (by simp [ChunkState.value])
    all_goals
      obtain ⟨_, _, rfl⟩ := mapOk ok
      exact same
  | dedupq =>
    cases kind : (bd.chunk c).kind <;> simp only [stage, kind] at ok <;>
      obtain ⟨next, done, rfl⟩ := mapOk ok
    case fullBlock => exact deduplicated (deduplicatePassed done)
    all_goals exact deduplicated (pieceDeduplicatePassed done)
  | assignq =>
    have assigned := ready.2.1 state
    cases kind : (bd.chunk c).kind <;> simp only [stage, kind] at ok <;>
      obtain ⟨next, done, rfl⟩ := mapOk ok
    case fullBlock =>
      obtain ⟨early, passed⟩ := assignPassed done
      exact passed.packs (by rw [early]; decide) (fun piece => absurd kind piece)
        (by simp [ChunkState.value])
    case fragmentPiece =>
      obtain ⟨next, good⟩ := next
      cases good with
      | true => exact packed.assignPacks block inside kind assigned done
      | false => trivial
    case closingPiece => exact closingAssignPacks kind done
  | compressq =>
    cases kind : (bd.chunk c).kind <;> simp only [stage, kind] at ok <;>
      obtain ⟨_, _, rfl⟩ := mapOk ok <;>
      exact same
  | writeq =>
    have writable : (bd.chunk c).state = .writable := state
    simp only [stage] at ok
    obtain ⟨_, _, rest⟩ := bindOk ok
    obtain ⟨target, found, rest⟩ := bindOk rest
    cases target with
    | some t =>
      cases rest
      exact (touchSetBlock found _).packs fun _ _ => by rw [writable]; decide
    | none =>
      obtain ⟨⟨next, all⟩, done, rfl⟩ := mapOk rest
      exact (finishPassed done).packs (by rw [writable]; decide) (fun _ => by rw [writable]; decide)
        fun _ => by rw [writable]; decide

/- The step lemma: as long as no operation fails. -/
theorem Follows.shifts (follows : Follows r first o.compress buffered limit s)
    (block : r.blockSize = o.blockSize) (sound : Sound P s) (clean : Clean s l)
    (move : Move o s l next) (agrees : Agrees o buffered ⟨s, l, next⟩) : Erring next ∨ Shifts s l next := by
  have located := sound.chunks.located
  cases move with
  | @submit kind data pc free unlocked own signal =>
    have grown := submitGrows sound.chunks.linked kind data
    exact .inr (.grown follows.packed grown rfl (.inl grown.mayAddChunks))
  | closingQueued here unlocked first second | closingQueuedAgain here unlocked first second =>
    have grown := submitGrows sound.chunks.linked .closingPiece ⟨[], 0, 0⟩
    exact .inr (.grown follows.packed grown rfl (.inr rfl))
  | flag here => exact clean.elim
  | abort here unlocked => exact clean.elim
  | @readFails t c here | @writeFails t c here => exact .inl ⟨t, c, Function.update_self ..⟩
  | @outOfMemory t q c allocated bd here result => exact .inl ⟨t, c, Function.update_self ..⟩
  | @compressFails t c allocated bd here result => exact .inl ⟨t, c, Function.update_self ..⟩
  | pop here popped =>
    obtain ⟨rest, shape, rfl⟩ := popSpec popped
    exact .inr ⟨fun laid => ⟨laid.order, laid.sizes, laid.offsets⟩, fun _ _ _ _ _ => rfl,
      fun _ below _ high => .inl ⟨below, high⟩, fun _ _ => ⟨Nat.le_refl _, id⟩, .inl rfl⟩
  | @again t q c allocated bd all here result =>
    obtain ⟨_, inside, ready, state⟩ := sound.working here rfl
    obtain ⟨adv, _⟩ :=
      stageSpec sound.chunks.linked inside (sound.chunks.closing c inside) state result
    have packs := stagePacks follows.packed block inside state ready result
    exact .inr (.packs packs adv.frame (advanceRank adv))
  | @released t q c allocated bd size pc here result =>
    obtain ⟨_, inside, ready, state⟩ := sound.working here rfl
    obtain ⟨same, _⟩ :=
      stageSpec sound.chunks.linked inside (sound.chunks.closing c inside) state result
    have packs := stagePacks follows.packed block inside state ready result
    exact .inr (.packs packs same.frame fun d => (congrArg ChunkState.value (same.state d)).ge)
  | @read t c here unlocked whole =>
    obtain ⟨_, inside, _, doing⟩ := sound.working here rfl
    have adv := readAdvances inside doing.1
    refine .inr (.packs ((readTouch doing.1).packs fun _ high => ?_) adv.frame (advanceRank adv))
    simp [chunkDoReadEnd, Bulkdata.set, pushFront, ChunkState.value] at high
  | @compressed t c allocated bd here unlocked result =>
    obtain ⟨_, inside, ready, doing⟩ := sound.working here rfl
    have state : (s.bd.chunk c).state = .assigned := doing
    have adv := compressEndAdvances inside state result
    have unclaimed := follows.unclaimed sound inside ready.1 (by rw [state]; simp)
    have agreed : compressEnd o (buffered c) s.bd c = .ok (bd, true) :=
      agrees c ⟨t, rfl, here, Function.update_self ..⟩
    obtain ⟨touch, _⟩ := compressReaches follows.packed follows.rule inside unclaimed state
      (fun piece => sound.chunks.flushes c inside piece state) agreed
    refine .inr ⟨fun laid => laid.settled touch.frame touch.settled, fun _ f _ _ _ => (touch.packed f).1,
      fun d below _ high => ?_, fun d _ => ⟨advanceRank adv d, touch.frame.flush d⟩,
      .inl touch.frame.mayAddChunks⟩
    by_cases own : d = c
    · subst own
      exact .inr ⟨t, here, Function.update_self ..⟩
    · have later : 4 ≤ (bd.chunk d).state.value := high
      rw [touch.others d own] at later
      exact .inl ⟨lt_of_lt_of_eq below touch.frame.count, later⟩
  | @written t c write bd all here unlocked result =>
    obtain ⟨own, state⟩ := sound.writer here
    obtain ⟨_, inside, _, _⟩ := sound.working here rfl
    obtain ⟨adv, _⟩ := writeEndAdvances inside state result
    obtain ⟨target, found, _, _, done⟩ := writeEndOk result
    have next' := follows.writing t c here
    obtain ⟨touch, _⟩ :=
      follows.packed.finishWritten inside state found (by omega : c < limit) done
    exact .inr (.packs (touch.packs fun _ _ => by rw [state]; decide) adv.frame (advanceRank adv))
  | _ => exact .inr (.same rfl)

theorem compressingStays {u : Nat} {p : Pc} {pc : Nat → Pc} (here : s.pc t = .compressing c)
    (woken : Woken s.pc pc) (other : ∀ d, s.pc u ≠ .compressing d) :
    Function.update pc u p t = .compressing c := by
  have away : t ≠ u := by
    rintro rfl
    exact other c here
  rw [Function.update_of_ne away]
  rcases woken t with same | ⟨was, _⟩
  · rw [same]; exact here
  · rw [here] at was; cases was

theorem Sound.compressed (sound : Sound P s) (move : Move o s l next)
    (here : s.pc t = .compressing c) (after : next.pc t = .loop) :
    4 ≤ (next.bd.chunk c).state.value := by
  have stays {pc : Nat → Pc} (pcs : next.pc = pc) (kept : pc t = .compressing c) : False := by
    rw [pcs, kept] at after
    cases after
  have signalled {pc : Nat → Pc} (woken : Woken s.pc pc) : pc t = .compressing c := by
    rcases woken t with same | ⟨was, _⟩
    · rw [same]; exact here
    · rw [here] at was; cases was
  have calling (outside : s.api ≠ .processing) (d : Nat) : s.pc 0 ≠ .compressing d := by
    rcases sound.calls.apart outside with h | h | h <;> rw [h] <;> simp
  cases move with
  | submit free unlocked own signal => exact (stays rfl (signalled (signalWoken signal))).elim
  | closingQueued here' unlocked first second =>
    exact (stays rfl (signalled ((signalWoken first).trans (signalWoken second)))).elim
  | closingQueuedAgain here' unlocked first second =>
    exact (stays rfl (compressingStays here ((signalWoken first).trans (signalWoken second))
      (calling (by rw [here']; simp)))).elim
  | setRoot | enter | refuse | rootFound | sealNeeded | sealed | closingFails | later
  | truncateFails | conclude | returns | stageFault | compressFault | writeFault =>
    exact (stays rfl here).elim
  | rootMissing here' | sealedAgain here' | closingFailsAgain here' =>
    exact (stays rfl (compressingStays here (.refl _) (calling (by rw [here']; simp)))).elim
  | again here' | written here' =>
    exact (stays rfl (compressingStays here (broadcastWoken _ _) fun d => by rw [here']; simp)).elim
  | concludeFailed here' idle =>
    exact (stays rfl (compressingStays here (.refl _) fun d => by rw [idle]; simp)).elim
  | processed here' left =>
    exact (stays rfl (compressingStays here (.refl _) fun d => by rw [left]; simp)).elim
  | spawn free new other =>
    exact (stays rfl (compressingStays here (.refl _) fun d => by rw [new]; simp)).elim
  | @abort u c' here' unlocked =>
    exact (stays rfl (compressingStays here (wakeAllWoken _) fun d => by rw [here']; simp)).elim
  | @compressFails u d allocated bd' here' result =>
    by_cases own : t = u
    · subst own
      have last : Function.update s.pc t (.flagging (some d)) t = .loop := after
      rw [Function.update_self] at last
      cases last
    · exact (stays rfl ((Function.update_of_ne own ..).trans here)).elim
  | @compressed u d allocated bd here' unlocked result =>
    by_cases own : t = u
    · subst own
      obtain rfl : c = d := Pc.compressing.inj (here.symm.trans here')
      obtain ⟨_, inside, _, doing⟩ := sound.working here rfl
      have adv : Advance s.bd bd c := compressEndAdvances inside doing result
      have rank := adv.rank
      rw [show (s.bd.chunk c).state = .assigned from doing] at rank
      exact rank
    · exact (stays rfl ((Function.update_of_ne own ..).trans here)).elim
  | _ here' =>
    exact (stays rfl (compressingStays here (.refl _) fun d => by rw [here']; simp)).elim

theorem Sound.flushing (sound : Sound P s) (flushing : Flushing s t c f) :
    c < s.bd.count ∧ s.bd.Flusher c ∧ (s.bd.chunk c).state = .assigned := by
  obtain ⟨here, piece, _⟩ := flushing
  obtain ⟨_, inside, _, doing⟩ := sound.working here rfl
  exact ⟨inside, ⟨piece, sound.chunks.flushes c inside piece doing⟩, doing⟩

theorem Extends.plan {bd next : Bulkdata} {added : Option Item} (ext : Extends bd next added) {n : Nat}
    (le : n ≤ bd.count) : next.plan r first n = bd.plan r first n :=
  Plan.upToCongr fun d below => ext.old d (by omega)

theorem Shifts.flusher (shifts : Shifts s l next) (packed : Packed r first limit s.bd)
    {limit' : Nat} (packed' : Packed r first limit' next.bd)
    (ext : Extends s.bd next.bd (submission l)) (inside : c < s.bd.count) (flusher : s.bd.Flusher c)
    (flushed : s.bd.flushed c = .ok f) :
    c < next.bd.count ∧ next.bd.Flusher c ∧ next.bd.flushed c = .ok f := by
  have below : c < next.bd.count := by rw [ext.count]; omega
  have kind : (next.bd.chunk c).kind = (s.bd.chunk c).kind := congrArg Item.kind (ext.old c inside)
  have still : next.bd.Flusher c := by
    refine ⟨by rw [kind]; exact flusher.1, (shifts.rises c inside).2 flusher.2⟩
  refine ⟨below, still, ?_⟩
  rw [(packed'.holds c below).flushed still, ext.plan inside.le,
    ← (packed.holds c inside).flushed flusher, flushed]

theorem flusherBefore {limit' : Nat} (packed : Packed r first limit s.bd)
    (packed' : Packed r first limit' next.bd)
    (ext : Extends s.bd next.bd (submission l)) (inside : c < s.bd.count)
    (high : 3 ≤ (s.bd.chunk c).state.value) (flusher : next.bd.Flusher c)
    (flushed : next.bd.flushed c = .ok f) : s.bd.Flusher c ∧ s.bd.flushed c = .ok f := by
  have below : c < next.bd.count := by rw [ext.count]; omega
  have item := ext.old c inside
  have kind : (next.bd.chunk c).kind = (s.bd.chunk c).kind := congrArg Item.kind item
  have piece : (s.bd.chunk c).kind ≠ .fullBlock := by rw [← kind]; exact flusher.1
  have flushes := ((packed'.holds c below).flusher flusher).2
  rw [ext.plan inside.le, item] at flushes
  have old : s.bd.Flusher c := ⟨piece, ((packed.holds c inside).flush piece).mpr ⟨high, flushes⟩⟩
  refine ⟨old, ?_⟩
  rw [(packed.holds c inside).flushed old, ← ext.plan inside.le,
    ← (packed'.holds c below).flushed flusher, flushed]

/- What the run so far leaves on record about the blocks it flushed. -/
structure Marks (trace : List (Event Image Label)) (s : Image) : Prop where
  marked : ∀ e ∈ trace, ∀ t c f, Flushing e.before t c f → c < s.bd.count ∧ s.bd.Flusher c ∧
    s.bd.flushed c = .ok f ∧
    (s.bd.fragmentBlock f).pieces = (e.before.bd.fragmentBlock f).pieces
  done : ∀ e ∈ trace, ∀ c f, Flush e c f → 4 ≤ (s.bd.chunk c).state.value
  once : ∀ c f, c < s.bd.count → s.bd.Flusher c → s.bd.flushed c = .ok f →
    4 ≤ (s.bd.chunk c).state.value → Once (fun e => Flush e c f) trace
  sealed : s.bd.mayAddChunks = true ∨ Label.seal ∈ labels trace

theorem Marks.step {trace : List (Event Image Label)} {limit' : Nat} (marks : Marks trace s)
    (sound : Sound P s) (packed : Packed r first limit s.bd)
    (packed' : Packed r first limit' next.bd) (shifts : Shifts s l next) (move : Move o s l next) :
    Marks (trace ++ [⟨s, l, next⟩]) next := by
  have ext := sound.chain move
  constructor
  · intro e member t c f flushing
    have known : c < s.bd.count ∧ s.bd.Flusher c ∧ s.bd.flushed c = .ok f ∧
        (s.bd.fragmentBlock f).pieces = (e.before.bd.fragmentBlock f).pieces := by
      rcases List.mem_append.mp member with old | new
      · exact marks.marked e old t c f flushing
      · rw [List.mem_singleton] at new
        subst new
        obtain ⟨inside, flusher, _⟩ := sound.flushing flushing
        exact ⟨inside, flusher, flushing.block, rfl⟩
    obtain ⟨inside, flusher, flushed, pieces⟩ := known
    obtain ⟨below, still, same⟩ := shifts.flusher packed packed' ext inside flusher flushed
    exact ⟨below, still, same, (shifts.shut c f inside flusher flushed).trans pieces⟩
  · intro e member c f flush
    rcases List.mem_append.mp member with old | new
    · have before := marks.done e old c f flush
      obtain ⟨t, flushing, _⟩ := flush
      have inside := (marks.marked e old t c f flushing).1
      exact before.trans (shifts.rises c inside).1
    · rw [List.mem_singleton] at new
      subst new
      obtain ⟨t, flushing, after⟩ := flush
      exact sound.compressed move flushing.here after
  · intro c f below flusher flushed high
    rcases shifts.flushes c below flusher high with ⟨inside, early⟩ | ⟨t, here, after⟩
    · obtain ⟨old, same⟩ := flusherBefore packed packed' ext inside (by omega) flusher flushed
      refine (marks.once c f inside old same early).later fun flush => ?_
      obtain ⟨t, flushing, _⟩ := flush
      have state := (sound.flushing flushing).2.2
      rw [state] at early
      exact absurd early (by decide)
    · obtain ⟨_, inside, _, doing⟩ := sound.working here rfl
      have state : (s.bd.chunk c).state = .assigned := doing
      obtain ⟨old, same⟩ := flusherBefore packed packed' ext inside (by rw [state]; decide) flusher flushed
      refine .now ⟨t, ⟨here, old.1, same⟩, after⟩ fun e member flush => ?_
      have late := marks.done e member c f flush
      rw [state] at late
      exact absurd late (by decide)
  · rw [labelsSnoc]
    rcases shifts.adding with same | sealing
    · rw [same]
      exact marks.sealed.imp_right fun member => List.mem_append_left _ member
    · exact .inr (by simp [sealing])

end

def Fitting (o : ImageConfig) (s : Image) (l : Label) : Prop :=
  Clean s l ∧ ∀ data, l = .submit .fragmentPiece data → data.size < o.blockSize

def visited (trace : List (Event Image Label)) (s : Image) : List Image :=
  trace.map Event.before ++ [s]

structure FragmentsSound (o : ImageConfig) (trace : List (Event Image Label)) (s : Image) : Prop where
  sizes : ∀ f, f < s.bd.fragmentBlockCount →
    (s.bd.fragmentBlock f).size = s.bd.pieceSizes (s.bd.fragmentBlock f).pieces ∧
      (s.bd.fragmentBlock f).size ≤ o.blockSize
  offsets : ∀ f, f < s.bd.fragmentBlockCount → ∀ before p after,
    (s.bd.fragmentBlock f).pieces = before ++ p :: after →
      (s.bd.chunk p).offset = some (s.bd.pieceSizes before)
  order : s.bd.blockPieces = s.bd.assignedPieces
  copied : ∀ t c f, Flushing s t c f → ∀ p ∈ (s.bd.fragmentBlock f).pieces,
    ChunkState.read.value ≤ (s.bd.chunk p).state.value ∧
      (s.bd.chunk p).cachedData = some (s.bd.chunk p).data.pread ∧
      (s.bd.chunk p).data.pread.length = (s.bd.chunk p).data.size
  closed : ∀ x ∈ visited trace s, ∀ t c f, Flushing x t c f →
    (s.bd.fragmentBlock f).pieces = (x.bd.fragmentBlock f).pieces ∧
      ∀ y ∈ visited trace s, ∀ u d, Flushing y u d f → d = c
  flushed : s.bd.mayAddChunks = false → s.bd.finished = s.bd.count →
    ∀ f, f < s.bd.fragmentBlockCount →
      ∃ c, Once (fun e => Flush e c f) trace ∧ ∀ e ∈ trace, ∀ d, Flush e d f → d = c

section
variable {P : DataPiece → Prop} {r : Rule} {first limit : Nat} {o : ImageConfig} {s : Image}
  {trace : List (Event Image Label)}

theorem Marks.visited (marks : Marks trace s) (sound : Sound P s) {x : Image}
    (member : x ∈ visited trace s) {t c f : Nat} (flushing : Flushing x t c f) :
    c < s.bd.count ∧ s.bd.Flusher c ∧ s.bd.flushed c = .ok f ∧
      (s.bd.fragmentBlock f).pieces = (x.bd.fragmentBlock f).pieces := by
  rcases List.mem_append.mp member with old | last
  · obtain ⟨e, inside, rfl⟩ := List.mem_map.mp old
    exact marks.marked e inside t c f flushing
  · rw [List.mem_singleton] at last
    subst last
    obtain ⟨inside, flusher, _⟩ := sound.flushing flushing
    exact ⟨inside, flusher, flushing.block, rfl⟩

theorem submissionPiece {l : Label} {i : Item} (made : submission l = some i)
    (piece : i.kind = .fragmentPiece) : l = .submit .fragmentPiece i.data := by
  unfold submission at made
  split at made
  · cases made
    cases piece
    rfl
  · cases made
    cases piece
  · cases made

theorem smallPieces (chain : Chain trace s) (fitting : Obeys (Fitting o) trace) {c : Nat}
    (inside : c < s.bd.count) (piece : (s.bd.chunk c).kind = .fragmentPiece) :
    (s.bd.chunk c).data.size < o.blockSize := by
  have member : s.bd.item c ∈ submitted (labels trace) := by
    rw [chain]
    exact List.mem_map_of_mem (List.mem_range.mpr inside)
  obtain ⟨l, labelled, made⟩ := List.mem_filterMap.mp member
  obtain ⟨e, event, rfl⟩ := List.mem_map.mp labelled
  exact (fitting e event).2 _ (submissionPiece made piece)

theorem Follows.finalBlocks {compress : Bool → Bytes → Option Bytes} {buffered : Nat → Bool}
    (follows : Follows r first compress buffered limit s)
    (isOver : ∀ c, c < s.bd.count → (s.bd.chunk c).state = .finished)
    (closed : (s.bd.plan r first s.bd.count).current = none) :
    (List.range s.bd.fragmentBlockCount).map (fun f =>
      ((s.bd.fragmentBlock f).pieces.map fun p => (s.bd.chunk p).data.pread).flatten) =
        (s.bd.plan r first s.bd.count).contents := by
  obtain ⟨e, packing⟩ := follows.packed.packing
  have settled (d) (low : e ≤ d) (high : d < s.bd.count) : (s.bd.chunk d).kind = .fullBlock := by
    by_contra piece
    have := packing.after d low high piece
    rw [isOver d high] at this
    exact absurd this (by decide)
  obtain ⟨contents, current⟩ := @Plan.upToFull r first s.bd.item e s.bd.count packing.bound settled
  have blocks := packing.blocks
  have content := packing.content
  simp only [contentAt, Bulkdata.plan] at blocks content closed ⊢
  rw [← contents, ← current, closed] at blocks content
  simp only [Option.toList_none, List.length_nil, Nat.add_zero] at blocks
  refine List.ext_getElem (by simp [blocks]) fun f below inside => ?_
  rw [List.getElem_map, List.getElem_range, content f (by omega), List.getElem?_eq_getElem inside, Option.getD_some]

theorem Follows.flushedOnce {compress : Bool → Bytes → Option Bytes} {buffered : Nat → Bool}
    (follows : Follows r first compress buffered limit s)
    (sound : Sound P s) (chain : Chain trace s) (marks : Marks trace s)
    (sealed : s.bd.mayAddChunks = false) (done : s.bd.finished = s.bd.count) {f : Nat}
    (below : f < s.bd.fragmentBlockCount) :
    ∃ c, Once (fun e => Flush e c f) trace ∧ ∀ e ∈ trace, ∀ d, Flush e d f → d = c := by
  have isOver (c) (inside : c < s.bd.count) : (s.bd.chunk c).state = .finished :=
    (sound.chunks.located.finished c inside).mpr (by omega)
  have closing : Label.seal ∈ labels trace := by
    rcases marks.sealed with adding | member
    · rw [adding] at sealed; cases sealed
    · exact member
  have closed : (s.bd.plan r first s.bd.count).current = none :=
    Plan.upToClosed chain (closingSubmitted closing) rfl follows.packed.chained.capped
  have count : f < (s.bd.plan r first s.bd.count).contents.length := by
    rw [← follows.finalBlocks isOver closed, List.length_map, List.length_range]
    exact below
  obtain ⟨c, content, inside, flushes, number, _⟩ := Plan.flushedAt count
  have holds := follows.packed.holds c inside
  have piece : (s.bd.chunk c).kind ≠ .fullBlock := fun full => Plan.flushesFull full flushes
  have flusher : s.bd.Flusher c :=
    ⟨piece, (holds.flush piece).mpr ⟨by rw [isOver c inside]; decide, flushes⟩⟩
  have flushed := (holds.flushed flusher).trans (congrArg Except.ok number)
  refine ⟨c, marks.once c f inside flusher flushed (by rw [isOver c inside]; decide),
    fun e member d flush => ?_⟩
  obtain ⟨t, flushing, _⟩ := flush
  obtain ⟨inside', flusher', flushed', _⟩ := marks.marked e member t d f flushing
  exact follows.packed.flusherUnique inside' inside flusher' flusher flushed' flushed

end

section
variable {o : ImageConfig} {buffered : Nat → Bool} {compressBlocks compressFragments : Bool} {size : Nat}
  {trace : List (Event Image Label)} {s : Image}

/- The run lemma. -/
theorem laidRun (run : Run (Step o) (init compressBlocks compressFragments size) trace s) (clean : Obeys Clean trace)
    (agrees : ∀ e ∈ trace, Agrees o buffered e) : Sound (fun _ => True) s ∧ Chain trace s ∧
      (Erring s ∨ ∃ limit, Follows (o.rule buffered compressBlocks compressFragments) size o.compress buffered limit s ∧
        Laid s.bd ∧ Marks trace s) := by
  let r := o.rule buffered compressBlocks compressFragments
  have kept (trace : List (Event Image Label)) (s : Image) (l : Label) (next : Image)
      (known : Sound (fun _ => True) s ∧ Chain trace s ∧
        (Erring s ∨ ∃ limit, Follows r size o.compress buffered limit s ∧ Laid s.bd ∧ Marks trace s))
      (clean : Clean s l) (own : Agrees o buffered ⟨s, l, next⟩) (taken : Step o s l next) :
      Sound (fun _ => True) next ∧ Chain (trace ++ [⟨s, l, next⟩]) next ∧
        (Erring next ∨ ∃ limit, Follows r size o.compress buffered limit next ∧ Laid next.bd ∧
          Marks (trace ++ [⟨s, l, next⟩]) next) := by
    obtain ⟨sound, chain, progress⟩ := known
    have undisturbed : Undisturbed (fun _ => True) s l := by
      cases l <;> trivial
    refine ⟨sound.step undisturbed taken.2, chain.step sound taken.2, ?_⟩
    rcases progress with erring | ⟨limit, follows, laid, marks⟩
    · exact .inl (erring.step sound clean taken.2)
    · rcases follows.step rfl sound clean taken.2 own with erring | ⟨limit', follows'⟩
      · exact .inl erring
      · rcases follows.shifts rfl sound clean taken.2 own with erring | shifts
        · exact .inl erring
        · exact .inr ⟨limit', follows', shifts.laid laid,
            marks.step sound follows.packed follows'.packed shifts taken.2⟩
  have start : Follows r size o.compress buffered 0 (init compressBlocks compressFragments size) :=
    ⟨initPacked r size compressBlocks compressFragments, ⟨rfl, rfl⟩, Nat.le_refl 0, rfl, rfl,
      fun t c here => (by cases here), fun _ => rfl⟩
  have empty : Laid (init compressBlocks compressFragments size).bd :=
    ⟨rfl, fun f below => absurd below (Nat.not_lt_zero f),
      fun f below => absurd below (Nat.not_lt_zero f)⟩
  have unmarked : Marks [] (init compressBlocks compressFragments size) :=
    ⟨by simp, by simp, fun c _ inside => absurd inside (Nat.not_lt_zero c), .inl rfl⟩
  exact Run.historyEach
    (I := fun trace s => Sound (fun _ => True) s ∧ Chain trace s ∧
      (Erring s ∨ ∃ limit, Follows r size o.compress buffered limit s ∧ Laid s.bd ∧ Marks trace s))
    ⟨initSound compressBlocks compressFragments size, rfl, .inr ⟨0, start, empty, unmarked⟩⟩ kept run
    clean agrees

theorem fragmentsSound (run : Run (Step o) (init compressBlocks compressFragments size) trace s)
    (fitting : Obeys (Fitting o) trace) (healthy : ¬ Erring s) : FragmentsSound o trace s := by
  have clean : Obeys Clean trace := fun e member => (fitting e member).1
  obtain ⟨buffered, agrees⟩ := agreesSome run clean
  obtain ⟨sound, chain, progress⟩ := laidRun run clean agrees
  obtain ⟨limit, follows, laid, marks⟩ := progress.resolve_left healthy
  obtain ⟨e, packing⟩ := follows.packed.packing
  refine ⟨fun f below => ⟨laid.sizes f below, packing.fits (fun c inside piece =>
    (smallPieces chain fitting inside piece).le) below⟩, laid.offsets, laid.order, ?_, ?_,
    fun sealed done f below => follows.flushedOnce sound chain marks sealed done below⟩
  · intro t c f flushing p member
    obtain ⟨inside, flusher, state⟩ := sound.flushing flushing
    obtain ⟨below, _, members⟩ := follows.packed.flushContent inside state flusher flushing.block
    obtain ⟨high, piece, _, cached⟩ := members p member
    have insideP : p < s.bd.count := by
      have := (packing.members f below p member).1
      have := packing.bound
      omega
    exact ⟨Nat.le_trans (by decide) high, cached,
      (follows.packed.holds p insideP).whole (by omega) (by rw [piece]; simp)⟩
  · intro x member t c f flushing
    obtain ⟨inside, flusher, flushed, pieces⟩ := marks.visited sound member flushing
    refine ⟨pieces, fun y member' u d flushing' => ?_⟩
    obtain ⟨inside', flusher', flushed', _⟩ := marks.visited sound member' flushing'
    exact follows.packed.flusherUnique inside' inside flusher' flusher flushed' flushed

end

/- The piece behind the block, flushed by the closing piece once the worker has written the block. -/
theorem pairFlushed : ∃ (o : ImageConfig) (trace : List (Event Image Label)) (s : Image),
    Run (Step o) (init true true 96) trace s ∧ s.bd.fragmentBlockCount = 1 ∧
      (s.bd.fragmentBlock 0).pieces = [1] ∧ s.written = [(96, [1, 2, 3]), (99, [7])] ∧ FragmentsSound o trace s := by
  obtain ⟨trace, s, run, clean, _, each, done⟩ := pairRun []
  refine ⟨_, trace, s, run, done.blocks, done.pieces, done.written,
    fragmentsSound run (fun e member => ⟨clean e member, fun data submits => ?_⟩) ?_⟩
  · have own := (each e member).1
    rw [submits] at own
    simp only [List.mem_cons, List.not_mem_nil, or_false, Label.submit.injEq, reduceCtorEq, false_or, false_and] at own
    rw [own.2]
    decide
  · rintro ⟨t, c, here⟩
    rw [done.places] at here
    rcases t with _ | _ | t <;> simp at here

end Image
end Libsqfs
