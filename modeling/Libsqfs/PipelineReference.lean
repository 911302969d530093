import Libsqfs.BulkdataPacking
import Libsqfs.Compressors
import Libsqfs.PipelineProgress

/-! Whatever the threads do, in whatever order, the image is the one the chunks
make when they are handled one after the other. -/
namespace Libsqfs

/- At each place the block is made with a buffer or without one. -/
def ImageConfig.rule (o : ImageConfig) (buffered : Nat → Bool) (compressBlocks compressFragments : Bool) : Rule where
  blockSize := o.blockSize
  block n := Bulkdata.blockMade compressBlocks o.compress (buffered n)
  fragment n := Bulkdata.blockMade compressFragments o.compress (buffered n)

namespace Image
open Bulkdata Transition

structure Follows (r : Rule) (first : Nat) (compress : Bool → Bytes → Option Bytes) (buffered : Nat → Bool)
    (limit : Nat) (s : Image) : Prop where
  packed : Packed r first limit s.bd
  rule : Matches r compress buffered s.bd
  bound : limit ≤ s.bd.count
  size : s.size = (s.bd.plan r first limit).size
  written : s.written = (s.bd.plan r first s.bd.finished).written
  writing : ∀ t c, s.pc t = .writing c → limit = s.bd.finished + 1
  idle : (∀ t c, s.pc t ≠ .writing c) → limit = s.bd.finished

section
variable {P : DataPiece → Prop} {r : Rule} {first limit : Nat} {compress : Bool → Bytes → Option Bytes}
  {buffered : Nat → Bool} {s next : Image} {bd : Bulkdata} {t c : Nat} {p : Pc} {pc : Nat → Pc} {o : ImageConfig}

theorem Woken.writing (woken : Woken s.pc pc) (before : ∀ c, s.pc t ≠ .writing c)
    (after : ∀ c, p ≠ .writing c) (u c : Nat) :
    Function.update pc t p u = .writing c ↔ s.pc u = .writing c := by
  by_cases own : u = t
  · subst own
    rw [Function.update_self]
    exact iff_of_false (after c) (before c)
  · rw [Function.update_of_ne own]
    rcases woken u with same | ⟨was, now⟩
    · rw [same]
    · rw [was, now]; simp

theorem Follows.keep (follows : Follows r first compress buffered limit s)
    (packed : Packed r first limit next.bd) (rule : Matches r compress buffered next.bd)
    (plan : ∀ n, n ≤ s.bd.count → next.bd.plan r first n = s.bd.plan r first n)
    (located : s.bd.finished ≤ s.bd.count) (count : s.bd.count ≤ next.bd.count)
    (finished : next.bd.finished = s.bd.finished) (size : next.size = s.size)
    (written : next.written = s.written)
    (writers : ∀ u c, next.pc u = .writing c ↔ s.pc u = .writing c) :
    Follows r first compress buffered limit next where
  packed := packed
  rule := rule
  bound := follows.bound.trans count
  size := by rw [size, plan limit follows.bound]; exact follows.size
  written := by rw [written, finished, plan _ located]; exact follows.written
  writing t c here := by rw [finished]; exact follows.writing t c ((writers t c).mp here)
  idle nobody := by
    rw [finished]
    exact follows.idle fun t c here => nobody t c ((writers t c).mpr here)

theorem Follows.goto (follows : Follows r first compress buffered limit s)
    (located : s.bd.finished ≤ s.bd.count) (bd : next.bd = s.bd) (size : next.size = s.size)
    (written : next.written = s.written) (pcs : next.pc = Function.update s.pc t p)
    (before : ∀ c, s.pc t ≠ .writing c) (after : ∀ c, p ≠ .writing c) :
    Follows r first compress buffered limit next :=
  follows.keep (by rw [bd]; exact follows.packed) (by rw [bd]; exact follows.rule)
    (fun _ _ => by rw [bd]) located (by rw [bd]) (by rw [bd]) size written
    (by rw [pcs]; exact (Woken.refl s.pc).writing before after)

theorem Follows.stay (follows : Follows r first compress buffered limit s)
    (located : s.bd.finished ≤ s.bd.count) (bd : next.bd = s.bd) (size : next.size = s.size)
    (written : next.written = s.written) (pcs : next.pc = s.pc) :
    Follows r first compress buffered limit next :=
  follows.keep (by rw [bd]; exact follows.packed) (by rw [bd]; exact follows.rule)
    (fun _ _ => by rw [bd]) located (by rw [bd]) (by rw [bd]) size written fun u c => by rw [pcs]

theorem Follows.stage (follows : Follows r first compress buffered limit s)
    (packed : Packed r first limit next.bd) (frame : Frame s.bd next.bd)
    (located : s.bd.finished ≤ s.bd.count) (finished : next.bd.finished = s.bd.finished)
    (size : next.size = s.size) (written : next.written = s.written) (woken : Woken s.pc pc)
    (pcs : next.pc = Function.update pc t p) (before : ∀ c, s.pc t ≠ .writing c)
    (after : ∀ c, p ≠ .writing c) : Follows r first compress buffered limit next :=
  follows.keep packed (follows.rule.frame frame) (fun _ _ => by rw [frame.plan]) located
    (by rw [frame.count]) finished size written (by rw [pcs]; exact woken.writing before after)

theorem Sound.turn (sound : Sound P s) (mine : (s.pc t).held = some c)
    (state : (s.bd.chunk c).state = .writable) : c = s.bd.finished := by
  obtain ⟨inside, ready, _⟩ := sound.chunks.located.held t c mine
  exact firstUnfinished sound.chunks.located inside ready.1 (ready.2.2 state)

theorem Sound.writer (sound : Sound P s) (here : s.pc t = .writing c) :
    c = s.bd.finished ∧ (s.bd.chunk c).state = .writable := by
  have state := sound.chunks.doing t
  rw [here] at state
  exact ⟨sound.turn (by rw [here]; rfl) state, state⟩

theorem Follows.unclaimed (follows : Follows r first compress buffered limit s) (sound : Sound P s)
    (inside : c < s.bd.count) (unfinished : (s.bd.chunk c).state ≠ .finished)
    (early : (s.bd.chunk c).state ≠ .writable) : limit ≤ c := by
  have later : s.bd.finished ≤ c := by
    by_contra before
    exact unfinished ((sound.chunks.located.finished c inside).mpr (by omega))
  by_cases writer : ∃ t d, s.pc t = .writing d
  · obtain ⟨t, d, here⟩ := writer
    obtain ⟨first', state⟩ := sound.writer here
    have other : c ≠ d := fun same => early (same ▸ state)
    have := follows.writing t d here
    omega
  · simp only [not_exists] at writer
    have := follows.idle writer
    omega

/- The thread that popped a writable chunk is the only one to write. -/
theorem Follows.turn (follows : Follows r first compress buffered limit s) (sound : Sound P s)
    (here : s.pc t = .popped .writeq c) : limit = c ∧ c = s.bd.finished := by
  have state := sound.chunks.doing t
  rw [here] at state
  have own := sound.turn (by rw [here]; rfl) state
  refine ⟨?_, own⟩
  rw [own]
  refine follows.idle fun u d writing => ?_
  have other := (sound.writer writing).1
  have same : u = t := sound.chunks.located.unique u t c
    (by simp only [holders, writing, Pc.held, own, other]) (by simp only [holders, here, Pc.held])
  subst same
  rw [here] at writing
  cases writing

def Reached (r : Rule) (first limit : Nat) (bd : Bulkdata) (size : Nat) (q : Workq) (c : Nat) :
    Turn → Prop
  | .again next all => q ≠ .writeq ∧ Packed r first limit next ∨
      q = .writeq ∧ bd.target c = .ok none ∧ bd.chunkMarkFinished c = .ok (next, all)
  | .released next size' pc =>
      next = bd ∧ size' = size ∧ (∀ d, pc ≠ .writing d) ∨
      ∃ t, q = .writeq ∧ pc = .writing c ∧ bd.target c = .ok (some t) ∧
        next = bd.setBlock c {bd.block c t with offset := some size} t ∧
        size' = size + (bd.block c t).size
  | .outOfMemory _ => True

theorem stageReaches {allocated : Bool} {size : Nat} {q : Workq} {turn : Turn}
    (packed : Packed r first limit bd) (block : r.blockSize = o.blockSize) (inside : c < bd.count)
    (state : (bd.chunk c).state = q.state) (ready : bd.Ready c)
    (ok : stage o allocated bd size q c = .ok turn) : Reached r first limit bd size q c turn := by
  cases q with
  | readq =>
    cases kind : (bd.chunk c).kind <;> simp only [stage, kind] at ok
    case closingPiece =>
      cases ok
      exact .inl ⟨by simp, packed.closingRead inside state kind⟩
    all_goals
      obtain ⟨_, _, rfl⟩ := mapOk ok
      exact .inl ⟨rfl, rfl, by simp⟩
  | dedupq =>
    cases kind : (bd.chunk c).kind <;> simp only [stage, kind] at ok <;>
      obtain ⟨next, done, rfl⟩ := mapOk ok
    case fullBlock => exact .inl ⟨by simp, packed.deduplicated inside (deduplicatePassed done)⟩
    all_goals exact .inl ⟨by simp, packed.deduplicated inside (pieceDeduplicatePassed done)⟩
  | assignq =>
    have assigned := ready.2.1 state
    cases kind : (bd.chunk c).kind <;> simp only [stage, kind] at ok <;>
      obtain ⟨next, done, rfl⟩ := mapOk ok
    case fullBlock => exact .inl ⟨by simp, packed.assign inside kind done⟩
    case fragmentPiece =>
      obtain ⟨next, good⟩ := next
      cases good with
      | true => exact .inl ⟨by simp, packed.fragmentAssign block inside kind assigned done⟩
      | false => trivial
    case closingPiece => exact .inl ⟨by simp, packed.closingAssign inside kind assigned done⟩
  | compressq =>
    cases kind : (bd.chunk c).kind <;> simp only [stage, kind] at ok <;>
      obtain ⟨_, _, rfl⟩ := mapOk ok <;>
      exact .inl ⟨rfl, rfl, by simp⟩
  | writeq =>
    simp only [stage] at ok
    obtain ⟨_, _, rest⟩ := bindOk ok
    obtain ⟨target, found, rest⟩ := bindOk rest
    cases target with
    | some t =>
      cases rest
      exact .inr ⟨t, rfl, rfl, found, rfl, rfl⟩
    | none =>
      obtain ⟨⟨next, all⟩, done, rfl⟩ := mapOk rest
      exact .inr ⟨rfl, found, done⟩

theorem compressReaches {next : Bulkdata} (packed : Packed r first limit bd)
    (rule : Matches r o.compress buffered bd) (inside : c < bd.count) (unclaimed : limit ≤ c)
    (state : (bd.chunk c).state = .assigned)
    (flusher : (bd.chunk c).kind ≠ .fullBlock → (bd.chunk c).flushPreviousBlock = true)
    (ok : compressEnd o (buffered c) bd c = .ok (next, true)) :
    Touch bd next c ∧ Packed r first limit next := by
  unfold compressEnd at ok
  split at ok
  · rename_i full
    exact packed.fullCompress rule inside unclaimed full state ok
  · rename_i piece
    exact packed.pieceCompress rule inside unclaimed state ⟨piece, flusher piece⟩ ok

theorem writeEndOk {write : Medium.Write} {next : Bulkdata} {all : Bool}
    (ok : writeEnd bd c = .ok (write, next, all)) : ∃ t, bd.target c = .ok (some t) ∧
      (bd.block c t).offset = some write.1 ∧ (bd.block c t).data = some write.2 ∧
      (bd.setBlock c {bd.block c t with data := none} t).chunkMarkFinished c = .ok (next, all) := by
  have derefOk {α : Type} {x : Option α} {a : α} (ok : deref x = .ok a) : x = some a := by
    cases x with
    | none => cases ok
    | some b => cases ok; rfl
  obtain ⟨t?, found, rest⟩ := bindOk ok
  obtain ⟨t, target, rest⟩ := bindOk rest
  obtain ⟨offset, placed, rest⟩ := bindOk rest
  obtain ⟨data, made, rest⟩ := bindOk rest
  obtain ⟨⟨next', all'⟩, done, rest⟩ := bindOk rest
  cases rest
  rw [derefOk target] at found
  exact ⟨t, found, derefOk placed, derefOk made, done⟩

theorem Follows.plain (follows : Follows r first compress buffered limit s) (inside : c < s.bd.count)
    (state : (s.bd.chunk c).state = .writable) (target : s.bd.target c = .ok none) :
    (s.bd.plan r first c).output r (s.bd.item c) = none := by
  have holds := follows.packed.holds c inside
  have piece : (s.bd.chunk c).kind ≠ .fullBlock := by
    intro full
    simp only [Bulkdata.target, full] at target
    cases target
  refine Plan.outputNone piece fun flushes => ?_
  have flag := (holds.flush piece).mpr ⟨by rw [state]; decide, flushes⟩
  have number := holds.flushed ⟨piece, flag⟩
  unfold Bulkdata.target at target
  split at target
  · rename_i full; exact piece full
  · rw [if_pos flag, number] at target
    cases target

theorem Follows.finishPlain {all : Bool} (follows : Follows r first compress buffered limit s)
    (sound : Sound P s) (here : s.pc t = .popped .writeq c) (target : s.bd.target c = .ok none)
    (adv : Advance s.bd next.bd c) (done : s.bd.chunkMarkFinished c = .ok (next.bd, all))
    (size : next.size = s.size) (written : next.written = s.written) (woken : Woken s.pc pc)
    (pcs : next.pc = Function.update pc t .loop) :
    Follows r first compress buffered (limit + 1) next := by
  obtain ⟨rfl, own⟩ := follows.turn sound here
  obtain ⟨_, inside, _, doing⟩ := sound.working here rfl
  have state : (s.bd.chunk limit).state = .writable := doing
  have chunk := (finishPassed done).chunk limit
  rw [if_pos rfl] at chunk
  have finished : next.bd.finished = limit + 1 := by
    rw [adv.finished, if_pos (by rw [chunk]), ← own]
  have plain := follows.plain inside state target
  obtain ⟨sizes, writes⟩ := Plan.stepWritten r (s.bd.plan r first limit) (s.bd.item limit)
  rw [plain] at sizes writes
  have step : s.bd.plan r first (limit + 1) =
    (s.bd.plan r first limit).step r (s.bd.item limit) := rfl
  have writers := woken.writing (t := t) (p := .loop) (by rw [here]; simp) (by simp)
  refine ⟨follows.packed.finishPlain inside state target done, follows.rule.frame adv.frame, ?_, ?_,
    ?_, fun u d writing => ?_, fun _ => finished.symm⟩
  · rw [adv.frame.count]; exact inside
  · rw [size, adv.frame.plan, step, sizes]; exact follows.size
  · rw [written, adv.frame.plan, finished, step, writes]
    simp [follows.written, ← own]
  · rw [pcs] at writing
    have := follows.writing u d ((writers u d).mp writing)
    omega

/- The space for an image block is claimed when its chunk is popped to be written. -/
theorem Follows.claim {target : Target} (follows : Follows r first compress buffered limit s)
    (sound : Sound P s) (here : s.pc t = .popped .writeq c)
    (found : s.bd.target c = .ok (some target))
    (bd : next.bd = s.bd.setBlock c {s.bd.block c target with offset := some s.size} target)
    (size : next.size = s.size + (s.bd.block c target).size) (written : next.written = s.written)
    (pcs : next.pc = Function.update s.pc t (.writing c)) :
    Follows r first compress buffered (limit + 1) next := by
  obtain ⟨rfl, own⟩ := follows.turn sound here
  obtain ⟨_, inside, _, doing⟩ := sound.working here rfl
  have state : (s.bd.chunk limit).state = .writable := doing
  have same := sameSetBlock s.bd limit {s.bd.block limit target with offset := some s.size} target
  obtain ⟨z, output, length, _⟩ :=
    (follows.packed.holds limit inside).stored (by rw [state]; decide) target found
  obtain ⟨sizes, _⟩ := Plan.stepWritten r (s.bd.plan r first limit) (s.bd.item limit)
  rw [output] at sizes
  have step : s.bd.plan r first (limit + 1) =
    (s.bd.plan r first limit).step r (s.bd.item limit) := rfl
  refine ⟨?_, ?_, ?_, ?_, ?_, fun u d writing => ?_, fun nobody => ?_⟩
  · rw [bd]
    exact follows.packed.claim inside state found follows.size
  · rw [bd]; exact follows.rule.frame same.frame
  · rw [bd, same.frame.count]; exact inside
  · rw [bd, same.frame.plan, step, sizes, size, length, follows.size]
    rfl
  · rw [bd, same.frame.plan, same.finished, written]; exact follows.written
  · rw [bd, same.finished, ← own]
  · exact absurd (by rw [pcs, Function.update_self]) (nobody t limit)

theorem Follows.finishWritten {write : Medium.Write} {all : Bool}
    (follows : Follows r first compress buffered limit s) (sound : Sound P s) (here : s.pc t = .writing c)
    (result : writeEnd s.bd c = .ok (write, next.bd, all)) (size : next.size = s.size)
    (written : next.written = s.written ++ [write]) (woken : Woken s.pc pc)
    (pcs : next.pc = Function.update pc t .loop) : Follows r first compress buffered limit next := by
  obtain ⟨_, inside, _, _⟩ := sound.working here rfl
  obtain ⟨own, state⟩ := sound.writer here
  obtain ⟨target, found, offset, data, done⟩ := writeEndOk result
  obtain ⟨adv, _⟩ := writeEndAdvances inside state result
  have next' := follows.writing t c here
  have claimed : c < limit := by omega
  have chunk := (finishPassed done).chunk c
  rw [if_pos rfl] at chunk
  have finished : next.bd.finished = c + 1 := by
    rw [adv.finished, if_pos (by rw [chunk]), ← own]
  obtain ⟨z, output, _, _, content, placed⟩ :=
    (follows.packed.holds c inside).stored (by rw [state]; decide) target found
  obtain ⟨_, writes⟩ := Plan.stepWritten r (s.bd.plan r first c) (s.bd.item c)
  rw [output] at writes
  have step : s.bd.plan r first (c + 1) = (s.bd.plan r first c).step r (s.bd.item c) := rfl
  have what : write = ((s.bd.plan r first c).size, z.1) := by
    rw [placed claimed] at offset
    rw [content state] at data
    exact Prod.ext (Option.some.inj offset).symm (Option.some.inj data).symm
  refine ⟨(follows.packed.finishWritten inside state found claimed done).2, follows.rule.frame adv.frame,
    ?_, ?_, ?_, fun u d writing => ?_, fun _ => ?_⟩
  · rw [adv.frame.count]; exact follows.bound
  · rw [size, adv.frame.plan]; exact follows.size
  · rw [written, adv.frame.plan, finished, step, writes, what, follows.written, own]
    rfl
  · rw [pcs] at writing
    by_cases same : u = t
    · subst same
      rw [Function.update_self] at writing
      cases writing
    · rw [Function.update_of_ne same] at writing
      have before : s.pc u = .writing d := by
        rcases woken u with kept | ⟨_, now⟩
        · rw [← kept]; exact writing
        · rw [now] at writing; cases writing
      have other := (sound.writer before).1
      refine absurd (sound.chunks.located.unique u t c ?_ ?_) same
      · simp only [holders, before, Pc.held, own, other]
      · simp only [holders, here, Pc.held]
  · rw [finished]; omega

end

def Erring (s : Image) : Prop := ∃ t c, s.pc t = .flagging (some c)

theorem erringKept {s next : Image} {t : Nat} {p : Pc} {pc : Nat → Pc} (erring : Erring s)
    (woken : Woken s.pc pc) (pcs : next.pc = Function.update pc t p)
    (other : ∀ c, s.pc t ≠ .flagging (some c)) : Erring next := by
  obtain ⟨u, c, here⟩ := erring
  have away : u ≠ t := by
    rintro rfl
    exact other c here
  refine ⟨u, c, ?_⟩
  rw [pcs, Function.update_of_ne away]
  rcases woken u with same | ⟨was, _⟩
  · rw [same]; exact here
  · rw [here] at was; cases was

theorem Erring.step {P : DataPiece → Prop} {o : ImageConfig} {s next : Image} {l : Label}
    (erring : Erring s) (sound : Sound P s) (clean : Clean s l) (move : Move o s l next) :
    Erring next := by
  have signalled {pc : Nat → Pc} (woken : Woken s.pc pc) : ∃ t c, pc t = .flagging (some c) := by
    obtain ⟨u, c, here⟩ := erring
    refine ⟨u, c, ?_⟩
    rcases woken u with same | ⟨was, _⟩
    · rw [same]; exact here
    · rw [here] at was; cases was
  have calling (c : Nat) (outside : s.api ≠ .processing) : s.pc 0 ≠ .flagging (some c) := by
    rcases sound.calls.apart outside with h | h | h <;> rw [h] <;> simp
  cases move with
  | submit free unlocked own signal => exact signalled (signalWoken signal)
  | closingQueued here unlocked first second =>
    exact signalled ((signalWoken first).trans (signalWoken second))
  | closingQueuedAgain here unlocked first second =>
    exact erringKept erring ((signalWoken first).trans (signalWoken second)) rfl
      fun c => calling c (by rw [here]; simp)
  | flag here => exact clean.elim
  | abort here unlocked => exact clean.elim
  | setRoot | enter | refuse | rootFound | sealNeeded | sealed | closingFails | later
  | truncateFails | conclude | returns | stageFault | compressFault | writeFault => exact erring
  | rootMissing here missing =>
    exact erringKept erring (.refl _) rfl fun c => calling c (by rw [here]; simp)
  | sealedAgain here unlocked done =>
    exact erringKept erring (.refl _) rfl fun c => calling c (by rw [here]; simp)
  | closingFailsAgain here =>
    exact erringKept erring (.refl _) rfl fun c => calling c (by rw [here]; simp)
  | concludeFailed here idle => exact erringKept erring (.refl _) rfl fun c => by rw [idle]; simp
  | processed here left => exact erringKept erring (.refl _) rfl fun c => by rw [left]; simp
  | spawn free new other => exact erringKept erring (.refl _) rfl fun c => by rw [new]; simp
  | again here result =>
    exact erringKept erring (broadcastWoken _ _) rfl fun c => by rw [here]; simp
  | written here unlocked result =>
    exact erringKept erring (broadcastWoken _ _) rfl fun c => by rw [here]; simp
  | opened here | openFails here | locked here unlocked | pop here popped | released here result
  | outOfMemory here result | read here unlocked whole | readFails here
  | compressed here unlocked result | compressFails here result | writeFails here
  | leave here empty left | wait here empty stays | spurious here | abortCall here outside
  | leaveFailed here unlocked left | waitFailed here unlocked stays =>
    exact erringKept erring (.refl _) rfl fun c => by rw [here]; simp

def Compresses (e : Event Image Label) (c : Nat) : Prop :=
  ∃ t, e.label = .thread t ∧ e.before.pc t = .compressing c ∧ e.after.pc t = .loop

/- The block is what comes of asking the compressor with a buffer or without one, as
`buffered` tells for the chunk. -/
def Agrees (o : ImageConfig) (buffered : Nat → Bool) (e : Event Image Label) : Prop :=
  ∀ c, Compresses e c → compressEnd o (buffered c) e.before.bd c = .ok (e.after.bd, true)

/- The step lemma: as long as no operation fails, the threads follow the plan. -/
theorem Follows.step {P : DataPiece → Prop} {r : Rule} {first limit : Nat} {o : ImageConfig}
    {buffered : Nat → Bool} {s next : Image} {l : Label} (follows : Follows r first o.compress buffered limit s)
    (block : r.blockSize = o.blockSize) (sound : Sound P s) (clean : Clean s l) (move : Move o s l next)
    (agrees : Agrees o buffered ⟨s, l, next⟩) :
    Erring next ∨ ∃ limit', Follows r first o.compress buffered limit' next := by
  have located := sound.chunks.located
  have below := located.bound
  have calling (c : Nat) (outside : s.api ≠ .processing) : s.pc 0 ≠ .writing c := by
    rcases sound.calls.apart outside with h | h | h <;> rw [h] <;> simp
  have signalled {pc : Nat → Pc} (woken : Woken s.pc pc) (u c : Nat) :
      pc u = .writing c ↔ s.pc u = .writing c := by
    rcases woken u with same | ⟨was, now⟩
    · rw [same]
    · rw [was, now]; simp
  cases move with
  | @submit kind data pc free unlocked own signal =>
    have grown := submitGrows sound.chunks.linked kind data
    exact .inr ⟨limit, follows.keep (follows.packed.grown grown (sound.calls.adding clean))
      (follows.rule.grown grown) (fun n le => grown.plan le) below
      ((Nat.le_succ _).trans grown.count.symm.le) grown.finished rfl rfl
      (signalled (signalWoken signal))⟩
  | @closingQueued pc pc' here unlocked first' second =>
    have adding := sound.calls.unsealed false here
    have grown := submitGrows sound.chunks.linked .closingPiece ⟨[], 0, 0⟩
    have packed := follows.packed.grown grown (sound.calls.adding adding)
    have rule := follows.rule.grown grown
    exact .inr ⟨limit, follows.keep (packed.plain _ false) ⟨rule.block, rule.fragment⟩
      (fun n le => grown.plan le) below ((Nat.le_succ _).trans grown.count.symm.le) grown.finished
      rfl rfl
      (signalled ((signalWoken first').trans (signalWoken second)))⟩
  | closingFailsAgain here | closingQueuedAgain here =>
    have adding := sound.calls.unsealed true here
    rw [sound.calls.sealed (.inr (.inl here))] at adding
    cases adding
  | flag here => exact clean.elim
  | abort here unlocked => exact clean.elim
  | setRoot | enter | refuse | rootFound | sealNeeded | sealed | closingFails | later
  | truncateFails | conclude | returns | stageFault | compressFault | writeFault =>
    exact .inr ⟨limit, follows.stay below rfl rfl rfl rfl⟩
  | rootMissing here missing | sealedAgain here unlocked done =>
    exact .inr ⟨limit, follows.goto below rfl rfl rfl rfl
      (fun c => calling c (by rw [here]; simp)) (by simp)⟩
  | concludeFailed here idle =>
    exact .inr ⟨limit, follows.goto below rfl rfl rfl rfl (fun c => by rw [idle]; simp) (by simp)⟩
  | processed here left =>
    exact .inr ⟨limit, follows.goto below rfl rfl rfl rfl (fun c => by rw [left]; simp) (by simp)⟩
  | spawn free new other =>
    exact .inr ⟨limit, follows.goto below rfl rfl rfl rfl (fun c => by rw [new]; simp) (by simp)⟩
  | opened here | openFails here | locked here unlocked | leave here empty left
  | wait here empty stays | spurious here | abortCall here outside
  | leaveFailed here unlocked left | waitFailed here unlocked stays =>
    exact .inr ⟨limit, follows.goto below rfl rfl rfl rfl (fun c => by rw [here]; simp) (by simp)⟩
  | @readFails t c here | @writeFails t c here =>
    exact .inl ⟨t, c, Function.update_self ..⟩
  | @outOfMemory t q c allocated bd here result => exact .inl ⟨t, c, Function.update_self ..⟩
  | @compressFails t c allocated bd here result => exact .inl ⟨t, c, Function.update_self ..⟩
  | pop here popped =>
    obtain ⟨rest, shape, rfl⟩ := popSpec popped
    exact .inr ⟨limit, follows.keep (follows.packed.plain _ _) ⟨follows.rule.block, follows.rule.fragment⟩
      (fun _ _ => rfl) below (Nat.le_refl _) rfl rfl rfl
      ((Woken.refl s.pc).writing (fun c => by rw [here]; simp) (by simp))⟩
  | @again t q c allocated bd all here result =>
    obtain ⟨_, inside, ready, state⟩ := sound.working here rfl
    obtain ⟨adv, _, _⟩ :=
      stageSpec sound.chunks.linked inside (sound.chunks.closing c inside) state result
    rcases stageReaches follows.packed block inside state ready result with
      ⟨early, packed⟩ | ⟨rfl, target, done⟩
    · have unfinished : (bd.chunk c).state ≠ .finished := by
        intro isOver
        have same : q.state = .writable := state.symm.trans (adv.last isOver).2
        cases q <;> cases same
        exact early rfl
      have finished : bd.finished = s.bd.finished := by rw [adv.finished, if_neg unfinished]
      exact .inr ⟨limit, follows.stage packed adv.frame below finished rfl rfl
        (broadcastWoken s.pc all) rfl (fun c => by rw [here]; simp) (by simp)⟩
    · exact .inr ⟨limit + 1, follows.finishPlain sound here target adv done rfl rfl
        (broadcastWoken s.pc all) rfl⟩
  | @released t q c allocated bd size pc here result =>
    obtain ⟨_, inside, ready, state⟩ := sound.working here rfl
    rcases stageReaches follows.packed block inside state ready result with
      ⟨rfl, rfl, elsewhere⟩ | ⟨target, rfl, rfl, found, rfl, rfl⟩
    · exact .inr ⟨limit, follows.goto below rfl rfl rfl rfl (fun c => by rw [here]; simp) elsewhere⟩
    · exact .inr ⟨limit + 1, follows.claim sound here found rfl rfl rfl rfl⟩
  | @read t c here unlocked whole =>
    obtain ⟨_, inside, _, doing⟩ := sound.working here rfl
    have adv := readAdvances inside doing.1
    exact .inr ⟨limit, follows.stage (follows.packed.read inside doing.1 whole) adv.frame below rfl
      rfl rfl (.refl _) rfl (fun c => by rw [here]; simp) (by simp)⟩
  | @compressed t c allocated bd here unlocked result =>
    obtain ⟨_, inside, ready, doing⟩ := sound.working here rfl
    have state : (s.bd.chunk c).state = .assigned := doing
    have adv := compressEndAdvances inside state result
    have unclaimed := follows.unclaimed sound inside ready.1 (by rw [state]; simp)
    have ⟨_, packed⟩ := compressReaches follows.packed follows.rule inside unclaimed state
      (fun piece => sound.chunks.flushes c inside piece state) (agrees c ⟨t, rfl, here, Function.update_self ..⟩)
    have unfinished : (bd.chunk c).state ≠ .finished := by
      intro isOver
      have := (adv.last isOver).2
      rw [state] at this
      cases this
    have finished : bd.finished = s.bd.finished := by rw [adv.finished, if_neg unfinished]
    exact .inr ⟨limit, follows.stage packed adv.frame below finished rfl rfl (.refl _) rfl
      (fun c => by rw [here]; simp) (by simp)⟩
  | @written t c write bd all here unlocked result =>
    exact .inr ⟨limit, follows.finishWritten sound here result rfl rfl (broadcastWoken s.pc all) rfl⟩

/-! ### The items of a run -/

def submission : Label → Option Item
  | .submit kind data => some ⟨kind, data⟩
  | .seal => some ⟨.closingPiece, ⟨[], 0, 0⟩⟩
  | _ => none

def submitted (labels : List Label) : List Item := labels.filterMap submission

/- The chain grows by what is submitted, its items never change, and their states never
go back. -/
structure Extends (bd next : Bulkdata) (added : Option Item) : Prop where
  count : next.count = bd.count + added.toList.length
  old : ∀ d, d < bd.count → next.item d = bd.item d
  new : ∀ i, added = some i → next.item bd.count = i
  rank : ∀ d, d < bd.count → (bd.chunk d).state.value ≤ (next.chunk d).state.value

theorem extendsFrame {bd next : Bulkdata} (frame : Frame bd next)
    (rank : ∀ d, (bd.chunk d).state.value ≤ (next.chunk d).state.value) : Extends bd next none :=
  ⟨frame.count, fun d _ => congrFun frame.item d, fun _ none => (by cases none), fun d _ => rank d⟩

theorem extendsSame {bd next : Bulkdata} (same : Same bd next) : Extends bd next none :=
  extendsFrame same.frame fun d => by rw [same.state d]

theorem advanceRank {bd next : Bulkdata} {c : Nat} (adv : Advance bd next c) (d : Nat) :
    (bd.chunk d).state.value ≤ (next.chunk d).state.value := by
  by_cases own : d = c
  · subst own; exact adv.rank.le
  · rw [adv.kept d own]

theorem extendsAdvance {bd next : Bulkdata} {c : Nat} (adv : Advance bd next c) : Extends bd next none :=
  extendsFrame adv.frame (advanceRank adv)

theorem extendsGrown {bd next : Bulkdata} {kind : ChunkKind} {data : DataPiece}
    (grown : Grown bd next kind data) : Extends bd next (some ⟨kind, data⟩) where
  count := grown.count
  old d below := grown.item below
  new i same := by
    cases same
    simp only [item, grown.new]
    rfl
  rank d below := by rw [grown.old d below]

theorem Sound.chain {P : DataPiece → Prop} {o : ImageConfig} {s next : Image} {l : Label}
    (sound : Sound P s) (move : Move o s l next) : Extends s.bd next.bd (submission l) := by
  have located := sound.chunks.located
  have inside {t c} (holds : (s.pc t).held = some c) : c < s.bd.count := (located.held t c holds).1
  have state {t p} (here : s.pc t = p) : p.Doing s.bd := here ▸ sound.chunks.doing t
  cases move with
  | @submit kind data pc free unlocked own signal =>
    exact extendsGrown (submitGrows sound.chunks.linked kind data)
  | closingQueued here unlocked first second =>
    obtain ⟨count, old, new, rank⟩ :=
      extendsGrown (submitGrows sound.chunks.linked .closingPiece ⟨[], 0, 0⟩)
    exact ⟨count, old, new, rank⟩
  | closingQueuedAgain here unlocked first second =>
    have adding := sound.calls.unsealed true here
    rw [sound.calls.sealed (.inr (.inl here))] at adding
    cases adding
  | pop here popped =>
    obtain ⟨rest, shape, rfl⟩ := popSpec popped
    exact ⟨rfl, fun _ _ => rfl, fun _ none => (by cases none), fun _ _ => Nat.le_refl _⟩
  | abort here unlocked => exact ⟨rfl, fun _ _ => rfl, fun _ none => (by cases none), fun _ _ => Nat.le_refl _⟩
  | @again t q c allocated bd all here result =>
    have below := inside (t := t) (by rw [here]; rfl)
    obtain ⟨adv, _⟩ :=
      stageSpec sound.chunks.linked below (sound.chunks.closing c below) (state here) result
    exact extendsAdvance adv
  | @released t q c allocated bd size pc here result =>
    have below := inside (t := t) (by rw [here]; rfl)
    obtain ⟨same, _⟩ :=
      stageSpec sound.chunks.linked below (sound.chunks.closing c below) (state here) result
    exact extendsSame same
  | @outOfMemory t q c allocated bd here result =>
    have below := inside (t := t) (by rw [here]; rfl)
    have same :=
      stageSpec sound.chunks.linked below (sound.chunks.closing c below) (state here) result
    exact extendsSame same
  | @read t c here unlocked whole =>
    have below := inside (t := t) (by rw [here]; rfl)
    exact extendsAdvance (readAdvances below (state here).1)
  | @compressed t c allocated bd here unlocked result =>
    have below := inside (t := t) (by rw [here]; rfl)
    have adv := compressEndAdvances below (state here) result
    exact extendsAdvance adv
  | @compressFails t c allocated bd here result =>
    have below := inside (t := t) (by rw [here]; rfl)
    have same := compressEndAdvances below (state here) result
    exact extendsSame same
  | @written t c write bd all here unlocked result =>
    have below := inside (t := t) (by rw [here]; rfl)
    exact extendsAdvance (writeEndAdvances below (state here) result).1
  | _ => exact extendsSame (.refl s.bd)

def Chain (trace : List (Event Image Label)) (s : Image) : Prop :=
  submitted (labels trace) = (List.range s.bd.count).map s.bd.item

theorem Chain.step {P : DataPiece → Prop} {o : ImageConfig} {trace : List (Event Image Label)}
    {s next : Image} {l : Label} (chain : Chain trace s) (sound : Sound P s)
    (move : Move o s l next) : Chain (trace ++ [⟨s, l, next⟩]) next := by
  obtain ⟨count, old, new, _⟩ := sound.chain move
  have before : (List.range s.bd.count).map next.bd.item = (List.range s.bd.count).map s.bd.item :=
    List.map_congr_left fun d inside => old d (List.mem_range.mp inside)
  unfold Chain at chain ⊢
  rw [labelsSnoc, submitted, List.filterMap_append, count]
  change submitted (labels trace) ++ _ = _
  rw [chain]
  cases added : submission l with
  | none => simp [added, before]
  | some i =>
    simp only [List.filterMap_cons, List.filterMap_nil, added, Option.toList_some,
      List.length_singleton]
    rw [List.range_succ, List.map_append, before, List.map_singleton, new i added]

theorem closingSubmitted {trace : List (Event Image Label)} (sealed : Label.seal ∈ labels trace) :
    (⟨.closingPiece, ⟨[], 0, 0⟩⟩ : Item) ∈ submitted (labels trace) :=
  List.mem_filterMap.mpr ⟨.seal, sealed, rfl⟩

/-! ### The finished image -/

end Image

def ImageBlock.extent (b : ImageBlock) : Option Extent :=
  b.offset.map fun offset => ⟨offset, b.size, b.compressed⟩

def Chunk.place (c : Chunk) : Option Place :=
  match c.kind with
  | .fullBlock => c.dst.extent.map .block
  | .fragmentPiece => c.fragmentBlock.bind fun f => c.offset.map fun offset => .piece f offset
  | .closingPiece => some .closing

namespace Image
open Bulkdata Transition

/- The image is what the plan says. -/
structure Realizes (s : Image) (p : Plan) : Prop where
  size : s.size = p.size
  written : s.written = p.written
  places : (List.range s.bd.count).map (fun c => (s.bd.chunk c).place) = p.places.map some
  fragments : (List.range s.bd.fragmentBlockCount).map (fun f => (s.bd.fragmentBlock f).dst.extent) =
    p.fragments.map some

section
variable {r : Rule} {first limit : Nat} {compress : Bool → Bytes → Option Bytes} {buffered : Nat → Bool} {s : Image}
  {c : Nat}

theorem outcomeExtent {p : Plan} {z : Bytes × Bool} {state : ChunkState} {claimed : Prop}
    {b : ImageBlock} (outcome : Outcome p z state claimed b) (here : claimed) :
    b.extent = some (p.extent z) := by
  obtain ⟨size, compressed, _, offset⟩ := outcome
  simp only [ImageBlock.extent, offset here, size, compressed]
  rfl

theorem Follows.place (follows : Follows r first compress buffered s.bd.count s) (inside : c < s.bd.count)
    (isOver : (s.bd.chunk c).state = .finished) :
    (s.bd.chunk c).place = some ((s.bd.plan r first c).place r (s.bd.item c)) := by
  have holds := follows.packed.holds c inside
  unfold Chunk.place Plan.place
  cases kind : (s.bd.chunk c).kind with
  | fullBlock =>
    obtain ⟨z, output, outcome⟩ := holds.stored (by rw [isOver]; decide) .own (by
      simp only [Bulkdata.target, kind])
    have made : z = r.block c (s.bd.item c).data.pread :=
      Option.some.inj (output.symm.trans (Plan.outputFullAt kind))
    have extent := outcomeExtent outcome inside
    rw [made] at extent
    simp only [Bulkdata.block] at extent
    have number : (s.bd.plan r first c).places.length = c := Plan.placesLength c
    simp only [item, kind, extent, number]
    rfl
  | fragmentPiece =>
    obtain ⟨fragment, offset⟩ := holds.piece kind (by rw [isOver]; decide)
    simp only [fragment, offset, item, kind]
    rfl
  | closingPiece =>
    simp only [item, kind]

theorem Follows.fragment (follows : Follows r first compress buffered s.bd.count s)
    (isOver : ∀ c, c < s.bd.count → (s.bd.chunk c).state = .finished) {f : Nat}
    (below : f < (s.bd.plan r first s.bd.count).contents.length) :
    (s.bd.fragmentBlock f).dst.extent = (s.bd.plan r first s.bd.count).fragments[f]? := by
  obtain ⟨c, content, inside, flushes, number, current, fragment, _⟩ := Plan.flushedAt below
  have holds := follows.packed.holds c inside
  have piece : (s.bd.chunk c).kind ≠ .fullBlock := fun full => Plan.flushesFull full flushes
  have flag := (holds.flush piece).mpr ⟨by rw [isOver c inside]; decide, flushes⟩
  have flushed := holds.flushed ⟨piece, flag⟩
  have target : s.bd.target c = .ok (some (.fragment f)) := by
    unfold Bulkdata.target
    split
    · rename_i full; exact absurd full piece
    · rw [if_pos flag, flushed, ← number]
      rfl
  obtain ⟨z, output, outcome⟩ := holds.stored (by rw [isOver c inside]; decide) _ target
  have same := (Plan.outputFlushAt flushes current).symm.trans output
  have extent := outcomeExtent outcome inside
  rw [← Option.some.inj same] at extent
  simp only [Bulkdata.block] at extent
  rw [extent]
  exact fragment.symm

theorem Follows.realizes (follows : Follows r first compress buffered s.bd.count s)
    (isOver : ∀ c, c < s.bd.count → (s.bd.chunk c).state = .finished)
    (done : s.bd.finished = s.bd.count)
    (closed : (s.bd.plan r first s.bd.count).current = none) :
    Realizes s (s.bd.plan r first s.bd.count) := by
  have same : (s.bd.plan r first s.bd.count).fragments.length =
    (s.bd.plan r first s.bd.count).contents.length := Plan.fragmentsLength _
  refine ⟨follows.size, by rw [follows.written, done], ?_, ?_⟩
  · refine List.ext_getElem (by simp [Bulkdata.plan, Plan.placesLength]) fun c below _ => ?_
    have inside : c < s.bd.count := by simpa using below
    have found := @Plan.placesAt r first s.bd.item s.bd.count c inside
    rw [List.getElem_map, List.getElem_range, follows.place inside (isOver c inside), List.getElem_map]
    exact (congrArg some (List.getElem?_eq_some_iff.mp found).2).symm
  · obtain ⟨e, packing⟩ := follows.packed.packing
    have settled (d) (low : e ≤ d) (high : d < s.bd.count) : (s.bd.chunk d).kind = .fullBlock := by
      by_contra piece
      have := packing.after d low high piece
      rw [isOver d high] at this
      exact absurd this (by decide)
    obtain ⟨contents, current⟩ :=
      @Plan.upToFull r first s.bd.item e s.bd.count packing.bound settled
    have count : s.bd.fragmentBlockCount = (s.bd.plan r first s.bd.count).fragments.length := by
      rw [same, packing.blocks]
      simp only [Bulkdata.plan] at closed ⊢
      rw [← contents, ← current, closed]
      rfl
    refine List.ext_getElem (by simp [count]) fun f below _ => ?_
    have inside : f < (s.bd.plan r first s.bd.count).fragments.length := by simpa [count] using below
    rw [List.getElem_map, List.getElem_range, follows.fragment isOver (by rw [← same]; exact inside),
      List.getElem_map, List.getElem?_eq_getElem inside]

end

section
variable {o : ImageConfig} {buffered : Nat → Bool} {compressBlocks compressFragments : Bool} {size : Nat}
  {trace : List (Event Image Label)} {s : Image}

theorem followsRun (run : Run (Step o) (init compressBlocks compressFragments size) trace s)
    (clean : Obeys Clean trace) (agrees : ∀ e ∈ trace, Agrees o buffered e) :
    Sound (fun _ => True) s ∧ Chain trace s ∧ (Erring s ∨ ∃ limit,
      Follows (o.rule buffered compressBlocks compressFragments) size o.compress buffered limit s) := by
  refine Run.historyEach (I := fun trace s => Sound (fun _ => True) s ∧ Chain trace s ∧ (Erring s ∨ ∃ limit,
    Follows (o.rule buffered compressBlocks compressFragments) size o.compress buffered limit s))
    ⟨initSound compressBlocks compressFragments size, rfl, .inr ⟨0, ?_⟩⟩ ?_ run clean agrees
  · exact ⟨initPacked _ size compressBlocks compressFragments, ⟨rfl, rfl⟩, Nat.le_refl 0, rfl, rfl,
      fun t c here => (by cases here), fun _ => rfl⟩
  · intro trace s l next ⟨sound, chain, progress⟩ allowed own taken
    have undisturbed : Undisturbed (fun _ => True) s l := by
      cases l <;> trivial
    refine ⟨sound.step undisturbed taken.2, chain.step sound taken.2, ?_⟩
    rcases progress with erring | ⟨limit, follows⟩
    · exact .inl (erring.step sound allowed taken.2)
    · exact follows.step rfl sound allowed taken.2 own

theorem runChain (run : Run (Step o) (init compressBlocks compressFragments size) trace s)
    (clean : Obeys Clean trace) : Chain trace s := by
  refine (Run.history (I := fun trace s => Sound (fun _ => True) s ∧ Chain trace s)
    ⟨initSound compressBlocks compressFragments size, rfl⟩ ?_ run clean).2
  intro trace s l next ⟨sound, chain⟩ allowed taken
  have undisturbed : Undisturbed (fun _ => True) s l := by
    cases l <;> trivial
  exact ⟨sound.step undisturbed taken.2, chain.step sound taken.2⟩

theorem planRealized (run : Run (Step o) (init compressBlocks compressFragments size) trace s)
    (clean : Obeys Clean trace) (agrees : ∀ e ∈ trace, Agrees o buffered e) (sealed : Label.seal ∈ labels trace)
    (done : s.bd.finished = s.bd.count) :
    Realizes s (Plan.sequential (o.rule buffered compressBlocks compressFragments) size
      (submitted (labels trace))) := by
  obtain ⟨sound, chain, progress⟩ := followsRun run clean agrees
  have isOver (c) (inside : c < s.bd.count) : (s.bd.chunk c).state = .finished :=
    (sound.chunks.located.finished c inside).mpr (by omega)
  have released (t c) (holds : (s.pc t).held = some c) : False := by
    obtain ⟨inside, ready, _⟩ := sound.chunks.located.held t c holds
    exact ready.1 (isOver c inside)
  rcases progress with ⟨t, c, here⟩ | ⟨limit, follows⟩
  · exact (released t c (by rw [here]; rfl)).elim
  have all := follows.idle fun t c here => released t c (by rw [here]; rfl)
  rw [all, done] at follows
  rw [Plan.upToSequential _ chain]
  exact follows.realizes isOver done
    (Plan.upToClosed chain (closingSubmitted sealed) rfl follows.packed.chained.capped)

/-! ### Whether there was a buffer -/

theorem Compresses.result {next : Image} {l : Label} {c : Nat} (compresses : Compresses ⟨s, l, next⟩ c)
    (move : Move o s l next) : ∃ allocated, compressEnd o allocated s.bd c = .ok (next.bd, true) := by
  obtain ⟨t, own, here, goes⟩ := compresses
  dsimp only at own here goes
  cases move with
  | compressed here' unlocked result =>
    cases own
    rw [here] at here'
    cases here'
    exact ⟨_, result⟩
  | _ => cases own <;> simp_all [goto]

theorem Sound.compresses {P : DataPiece → Prop} {next : Image} {l : Label} {c : Nat} (sound : Sound P s)
    (compresses : Compresses ⟨s, l, next⟩ c) : c < s.bd.count ∧ (s.bd.chunk c).state = .assigned := by
  obtain ⟨t, _, here, _⟩ := compresses
  obtain ⟨_, inside, _, state⟩ := sound.working here rfl
  exact ⟨inside, state⟩

theorem Compresses.only {e : Event Image Label} {c d : Nat} (first : Compresses e c) (also : Compresses e d) :
    d = c := by
  obtain ⟨t, own, here, _⟩ := first
  obtain ⟨u, own', here', _⟩ := also
  rw [own] at own'
  cases own'
  rw [here] at here'
  cases here'
  rfl

/- Each chunk is compressed once, so that every run tells of each whether there was a
buffer. -/
theorem agreesSome (run : Run (Step o) (init compressBlocks compressFragments size) trace s)
    (clean : Obeys Clean trace) : ∃ buffered, ∀ e ∈ trace, Agrees o buffered e := by
  have told := Run.history (I := fun trace s => Sound (fun _ => True) s ∧
    (∀ e ∈ trace, ∀ c, Compresses e c → c < s.bd.count ∧ 4 ≤ (s.bd.chunk c).state.value) ∧
    ∃ buffered, ∀ e ∈ trace, Agrees o buffered e)
    ⟨initSound compressBlocks compressFragments size, by simp, fun _ => true, by simp⟩ ?_ run clean
  · exact told.2.2
  intro trace s l next ⟨sound, past, buffered, agrees⟩ allowed taken
  have undisturbed : Undisturbed (fun _ => True) s l := by
    cases l <;> trivial
  have extended := sound.chain taken.2
  have passed (e) (member : e ∈ trace ++ [⟨s, l, next⟩]) (c) (compresses : Compresses e c) :
      c < next.bd.count ∧ 4 ≤ (next.bd.chunk c).state.value := by
    have count := extended.count
    rcases List.mem_append.mp member with old | new
    · obtain ⟨inside, high⟩ := past e old c compresses
      exact ⟨by omega, high.trans (extended.rank c inside)⟩
    · cases List.mem_singleton.mp new
      obtain ⟨inside, state⟩ := sound.compresses compresses
      obtain ⟨_, result⟩ := compresses.result taken.2
      have advance : Advance s.bd next.bd c := compressEndAdvances inside state result
      have rank := advance.rank
      rw [state] at rank
      exact ⟨by omega, rank⟩
  refine ⟨sound.step undisturbed taken.2, passed, ?_⟩
  by_cases now : ∃ c, Compresses ⟨s, l, next⟩ c
  · obtain ⟨c, compresses⟩ := now
    obtain ⟨allocated, result⟩ := compresses.result taken.2
    refine ⟨Function.update buffered c allocated, fun e member d also => ?_⟩
    rcases List.mem_append.mp member with old | new
    · have other : d ≠ c := by
        rintro rfl
        have high := (past e old d also).2
        rw [(sound.compresses compresses).2] at high
        exact absurd high (by decide)
      rw [Function.update_of_ne other]
      exact agrees e old d also
    · cases List.mem_singleton.mp new
      obtain rfl := compresses.only also
      rw [Function.update_self]
      exact result
  · refine ⟨buffered, fun e member d also => ?_⟩
    rcases List.mem_append.mp member with old | new
    · exact agrees e old d also
    · cases List.mem_singleton.mp new
      exact absurd ⟨d, also⟩ now

/- The block is made as with a buffer for it: malloc gives one, or its failure makes no
difference. -/
def Buffered (o : ImageConfig) (e : Event Image Label) : Prop := Agrees o (fun _ => true) e

theorem storeUnbuffered {compressing : Bool} {compress : Bool → Bytes → Option Bytes} {before dst : ImageBlock}
    {src : Bytes} (ok : imageBlockStore compressing compress false before src = .ok (some dst)) :
    compress false src = some [] := by
  unfold imageBlockStore imageBlockCompress imageBlockUncompressed at ok
  cases compressing <;> simp only [Bool.false_eq_true, if_false, if_true, Bool.not_false] at ok
  · split at ok <;> cases ok
  · split at ok
    · cases ok
    · split at ok
      · rename_i z answer
        split at ok
        · rename_i empty
          have nothing : z = [] := by simpa using empty
          rw [answer, nothing]
        · cases ok
      · cases ok

/- Only a compressor that answers 0 to the null pointer goes on without a buffer. -/
theorem bufferedStep (never : ∀ src, o.compress false src ≠ some []) {next : Image} {l : Label}
    (taken : Step o s l next) : Buffered o ⟨s, l, next⟩ := by
  intro c compresses
  obtain ⟨allocated, result⟩ := Compresses.result compresses taken.2
  cases allocated with
  | true => exact result
  | false =>
    unfold compressEnd at result
    split at result
    · obtain ⟨_, _, rest⟩ := bindOk result
      obtain ⟨made, stored, rest⟩ := bindOk rest
      cases made with
      | none => exact absurd (congrArg Prod.snd (Except.ok.inj rest)) Bool.false_ne_true
      | some dst => exact absurd (storeUnbuffered stored) (never _)
    · obtain ⟨_, _, rest⟩ := bindOk result
      obtain ⟨_, _, rest⟩ := bindOk rest
      obtain ⟨made, stored, rest⟩ := bindOk rest
      cases made with
      | none => exact absurd (congrArg Prod.snd (Except.ok.inj rest)) Bool.false_ne_true
      | some dst => exact absurd (storeUnbuffered stored) (never _)

theorem bufferedUnlessNothing (never : ∀ src, o.compress false src ≠ some [])
    (run : Run (Step o) (init compressBlocks compressFragments size) trace s) : ∀ e ∈ trace, Buffered o e := by
  intro e member
  obtain ⟨_, _, _, _, taken⟩ := run.reaches member
  exact bufferedStep never taken

theorem scheduleIndependent (run : Run (Step o) (init compressBlocks compressFragments size) trace s)
    (clean : Obeys Clean trace) (buffered : ∀ e ∈ trace, Buffered o e) (sealed : Label.seal ∈ labels trace)
    (done : s.bd.finished = s.bd.count) :
    Realizes s (Plan.sequential (o.rule (fun _ => true) compressBlocks compressFragments) size
      (submitted (labels trace))) :=
  planRealized run clean buffered sealed done

end

/- The block and the piece, handled by two threads. -/
theorem pairRealized : ∃ (o : ImageConfig) (trace : List (Event Image Label)) (s : Image),
    Run (Step o) (init true true 96) trace s ∧ s.bd.count = 3 ∧
      s.written = [(96, [1, 2, 3]), (99, [7])] ∧
      Realizes s (Plan.sequential (o.rule (fun _ => true) true true) 96 (submitted (labels trace))) := by
  obtain ⟨trace, s, run, clean, sealed, _, done⟩ := pairRun []
  exact ⟨_, trace, s, run, done.count, done.written, scheduleIndependent run clean
    (bufferedUnlessNothing (fun _ => by simp [pairConfig]) run) sealed (done.finished.trans done.count.symm)⟩

/- liblzma finds nothing to gain, and takes a null pointer for an error of its caller. -/
def lzmaStores (allocated : Bool) (src : Bytes) : Option Bytes :=
  lzmaCompress .little lzmaOk (if allocated then lzmaOk else lzmaProgError) [] src

/- The buffer for one full block cannot be allocated: the block is kept without its bytes,
and no error is flagged. -/
theorem lostWithoutBuffer : ∃ (o : ImageConfig) (trace : List (Event Image Label)) (s : Image),
    o.compress = lzmaStores ∧ Run (Step o) (init true true 96) trace s ∧ Obeys Clean trace ∧
      Label.seal ∈ labels trace ∧ s.bd.finished = s.bd.count ∧ s.written = [(96, [])] ∧
      ¬ Realizes s (Plan.sequential (o.rule (fun _ => true) true true) 96 (submitted (labels trace))) := by
  let o : ImageConfig := ⟨3, lzmaStores, [], false⟩
  have submitted : Run (Step o) (init true true 96) _ _ :=
    .move .start ⟨rfl, @Move.submit _ _ .fullBlock ⟨[1, 2, 3], 3, 0⟩ _ ⟨rfl, rfl⟩ rfl (by simp)
      (.idle fun t => by simp [init])⟩
  have entered := (submitted.move ⟨rfl, .setRoot ⟨rfl, rfl⟩ rfl rfl⟩).move ⟨rfl, .enter ⟨rfl, rfl⟩ rfl⟩
  have needed := (entered.move ⟨rfl, .rootFound rfl rfl⟩).move ⟨rfl, .sealNeeded rfl rfl rfl⟩
  have sealed := needed.move
    ⟨rfl, .closingQueued rfl rfl (.idle fun t => by simp [init]) (.idle fun t => by simp [init])⟩
  have locked := (sealed.move ⟨rfl, .sealedAgain rfl rfl rfl⟩).move ⟨rfl, .locked (t := 0) rfl rfl⟩
  -- the full block
  have read₀ := ((locked.move ⟨rfl, .pop (t := 0) rfl rfl⟩).move
    ⟨rfl, @Move.released _ _ 0 _ _ true _ _ _ rfl rfl⟩).move ⟨rfl, .read (t := 0) rfl rfl rfl⟩
  have deduplicated₀ := (read₀.move ⟨rfl, .pop (t := 0) rfl rfl⟩).move
    ⟨rfl, @Move.again _ _ 0 _ _ true _ _ rfl rfl⟩
  have assigned₀ := (deduplicated₀.move ⟨rfl, .pop (t := 0) rfl rfl⟩).move
    ⟨rfl, @Move.again _ _ 0 _ _ true _ _ rfl rfl⟩
  have compressed₀ := ((assigned₀.move ⟨rfl, .pop (t := 0) rfl rfl⟩).move
    ⟨rfl, @Move.released _ _ 0 _ _ true _ _ _ rfl rfl⟩).move
    ⟨rfl, @Move.compressed _ _ 0 _ false _ rfl rfl rfl⟩
  have finished₀ := ((compressed₀.move ⟨rfl, .pop (t := 0) rfl rfl⟩).move
    ⟨rfl, @Move.released _ _ 0 _ _ true _ _ _ rfl rfl⟩).move ⟨rfl, .written (t := 0) rfl rfl rfl⟩
  -- the closing piece
  have read₁ := (finished₀.move ⟨rfl, .pop (t := 0) rfl rfl⟩).move
    ⟨rfl, @Move.again _ _ 0 _ _ true _ _ rfl rfl⟩
  have deduplicated₁ := (read₁.move ⟨rfl, .pop (t := 0) rfl rfl⟩).move
    ⟨rfl, @Move.again _ _ 0 _ _ true _ _ rfl rfl⟩
  have assigned₁ := (deduplicated₁.move ⟨rfl, .pop (t := 0) rfl rfl⟩).move
    ⟨rfl, @Move.again _ _ 0 _ _ true _ _ rfl rfl⟩
  have finished₁ := (assigned₁.move ⟨rfl, .pop (t := 0) rfl rfl⟩).move
    ⟨rfl, @Move.again _ _ 0 _ _ true _ _ rfl rfl⟩
  refine ⟨o, _, _, rfl, finished₁, by simp [Obeys, Clean]; rfl, by simp [labels], rfl, rfl, fun realizes => ?_⟩
  have size := realizes.size
  exact absurd size (by decide)

end Image
end Libsqfs
