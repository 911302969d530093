import Libsqfs.PipelineFragments
import Libsqfs.PipelineTermination

/-! What the threads can come to when nothing fails: from any state that a run without
error reaches, the chunks can all be finished. -/
namespace Libsqfs

namespace Plan

theorem currentSome {r : Rule} {size n : Nat} {item : Nat → Item} {content : Bytes}
    (some : ∀ c, c < n → (item c).kind = .fragmentPiece → 0 < (item c).data.pread.length)
    (current : (upTo r size item n).current = .some content) : 0 < content.length := by
  induction n generalizing content with
  | zero => cases current
  | succ n ih =>
    have before : (upTo r size item n).current = .some content → 0 < content.length :=
      ih fun c below => some c (Nat.lt_succ_of_lt below)
    rw [upTo] at current
    cases kind : (item n).kind with
    | fullBlock =>
      rw [(stepFull kind).2.1] at current
      exact before current
    | fragmentPiece =>
      rw [stepPiece kind, add] at current
      have own := some n (Nat.lt_succ_self n) kind
      rw [← Option.some.inj current, List.length_append]
      omega
    | closingPiece =>
      rw [(stepClosing kind).2.1] at current
      cases current

end Plan

namespace Image
open Bulkdata Transition

/- The source has what is to be read of it, and that is something. -/
def Given (p : DataPiece) : Prop := p.size ≠ 0 ∧ p.pread.length = p.size

section
variable {r : Rule} {first limit : Nat} {compress : Bool → Bytes → Option Bytes} {buffered : Nat → Bool}
  {s : Image} {t c : Nat} {q : Workq} {o : ImageConfig}

theorem assertOk {p : Prop} [Decidable p] (holds : p) : assert p = .ok () := if_pos holds

theorem Follows.targetFound (follows : Follows r first compress buffered limit s) (inside : c < s.bd.count) :
    ∃ target, s.bd.target c = .ok target := by
  unfold target
  split
  · exact ⟨_, rfl⟩
  · rename_i piece
    split
    · rename_i flag
      rw [(follows.packed.holds c inside).flushed ⟨piece, flag⟩]
      exact ⟨_, rfl⟩
    · exact ⟨_, rfl⟩

theorem finishOk (prev : s.bd.PrevFinished c) : ∃ result, s.bd.chunkMarkFinished c = .ok result := by
  rw [chunkMarkFinished, assertOk prev]
  exact ⟨_, rfl⟩

/- With memory for a new block, where the piece needs one. -/
theorem pieceAssigns (follows : Follows r first compress buffered limit s) (inside : c < s.bd.count)
    (kind : (s.bd.chunk c).kind = .fragmentPiece) (state : (s.bd.chunk c).state = .deduplicated)
    (assigned : ∀ p, (s.bd.chunk c).prevPiece = some p → ChunkState.assigned.value ≤ (s.bd.chunk p).state.value) :
    ∃ bd all, stage o true s.bd s.size .assignq c = .ok (.again bd all) := by
  simp only [stage, kind, fragmentPieceAssign, assertOk state, previousBlock, fragmentBlockCreate, if_true]
  cases prev : (s.bd.chunk c).prevPiece with
  | none => exact ⟨_, _, rfl⟩
  | some p =>
    have last := follows.packed.chained.prev c inside (by rw [kind]; simp)
    rw [prev] at last
    obtain ⟨before, piece, _⟩ := last
    have own : (s.bd.chunk p).kind = .fragmentPiece := by
      cases other : (s.bd.chunk p).kind with
      | fragmentPiece => rfl
      | fullBlock => exact absurd other piece
      | closingPiece =>
        have := follows.packed.chained.capped p (by omega) other
        omega
    have placed := (follows.packed.holds p (by omega)).piece own (assigned p prev)
    simp only [placed.1, deref, bind, Except.bind]
    by_cases full : o.blockSize < (s.bd.fragmentBlock ((s.bd.plan r first p).flushFor r (s.bd.item p)).room.1).size +
        (s.bd.chunk c).data.size
    · rw [if_pos full]
      exact ⟨_, _, rfl⟩
    · rw [if_neg full]
      exact ⟨_, _, rfl⟩

theorem stageSucceeds (sound : Sound Given s) (follows : Follows r first compress buffered limit s)
    (here : s.pc t = .popped q c) : (∃ bd all, stage o true s.bd s.size q c = .ok (.again bd all)) ∨
      ∃ bd size pc, stage o true s.bd s.size q c = .ok (.released bd size pc) := by
  obtain ⟨_, inside, ready, state⟩ := sound.working here rfl
  have holds := follows.packed.holds c inside
  cases q with
  | readq =>
    have state : (s.bd.chunk c).state = .none := state
    cases kind : (s.bd.chunk c).kind with
    | closingPiece =>
      simp only [stage, kind]
      exact .inl ⟨_, _, rfl⟩
    | fullBlock | fragmentPiece =>
      have some := (sound.chunks.fits c inside (by rw [kind]; simp)).1
      simp only [stage, kind, chunkDoReadStart, assertOk state, assertOk some]
      exact .inr ⟨_, _, _, rfl⟩
  | dedupq =>
    have state : (s.bd.chunk c).state = .read := state
    cases kind : (s.bd.chunk c).kind with
    | fullBlock =>
      simp only [stage, kind, chunkDoDeduplicate, assertOk state]
      exact .inl ⟨_, _, rfl⟩
    | fragmentPiece | closingPiece =>
      simp only [stage, kind, fragmentPieceDeduplicate, assertOk state]
      refine .inl ?_
      simp only [bind, Except.bind]
      split <;> exact ⟨_, _, rfl⟩
  | assignq =>
    have state : (s.bd.chunk c).state = .deduplicated := state
    cases kind : (s.bd.chunk c).kind with
    | fullBlock =>
      simp only [stage, kind, chunkDoAssign, assertOk state]
      exact .inl ⟨_, _, rfl⟩
    | closingPiece =>
      simp only [stage, kind, closingPieceAssign, assertOk state]
      exact .inl ⟨_, _, rfl⟩
    | fragmentPiece => exact .inl (pieceAssigns follows inside kind state (ready.2.1 state))
  | compressq =>
    have state : (s.bd.chunk c).state = .assigned := state
    refine .inr ?_
    cases kind : (s.bd.chunk c).kind with
    | fullBlock =>
      simp only [stage, kind, fullBlockCompressStart, assertOk state]
      exact ⟨_, _, _, rfl⟩
    | fragmentPiece | closingPiece =>
      have piece : (s.bd.chunk c).kind ≠ .fullBlock := by rw [kind]; simp
      have flag := sound.chunks.flushes c inside piece state
      simp only [stage, kind, fragmentPieceCompressStart, assertOk state, assertOk flag, holds.flushed ⟨piece, flag⟩]
      exact ⟨_, _, _, rfl⟩
  | writeq =>
    have state : (s.bd.chunk c).state = .writable := state
    obtain ⟨target, found⟩ := follows.targetFound inside
    simp only [stage, assertOk state, found]
    cases target with
    | some t => exact .inr ⟨_, _, _, rfl⟩
    | none =>
      obtain ⟨result, done⟩ := finishOk (ready.2.2 state)
      rw [done]
      exact .inl ⟨_, _, rfl⟩

theorem storeSucceeds {src : Bytes} (some : 0 < src.length) (compressing : Bool) (before : ImageBlock) :
    ∃ dst, imageBlockStore compressing compress true before src = .ok (.some dst) := by
  have long : src.length ≠ 0 := by omega
  unfold imageBlockStore imageBlockCompress imageBlockUncompressed
  cases compressing with
  | false =>
    rw [if_neg Bool.false_ne_true, if_neg long]
    exact ⟨_, rfl⟩
  | true =>
    rw [if_pos rfl, if_neg long]
    cases compress true src <;> exact ⟨_, rfl⟩

theorem copySucceeds {bd : Bulkdata} {pieces : List Nat}
    (cached : ∀ p ∈ pieces, (bd.chunk p).cachedData = some (bd.chunk p).data.pread) :
    bd.copyPieces pieces = .ok (pieces.map fun p => (bd.chunk p).data.pread).flatten := by
  induction pieces with
  | nil => rfl
  | cons p rest ih =>
    have others := ih fun p member => cached p (List.mem_cons_of_mem _ member)
    simp only [copyPieces, cached p List.mem_cons_self, others]
    rfl

theorem givenItem (sound : Sound Given s) (inside : c < s.bd.count) (kind : (s.bd.item c).kind = .fragmentPiece) :
    0 < (s.bd.item c).data.pread.length := by
  have piece : (s.bd.chunk c).kind ≠ .closingPiece := by
    rw [show (s.bd.chunk c).kind = .fragmentPiece from kind]
    simp
  obtain ⟨some, whole⟩ := sound.chunks.fits c inside piece
  change 0 < (s.bd.chunk c).data.pread.length
  omega

theorem compressSucceeds (sound : Sound Given s) (follows : Follows r first compress buffered limit s)
    (here : s.pc t = .compressing c) : ∃ bd, compressEnd o true s.bd c = .ok (bd, true) := by
  obtain ⟨_, inside, _, doing⟩ := sound.working here rfl
  have state : (s.bd.chunk c).state = .assigned := doing
  have holds := follows.packed.holds c inside
  unfold compressEnd
  split
  · rename_i kind
    obtain ⟨some, whole⟩ := sound.chunks.fits c inside (by rw [kind]; simp)
    have cached := holds.cached kind (by rw [state]; decide) (by rw [state]; decide)
    obtain ⟨dst, made⟩ := @storeSucceeds o.compress (s.bd.chunk c).data.pread (by omega) s.bd.compressBlocks (s.bd.chunk c).dst
    simp only [fullBlockCompressEnd, cached, deref, bind, Except.bind, made]
    exact ⟨_, rfl⟩
  · rename_i piece
    have piece : (s.bd.chunk c).kind ≠ .fullBlock := piece
    have flusher : s.bd.Flusher c := ⟨piece, sound.chunks.flushes c inside piece state⟩
    have flushed := holds.flushed flusher
    obtain ⟨_, ⟨content, current, same⟩, members⟩ := follows.packed.flushContent inside state flusher flushed
    have copied := @copySucceeds s.bd _ fun p member => (members p member).2.2.2
    have some : 0 < content.length :=
      Plan.currentSome (fun d below kind => givenItem sound (by omega) kind) current
    rw [same] at copied
    obtain ⟨dst, made⟩ := @storeSucceeds o.compress content some s.bd.compressFragments
      (s.bd.fragmentBlock (s.bd.plan r first c).contents.length).dst
    simp only [fragmentPieceCompressEnd, flushed, copied, bind, Except.bind, freePieces, made]
    exact ⟨_, rfl⟩

/- Who is about to write has an image block to write. -/
def Aims (r : Rule) (first : Nat) (s : Image) : Prop :=
  ∀ t c, s.pc t = .writing c → (s.bd.plan r first c).output r (s.bd.item c) ≠ none

theorem Woken.origin {pc : Nat → Pc} {p x : Pc} {u : Nat} (woken : Woken s.pc pc) (other : p ≠ x) (place : x ≠ .locking)
    (here : Function.update pc u p t = x) : s.pc t = x := by
  by_cases own : t = u
  · rw [own, Function.update_self] at here
    exact absurd here other
  · rw [Function.update_of_ne own] at here
    rcases woken t with same | ⟨_, now⟩
    · rw [← same, here]
    · exact absurd (here.symm.trans now) place

theorem Aims.step {next : Image} {l : Label} (aims : Aims r first s) (sound : Sound Given s)
    (follows : Follows r first o.compress buffered limit s) (block : r.blockSize = o.blockSize) (move : Move o s l next) :
    Aims r first next := by
  intro t c here
  have extended := sound.chain move
  have kept (was : s.pc t = .writing c) : (next.bd.plan r first c).output r (next.bd.item c) ≠ none := by
    obtain ⟨_, inside, _, _⟩ := sound.working was rfl
    rw [extended.plan inside.le, extended.old c inside]
    exact aims t c was
  cases move with
  | submit free unlocked own signal =>
    rcases signalWoken signal t with same | ⟨_, now⟩
    · exact kept (same.symm.trans here)
    · exact absurd (now.symm.trans here) (by simp)
  | closingQueued api unlocked one two =>
    rcases ((signalWoken one).trans (signalWoken two)) t with same | ⟨_, now⟩
    · exact kept (same.symm.trans here)
    · exact absurd (now.symm.trans here) (by simp)
  | closingQueuedAgain api unlocked one two =>
    exact kept (((signalWoken one).trans (signalWoken two)).origin (by simp) (by simp) here)
  | setRoot | enter | refuse | rootFound | sealNeeded | sealed | closingFails | later | truncateFails | conclude | returns
  | stageFault | compressFault | writeFault => exact kept here
  | again | written => exact kept ((broadcastWoken _ _).origin (by simp) (by simp) here)
  | abort => exact kept ((broadcastWoken s.pc true).origin (by split <;> simp) (by simp) here)
  | @released u q d allocated bd size pc popped result =>
    obtain ⟨_, inside, ready, state⟩ := sound.working popped rfl
    by_cases own : t = u
    · subst own
      simp only [goto, Function.update_self] at here
      rcases stageReaches follows.packed block inside state ready result with
        ⟨_, _, elsewhere⟩ | ⟨target, rfl, rfl, found, _, _⟩
      · exact absurd here (elsewhere c)
      · obtain rfl := Pc.writing.inj here
        obtain ⟨z, output, _⟩ := (follows.packed.holds d inside).stored (by
          rw [show (s.bd.chunk d).state = .writable from state]
          decide) target found
        rw [extended.plan inside.le, extended.old d inside, output]
        simp
    · simp only [goto, Function.update_of_ne own] at here
      exact kept here
  | _ => exact kept ((Woken.refl s.pc).origin (by simp) (by simp) here)

theorem writeSucceeds {P : DataPiece → Prop} (sound : Sound P s) (follows : Follows r first compress buffered limit s)
    (aims : Aims r first s) (here : s.pc t = .writing c) : ∃ result, writeEnd s.bd c = .ok result := by
  obtain ⟨_, inside, ready, _⟩ := sound.working here rfl
  obtain ⟨own, state⟩ := sound.writer here
  obtain ⟨target, found⟩ := follows.targetFound inside
  cases target with
  | none => exact absurd (follows.plain inside state found) (aims t c here)
  | some target =>
    obtain ⟨z, _, _, _, data, offset⟩ := (follows.packed.holds c inside).stored (by rw [state]; decide) target found
    have claimed := follows.writing t c here
    have prev : (s.bd.setBlock c {s.bd.block c target with data := none} target).PrevFinished c :=
      ((sameSetBlock s.bd c _ target).prevFinished c).mpr (ready.2.2 state)
    have place := offset (show c < limit by omega)
    simp only [place] at prev
    simp only [writeEnd, found, place, data state, deref, bind, Except.bind, chunkMarkFinished, assertOk prev]
    exact ⟨_, rfl⟩

/-! ### On to the end -/

/- Nothing has failed so far, and nothing more is to be added. -/
structure Willing (n : Nat) (r : Rule) (first : Nat) (o : ImageConfig) (s : Image) : Prop where
  fit : Fit n s
  sound : Sound Given s
  follows : ∃ limit, Follows r first o.compress (fun _ => true) limit s
  aims : Aims r first s
  closed : s.bd.mayAddChunks = false
  alive : s.fault = none
  quiet : ∀ t c, s.pc t ≠ .flagging c

theorem bufferedElsewhere {next : Image} {p : Pc} (here : s.pc t = p) (other : ∀ c, p ≠ .compressing c) :
    Buffered o ⟨s, .thread t, next⟩ := by
  rintro c ⟨u, own, before, _⟩
  cases own
  exact absurd (here.symm.trans before) (other c)

/- Some thread goes on, with memory and without an error. -/
def Proceeds (o : ImageConfig) (s : Image) : Prop :=
  ∃ t next, s.AtWork (.thread t) ∧ Step o s (.thread t) next ∧ next.fault = none ∧ (∀ u c, next.pc u ≠ .flagging c) ∧
    Buffered o ⟨s, .thread t, next⟩

theorem Willing.goes {n : Nat} {next : Image} {p x : Pc} {pc : Nat → Pc} (willing : Willing n r first o s)
    (work : s.AtWork (.thread t)) (here : s.pc t = x) (move : Move o s (.thread t) next) (same : next.fault = s.fault)
    (pcs : next.pc = Function.update pc t p) (woken : Woken s.pc pc) (calm : ∀ c, p ≠ .flagging c)
    (other : ∀ c, x ≠ .compressing c) : Proceeds o s := by
  refine ⟨t, next, work, ⟨willing.alive, move⟩, same.trans willing.alive, fun u c flagging => ?_,
    bufferedElsewhere here other⟩
  rw [pcs] at flagging
  exact willing.quiet u c (woken.origin (calm c) (by simp) flagging)

/- The thread that has the lock. -/
theorem Willing.holder {n : Nat} (willing : Willing n r first o s) (lock : s.lock = some t) : Proceeds o s := by
  obtain ⟨limit, follows⟩ := willing.follows
  rcases (willing.fit.locked t).mp lock with here | ⟨q, c, here⟩
  · have work : s.AtWork (.thread t) := .inl (by rw [here]; trivial)
    cases popped : s.bd.popNext with
    | some popped' =>
      obtain ⟨q, c, bd⟩ := popped'
      exact willing.goes work here (.pop here popped) rfl rfl (.refl _) (by simp) (by simp)
    | none =>
      by_cases leaves : s.bd.Leaves
      · exact willing.goes work here (.leave here popped leaves) rfl rfl (.refl _) (by simp) (by simp)
      · exact willing.goes work here (.wait here popped leaves) rfl rfl (.refl _) (by simp) (by simp)
  · have work : s.AtWork (.thread t) := .inl (by rw [here]; trivial)
    rcases stageSucceeds (o := o) willing.sound follows here with ⟨bd, all, result⟩ | ⟨bd, size, pc, result⟩
    · exact willing.goes work here (.again here result) rfl rfl (broadcastWoken _ _) (by simp) (by simp)
    · refine willing.goes work here (.released here result) rfl rfl (.refl _) ?_ (by simp)
      rcases stageReleased result with rfl | rfl | rfl <;> simp

/- A thread of libsqfs_bulkdata_process while nobody has the lock. -/
theorem Willing.runner {n : Nat} (willing : Willing n r first o s) (unlocked : s.lock = none)
    (running : (s.pc t).Running) : Proceeds o s := by
  obtain ⟨limit, follows⟩ := willing.follows
  have sound := willing.sound
  have work : s.AtWork (.thread t) := .inl running
  have outside : ¬ (s.pc t).Inside := fun inside => by
    rw [(willing.fit.locked t).mpr inside] at unlocked
    cases unlocked
  cases here : s.pc t with
  | opening => exact willing.goes work here (.opened here) rfl rfl (.refl _) (by simp) (by simp)
  | locking => exact willing.goes work here (.locked here unlocked) rfl rfl (.refl _) (by simp) (by simp)
  | loop => exact absurd (.inl here) outside
  | popped q c => exact absurd (.inr ⟨q, c, here⟩) outside
  | reading c =>
    obtain ⟨_, inside, _, doing⟩ := sound.working here rfl
    exact willing.goes work here (.read here unlocked (sound.chunks.fits c inside doing.2).2) rfl rfl (.refl _) (by simp)
      (by simp)
  | writing c =>
    obtain ⟨⟨write, bd, all⟩, result⟩ := writeSucceeds sound follows willing.aims here
    exact willing.goes work here (.written here unlocked result) rfl rfl (broadcastWoken _ _) (by simp) (by simp)
  | compressing c =>
    obtain ⟨bd, result⟩ := compressSucceeds (o := o) sound follows here
    refine ⟨t, _, work, ⟨willing.alive, .compressed here unlocked result⟩, willing.alive, fun u d flagging => ?_, ?_⟩
    · exact willing.quiet u d ((Woken.refl s.pc).origin (by simp) (by simp) flagging)
    · rintro d ⟨u, own, before, _⟩
      cases own
      obtain rfl := Pc.compressing.inj (here.symm.trans before)
      exact result
  | _ =>
    rw [here] at running
    exact running.elim

theorem Willing.works {n : Nat} (willing : Willing n r first o s) (work : ∃ t, s.AtWork (.thread t)) : Proceeds o s := by
  cases lock : s.lock with
  | some t => exact willing.holder lock
  | none =>
    obtain ⟨t, running | ⟨rfl, api⟩⟩ := work
    · exact willing.runner lock running
    · obtain ⟨x, here, other⟩ : ∃ x, s.pc 0 = x ∧ ∀ c, x ≠ .compressing c := by
        rcases willing.sound.calls.apart (by rw [api]; simp) with same | same | same <;> exact ⟨_, same, by simp⟩
      exact willing.goes (.inr ⟨rfl, api⟩) here (.sealedAgain api lock willing.closed) rfl rfl (.refl _) (by simp) other

theorem Willing.step {n : Nat} {next : Image} {l : Label} (willing : Willing n r first o s) (some : 0 < n)
    (block : r.blockSize = o.blockSize) (within : Within n s l) (taken : Step o s l next) (alive : next.fault = none)
    (quiet : ∀ u c, next.pc u ≠ .flagging c) (buffered : Buffered o ⟨s, l, next⟩) : Willing n r first o next := by
  obtain ⟨fit, sound, ⟨limit, follows⟩, aims, closed, _, _⟩ := willing
  have undisturbed : Undisturbed Given s l := by
    cases l with
    | submit => exact absurd (within.1.symm.trans closed) (by simp)
    | abort => exact within.1
    | _ => trivial
  refine ⟨fit.step some within taken, sound.step undisturbed taken.2, ?_, aims.step sound follows block taken.2,
    closedStep fit closed within.1 taken, alive, quiet⟩
  exact (follows.step block sound within.1 taken.2 buffered).resolve_left fun ⟨t, c, here⟩ => quiet t _ here

theorem Willing.finishes {n : Nat} (some : 0 < n) (block : r.blockSize = o.blockSize) (willing : Willing n r first o s) :
    ∃ onward last, Run (Step o) s onward last ∧ Willing n r first o last ∧
      (∀ e ∈ onward, (∃ t, t < n ∧ e.label = .thread t) ∧ e.before.AtWork e.label ∧ Buffered o e) ∧
      ∀ t, ¬ last.AtWork (.thread t) := by
  induction left : effort n s using Nat.strong_induction_on generalizing s with
  | _ left' ih =>
    by_cases work : ∃ t, s.AtWork (.thread t)
    · obtain ⟨t, next, busy, taken, alive, quiet, buffered⟩ := willing.works work
      have below : t < n := by
        by_contra high
        have idle := willing.fit.crew t (by omega)
        rcases busy with running | ⟨rfl, _⟩
        · rw [idle] at running
          exact running
        · omega
      have within : Within n s (.thread t) := ⟨trivial, fun u own => by cases own; exact below⟩
      have spends := effortStep willing.sound willing.fit.healthy willing.closed within.1 within.2 taken
      obtain ⟨onward, last, run, rest, each, done⟩ :=
        ih _ (left ▸ spends.work busy) (willing.step some block within taken alive quiet buffered) rfl
      refine ⟨⟨s, .thread t, next⟩ :: onward, last, ?_, rest, fun e member => ?_, done⟩
      · exact (Run.move .start taken).append run
      · rcases List.mem_cons.mp member with rfl | later
        · exact ⟨⟨t, below, rfl⟩, busy, buffered⟩
        · exact each e later
    · exact ⟨[], s, .start, willing, fun e absent => absurd absent List.not_mem_nil, fun t busy => work ⟨t, busy⟩⟩

end

/- From whatever state a run without error leaves behind the sealing of the image, the threads
that are there can finish every chunk: it only takes sources, memory and a file that do not fail. -/
theorem finishable {o : ImageConfig} {compressBlocks compressFragments : Bool} {size n : Nat}
    {trace : List (Event Image Label)} {s : Image}
    (run : Run (Step o) (init compressBlocks compressFragments size) trace s) (some : 0 < n)
    (within : Obeys (Within n) trace) (buffered : ∀ e ∈ trace, Buffered o e)
    (given : ∀ kind data, .submit kind data ∈ labels trace → Given data) (closed : s.bd.mayAddChunks = false)
    (alive : s.fault = none) (quiet : ∀ t c, s.pc t ≠ .flagging c) :
    ∃ onward last, Run (Step o) s onward last ∧
      (∀ e ∈ onward, (∃ t, t < n ∧ e.label = .thread t) ∧ e.before.AtWork e.label ∧ Buffered o e) ∧
      last.fault = none ∧ last.bd.mayAddChunks = false ∧ last.bd.finished = last.bd.count := by
  have clean : Obeys Clean trace := within.weaken fun _ _ => And.left
  let r := o.rule (fun _ => true) compressBlocks compressFragments
  have fit : Fit n s := Run.invariant (initFit n compressBlocks compressFragments size)
    (fun _ _ _ fit within taken => fit.step some within taken) run within
  have told : Sound Given s ∧ (Erring s ∨ (∃ limit, Follows r size o.compress (fun _ => true) limit s) ∧ Aims r size s) := by
    refine Run.historyEach (I := fun _ s => Sound Given s ∧ (Erring s ∨
      (∃ limit, Follows r size o.compress (fun _ => true) limit s) ∧ Aims r size s))
      (G := fun e => Buffered o e ∧ ∀ kind data, e.label = .submit kind data → Given data)
      ⟨initSound compressBlocks compressFragments size, .inr ⟨⟨0, ?_⟩, fun t c here => by cases here⟩⟩ ?_ run clean
      fun e member => ⟨buffered e member, fun kind data own => given kind data (own ▸ List.mem_map_of_mem member)⟩
    · exact ⟨initPacked _ size compressBlocks compressFragments, ⟨rfl, rfl⟩, Nat.le_refl 0, rfl, rfl,
        fun t c here => (by cases here), fun _ => rfl⟩
    · intro trace s l next ⟨sound, progress⟩ allowed ⟨own, new⟩ taken
      have undisturbed : Undisturbed Given s l := by
        cases l with
        | submit kind data => exact new kind data rfl
        | abort => exact allowed
        | _ => trivial
      refine ⟨sound.step undisturbed taken.2, ?_⟩
      rcases progress with erring | ⟨⟨limit, follows⟩, aims⟩
      · exact .inl (erring.step sound allowed taken.2)
      · refine (follows.step rfl sound allowed taken.2 own).imp_right fun follows' => ⟨follows', ?_⟩
        exact aims.step sound follows rfl taken.2
  obtain ⟨sound, progress⟩ := told
  obtain ⟨follows, aims⟩ := progress.resolve_left fun ⟨t, c, here⟩ => quiet t _ here
  obtain ⟨onward, last, onward', willing, each, idle⟩ :=
    Willing.finishes some rfl ⟨fit, sound, follows, aims, closed, alive, quiet⟩
  have later : Obeys (Within n) onward := fun e member => by
    obtain ⟨⟨t, below, own⟩, _⟩ := each e member
    rw [own]
    exact ⟨trivial, fun u same => by cases same; exact below⟩
  obtain ⟨_, stuck⟩ := workersStop run onward' some (fun e member => (List.mem_append.mp member).elim (within e) (later e))
    closed
  refine ⟨onward, last, onward', each, willing.alive, willing.closed, ?_⟩
  rcases stuck fun t next busy => absurd busy (idle t) with fault | ⟨t, c, here⟩ | ⟨done, _⟩
  · exact absurd willing.alive fault
  · exact absurd here (willing.quiet t c)
  · exact done

end Image
end Libsqfs
