import Libsqfs.PipelineSound

/-! What the threads still do after an abort. The loop of libsqfs_bulkdata_process
looks at the flag only when it found nothing to do. -/
namespace Libsqfs

def Pc.Operating : Pc → Prop
  | .popped .. | .reading _ | .compressing _ | .writing _ => True
  | _ => False

def Pc.Locking : Pc → Prop
  | .loop | .popped .. => True
  | _ => False

namespace Image
open Bulkdata Transition

/- Nobody begins an operation on a chunk, and no space is claimed. -/
def StartsNothing (e : Event Image Label) : Prop :=
  (∀ t, (e.after.pc t).Operating → e.before.pc t = e.after.pc t) ∧ e.after.size = e.before.size

/- The step puts a chunk on a queue. An operation that fails does not. -/
def Queues (e : Event Image Label) : Prop :=
  match e.label with
  | .submit .. | .seal => True
  | .thread t => e.after.pc t = .loop ∧
    match e.before.pc t with
    | .reading _ => True
    | .compressing c => e.before.bd.PrevFinished c
    | .writing c => c + 1 < e.before.bd.count ∧ (e.before.bd.chunk (c + 1)).state = .writable
    | _ => False
  | _ => False

structure Stilled (s : Image) : Prop where
  aborted : s.bd.aborted = true
  empty : ∀ q, s.bd.workq q = []
  idle : ∀ t q c, s.pc t ≠ .popped q c

def Inside (s : Image) : Prop := ∀ t, (s.pc t).Locking → s.lock = some t

section
variable {o : ImageConfig} {bd next : Bulkdata} {c : Nat}

theorem tryWriteoutSame (blocked : ¬ bd.PrevFinished c) : bd.chunkTryWriteout c = bd := by
  simp [chunkTryWriteout, blocked]

theorem tryWriteoutAborted (bd : Bulkdata) (c : Nat) : (bd.chunkTryWriteout c).aborted = bd.aborted := by
  unfold chunkTryWriteout
  split
  · rfl
  · split <;> rfl

theorem prevFinishedCongr (states : ∀ d, d ≠ c → (next.chunk d).state = (bd.chunk d).state) :
    next.PrevFinished c ↔ bd.PrevFinished c := by
  unfold PrevFinished
  cases c with
  | zero => simp
  | succ n => simp [states n (by omega)]

/- A chunk that was compressed is queued only when its turn to be written has come. -/
theorem compressEndQueues {allocated done : Bool} (ok : compressEnd o allocated bd c = .ok (next, done)) :
    next.aborted = bd.aborted ∧ (done = true → ¬ bd.PrevFinished c → next.workq = bd.workq) ∧
      (done = false → next.workq = bd.workq) := by
  unfold compressEnd at ok
  split at ok
  · obtain ⟨src, _, rest⟩ := bindOk ok
    obtain ⟨dst?, _, rest⟩ := bindOk rest
    cases dst? with
    | none =>
      cases rest
      exact ⟨rfl, nofun, fun _ => rfl⟩
    | some dst =>
      cases rest
      refine ⟨tryWriteoutAborted .., fun _ blocked => ?_, nofun⟩
      rw [tryWriteoutSame fun turn => blocked ((prevFinishedCongr fun d other => by
        simp [Bulkdata.set, Function.update_of_ne other]).mp turn)]
      rfl
  · obtain ⟨f, _, rest⟩ := bindOk ok
    obtain ⟨buffer, _, rest⟩ := bindOk rest
    obtain ⟨dst?, _, rest⟩ := bindOk rest
    cases dst? with
    | none =>
      cases rest
      exact ⟨rfl, nofun, fun _ => rfl⟩
    | some dst =>
      cases rest
      refine ⟨tryWriteoutAborted .., fun _ blocked => ?_, nofun⟩
      rw [tryWriteoutSame fun turn => blocked ((prevFinishedCongr fun d other => by
        simp only [setState, Bulkdata.set, Function.update_of_ne other, setFragmentBlock, freePieces]
        split <;> rfl).mp turn)]
      rfl

theorem finishQueues {mid : Bulkdata} (aborted : mid.aborted = bd.aborted) (workq : mid.workq = bd.workq)
    (count : mid.count = bd.count) (state : (mid.chunk (c + 1)).state = (bd.chunk (c + 1)).state) :
    ((mid.setState c .finished).pushNextWritable c).aborted = bd.aborted ∧
      (¬ (c + 1 < bd.count ∧ (bd.chunk (c + 1)).state = .writable) →
        ((mid.setState c .finished).pushNextWritable c).workq = bd.workq) := by
  have later : ((mid.setState c .finished).chunk (c + 1)).state = (bd.chunk (c + 1)).state := by
    simp [setState, Bulkdata.set, state]
  unfold pushNextWritable
  split
  · rename_i turn
    rw [later] at turn
    exact ⟨aborted, fun other => absurd ⟨count ▸ turn.1, turn.2⟩ other⟩
  · exact ⟨aborted, fun _ => workq⟩

theorem writeEndQueues {write : Medium.Write} {all : Bool} (ok : writeEnd bd c = .ok (write, next, all)) :
    next.aborted = bd.aborted ∧
      (¬ (c + 1 < bd.count ∧ (bd.chunk (c + 1)).state = .writable) → next.workq = bd.workq) := by
  obtain ⟨t?, _, rest⟩ := bindOk ok
  obtain ⟨t, _, rest⟩ := bindOk rest
  obtain ⟨offset, _, rest⟩ := bindOk rest
  obtain ⟨data, _, rest⟩ := bindOk rest
  obtain ⟨⟨bd', all'⟩, done, rest⟩ := bindOk rest
  cases rest
  obtain ⟨_, _, rest⟩ := bindOk done
  cases rest
  cases t with
  | own => exact finishQueues rfl rfl rfl (by simp [setBlock, Bulkdata.set])
  | fragment f => exact finishQueues rfl rfl rfl rfl

end

section
variable {o : ImageConfig} {s next : Image} {l : Label} {t : Nat} {p : Pc} {pc : Nat → Pc}

theorem signalWake {pc pc' : Nat → Pc} (woken : Woken pc pc') {u : Nat} (operating : (pc' u).Operating) :
    pc u = pc' u := by
  rcases woken u with same | ⟨_, now⟩
  · exact same.symm
  · rw [now] at operating
    exact operating.elim

theorem startsUpdate (woken : Woken s.pc pc) (pcs : next.pc = Function.update pc t p) (rest : ¬ p.Operating)
    (size : next.size = s.size) : StartsNothing ⟨s, l, next⟩ := by
  refine ⟨fun u operating => ?_, size⟩
  simp only [pcs] at operating ⊢
  by_cases own : u = t
  · subst own
    rw [Function.update_self] at operating
    exact absurd operating rest
  · rw [Function.update_of_ne own] at operating ⊢
    exact signalWake woken operating

theorem abortLeaves (c : Option Nat) : ¬ (if c = none then Pc.out else Pc.failed).Operating := by
  split <;> exact id

theorem startsWoken (woken : Woken s.pc next.pc) (size : next.size = s.size) : StartsNothing ⟨s, l, next⟩ :=
  ⟨fun _ operating => signalWake woken operating, size⟩

theorem Stilled.onward (stilled : Stilled s) (aborted : next.bd.aborted = true)
    (empty : ∀ q, next.bd.workq q = []) (starts : StartsNothing ⟨s, l, next⟩) :
    Stilled next ∧ StartsNothing ⟨s, l, next⟩ := by
  refine ⟨⟨aborted, empty, fun t q c here => ?_⟩, starts⟩
  have before := starts.1 t (by simp only [here]; trivial)
  exact stilled.idle t q c (before.trans here)

theorem Stilled.kept (stilled : Stilled s) (aborted : next.bd.aborted = s.bd.aborted)
    (same : next.bd.workq = s.bd.workq) (starts : StartsNothing ⟨s, l, next⟩) :
    Stilled next ∧ StartsNothing ⟨s, l, next⟩ :=
  stilled.onward (aborted.trans stilled.aborted) (fun q => by rw [same]; exact stilled.empty q) starts

theorem Stilled.step (stilled : Stilled s) (move : Move o s l next) (quiet : ¬ Queues ⟨s, l, next⟩) :
    Stilled next ∧ StartsNothing ⟨s, l, next⟩ := by
  cases move with
  | submit => exact absurd trivial quiet
  | closingQueued => exact absurd trivial quiet
  | closingQueuedAgain => exact absurd trivial quiet
  | pop here found =>
    obtain ⟨rest, shape, _⟩ := popSpec found
    rw [stilled.empty] at shape
    cases shape
  | again here => exact absurd here (stilled.idle _ _ _)
  | released here => exact absurd here (stilled.idle _ _ _)
  | outOfMemory here => exact absurd here (stilled.idle _ _ _)
  | stageFault here => exact absurd here (stilled.idle _ _ _)
  | read here => exact absurd ⟨by simp [goto], by simp only [here]⟩ quiet
  | compressed here unlocked result =>
    obtain ⟨aborted, same, _⟩ := compressEndQueues result
    have blocked : ¬ s.bd.PrevFinished _ := fun turn => quiet ⟨by simp [goto], by simp only [here]; exact turn⟩
    exact stilled.kept aborted (same rfl blocked) (startsUpdate (.refl _) rfl id rfl)
  | compressFails here result =>
    obtain ⟨aborted, _, same⟩ := compressEndQueues result
    exact stilled.kept aborted (same rfl) (startsUpdate (.refl _) rfl id rfl)
  | written here unlocked result =>
    obtain ⟨aborted, same⟩ := writeEndQueues result
    have blocked := fun turn => quiet ⟨by simp [goto], by simp only [here]; exact turn⟩
    exact stilled.kept aborted (same blocked) (startsUpdate (broadcastWoken _ _) rfl id rfl)
  | abort here unlocked =>
    exact stilled.onward rfl (fun _ => rfl) (startsUpdate (wakeAllWoken _) rfl (abortLeaves _) rfl)
  | _ =>
    first
    | exact stilled.kept rfl rfl (startsWoken (.refl _) rfl)
    | exact stilled.kept rfl rfl (startsUpdate (.refl _) rfl id rfl)

/-! ### The lock -/

theorem insideSame (inside : Inside s) (woken : Woken s.pc pc) (pcs : next.pc = Function.update pc t p)
    (lock : next.lock = s.lock) (holds : p.Locking → s.lock = some t) : Inside next := by
  intro u locking
  rw [pcs] at locking
  rw [lock]
  by_cases own : u = t
  · subst own
    rw [Function.update_self] at locking
    exact holds locking
  · rw [Function.update_of_ne own] at locking
    rcases woken u with same | ⟨_, now⟩
    · rw [same] at locking
      exact inside u locking
    · rw [now] at locking
      exact locking.elim

theorem insideChanged (inside : Inside s) (woken : Woken s.pc pc) (pcs : next.pc = Function.update pc t p)
    (was : s.lock = none ∨ s.lock = some t) (holds : p.Locking → next.lock = some t) : Inside next := by
  intro u locking
  rw [pcs] at locking
  by_cases own : u = t
  · subst own
    rw [Function.update_self] at locking
    exact holds locking
  · rw [Function.update_of_ne own] at locking
    rcases woken u with same | ⟨_, now⟩
    · rw [same] at locking
      have mine := inside u locking
      rcases was with free | held
      · rw [free] at mine
        cases mine
      · rw [held] at mine
        exact absurd (Option.some.inj mine).symm own
    · rw [now] at locking
      exact locking.elim

theorem insideWoken (inside : Inside s) (woken : Woken s.pc next.pc) (lock : next.lock = s.lock) : Inside next := by
  intro u locking
  rcases woken u with same | ⟨_, now⟩
  · rw [lock]
    exact inside u (same ▸ locking)
  · rw [now] at locking
    exact locking.elim

theorem Inside.step (inside : Inside s) (move : Move o s l next) : Inside next := by
  cases move with
  | submit free unlocked own signal => exact insideWoken inside (signalWoken signal) rfl
  | closingQueued here unlocked first second =>
    exact insideWoken inside ((signalWoken first).trans (signalWoken second)) rfl
  | closingQueuedAgain here unlocked first second =>
    exact insideSame inside ((signalWoken first).trans (signalWoken second)) rfl rfl fun locking => locking.elim
  | locked here unlocked => exact insideChanged inside (.refl _) rfl (.inl unlocked) fun _ => rfl
  | pop here => exact insideSame inside (.refl _) rfl rfl fun _ => inside _ (by rw [here]; trivial)
  | again here => exact insideSame inside (broadcastWoken _ _) rfl rfl fun _ => inside _ (by rw [here]; trivial)
  | released here result =>
    refine insideChanged inside (.refl _) rfl (.inr (inside _ (by rw [here]; trivial))) fun locking => ?_
    rcases stageReleased result with rfl | rfl | rfl <;> exact locking.elim
  | outOfMemory here =>
    exact insideChanged inside (.refl _) rfl (.inr (inside _ (by rw [here]; trivial))) fun locking => locking.elim
  | read here unlocked => exact insideChanged inside (.refl _) rfl (.inl unlocked) fun _ => rfl
  | compressed here unlocked => exact insideChanged inside (.refl _) rfl (.inl unlocked) fun _ => rfl
  | written here unlocked => exact insideChanged inside (broadcastWoken _ _) rfl (.inl unlocked) fun _ => rfl
  | leave here => exact insideChanged inside (.refl _) rfl (.inr (inside _ (by rw [here]; trivial))) fun locking => locking.elim
  | wait here => exact insideChanged inside (.refl _) rfl (.inr (inside _ (by rw [here]; trivial))) fun locking => locking.elim
  | abort here unlocked =>
    refine insideSame inside (wakeAllWoken _) rfl rfl fun locking => ?_
    split at locking <;> exact locking.elim
  | _ =>
    first
    | exact insideWoken inside (.refl _) rfl
    | exact insideSame inside (.refl _) rfl rfl fun locking => locking.elim

/- Nobody is in the middle of the loop when the abort takes the lock. -/
theorem abortStills (inside : Inside s) (move : Move o s (.abort t) next) : Stilled next := by
  cases move with
  | @abort t c here unlocked =>
    refine ⟨rfl, fun _ => rfl, fun u q c' now => ?_⟩
    have before : s.pc u = .popped q c' := by
      have starts := @startsUpdate s ({s with bd := s.bd.abort, pc := wakeAll s.pc}.goto t
        (if c = none then .out else .failed)) (.abort t) t _ _ (wakeAllWoken s.pc) rfl (abortLeaves c) rfl
      exact (starts.1 u (by simp only [now]; trivial)).trans now
    have held := inside u (by rw [before]; trivial)
    rw [unlocked] at held
    cases held

theorem stilledRun {first : Image} {trace : List (Event Image Label)} (stilled : Stilled first)
    (run : Run (Step o) first trace s) (quiet : ∀ e ∈ trace, ¬ Queues e) :
    Stilled s ∧ ∀ e ∈ trace, StartsNothing e := by
  induction run with
  | start => exact ⟨stilled, fun _ member => by cases member⟩
  | move run taken ih =>
    obtain ⟨still, starts⟩ := ih fun e member => quiet e (List.mem_append_left _ member)
    obtain ⟨after, own⟩ := still.step taken.2 (quiet _ (by simp))
    refine ⟨after, fun e member => ?_⟩
    rcases List.mem_append.mp member with old | new
    · exact starts e old
    · rw [List.mem_singleton.mp new]
      exact own

/-! ### A chunk that is queued is popped -/

theorem popsNext {q : Workq} (alive : s.fault = none) (here : s.pc t = .loop) (some : s.bd.workq q ≠ []) :
    ∃ next, Step o s (.thread t) next ∧ ¬ StartsNothing ⟨s, .thread t, next⟩ := by
  cases found : s.bd.popNext with
  | none => exact absurd (popNone found q) some
  | some taken =>
    obtain ⟨r, c, bd⟩ := taken
    refine ⟨_, ⟨alive, .pop here found⟩, fun starts => ?_⟩
    have same := starts.1 t (by simp [goto, Pc.Operating])
    simp [goto, here] at same

theorem compressedQueued {bd bd' : Bulkdata} {c : Nat} {allocated : Bool} (turn : bd.PrevFinished c)
    (ok : compressEnd o allocated bd c = .ok (bd', true)) : bd'.workq .writeq ≠ [] := by
  have queued {mid : Bulkdata} (writable : (mid.chunk c).state = .writable) (turn : mid.PrevFinished c) :
      (mid.chunkTryWriteout c).workq .writeq ≠ [] := by
    simp [chunkTryWriteout, writable, turn, pushFront]
  unfold compressEnd at ok
  split at ok
  · obtain ⟨src, _, rest⟩ := bindOk ok
    obtain ⟨dst?, _, rest⟩ := bindOk rest
    cases dst? with
    | none => cases rest
    | some dst =>
      cases rest
      exact queued (by simp [Bulkdata.set]) ((prevFinishedCongr fun d other => by
        simp [Bulkdata.set, Function.update_of_ne other]).mpr turn)
  · obtain ⟨f, _, rest⟩ := bindOk ok
    obtain ⟨buffer, _, rest⟩ := bindOk rest
    obtain ⟨dst?, _, rest⟩ := bindOk rest
    cases dst? with
    | none => cases rest
    | some dst =>
      cases rest
      exact queued (by simp [setState, Bulkdata.set]) ((prevFinishedCongr fun d other => by
        simp only [setState, Bulkdata.set, Function.update_of_ne other, setFragmentBlock, freePieces]
        split <;> rfl).mpr turn)

theorem writtenQueued {bd bd' : Bulkdata} {c : Nat} {write : Medium.Write} {all : Bool}
    (turn : c + 1 < bd.count ∧ (bd.chunk (c + 1)).state = .writable)
    (ok : writeEnd bd c = .ok (write, bd', all)) : bd'.workq .writeq ≠ [] := by
  have queued {mid : Bulkdata} (count : mid.count = bd.count)
      (state : (mid.chunk (c + 1)).state = (bd.chunk (c + 1)).state) :
      ((mid.setState c .finished).pushNextWritable c).workq .writeq ≠ [] := by
    have next : c + 1 < (mid.setState c .finished).count ∧
        ((mid.setState c .finished).chunk (c + 1)).state = .writable := by
      refine ⟨count ▸ turn.1, ?_⟩
      simp [setState, Bulkdata.set, state, turn.2]
    rw [pushNextWritable, if_pos next]
    simp [pushFront]
  obtain ⟨t?, _, rest⟩ := bindOk ok
  obtain ⟨t, _, rest⟩ := bindOk rest
  obtain ⟨offset, _, rest⟩ := bindOk rest
  obtain ⟨data, _, rest⟩ := bindOk rest
  obtain ⟨⟨bd', all'⟩, done, rest⟩ := bindOk rest
  cases rest
  obtain ⟨_, _, rest⟩ := bindOk done
  cases rest
  cases t with
  | own => exact queued rfl (by simp [setBlock, Bulkdata.set])
  | fragment f => exact queued rfl rfl

def Restarts (o : ImageConfig) (s : Image) : Prop :=
  ∃ more last, Run (Step o) s more last ∧ ∃ e ∈ more, ¬ StartsNothing e

theorem loopRestarts {q : Workq} (alive : s.fault = none) (here : s.pc t = .loop) (some : s.bd.workq q ≠ []) :
    Restarts o s := by
  obtain ⟨next, taken, begins⟩ := @popsNext o s t q alive here some
  exact ⟨_, next, Run.start.move taken, _, List.mem_singleton_self _, begins⟩

theorem Restarts.after (taken : Step o s l next) (restarts : Restarts o next) : Restarts o s := by
  obtain ⟨more, last, run, e, member, begins⟩ := restarts
  exact ⟨_, last, (Run.start.move taken).append run, e, List.mem_append_right _ member, begins⟩

theorem lockingRestarts {q : Workq} (alive : s.fault = none) (here : s.pc t = .locking) (unlocked : s.lock = none)
    (some : s.bd.workq q ≠ []) : Restarts o s := by
  refine Restarts.after ⟨alive, .locked here unlocked⟩ (loopRestarts (t := t) (q := q) alive ?_ some)
  simp [goto]

theorem spareThread {compressBlocks compressFragments : Bool} {size : Nat} {trace : List (Event Image Label)}
    (run : Run (Step o) (init compressBlocks compressFragments size) trace s) :
    ∃ bound, ∀ t, bound ≤ t → s.pc t = .out := by
  have free : Obeys (fun _ _ => True) trace := fun _ _ => trivial
  refine Run.invariant (I := fun s => ∃ bound, ∀ t, bound ≤ t → s.pc t = .out) ⟨0, fun _ _ => rfl⟩ ?_ run free
  intro s l next ⟨bound, out⟩ _ ⟨_, move⟩
  have updated {pc : Nat → Pc} {t : Nat} {p : Pc} (woken : Woken s.pc pc)
      (pcs : next.pc = Function.update pc t p) : ∃ bound, ∀ u, bound ≤ u → next.pc u = .out := by
    refine ⟨max bound (t + 1), fun u above => ?_⟩
    have still := out u (by omega)
    rw [pcs, Function.update_of_ne (by omega)]
    rcases woken u with same | ⟨was, _⟩
    · exact same.trans still
    · rw [still] at was
      cases was
  have unchanged (woken : Woken s.pc next.pc) : ∃ bound, ∀ u, bound ≤ u → next.pc u = .out :=
    @updated next.pc 0 (next.pc 0) woken (Function.update_eq_self ..).symm
  cases move with
  | submit free unlocked own signal => exact unchanged (signalWoken signal)
  | closingQueued here unlocked first second => exact unchanged ((signalWoken first).trans (signalWoken second))
  | closingQueuedAgain here unlocked first second =>
    exact updated ((signalWoken first).trans (signalWoken second)) rfl
  | again | written => exact updated (broadcastWoken _ _) rfl
  | abort => exact updated (wakeAllWoken _) rfl
  | _ =>
    first
    | exact unchanged (.refl _)
    | exact updated (.refl _) rfl

theorem submitQueued (bd : Bulkdata) (kind : ChunkKind) (data : DataPiece) :
    (bd.submit kind data).workq .readq ≠ [] := by
  unfold submit
  split
  · simp [enqueueChunkLocked, pushBack]
  · unfold enqueuePieceLocked
    cases bd.lastPiece <;> simp [enqueueChunkLocked, pushBack, Bulkdata.set]

theorem queuesOperating (queues : Queues ⟨s, .thread t, next⟩) :
    next.pc t = .loop ∧ ∃ c, s.pc t = .reading c ∨ s.pc t = .compressing c ∨ s.pc t = .writing c := by
  obtain ⟨now, was⟩ := queues
  simp only at now was
  cases place : s.pc t with
  | reading c => exact ⟨now, c, .inl rfl⟩
  | compressing c => exact ⟨now, c, .inr (.inl rfl)⟩
  | writing c => exact ⟨now, c, .inr (.inr rfl)⟩
  | _ =>
    rw [place] at was
    exact was.elim

theorem queuedRestarts {bound : Nat} (spare : ∀ t, bound ≤ t → s.pc t = .out) (taken : Step o s l next)
    (queues : Queues ⟨s, l, next⟩) : Restarts o next := by
  obtain ⟨alive, move⟩ := taken
  cases move with
  | @submit kind data pc free unlocked own signal =>
    have some := submitQueued s.bd kind data
    have kept (u : Nat) (out : s.pc u = .out) : pc u = .out := by
      rcases signalWoken signal u with same | ⟨was, _⟩
      · exact same.trans out
      · rw [out] at was
        cases was
    refine Restarts.after ⟨alive, .spawn (t := bound + 1) ⟨free.1, kept 0 free.2⟩
      (kept _ (spare _ (by omega))) (by omega)⟩ ?_
    refine Restarts.after ⟨alive, .opened (t := bound + 1) (by simp [goto])⟩ ?_
    exact lockingRestarts (t := bound + 1) (q := .readq) alive (by simp [goto]) unlocked some
  | @closingQueued pc pc' here unlocked first second =>
    have some := submitQueued s.bd .closingPiece ⟨[], 0, 0⟩
    refine Restarts.after ⟨alive, .sealedAgain rfl unlocked rfl⟩ ?_
    exact lockingRestarts (t := 0) (q := .readq) alive (by simp [goto]) unlocked some
  | @closingQueuedAgain pc pc' here unlocked first second =>
    have some := submitQueued s.bd .closingPiece ⟨[], 0, 0⟩
    exact lockingRestarts (t := 0) (q := .readq) alive (by simp [goto]) unlocked some
  | @read t c here unlocked whole =>
    exact loopRestarts (t := t) (q := .dedupq) alive (by simp [goto]) (by simp [goto, chunkDoReadEnd, pushFront])
  | @compressed t c allocated bd here unlocked result =>
    have turn := queues.2
    simp only [here] at turn
    exact loopRestarts (t := t) (q := .writeq) alive (by simp [goto]) (compressedQueued turn result)
  | @written t c write bd all here unlocked result =>
    have turn := queues.2
    simp only [here] at turn
    exact loopRestarts (t := t) (q := .writeq) alive (by simp [goto]) (writtenQueued turn result)
  | released here result =>
    obtain ⟨now, _⟩ := queuesOperating queues
    simp only [goto, Function.update_self] at now
    rcases stageReleased result with rfl | rfl | rfl <;> cases now
  | _ =>
    first
    | exact queues.elim
    | -- the thread was not in an operation, or it does not come back to the loop
      obtain ⟨now, c, was⟩ := queuesOperating queues
      simp_all [goto]

theorem abortStops {compressBlocks compressFragments : Bool} {size : Nat}
    {before after : List (Event Image Label)} {e : Event Image Label} (aborts : e.label = .abort t)
    (run : Run (Step o) (init compressBlocks compressFragments size) (before ++ e :: after) s) :
    ((∀ x ∈ after, ¬ Queues x) → ∀ x ∈ after, StartsNothing x) ∧ ∀ x ∈ after, Queues x → Restarts o x.after := by
  constructor
  · intro quiet
    obtain ⟨mid, earlier, rest⟩ := run.split
    obtain ⟨_, taken, later⟩ := rest.front
    have free : Obeys (fun _ _ => True) before := fun _ _ => trivial
    have inside : Inside mid := Run.invariant (I := Inside) (fun t locking => by simp [init, Pc.Locking] at locking)
      (fun s l next inside _ taken => inside.step taken.2) earlier free
    rw [aborts] at taken
    exact (stilledRun (abortStills inside taken.2) later quiet).2
  · intro x member queues
    obtain ⟨earlier, _, _, reached, taken⟩ := run.reaches (List.mem_append_right before (List.mem_cons_of_mem e member))
    obtain ⟨bound, spare⟩ := spareThread reached
    exact queuedRestarts spare taken queues

end

/- A block is submitted, the image is aborted, and a worker that comes then leaves. -/
theorem abortedBeforeWork : ∃ (o : ImageConfig) (before after : List (Event Image Label))
    (e : Event Image Label) (s : Image), e.label = .abort 0 ∧ after.length = 4 ∧ s.pc 1 = .gone ∧
      Run (Step o) (init true true 96) (before ++ e :: after) s ∧ ∀ x ∈ after, StartsNothing x := by
  let o : ImageConfig := ⟨4096, fun _ _ => none, [], false⟩
  have submitted : Run (Step o) (init true true 96) _ _ :=
    .move .start ⟨rfl, @Move.submit _ _ .fullBlock ⟨[7], 1, 0⟩ _ ⟨rfl, rfl⟩ rfl (by simp)
      (.idle fun t => by simp [init])⟩
  have flagged := (submitted.move ⟨rfl, .abortCall (t := 0) rfl fun _ => rfl⟩).move ⟨rfl, .flag (t := 0) rfl⟩
  have aborted := flagged.move ⟨rfl, .abort (t := 0) rfl rfl⟩
  have spawned := (aborted.move ⟨rfl, .spawn (t := 1) ⟨rfl, rfl⟩ rfl (by simp)⟩).move
    ⟨rfl, .opened (t := 1) rfl⟩
  have left := (spawned.move ⟨rfl, .locked (t := 1) rfl rfl⟩).move ⟨rfl, .leave (t := 1) rfl rfl (.inr rfl)⟩
  simp only [List.cons_append, List.nil_append] at left
  refine ⟨o, [_, _, _], [_, _, _, _], _, _, rfl, rfl, rfl, left,
    (@abortStops o _ 0 true true 96 [_, _, _] [_, _, _, _] _ rfl left).1 ?_⟩
  simp [Queues, goto, wakeAll, init]

/- The read that was under way hands its block on, and it is written after all. -/
theorem writtenAfterAbort : ∃ (o : ImageConfig) (before after : List (Event Image Label))
    (e : Event Image Label) (s : Image), e.label = .abort 0 ∧
      Run (Step o) (init true true 96) (before ++ e :: after) s ∧ (∃ x ∈ after, ¬ StartsNothing x) ∧
      ∃ x ∈ after, x.before.size < x.after.size := by
  let o : ImageConfig := ⟨4096, fun _ _ => none, [], false⟩
  have submitted : Run (Step o) (init true true 96) _ _ :=
    .move .start ⟨rfl, @Move.submit _ _ .fullBlock ⟨[7], 1, 0⟩ _ ⟨rfl, rfl⟩ rfl (by simp)
      (.idle fun t => by simp [init])⟩
  have spawned := (submitted.move ⟨rfl, .spawn (t := 1) ⟨rfl, rfl⟩ rfl (by simp)⟩).move
    ⟨rfl, .opened (t := 1) rfl⟩
  have popped := (spawned.move ⟨rfl, .locked (t := 1) rfl rfl⟩).move ⟨rfl, .pop (t := 1) rfl rfl⟩
  have reading := popped.move ⟨rfl, @Move.released _ _ 1 _ _ true _ _ _ rfl rfl⟩
  have flagged := (reading.move ⟨rfl, .abortCall (t := 0) rfl fun _ => rfl⟩).move ⟨rfl, .flag (t := 0) rfl⟩
  have aborted := flagged.move ⟨rfl, .abort (t := 0) rfl rfl⟩
  have read := (aborted.move ⟨rfl, .read (t := 1) rfl rfl rfl⟩).move ⟨rfl, .pop (t := 1) rfl rfl⟩
  have deduplicated := (read.move ⟨rfl, @Move.again _ _ 1 _ _ true _ _ rfl rfl⟩).move
    ⟨rfl, .pop (t := 1) rfl rfl⟩
  have assigned := (deduplicated.move ⟨rfl, @Move.again _ _ 1 _ _ true _ _ rfl rfl⟩).move
    ⟨rfl, .pop (t := 1) rfl rfl⟩
  have compressed := (assigned.move ⟨rfl, @Move.released _ _ 1 _ _ true _ _ _ rfl rfl⟩).move
    ⟨rfl, @Move.compressed _ _ 1 _ true _ rfl rfl rfl⟩
  have written := (compressed.move ⟨rfl, .pop (t := 1) rfl rfl⟩).move
    ⟨rfl, @Move.released _ _ 1 _ _ true _ _ _ rfl rfl⟩
  simp only [List.cons_append, List.nil_append] at written
  refine ⟨o, [_, _, _, _, _, _, _, _], [_, _, _, _, _, _, _, _, _, _], _, _, rfl, written, ?_, ?_⟩
  · refine ⟨_, List.mem_of_getElem? (i := 1) rfl, fun starts => ?_⟩
    have same := starts.1 1 trivial
    cases same
  · exact ⟨_, List.mem_of_getElem? (i := 9) rfl, by decide⟩

end Image
end Libsqfs
