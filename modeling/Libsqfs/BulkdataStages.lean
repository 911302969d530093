import Libsqfs.Bulkdata

/-! Where the chunks are. `Located` says of every chunk of the chain in which
queue it waits or that a thread holds it, and which chunks are parked outside:
those that are not `Ready`. `Advance` is what each stage does to that. -/
namespace Libsqfs
namespace Bulkdata

/- What no stage of a chunk changes. -/
structure Frame (bd next : Bulkdata) : Prop where
  count : next.count = bd.count
  lastPiece : next.lastPiece = bd.lastPiece
  mayAddChunks : next.mayAddChunks = bd.mayAddChunks
  aborted : next.aborted = bd.aborted
  compressBlocks : next.compressBlocks = bd.compressBlocks
  compressFragments : next.compressFragments = bd.compressFragments
  kind : ∀ d, (next.chunk d).kind = (bd.chunk d).kind
  data : ∀ d, (next.chunk d).data = (bd.chunk d).data
  prevPiece : ∀ d, (next.chunk d).prevPiece = (bd.chunk d).prevPiece
  nextPiece : ∀ d, (next.chunk d).nextPiece = (bd.chunk d).nextPiece
  flush : ∀ d, (bd.chunk d).flushPreviousBlock = true → (next.chunk d).flushPreviousBlock = true
  placed : ∀ d, (bd.chunk d).fragmentBlock.isSome = true →
    (next.chunk d).fragmentBlock.isSome = true

def Ready (bd : Bulkdata) (c : Nat) : Prop :=
  (bd.chunk c).state ≠ .finished ∧
    ((bd.chunk c).state = .deduplicated → bd.PrevAssigned c) ∧
    ((bd.chunk c).state = .writable → bd.PrevFinished c)

instance (bd : Bulkdata) (c : Nat) : Decidable (bd.Ready c) :=
  inferInstanceAs (Decidable (_ ∧ _ ∧ _))

structure Linked (bd : Bulkdata) : Prop where
  prev : ∀ c p, c < bd.count → (bd.chunk c).prevPiece = some p →
    p < c ∧ (bd.chunk p).nextPiece = some c ∧ (bd.chunk p).kind ≠ .fullBlock
  next : ∀ p n, p < bd.count → (bd.chunk p).nextPiece = some n →
    n < bd.count ∧ (bd.chunk n).prevPiece = some p
  full : ∀ c, c < bd.count → (bd.chunk c).kind = .fullBlock → (bd.chunk c).prevPiece = none
  last : ∀ p, bd.lastPiece = some p →
    p < bd.count ∧ (bd.chunk p).nextPiece = none ∧ (bd.chunk p).kind ≠ .fullBlock

/- Where every chunk of the chain is; `h` tells the chunk each thread holds. -/
structure Located (bd : Bulkdata) (h : Nat → Option Nat) : Prop where
  queued : ∀ q c, c ∈ bd.workq q →
    c < bd.count ∧ (bd.chunk c).state = q.state ∧ bd.Ready c
  nodup : ∀ q, (bd.workq q).Nodup
  held : ∀ t c, h t = some c → c < bd.count ∧ bd.Ready c ∧ ∀ q, c ∉ bd.workq q
  unique : ∀ t u c, h t = some c → h u = some c → t = u
  covered : ∀ c, c < bd.count → bd.Ready c → (∃ q, c ∈ bd.workq q) ∨ ∃ t, h t = some c
  bound : bd.finished ≤ bd.count
  finished : ∀ c, c < bd.count → ((bd.chunk c).state = .finished ↔ c < bd.finished)

/- The chunks that become ready when chunk c advances: c itself or one parked for it. -/
def Fresh (bd next : Bulkdata) (c d : Nat) : Prop :=
  d < bd.count ∧ next.Ready d ∧ (d = c ∨ ¬ bd.Ready d)

structure Advance (bd next : Bulkdata) (c : Nat) : Prop where
  frame : Frame bd next
  kept : ∀ d, d ≠ c → (next.chunk d).state = (bd.chunk d).state
  rank : (bd.chunk c).state.value < (next.chunk c).state.value
  queues : ∀ q, ∃ l, next.workq q = l ++ bd.workq q ∧ l.Nodup ∧
    ∀ d, d ∈ l ↔ Fresh bd next c d ∧ (next.chunk d).state = q.state
  finished : next.finished = if (next.chunk c).state = .finished then bd.finished + 1 else bd.finished
  last : (next.chunk c).state = .finished → bd.PrevFinished c ∧ (bd.chunk c).state = .writable
  flushes : (next.chunk c).state = .assigned → (bd.chunk c).kind ≠ .fullBlock →
    (next.chunk c).flushPreviousBlock = true
  placed : ChunkState.assigned.value ≤ (next.chunk c).state.value →
    (bd.chunk c).kind = .fragmentPiece →
      ChunkState.assigned.value ≤ (bd.chunk c).state.value ∨
        (next.chunk c).fragmentBlock.isSome = true

theorem queueOf {state : ChunkState} (open' : state ≠ .finished) : ∃ q : Workq, q.state = state := by
  cases state with
  | none => exact ⟨.readq, rfl⟩
  | read => exact ⟨.dedupq, rfl⟩
  | deduplicated => exact ⟨.assignq, rfl⟩
  | assigned => exact ⟨.compressq, rfl⟩
  | writable => exact ⟨.writeq, rfl⟩
  | finished => exact absurd rfl open'

theorem Advance.unfinished {bd next : Bulkdata} {c : Nat} (adv : Advance bd next c) :
    (bd.chunk c).state ≠ .finished := by
  intro isOver
  have rank := adv.rank
  rw [isOver] at rank
  cases shape : (next.chunk c).state <;> simp [shape, ChunkState.value] at rank

theorem Advance.ready {bd next : Bulkdata} {c d : Nat} (adv : Advance bd next c) (other : d ≠ c)
    (ready : bd.Ready d) : next.Ready d := by
  obtain ⟨unfinished, assigned, written⟩ := ready
  have same := adv.kept d other
  refine ⟨by rw [same]; exact unfinished, fun state p prev => ?_, fun state => ?_⟩
  · have before := assigned (by rw [← same]; exact state) p (by rw [← adv.frame.prevPiece]; exact prev)
    by_cases own : p = c
    · subst own
      exact before.trans adv.rank.le
    · rw [adv.kept p own]; exact before
  · rcases written (by rw [← same]; exact state) with first | before
    · exact .inl first
    · have own : d - 1 ≠ c := by
        intro own
        rw [own] at before
        exact adv.unfinished before
      exact .inr (by rw [adv.kept _ own]; exact before)

theorem firstUnfinished {bd : Bulkdata} {h : Nat → Option Nat} (loc : Located bd h) {c : Nat}
    (inside : c < bd.count) (unfinished : (bd.chunk c).state ≠ .finished)
    (prev : bd.PrevFinished c) : c = bd.finished := by
  have later : bd.finished ≤ c := by
    by_contra early
    exact unfinished ((loc.finished c inside).mpr (by omega))
  rcases prev with rfl | before
  · omega
  · have := (loc.finished (c - 1) (by omega)).mp before
    omega

/- The step lemma for a stage that lets go of the chunk it worked on. -/
theorem Located.advance {bd next : Bulkdata} {h : Nat → Option Nat} {t c : Nat}
    (loc : Located bd h) (mine : h t = some c) (adv : Advance bd next c) :
    Located next (Function.update h t none) := by
  obtain ⟨inside, ready, absent⟩ := loc.held t c mine
  have fresh (d) (new : Fresh bd next c d) (q) : d ∉ bd.workq q := by
    intro member
    rcases new.2.2 with rfl | parked
    · exact absent q member
    · exact parked (loc.queued q d member).2.2
  have holder {u d} (holds : Function.update h t none u = some d) : h u = some d ∧ d ≠ c := by
    by_cases own : u = t
    · subst own; simp at holds
    · rw [Function.update_of_ne own] at holds
      exact ⟨holds, fun same => own (loc.unique u t c (same ▸ holds) mine)⟩
  refine ⟨fun q d member => ?_, fun q => ?_, fun u d holds => ?_, fun u v d first second => ?_,
    fun d below ready' => ?_, ?_, fun d below => ?_⟩
  · obtain ⟨l, shape, _, new⟩ := adv.queues q
    rw [shape, List.mem_append] at member
    rw [adv.frame.count]
    rcases member with pushed | old
    · obtain ⟨f, state⟩ := (new d).mp pushed
      exact ⟨f.1, state, f.2.1⟩
    · obtain ⟨below, state, was⟩ := loc.queued q d old
      have other : d ≠ c := fun same => absent q (same ▸ old)
      exact ⟨below, by rw [adv.kept d other]; exact state, adv.ready other was⟩
  · obtain ⟨l, shape, nodup, new⟩ := adv.queues q
    rw [shape]
    refine List.nodup_append.mpr ⟨nodup, loc.nodup q, fun d pushed e old same => ?_⟩
    exact fresh d ((new d).mp pushed).1 q (same ▸ old)
  · obtain ⟨was, other⟩ := holder holds
    obtain ⟨below, ready', away⟩ := loc.held u d was
    refine ⟨by rw [adv.frame.count]; exact below, adv.ready other ready', fun q member => ?_⟩
    obtain ⟨l, shape, _, new⟩ := adv.queues q
    rw [shape, List.mem_append] at member
    rcases member with pushed | old
    · rcases ((new d).mp pushed).1.2.2 with same | parked
      · exact other same
      · exact parked ready'
    · exact away q old
  · exact loc.unique u v d (holder first).1 (holder second).1
  · rw [adv.frame.count] at below
    by_cases new : d = c ∨ ¬ bd.Ready d
    · obtain ⟨q, state⟩ := queueOf ready'.1
      obtain ⟨l, shape, _, pushed⟩ := adv.queues q
      have member := (pushed d).mpr ⟨⟨below, ready', new⟩, state.symm⟩
      exact .inl ⟨q, by rw [shape]; exact List.mem_append_left _ member⟩
    · simp only [not_or, not_not] at new
      obtain ⟨other, was⟩ := new
      rcases loc.covered d below was with ⟨q, member⟩ | ⟨u, holds⟩
      · obtain ⟨l, shape, _⟩ := adv.queues q
        exact .inl ⟨q, by rw [shape]; exact List.mem_append_right _ member⟩
      · have away : u ≠ t := by
          rintro rfl
          rw [mine] at holds
          exact other (Option.some.inj holds).symm
        exact .inr ⟨u, by rw [Function.update_of_ne away]; exact holds⟩
  · rw [adv.frame.count, adv.finished]
    split
    · rename_i isOver
      have := firstUnfinished loc inside adv.unfinished (adv.last isOver).1
      omega
    · exact loc.bound
  · rw [adv.frame.count] at below
    have was := loc.finished d below
    have unfinished := adv.unfinished
    have own := loc.finished c inside
    rw [adv.finished]
    by_cases isOver : (next.chunk c).state = .finished
    · have same := firstUnfinished loc inside unfinished (adv.last isOver).1
      rw [if_pos isOver]
      by_cases other : d = c
      · subst other; simp [isOver]; omega
      · rw [adv.kept d other, was]; omega
    · rw [if_neg isOver]
      by_cases other : d = c
      · subst other
        rw [← was]
        exact iff_of_false isOver unfinished
      · rw [adv.kept d other, was]

/-! ### What each stage does to the chain -/

theorem Frame.refl (bd : Bulkdata) : Frame bd bd :=
  ⟨rfl, rfl, rfl, rfl, rfl, rfl, fun _ => rfl, fun _ => rfl, fun _ => rfl, fun _ => rfl,
    fun _ => id, fun _ => id⟩

theorem Frame.trans {a b c : Bulkdata} (first : Frame a b) (second : Frame b c) : Frame a c where
  count := second.count.trans first.count
  lastPiece := second.lastPiece.trans first.lastPiece
  mayAddChunks := second.mayAddChunks.trans first.mayAddChunks
  aborted := second.aborted.trans first.aborted
  compressBlocks := second.compressBlocks.trans first.compressBlocks
  compressFragments := second.compressFragments.trans first.compressFragments
  kind d := (second.kind d).trans (first.kind d)
  data d := (second.data d).trans (first.data d)
  prevPiece d := (second.prevPiece d).trans (first.prevPiece d)
  nextPiece d := (second.nextPiece d).trans (first.nextPiece d)
  flush d flag := second.flush d (first.flush d flag)
  placed d known := second.placed d (first.placed d known)

theorem frameSet (bd : Bulkdata) (c : Nat) {chunk : Chunk} (kind : chunk.kind = (bd.chunk c).kind)
    (data : chunk.data = (bd.chunk c).data) (prev : chunk.prevPiece = (bd.chunk c).prevPiece)
    (next : chunk.nextPiece = (bd.chunk c).nextPiece)
    (flush : (bd.chunk c).flushPreviousBlock = true → chunk.flushPreviousBlock = true)
    (placed : (bd.chunk c).fragmentBlock.isSome = true → chunk.fragmentBlock.isSome = true) :
    Frame bd (bd.set c chunk) := by
  refine ⟨rfl, rfl, rfl, rfl, rfl, rfl, fun d => ?_, fun d => ?_, fun d => ?_, fun d => ?_,
    fun d => ?_, fun d => ?_⟩ <;>
    simp only [set, Function.update_apply] <;> split <;> simp_all

theorem framePushFront (bd : Bulkdata) (q : Workq) (c : Nat) : Frame bd (bd.pushFront q c) :=
  ⟨rfl, rfl, rfl, rfl, rfl, rfl, fun _ => rfl, fun _ => rfl, fun _ => rfl, fun _ => rfl,
    fun _ => id, fun _ => id⟩

theorem frameSetFragmentBlock (bd : Bulkdata) (f : Nat) (block : FragmentBlock) :
    Frame bd (bd.setFragmentBlock f block) :=
  ⟨rfl, rfl, rfl, rfl, rfl, rfl, fun _ => rfl, fun _ => rfl, fun _ => rfl, fun _ => rfl,
    fun _ => id, fun _ => id⟩

theorem frameFreePieces (bd : Bulkdata) (pieces : List Nat) : Frame bd (bd.freePieces pieces) := by
  refine ⟨rfl, rfl, rfl, rfl, rfl, rfl, fun d => ?_, fun d => ?_, fun d => ?_, fun d => ?_,
    fun d => ?_, fun d => ?_⟩ <;>
    simp only [freePieces] <;> split <;> simp

theorem frameSetState (bd : Bulkdata) (c : Nat) (state : ChunkState) :
    Frame bd (bd.setState c state) :=
  frameSet bd c rfl rfl rfl rfl id id

theorem frameTryWriteout (bd : Bulkdata) (c : Nat) : Frame bd (bd.chunkTryWriteout c) := by
  unfold chunkTryWriteout
  split
  · exact .refl _
  · split
    · exact .refl _
    · exact framePushFront _ _ _

theorem framePieceAssigned (bd : Bulkdata) (c : Nat) : Frame bd (bd.pieceAssigned c) := by
  unfold pieceAssigned
  split
  · exact (frameSetState _ _ _).trans (framePushFront _ _ _)
  · exact (frameSetState _ _ _).trans (frameTryWriteout _ _)

theorem framePushNextPiece (bd : Bulkdata) (c : Nat) : Frame bd (bd.pushNextPiece c) := by
  unfold pushNextPiece
  split
  · exact .refl _
  · split
    · exact framePushFront _ _ _
    · exact .refl _

theorem freshOther {bd next : Bulkdata} {c d : Nat} (frame : Frame bd next)
    (kept : ∀ e, e ≠ c → (next.chunk e).state = (bd.chunk e).state)
    (fresh : Fresh bd next c d) (other : d ≠ c) :
    (bd.chunk d).state = .deduplicated ∧ (bd.chunk d).prevPiece = some c ∧
        (bd.chunk c).state.value < ChunkState.assigned.value ∧
        ChunkState.assigned.value ≤ (next.chunk c).state.value ∨
      (bd.chunk d).state = .writable ∧ d = c + 1 ∧ (next.chunk c).state = .finished := by
  obtain ⟨_, ⟨unfinished, assigned, written⟩, same | parked⟩ := fresh
  · exact absurd same other
  rw [kept d other] at unfinished assigned written
  simp only [Ready, not_and_or, not_not, Classical.not_imp] at parked
  rcases parked with isOver | ⟨state, waits⟩ | ⟨state, waits⟩
  · exact absurd isOver unfinished
  · simp only [PrevAssigned, not_forall] at waits
    obtain ⟨p, prev, low⟩ := waits
    have high := assigned state p (by rw [frame.prevPiece]; exact prev)
    have own : p = c := by
      by_contra away
      rw [kept p away] at high
      exact low high
    subst own
    exact .inl ⟨state, prev, Nat.lt_of_not_le low, high⟩
  · simp only [PrevFinished, not_or] at waits
    rcases written state with first | before
    · exact absurd first waits.1
    · have own : d - 1 = c := by
        by_contra away
        rw [kept _ away] at before
        exact waits.2 before
      exact .inr ⟨state, by omega, by rw [← own]; exact before⟩

theorem Advance.build {bd next : Bulkdata} {c : Nat} {others : Workq → List Nat}
    (frame : Frame bd next) (kept : ∀ d, d ≠ c → (next.chunk d).state = (bd.chunk d).state)
    (rank : (bd.chunk c).state.value < (next.chunk c).state.value) (inside : c < bd.count)
    (workq : ∀ q, next.workq q =
      others q ++ ((if next.Ready c ∧ (next.chunk c).state = q.state then [c] else []) ++ bd.workq q))
    (nodup : ∀ q, (others q).Nodup)
    (members : ∀ q d, d ∈ others q ↔ d ≠ c ∧ Fresh bd next c d ∧ (bd.chunk d).state = q.state)
    (finished : next.finished =
      if (next.chunk c).state = .finished then bd.finished + 1 else bd.finished)
    (last : (next.chunk c).state = .finished → bd.PrevFinished c ∧ (bd.chunk c).state = .writable)
    (flushes : (next.chunk c).state = .assigned → (bd.chunk c).kind ≠ .fullBlock →
      (next.chunk c).flushPreviousBlock = true)
    (placed : ChunkState.assigned.value ≤ (next.chunk c).state.value →
      (bd.chunk c).kind = .fragmentPiece →
        ChunkState.assigned.value ≤ (bd.chunk c).state.value ∨
          (next.chunk c).fragmentBlock.isSome = true) : Advance bd next c := by
  refine ⟨frame, kept, rank, fun q => ?_, finished, last, flushes, placed⟩
  refine ⟨others q ++ (if next.Ready c ∧ (next.chunk c).state = q.state then [c] else []),
    by rw [workq, List.append_assoc], ?_, fun d => ?_⟩
  · refine List.nodup_append.mpr ⟨nodup q, by split <;> simp, fun d member e own same => ?_⟩
    split at own
    · rw [List.mem_singleton] at own
      exact ((members q d).mp member).1 (same.trans own)
    · simp at own
  · rw [List.mem_append, members]
    constructor
    · rintro (⟨other, fresh, state⟩ | own)
      · exact ⟨fresh, by rw [kept d other]; exact state⟩
      · split at own
        · rename_i ready
          rw [List.mem_singleton] at own
          subst own
          exact ⟨⟨inside, ready.1, .inl rfl⟩, ready.2⟩
        · simp at own
    · rintro ⟨fresh, state⟩
      by_cases own : d = c
      · subst own
        exact .inr (by rw [if_pos ⟨fresh.2.1, state⟩]; exact List.mem_singleton_self _)
      · exact .inl ⟨own, fresh, by rw [← kept d own]; exact state⟩

theorem Advance.alone {bd next : Bulkdata} {c : Nat} (frame : Frame bd next)
    (kept : ∀ d, d ≠ c → (next.chunk d).state = (bd.chunk d).state)
    (rank : (bd.chunk c).state.value < (next.chunk c).state.value) (inside : c < bd.count)
    (quiet : (next.chunk c).state ≠ .finished ∧
      ((next.chunk c).state.value < ChunkState.assigned.value ∨
        ChunkState.assigned.value ≤ (bd.chunk c).state.value ∨
        (bd.chunk c).kind = .fullBlock ∧ ∀ d, d < bd.count → (bd.chunk d).prevPiece ≠ some c))
    (workq : ∀ q, next.workq q =
      (if next.Ready c ∧ (next.chunk c).state = q.state then [c] else []) ++ bd.workq q)
    (finished : next.finished = bd.finished)
    (flushes : (next.chunk c).state = .assigned → (bd.chunk c).kind = .fullBlock) :
    Advance bd next c := by
  refine @Advance.build bd next c (fun _ => []) frame kept rank inside (by simpa using workq) (by simp)
    (fun q d => ?_) (by rw [if_neg quiet.1]; exact finished) (fun isOver => absurd isOver quiet.1)
    (fun state other => absurd (flushes state) other) fun high piece => ?_
  rotate_left
  · rcases quiet.2 with below | above | free
    · omega
    · exact .inl above
    · exact absurd (free.1.symm.trans piece) (by simp)
  refine iff_of_false (by simp) fun ⟨other, fresh, _⟩ => ?_
  rcases freshOther frame kept fresh other with ⟨_, prev, low, high⟩ | ⟨_, _, isOver⟩
  · rcases quiet.2 with below | above | free
    · omega
    · omega
    · exact free.2 d fresh.1 prev
  · exact quiet.1 isOver

theorem assertOk {p : Prop} [Decidable p] {u : Unit} (ok : assert p = .ok u) : p := by
  unfold assert at ok
  split at ok
  · assumption
  · cases ok

theorem bindOk {α β : Type} {x : Except Fault α} {f : α → Except Fault β} {b : β}
    (ok : x >>= f = .ok b) : ∃ a, x = .ok a ∧ f a = .ok b := by
  cases x with
  | error e => cases ok
  | ok a => exact ⟨a, rfl, ok⟩

@[simp] theorem setStateAt (bd : Bulkdata) (c d : Nat) (state : ChunkState) :
    ((bd.setState c state).chunk d).state = if d = c then state else (bd.chunk d).state := by
  simp only [setState, set, Function.update_apply]
  split <;> simp_all

@[simp] theorem setStateWorkq (bd : Bulkdata) (c : Nat) (state : ChunkState) :
    (bd.setState c state).workq = bd.workq := rfl

@[simp] theorem pushFrontChunk (bd : Bulkdata) (q : Workq) (c : Nat) :
    (bd.pushFront q c).chunk = bd.chunk := rfl

@[simp] theorem pushFrontAt (bd : Bulkdata) (q p : Workq) (c : Nat) :
    (bd.pushFront q c).workq p = if p = q then c :: bd.workq q else bd.workq p := by
  simp only [pushFront, Function.update_apply]

theorem Advance.push {bd next : Bulkdata} {c : Nat} {q : Workq} (frame : Frame bd next)
    (states : ∀ d, (next.chunk d).state = if d = c then q.state else (bd.chunk d).state)
    (rank : (bd.chunk c).state.value < q.state.value) (inside : c < bd.count)
    (ready : next.Ready c)
    (quiet : q.state.value < ChunkState.assigned.value ∨
        ChunkState.assigned.value ≤ (bd.chunk c).state.value ∨
        (bd.chunk c).kind = .fullBlock ∧ ∀ d, d < bd.count → (bd.chunk d).prevPiece ≠ some c)
    (workq : ∀ p, next.workq p = if p = q then c :: bd.workq q else bd.workq p)
    (finished : next.finished = bd.finished)
    (flushes : q = .compressq → (bd.chunk c).kind = .fullBlock) : Advance bd next c := by
  have own : (next.chunk c).state = q.state := by rw [states, if_pos rfl]
  have injective (p : Workq) : q.state = p.state ↔ p = q := by
    cases p <;> cases q <;> simp [Workq.state]
  refine .alone frame (fun d other => by rw [states, if_neg other]) (by rw [own]; exact rank) inside
    ⟨by rw [own]; cases q <;> simp [Workq.state], by rw [own]; exact quiet⟩ (fun p => ?_) finished
    fun state => flushes ((injective .compressq).mp (own.symm.trans state)).symm
  rw [workq, own]
  by_cases same : p = q
  · subst same; simp [ready]
  · simp [same, injective]

theorem readAdvances {bd : Bulkdata} {c : Nat} (inside : c < bd.count)
    (state : (bd.chunk c).state = .none) : Advance bd (bd.chunkDoReadEnd c) c := by
  have states (d) : ((bd.chunkDoReadEnd c).chunk d).state =
      if d = c then Workq.dedupq.state else (bd.chunk d).state := by
    simp only [chunkDoReadEnd, set, pushFrontChunk, Function.update_apply]
    split <;> rfl
  have frame : Frame bd (bd.chunkDoReadEnd c) :=
    Frame.trans (b := bd.set c {bd.chunk c with
      cachedData := some (bd.chunk c).data.pread, state := .read})
      (frameSet bd c rfl rfl rfl rfl id id) (framePushFront _ _ _)
  refine .push frame states (by rw [state]; decide) inside ?_ (.inl (by decide)) (fun p => pushFrontAt _ _ _ _) rfl (by simp)
  simp [Ready, states, Workq.state]

theorem closingReadAdvances {bd : Bulkdata} {c : Nat} (inside : c < bd.count)
    (state : (bd.chunk c).state = .none) : Advance bd (bd.closingPieceRead c) c := by
  refine .push ((frameSetState bd c _).trans (framePushFront _ _ _))
    (fun d => by simp [closingPieceRead, Workq.state]) (by rw [state]; decide) inside ?_
    (.inl (by decide)) (fun p => pushFrontAt _ _ _ _) rfl (by simp)
  simp [Ready, closingPieceRead]

theorem deduplicateAdvances {bd next : Bulkdata} {c : Nat} (inside : c < bd.count)
    (none : (bd.chunk c).prevPiece = none) (ok : bd.chunkDoDeduplicate c = .ok next) :
    Advance bd next c := by
  obtain ⟨_, asserted, last⟩ := bindOk ok
  have state := assertOk asserted
  cases last
  refine .push ((frameSetState bd c _).trans (framePushFront _ _ _))
    (fun d => by simp [Workq.state]) (by rw [state]; decide) inside ?_
    (.inl (by decide)) (fun p => pushFrontAt _ _ _ _) rfl (by simp)
  refine ⟨by simp, fun _ p prev => ?_, by simp⟩
  rw [((frameSetState bd c _).trans (framePushFront _ _ _)).prevPiece, none] at prev
  cases prev

theorem assignAdvances {bd next : Bulkdata} {c : Nat} (linked : Linked bd) (inside : c < bd.count)
    (kind : (bd.chunk c).kind = .fullBlock)
    (ok : bd.chunkDoAssign c = .ok next) : Advance bd next c := by
  obtain ⟨_, asserted, last⟩ := bindOk ok
  have state := assertOk asserted
  cases last
  refine .push ((frameSetState bd c _).trans (framePushFront _ _ _))
    (fun d => by simp [Workq.state]) (by rw [state]; decide) inside ?_
    (.inr (.inr ⟨kind, fun d below prev => (linked.prev d c below prev).2.2 kind⟩))
    (fun p => pushFrontAt _ _ _ _) rfl fun _ => kind
  simp [Ready]

/- A piece is parked when its assignment has to wait for the previous one. -/
theorem pieceDeduplicateAdvances {bd next : Bulkdata} {c : Nat} (inside : c < bd.count)
    (ok : bd.fragmentPieceDeduplicate c = .ok next) : Advance bd next c := by
  obtain ⟨_, asserted, last⟩ := bindOk ok
  have state := assertOk asserted
  have ready : (bd.setState c .deduplicated).Ready c ↔ (bd.setState c .deduplicated).PrevAssigned c := by
    simp [Ready]
  simp only [pure, Except.pure] at last
  split at last
  · rename_i waits
    cases last
    refine .alone (frameSetState bd c _) (fun d other => by simp [other]) (by simp [state]; decide)
      inside ⟨by simp, .inl (by simp [ChunkState.value])⟩ (fun q => ?_) rfl (by simp)
    rw [if_neg (fun h => waits (ready.mp h.1))]
    rfl
  · rename_i assigned
    cases last
    refine .push ((frameSetState bd c _).trans (framePushFront _ _ _))
      (fun d => by simp [Workq.state]) (by rw [state]; decide) inside ?_
      (.inl (by decide)) (fun p => pushFrontAt _ _ _ _) rfl (by simp)
    exact ready.mpr (not_not.mp assigned)

/- Two states of the bulk data that differ in the content of blocks only. -/
structure Same (bd next : Bulkdata) : Prop where
  frame : Frame bd next
  state : ∀ d, (next.chunk d).state = (bd.chunk d).state
  workq : next.workq = bd.workq
  finished : next.finished = bd.finished

theorem Same.refl (bd : Bulkdata) : Same bd bd := ⟨.refl bd, fun _ => rfl, rfl, rfl⟩

theorem Same.trans {a b c : Bulkdata} (first : Same a b) (second : Same b c) : Same a c :=
  ⟨first.frame.trans second.frame, fun d => (second.state d).trans (first.state d),
    second.workq.trans first.workq, second.finished.trans first.finished⟩

theorem sameSet (bd : Bulkdata) (c : Nat) {chunk : Chunk} (kind : chunk.kind = (bd.chunk c).kind)
    (data : chunk.data = (bd.chunk c).data) (prev : chunk.prevPiece = (bd.chunk c).prevPiece)
    (next : chunk.nextPiece = (bd.chunk c).nextPiece) (state : chunk.state = (bd.chunk c).state)
    (flush : (bd.chunk c).flushPreviousBlock = true → chunk.flushPreviousBlock = true)
    (placed : (bd.chunk c).fragmentBlock.isSome = true → chunk.fragmentBlock.isSome = true) :
    Same bd (bd.set c chunk) := by
  refine ⟨frameSet bd c kind data prev next flush placed, fun d => ?_, rfl, rfl⟩
  simp only [set, Function.update_apply]
  split <;> simp_all

theorem sameSetFragmentBlock (bd : Bulkdata) (f : Nat) (block : FragmentBlock) :
    Same bd (bd.setFragmentBlock f block) :=
  ⟨frameSetFragmentBlock bd f block, fun _ => rfl, rfl, rfl⟩

theorem sameFreePieces (bd : Bulkdata) (pieces : List Nat) : Same bd (bd.freePieces pieces) := by
  refine ⟨frameFreePieces bd pieces, fun d => ?_, rfl, rfl⟩
  simp only [freePieces]
  split <;> rfl

theorem sameSetBlock (bd : Bulkdata) (c : Nat) (dst : ImageBlock) (t : Target) :
    Same bd (bd.setBlock c dst t) := by
  cases t with
  | own => exact sameSet bd c rfl rfl rfl rfl rfl id id
  | fragment f => exact sameSetFragmentBlock bd f _

theorem sameAddPiece (bd : Bulkdata) (f c : Nat) : Same bd (bd.fragmentBlockAddPiece f c) :=
  Same.trans (b := bd.set c {bd.chunk c with
    fragmentBlock := some f, offset := some (bd.fragmentBlock f).size})
    (sameSet bd c rfl rfl rfl rfl rfl id fun _ => rfl) (sameSetFragmentBlock _ _ _)

theorem sameCreate {bd next : Bulkdata} {allocated : Bool} {f : Nat}
    (ok : bd.fragmentBlockCreate allocated = some (f, next)) : Same bd next := by
  unfold fragmentBlockCreate at ok
  split at ok
  · cases ok
    exact ⟨⟨rfl, rfl, rfl, rfl, rfl, rfl, fun _ => rfl, fun _ => rfl, fun _ => rfl, fun _ => rfl,
    fun _ => id, fun _ => id⟩,
      fun _ => rfl, rfl, rfl⟩
  · cases ok

theorem Same.prevAssigned {bd next : Bulkdata} (same : Same bd next) (c : Nat) :
    next.PrevAssigned c ↔ bd.PrevAssigned c := by
  simp only [PrevAssigned, same.frame.prevPiece, same.state]

theorem Same.prevFinished {bd next : Bulkdata} (same : Same bd next) (c : Nat) :
    next.PrevFinished c ↔ bd.PrevFinished c := by
  simp only [PrevFinished, same.state]

theorem Same.ready {bd next : Bulkdata} (same : Same bd next) (c : Nat) :
    next.Ready c ↔ bd.Ready c := by
  simp only [Ready, same.state, same.prevAssigned, same.prevFinished]

theorem Same.linked {bd next : Bulkdata} (same : Same bd next) (linked : Linked bd) :
    Linked next := by
  obtain ⟨count, last, _, _, _, _, kind, _, prev, following, _⟩ := same.frame
  refine ⟨fun c p => ?_, fun p n => ?_, fun c => ?_, fun p => ?_⟩
  · rw [count, prev, following, kind]; exact linked.prev c p
  · rw [count, prev, following]; exact linked.next p n
  · rw [count, prev, kind]; exact linked.full c
  · rw [last, count, following, kind]; exact linked.last p

theorem Located.same {bd next : Bulkdata} {h : Nat → Option Nat} (loc : Located bd h)
    (same : Same bd next) : Located next h := by
  obtain ⟨frame, state, workq, finished⟩ := id same
  refine ⟨fun q c => ?_, fun q => ?_, fun t c => ?_, loc.unique, fun c => ?_, ?_, fun c => ?_⟩
  · rw [workq, frame.count, state, same.ready]; exact loc.queued q c
  · rw [workq]; exact loc.nodup q
  · rw [workq, frame.count, same.ready]; exact loc.held t c
  · rw [workq, frame.count, same.ready]; exact loc.covered c
  · rw [finished, frame.count]; exact loc.bound
  · rw [finished, frame.count, state]; exact loc.finished c

theorem Advance.after {bd mid next : Bulkdata} {c : Nat} (same : Same bd mid)
    (adv : Advance mid next c) : Advance bd next c := by
  refine ⟨same.frame.trans adv.frame, fun d other => (adv.kept d other).trans (same.state d), ?_,
    fun q => ?_, ?_, fun isOver => ⟨(same.prevFinished c).mp (adv.last isOver).1,
      (same.state c).symm.trans (adv.last isOver).2⟩,
    fun state other => adv.flushes state (by rw [same.frame.kind]; exact other),
    fun high piece => by
      rw [← same.state]
      exact adv.placed high (by rw [same.frame.kind]; exact piece)⟩
  · rw [← same.state]; exact adv.rank
  · obtain ⟨l, shape, nodup, members⟩ := adv.queues q
    refine ⟨l, by rw [shape, same.workq], nodup, fun d => ?_⟩
    rw [members, Fresh, Fresh, same.frame.count, same.ready]
  · rw [adv.finished, same.finished]

theorem setSet (bd : Bulkdata) (c : Nat) (first second : Chunk) :
    (bd.set c first).set c second = bd.set c second := by
  simp [set]

theorem readyChunk {bd next : Bulkdata} (chunk : next.chunk = bd.chunk) (c : Nat) :
    next.Ready c ↔ bd.Ready c := by
  simp only [Ready, PrevAssigned, PrevFinished, chunk]

@[simp] theorem tryWriteoutChunk (bd : Bulkdata) (c : Nat) :
    (bd.chunkTryWriteout c).chunk = bd.chunk := by
  simp only [chunkTryWriteout]
  split
  · rfl
  · split <;> rfl

@[simp] theorem tryWriteoutFinished (bd : Bulkdata) (c : Nat) :
    (bd.chunkTryWriteout c).finished = bd.finished := by
  simp only [chunkTryWriteout]
  split
  · rfl
  · split <;> rfl

theorem tryWriteoutWorkq {bd : Bulkdata} {c : Nat} (state : (bd.chunk c).state = .writable)
    (q : Workq) : (bd.chunkTryWriteout c).workq q =
      (if bd.Ready c ∧ (bd.chunk c).state = q.state then [c] else []) ++ bd.workq q := by
  have ready : bd.Ready c ↔ bd.PrevFinished c := by simp [Ready, state]
  simp only [chunkTryWriteout, state, ne_eq, not_true, if_false, ready]
  split
  · rename_i unfinished
    rw [if_neg (fun h => unfinished h.1)]
    rfl
  · rename_i finished
    rw [not_not] at finished
    rw [pushFrontAt]
    cases q <;> simp [finished, Workq.state]

theorem writableAdvances {bd : Bulkdata} {c : Nat} (inside : c < bd.count)
    (state : (bd.chunk c).state = .assigned) :
    Advance bd ((bd.setState c .writable).chunkTryWriteout c) c := by
  have own : ((bd.setState c .writable).chunk c).state = .writable := by simp
  refine .alone ((frameSetState bd c _).trans (frameTryWriteout _ _))
    (fun d other => by simp [other]) (by simp [state, ChunkState.value]) inside
    ⟨by simp, .inr (.inl (by rw [state]))⟩ (fun q => ?_) (tryWriteoutFinished _ _) (by simp)
  rw [tryWriteoutWorkq own, tryWriteoutChunk]
  simp only [readyChunk (tryWriteoutChunk (bd.setState c .writable) c), setStateWorkq]

theorem pieceAssignedStates (bd : Bulkdata) (c d : Nat) : ((bd.pieceAssigned c).chunk d).state =
    if d = c then (if (bd.chunk c).flushPreviousBlock then .assigned else .writable)
    else (bd.chunk d).state := by
  simp only [pieceAssigned]
  split <;> simp

theorem pieceAssignedFinished (bd : Bulkdata) (c : Nat) :
    (bd.pieceAssigned c).finished = bd.finished := by
  simp only [pieceAssigned]
  split
  · rfl
  · exact tryWriteoutFinished _ _

theorem pieceAssignedWorkq (bd : Bulkdata) (c : Nat) (q : Workq) : (bd.pieceAssigned c).workq q =
    (if (bd.pieceAssigned c).Ready c ∧ ((bd.pieceAssigned c).chunk c).state = q.state then [c]
      else []) ++ bd.workq q := by
  rw [pieceAssignedStates, if_pos rfl]
  unfold pieceAssigned
  split
  · have ready : ((bd.setState c .assigned).pushFront .compressq c).Ready c := by simp [Ready]
    rw [pushFrontAt]
    simp only [ready]
    cases q <;> simp [Workq.state]
  · have own : ((bd.setState c .writable).chunk c).state = .writable := by simp
    rw [tryWriteoutWorkq own, own]
    simp only [readyChunk (tryWriteoutChunk (bd.setState c .writable) c), setStateWorkq]

@[simp] theorem pushNextPieceChunk (bd : Bulkdata) (c : Nat) :
    (bd.pushNextPiece c).chunk = bd.chunk := by
  simp only [pushNextPiece]
  split
  · rfl
  · split <;> rfl

theorem pushNextPieceFinished (bd : Bulkdata) (c : Nat) :
    (bd.pushNextPiece c).finished = bd.finished := by
  simp only [pushNextPiece]
  split
  · rfl
  · split <;> rfl

def parkedNext (bd : Bulkdata) (c : Nat) : List Nat :=
  match (bd.chunk c).nextPiece with
  | none => []
  | some n => if (bd.chunk n).state = .deduplicated then [n] else []

theorem pushNextPieceWorkq (bd : Bulkdata) (c : Nat) (q : Workq) : (bd.pushNextPiece c).workq q =
    (if q = .assignq then bd.parkedNext c else []) ++ bd.workq q := by
  unfold pushNextPiece parkedNext
  cases (bd.chunk c).nextPiece with
  | none => simp
  | some n =>
    by_cases waits : (bd.chunk n).state = .deduplicated
    · simp only [waits, if_true, pushFrontAt]
      split <;> simp_all
    · simp [waits]

theorem pieceAssignAdvances {bd : Bulkdata} {c : Nat} (linked : Linked bd) (inside : c < bd.count)
    (state : (bd.chunk c).state = .deduplicated)
    (placed : (bd.chunk c).kind = .fragmentPiece → (bd.chunk c).fragmentBlock.isSome = true) :
    Advance bd ((bd.pieceAssigned c).pushNextPiece c) c := by
  have frame : Frame bd ((bd.pieceAssigned c).pushNextPiece c) :=
    (framePieceAssigned bd c).trans (framePushNextPiece _ _)
  have kept (d) (other : d ≠ c) :
      (((bd.pieceAssigned c).pushNextPiece c).chunk d).state = (bd.chunk d).state := by
    rw [pushNextPieceChunk, pieceAssignedStates, if_neg other]
  have own : ChunkState.assigned.value ≤
        (((bd.pieceAssigned c).pushNextPiece c).chunk c).state.value ∧
      (((bd.pieceAssigned c).pushNextPiece c).chunk c).state ≠ .finished := by
    rw [pushNextPieceChunk, pieceAssignedStates, if_pos rfl]
    split <;> simp [ChunkState.value]
  refine @Advance.build bd _ c (fun q => if q = .assignq then (bd.pieceAssigned c).parkedNext c else [])
    frame kept (by rw [state]; exact own.1) inside (fun q => ?_) (fun q => ?_) (fun q d => ?_) ?_
    (fun isOver => absurd isOver own.2) (fun assigned _ => ?_)
    fun _ piece => .inr (frame.placed c (placed piece))
  · rw [pushNextPieceWorkq, pieceAssignedWorkq]
    simp only [readyChunk (pushNextPieceChunk (bd.pieceAssigned c) c), pushNextPieceChunk]
  · split
    · unfold parkedNext
      split
      · simp
      · split <;> simp
    · simp
  · have parked : d ∈ (bd.pieceAssigned c).parkedNext c ↔
        (bd.chunk c).nextPiece = some d ∧ (bd.chunk d).state = .deduplicated := by
      simp only [parkedNext, (framePieceAssigned bd c).nextPiece, pieceAssignedStates]
      cases shape : (bd.chunk c).nextPiece with
      | none => simp
      | some n =>
        have other : n ≠ c := by
          intro same
          subst same
          have := (linked.prev n n inside (linked.next n n inside shape).2).1
          omega
        simp only [if_neg other, Option.some.injEq]
        split
        · rename_i waits
          rw [List.mem_singleton]
          exact ⟨fun same => ⟨same.symm, same ▸ waits⟩, fun h => h.1.symm⟩
        · rename_i busy
          refine iff_of_false (by simp) fun h => busy (h.1 ▸ h.2)
    constructor
    · intro member
      split at member
      · rename_i assignq
        subst assignq
        obtain ⟨next, waits⟩ := parked.mp member
        obtain ⟨below, prev⟩ := linked.next c d inside next
        have after := (linked.prev d c below prev).1
        have other : d ≠ c := by omega
        refine ⟨other, ⟨below, ⟨?_, fun _ p own' => ?_, ?_⟩, .inr fun ready => ?_⟩, waits⟩
        · rw [kept d other, waits]; decide
        · rw [frame.prevPiece, prev, Option.some.injEq] at own'
          subst own'
          exact own.1
        · rw [kept d other, waits]; intro h; cases h
        · have := ready.2.1 waits c prev
          rw [state] at this
          exact absurd this (by decide)
      · simp at member
    · rintro ⟨other, fresh, queue⟩
      rcases freshOther frame kept fresh other with ⟨waits, prev, _⟩ | ⟨_, _, isOver⟩
      · have assignq : q = .assignq := by
          rw [waits] at queue
          cases q <;> simp [Workq.state] at queue ⊢
        rw [if_pos assignq]
        exact parked.mpr ⟨(linked.prev d c fresh.1 prev).2.1, waits⟩
      · exact absurd isOver own.2
  · rw [pushNextPieceFinished, pieceAssignedFinished, if_neg own.2]
  · rw [pushNextPieceChunk, pieceAssignedStates, if_pos rfl] at assigned
    split at assigned
    · rename_i flag
      exact frame.flush c flag
    · cases assigned

/- The closing piece has no next piece that could wait for it. -/
theorem closingAssignAdvances {bd : Bulkdata} {c : Nat} (linked : Linked bd) (inside : c < bd.count)
    (state : (bd.chunk c).state = .deduplicated) (last : (bd.chunk c).nextPiece = none)
    (closing : (bd.chunk c).kind = .closingPiece) : Advance bd (bd.pieceAssigned c) c := by
  have h := pieceAssignAdvances linked inside state fun piece => by rw [closing] at piece; cases piece
  have same : (bd.pieceAssigned c).pushNextPiece c = bd.pieceAssigned c := by
    simp only [pushNextPiece, (framePieceAssigned bd c).nextPiece, last]
  rwa [same] at h

@[simp] theorem pushNextWritableChunk (bd : Bulkdata) (c : Nat) :
    (bd.pushNextWritable c).chunk = bd.chunk := by
  unfold pushNextWritable
  split <;> rfl

theorem framePushNextWritable (bd : Bulkdata) (c : Nat) : Frame bd (bd.pushNextWritable c) := by
  unfold pushNextWritable
  split
  · exact framePushFront _ _ _
  · exact .refl _

theorem pushNextWritableFinished (bd : Bulkdata) (c : Nat) :
    (bd.pushNextWritable c).finished = bd.finished := by
  unfold pushNextWritable
  split <;> rfl

theorem pushNextWritableWorkq (bd : Bulkdata) (c : Nat) (q : Workq) :
    (bd.pushNextWritable c).workq q = (if q = .writeq ∧ c + 1 < bd.count ∧
      (bd.chunk (c + 1)).state = .writable then [c + 1] else []) ++ bd.workq q := by
  unfold pushNextWritable
  split
  · rename_i waits
    simp only [pushFrontAt, waits, and_self, and_true]
    split <;> simp_all
  · rename_i busy
    rw [if_neg (fun h => busy h.2)]
    rfl

theorem finishAdvances {bd next : Bulkdata} {c : Nat} {all : Bool} (inside : c < bd.count)
    (state : (bd.chunk c).state = .writable) (ok : bd.chunkMarkFinished c = .ok (next, all)) :
    Advance bd next c ∧ (all = true ↔ next.finished = next.count) := by
  obtain ⟨_, asserted, last⟩ := bindOk ok
  have prev := assertOk asserted
  simp only [pure, Except.pure, Except.ok.injEq, Prod.mk.injEq] at last
  obtain ⟨shape, flag⟩ := last
  have chunk : next.chunk = (bd.setState c .finished).chunk := by
    rw [← shape]
    exact pushNextWritableChunk _ _
  have chunks (d) : (next.chunk d).state = if d = c then .finished else (bd.chunk d).state := by
    rw [chunk, setStateAt]
  have frame : Frame bd next := by
    rw [← shape]
    have base := (frameSetState bd c .finished).trans (framePushNextWritable _ c)
    exact ⟨base.1, base.2, base.3, base.4, base.5, base.6, base.7, base.8, base.9, base.10, base.11,
      base.12⟩
  have kept (d) (other : d ≠ c) : (next.chunk d).state = (bd.chunk d).state := by
    rw [chunks, if_neg other]
  have own : (next.chunk c).state = .finished := by rw [chunks, if_pos rfl]
  refine ⟨@Advance.build bd next c (fun q => if q = .writeq ∧ c + 1 < bd.count ∧
      (bd.chunk (c + 1)).state = .writable then [c + 1] else []) frame kept
      (by rw [own, state]; decide) inside (fun q => ?_) (fun q => ?_) (fun q d => ?_) ?_
      (fun _ => ⟨prev, state⟩) (by rw [own]; simp) (fun _ _ => .inl (by rw [state]; decide)), ?_⟩
  · have busy : ¬ next.Ready c := fun h => h.1 own
    have after : ((bd.setState c .finished).chunk (c + 1)).state = (bd.chunk (c + 1)).state := by
      simp
    have none : (if next.Ready c ∧ (next.chunk c).state = q.state then [c] else []) = [] :=
      if_neg fun h => busy h.1
    have queue := pushNextWritableWorkq (bd.setState c .finished) c q
    rw [after] at queue
    rw [none, List.nil_append, ← shape]
    exact queue
  · split <;> simp
  · constructor
    · intro member
      split at member
      · rename_i waits
        rw [List.mem_singleton] at member
        subst member
        obtain ⟨rfl, below, writable⟩ := waits
        have other : c + 1 ≠ c := by omega
        refine ⟨other, ⟨below, ⟨?_, ?_, fun _ => .inr own⟩, .inr fun ready => ?_⟩, writable⟩
        · rw [kept _ other, writable]; decide
        · rw [kept _ other, writable]; intro h; cases h
        · rcases ready.2.2 writable with h | h
          · omega
          · rw [Nat.add_sub_cancel, state] at h
            cases h
      · simp at member
    · rintro ⟨other, fresh, queue⟩
      rcases freshOther frame kept fresh other with ⟨_, _, low, _⟩ | ⟨writable, rfl, _⟩
      · rw [state] at low
        exact absurd low (by decide)
      · have writeq : q = .writeq := by
          rw [writable] at queue
          cases q <;> simp [Workq.state] at queue ⊢
        rw [if_pos ⟨writeq, fresh.1, writable⟩]
        exact List.mem_singleton_self _
  · rw [if_pos own, ← shape]
    exact congrArg (· + 1) (pushNextWritableFinished _ c)
  · rw [← flag, decide_eq_true_iff, ← shape]

theorem samePrevious {bd next : Bulkdata} {c blockSize : Nat} {target : Option Nat}
    (ok : bd.previousBlock blockSize c = .ok (target, next)) : Same bd next := by
  unfold previousBlock at ok
  split at ok
  · cases ok; exact .refl _
  · obtain ⟨f, _, chosen⟩ := bindOk ok
    split at chosen
    · cases chosen; exact sameSet bd c rfl rfl rfl rfl rfl (fun _ => rfl) id
    · cases chosen; exact .refl _

theorem fragmentAssignAdvances {bd next : Bulkdata} {c blockSize : Nat} {allocated done : Bool}
    (linked : Linked bd) (inside : c < bd.count)
    (ok : bd.fragmentPieceAssign blockSize allocated c = .ok (next, done)) :
    if done then Advance bd next c else Same bd next := by
  obtain ⟨_, asserted, rest⟩ := bindOk ok
  have state := assertOk asserted
  obtain ⟨⟨target, mid⟩, chosen, rest⟩ := bindOk rest
  have same := samePrevious chosen
  have assigned {x : Bulkdata} {f : Nat} (like : Same bd x) :
      Advance bd (((x.fragmentBlockAddPiece f c).pieceAssigned c).pushNextPiece c) c := by
    have added := like.trans (sameAddPiece x f c)
    refine .after added (pieceAssignAdvances (added.linked linked)
      (by rw [added.frame.count]; exact inside) (by rw [added.state]; exact state) fun _ => ?_)
    simp [fragmentBlockAddPiece, setFragmentBlock, set]
  cases target with
  | some f =>
    cases rest
    exact assigned same
  | none =>
    simp only at rest
    split at rest
    · cases rest
      exact same
    · rename_i f x created
      cases rest
      exact assigned (same.trans (sameCreate created))

theorem closingAssignStep {bd next : Bulkdata} {c : Nat} (linked : Linked bd) (inside : c < bd.count)
    (last : (bd.chunk c).nextPiece = none) (closing : (bd.chunk c).kind = .closingPiece)
    (ok : bd.closingPieceAssign c = .ok next) :
    Advance bd next c := by
  obtain ⟨_, asserted, rest⟩ := bindOk ok
  have state := assertOk asserted
  have assigned {x : Bulkdata} (like : Same bd x) : Advance bd (x.pieceAssigned c) c :=
    .after like (closingAssignAdvances (like.linked linked) (by rw [like.frame.count]; exact inside)
      (by rw [like.state]; exact state) (by rw [like.frame.nextPiece]; exact last)
      (by rw [like.frame.kind]; exact closing))
  cases rest
  split
  · exact assigned (sameSet bd c rfl rfl rfl rfl rfl (fun _ => rfl) id)
  · exact assigned (.refl bd)

theorem fullCompressAdvances {bd next : Bulkdata} {c : Nat} {compress : Bool → Bytes → Option Bytes}
    {allocated done : Bool} (inside : c < bd.count) (state : (bd.chunk c).state = .assigned)
    (ok : bd.fullBlockCompressEnd compress allocated c = .ok (next, done)) :
    if done then Advance bd next c else Same bd next := by
  obtain ⟨src, _, rest⟩ := bindOk ok
  obtain ⟨result, _, rest⟩ := bindOk rest
  cases result with
  | none => cases rest; exact .refl bd
  | some dst =>
    cases rest
    have same : Same bd (bd.set c {bd.chunk c with dst := dst, cachedData := none}) :=
      sameSet bd c rfl rfl rfl rfl rfl id id
    have adv := @writableAdvances (bd.set c {bd.chunk c with dst := dst, cachedData := none}) c
      (by rw [same.frame.count]; exact inside) (by rw [same.state]; exact state)
    have shape : (bd.set c {bd.chunk c with dst := dst, cachedData := none}).setState c .writable =
        bd.set c {bd.chunk c with dst := dst, cachedData := none, state := .writable} := by
      rw [setState, setSet]
      simp [set]
    rw [shape] at adv
    exact adv.after same

theorem pieceCompressAdvances {bd next : Bulkdata} {c : Nat} {compress : Bool → Bytes → Option Bytes}
    {allocated done : Bool} (inside : c < bd.count) (state : (bd.chunk c).state = .assigned)
    (ok : bd.fragmentPieceCompressEnd compress allocated c = .ok (next, done)) :
    if done then Advance bd next c else Same bd next := by
  obtain ⟨f, _, rest⟩ := bindOk ok
  obtain ⟨buffer, _, rest⟩ := bindOk rest
  obtain ⟨result, _, rest⟩ := bindOk rest
  have freed := sameFreePieces bd (bd.fragmentBlock f).pieces
  cases result with
  | none => cases rest; exact freed
  | some dst =>
    cases rest
    have same := freed.trans (sameSetFragmentBlock (bd.freePieces (bd.fragmentBlock f).pieces) f
      {bd.fragmentBlock f with dst := dst})
    exact .after same (writableAdvances (by rw [same.frame.count]; exact inside)
      (by rw [same.state]; exact state))

/-! ### Taking a chunk from a queue and adding one to the chain -/

theorem popSpec {bd next : Bulkdata} {q : Workq} {c : Nat} (ok : bd.popNext = some (q, c, next)) :
    ∃ rest, bd.workq q = c :: rest ∧
      next = {bd with workq := Function.update bd.workq q rest} := by
  obtain ⟨p, _, found⟩ := List.exists_of_findSome?_eq_some ok
  obtain ⟨⟨d, mid⟩, popped, same⟩ := Option.map_eq_some_iff.mp found
  simp only [Prod.mk.injEq] at same
  obtain ⟨rfl, rfl, rfl⟩ := same
  unfold pop at popped
  split at popped
  · cases popped
  · rename_i d rest shape
    cases popped
    exact ⟨rest, shape, rfl⟩

theorem popNone {bd : Bulkdata} (none : bd.popNext = none) (q : Workq) : bd.workq q = [] := by
  have member : q ∈ [Workq.writeq, .compressq, .assignq, .dedupq, .readq] := by cases q <;> simp
  have empty := List.findSome?_eq_none_iff.mp none q member
  rw [Option.map_eq_none_iff] at empty
  unfold pop at empty
  split at empty
  · assumption
  · cases empty

theorem Located.take {bd : Bulkdata} {h : Nat → Option Nat} {q : Workq} {t c : Nat}
    {rest : List Nat} (loc : Located bd h) (idle : h t = none) (shape : bd.workq q = c :: rest) :
    Located {bd with workq := Function.update bd.workq q rest} (Function.update h t (some c)) := by
  have member : c ∈ bd.workq q := by rw [shape]; exact List.mem_cons_self
  obtain ⟨below, state, ready⟩ := loc.queued q c member
  have nodup := loc.nodup q
  rw [shape, List.nodup_cons] at nodup
  have old {p d} (inside : d ∈ Function.update bd.workq q rest p) : d ∈ bd.workq p ∧ d ≠ c := by
    by_cases same : p = q
    · subst same
      rw [Function.update_self] at inside
      exact ⟨by rw [shape]; exact List.mem_cons_of_mem _ inside, fun own => nodup.1 (own ▸ inside)⟩
    · rw [Function.update_of_ne same] at inside
      refine ⟨inside, fun own => same ?_⟩
      subst own
      have := state.symm.trans (loc.queued p d inside).2.1
      cases p <;> cases q <;> simp_all [Workq.state]
  have holder {u d} (holds : Function.update h t (some c) u = some d) :
      u = t ∧ d = c ∨ h u = some d ∧ d ≠ c := by
    by_cases own : u = t
    · subst own
      rw [Function.update_self] at holds
      exact .inl ⟨rfl, (Option.some.inj holds).symm⟩
    · rw [Function.update_of_ne own] at holds
      refine .inr ⟨holds, fun same => ?_⟩
      subst same
      exact (loc.held u d holds).2.2 q member
  refine ⟨fun p d inside => loc.queued p d (old inside).1, fun p => ?_, fun u d holds => ?_,
    fun u v d first second => ?_, fun d inside ready' => ?_, loc.bound, loc.finished⟩
  · by_cases same : p = q
    · subst same
      simpa using nodup.2
    · simp only [Function.update_of_ne same]
      exact loc.nodup p
  · rcases holder holds with ⟨_, rfl⟩ | ⟨was, other⟩
    · exact ⟨below, ready, fun p inside => (old inside).2 rfl⟩
    · obtain ⟨below', ready', away⟩ := loc.held u d was
      exact ⟨below', ready', fun p inside => away p (old inside).1⟩
  · rcases holder first with ⟨rfl, rfl⟩ | ⟨was, other⟩ <;>
      rcases holder second with ⟨rfl, same⟩ | ⟨was', other'⟩
    · rfl
    · exact absurd rfl other'
    · exact absurd same other
    · exact loc.unique u v d was was'
  · by_cases own : d = c
    · subst own
      exact .inr ⟨t, Function.update_self ..⟩
    · rcases loc.covered d inside ready' with ⟨p, waits⟩ | ⟨u, holds⟩
      · refine .inl ⟨p, ?_⟩
        by_cases same : p = q
        · subst same
          rw [shape] at waits
          simpa [own] using waits
        · simpa only [Function.update_of_ne same] using waits
      · have away : u ≠ t := by
          rintro rfl
          rw [idle] at holds
          cases holds
        exact .inr ⟨u, by rw [Function.update_of_ne away]; exact holds⟩

structure Grown (bd next : Bulkdata) (kind : ChunkKind) (data : DataPiece) : Prop where
  count : next.count = bd.count + 1
  finished : next.finished = bd.finished
  mayAddChunks : next.mayAddChunks = bd.mayAddChunks
  aborted : next.aborted = bd.aborted
  fragmentBlock : next.fragmentBlock = bd.fragmentBlock
  fragmentBlockCount : next.fragmentBlockCount = bd.fragmentBlockCount
  compressBlocks : next.compressBlocks = bd.compressBlocks
  compressFragments : next.compressFragments = bd.compressFragments
  workq : ∀ q, next.workq q = if q = .readq then bd.workq .readq ++ [bd.count] else bd.workq q
  old : ∀ d, d < bd.count → next.chunk d = {bd.chunk d with
    nextPiece := if kind ≠ .fullBlock ∧ bd.lastPiece = some d then some bd.count
      else (bd.chunk d).nextPiece}
  new : next.chunk bd.count = {Chunk.create kind data with
    prevPiece := if kind = .fullBlock then none else bd.lastPiece}
  lastPiece : next.lastPiece = if kind = .fullBlock then bd.lastPiece else some bd.count

theorem submitGrows {bd : Bulkdata} (linked : Linked bd) (kind : ChunkKind) (data : DataPiece) :
    Grown bd (bd.submit kind data) kind data := by
  have full : Grown bd (bd.enqueueChunkLocked (.create .fullBlock data)) .fullBlock data := by
    refine ⟨rfl, rfl, rfl, rfl, rfl, rfl, rfl, rfl, fun q => ?_, fun d below => ?_, ?_, rfl⟩
    · simp only [enqueueChunkLocked, pushBack, Function.update_apply]
      rfl
    · have other : d ≠ bd.count := by omega
      simp [enqueueChunkLocked, pushBack, set, other]
    · simp [enqueueChunkLocked, pushBack, set, Chunk.create]
  have piece (k : ChunkKind) (isPiece : k ≠ .fullBlock) :
      Grown bd (bd.enqueuePieceLocked (.create k data)) k data := by
    unfold enqueuePieceLocked
    cases last : bd.lastPiece with
    | none =>
      refine ⟨rfl, rfl, rfl, rfl, rfl, rfl, rfl, rfl, fun q => ?_, fun d below => ?_, ?_, ?_⟩
      · simp only [enqueueChunkLocked, pushBack, Function.update_apply]
        rfl
      · have other : d ≠ bd.count := by omega
        simp [enqueueChunkLocked, pushBack, set, other, last]
      · simp [enqueueChunkLocked, pushBack, set, last]
      · simp [isPiece]
    | some p =>
      have below := (linked.last p last).1
      have away : bd.count ≠ p := by omega
      refine ⟨rfl, rfl, rfl, rfl, rfl, rfl, rfl, rfl, fun q => ?_, fun d inside => ?_, ?_, ?_⟩
      · simp only [enqueueChunkLocked, pushBack, set, Function.update_apply]
      · have other : d ≠ bd.count := by omega
        by_cases own : d = p
        · subst own
          simp [enqueueChunkLocked, pushBack, set, other, last, isPiece]
        · simp [enqueueChunkLocked, pushBack, set, other, own, last, isPiece, Ne.symm own]
      · simp [enqueueChunkLocked, pushBack, set, away, last, isPiece]
      · simp [isPiece]
  cases kind with
  | fullBlock => exact full
  | fragmentPiece => exact piece .fragmentPiece (by simp)
  | closingPiece => exact piece .closingPiece (by simp)

theorem Grown.linked {bd next : Bulkdata} {kind : ChunkKind} {data : DataPiece}
    (grown : Grown bd next kind data) (linked : Linked bd) : Linked next := by
  refine ⟨fun c p below prev => ?_, fun p n below following => ?_, fun c below full => ?_,
    fun p last => ?_⟩
  · rw [grown.count] at below
    by_cases own : c = bd.count
    · subst own
      rw [grown.new] at prev
      simp only at prev
      split at prev
      · cases prev
      · rename_i isPiece
        obtain ⟨inside, _, kindP⟩ := linked.last p prev
        rw [grown.old p inside]
        exact ⟨inside, by simp [isPiece, prev], kindP⟩
    · have inside : c < bd.count := by omega
      rw [grown.old c inside] at prev
      obtain ⟨before, following, kindP⟩ := linked.prev c p inside prev
      rw [grown.old p (by omega)]
      refine ⟨before, ?_, kindP⟩
      have other : bd.lastPiece ≠ some p := by
        intro last
        rw [(linked.last p last).2.1] at following
        cases following
      simpa [other] using following
  · rw [grown.count] at below ⊢
    by_cases own : p = bd.count
    · subst own
      rw [grown.new] at following
      cases following
    · have inside : p < bd.count := by omega
      rw [grown.old p inside] at following
      simp only at following
      split at following
      · rename_i link
        cases following
        rw [grown.new]
        exact ⟨by omega, by simp [link.1, link.2]⟩
      · obtain ⟨before, prev⟩ := linked.next p n inside following
        rw [grown.old n before]
        exact ⟨by omega, prev⟩
  · rw [grown.count] at below
    by_cases own : c = bd.count
    · subst own
      rw [grown.new] at full ⊢
      have kindC : kind = .fullBlock := full
      simp [kindC]
    · have inside : c < bd.count := by omega
      rw [grown.old c inside] at full ⊢
      exact linked.full c inside full
  · rw [grown.count]
    rw [grown.lastPiece] at last
    split at last
    · rename_i kindFull
      obtain ⟨inside, none, kindP⟩ := linked.last p last
      rw [grown.old p inside]
      exact ⟨by omega, by simp [kindFull, none], kindP⟩
    · rename_i isPiece
      cases last
      rw [grown.new]
      exact ⟨by omega, rfl, isPiece⟩

theorem Grown.state {bd next : Bulkdata} {kind : ChunkKind} {data : DataPiece}
    (grown : Grown bd next kind data) {d : Nat} (below : d < bd.count) :
    (next.chunk d).state = (bd.chunk d).state ∧ (next.chunk d).prevPiece = (bd.chunk d).prevPiece := by
  rw [grown.old d below]
  exact ⟨rfl, rfl⟩

theorem Grown.ready {bd next : Bulkdata} {kind : ChunkKind} {data : DataPiece}
    (grown : Grown bd next kind data) (linked : Linked bd) {d : Nat} (below : d < bd.count) :
    next.Ready d ↔ bd.Ready d := by
  obtain ⟨state, prev⟩ := grown.state below
  have assigned : next.PrevAssigned d ↔ bd.PrevAssigned d := by
    simp only [PrevAssigned, prev]
    refine forall_congr' fun p => imp_congr_right fun link => ?_
    have := (linked.prev d p below link).1
    rw [(grown.state (d := p) (by omega)).1]
  have finished : next.PrevFinished d ↔ bd.PrevFinished d := by
    simp only [PrevFinished, (grown.state (d := d - 1) (by omega)).1]
  simp only [Ready, state, assigned, finished]

theorem Grown.located {bd next : Bulkdata} {kind : ChunkKind} {data : DataPiece}
    {h : Nat → Option Nat} (grown : Grown bd next kind data) (linked : Linked bd)
    (loc : Located bd h) : Located next h := by
  have state : (next.chunk bd.count).state = .none := by rw [grown.new]; rfl
  have ready : next.Ready bd.count := by simp [Ready, state]
  have members (q d) : d ∈ next.workq q ↔ d ∈ bd.workq q ∨ q = .readq ∧ d = bd.count := by
    rw [grown.workq]
    split
    · rename_i readq; subst readq; simp
    · rename_i other; simp [other]
  refine ⟨fun q d inside => ?_, fun q => ?_, fun t d holds => ?_, loc.unique, fun d below ready' => ?_,
    ?_, fun d below => ?_⟩
  · rw [grown.count]
    rcases (members q d).mp inside with old | ⟨rfl, rfl⟩
    · obtain ⟨below, was, wasReady⟩ := loc.queued q d old
      exact ⟨by omega, (grown.state below).1.trans was, (grown.ready linked below).mpr wasReady⟩
    · exact ⟨by omega, state, ready⟩
  · rw [grown.workq]
    split
    · refine List.nodup_append.mpr ⟨loc.nodup _, by simp, fun d old e new same => ?_⟩
      rw [List.mem_singleton] at new
      have := (loc.queued _ d old).1
      omega
    · exact loc.nodup q
  · obtain ⟨below, wasReady, away⟩ := loc.held t d holds
    refine ⟨by rw [grown.count]; omega, (grown.ready linked below).mpr wasReady, fun q inside => ?_⟩
    rcases (members q d).mp inside with old | ⟨_, rfl⟩
    · exact away q old
    · omega
  · rw [grown.count] at below
    by_cases own : d = bd.count
    · exact .inl ⟨.readq, (members _ d).mpr (.inr ⟨rfl, own⟩)⟩
    · have inside : d < bd.count := by omega
      rcases loc.covered d inside ((grown.ready linked inside).mp ready') with ⟨q, old⟩ | holds
      · exact .inl ⟨q, (members q d).mpr (.inl old)⟩
      · exact .inr holds
  · rw [grown.count, grown.finished]
    exact loc.bound.trans (Nat.le_succ _)
  · rw [grown.count] at below
    rw [grown.finished]
    by_cases own : d = bd.count
    · subst own
      have := loc.bound
      rw [state]
      exact iff_of_false (by simp) (by omega)
    · have inside : d < bd.count := by omega
      rw [(grown.state inside).1]
      exact loc.finished d inside

end Bulkdata
end Libsqfs
