import Mathlib.Data.Finset.Card
import Libsqfs.PipelineTermination

/-! How much data the threads hold at once. A chunk is read only where there is nothing
else to do, so the blocks that are read and not yet compressed are all being worked on. -/
namespace Libsqfs
namespace Bulkdata

def Drops (bd next : Bulkdata) : Prop :=
  ∀ d, (next.chunk d).cachedData = (bd.chunk d).cachedData ∨ (next.chunk d).cachedData = none

def Raw (state : ChunkState) : Prop := ChunkState.read.value ≤ state.value ∧ state.value ≤ ChunkState.assigned.value

section
variable {bd mid next : Bulkdata} {c : Nat}

theorem Drops.refl (bd : Bulkdata) : Drops bd bd := fun _ => .inl rfl

theorem Drops.trans (first : Drops bd mid) (second : Drops mid next) : Drops bd next := fun d => by
  rcases second d with same | gone
  · rw [same]
    exact first d
  · exact .inr gone

theorem Drops.chunks (same : next.chunk = bd.chunk) : Drops bd next := fun d => .inl (by rw [same])

theorem Drops.set {chunk : Chunk} (kept : chunk.cachedData = (bd.chunk c).cachedData ∨ chunk.cachedData = none) :
    Drops bd (bd.set c chunk) := fun d => by
  by_cases own : d = c
  · subst own
    simpa only [Bulkdata.set, Function.update_self] using kept
  · exact .inl (by simp only [Bulkdata.set, Function.update_of_ne own])

theorem dropsState (bd : Bulkdata) (c : Nat) (state : ChunkState) : Drops bd (bd.setState c state) := .set (.inl rfl)

theorem dropsTryWriteout (bd : Bulkdata) (c : Nat) : Drops bd (bd.chunkTryWriteout c) := by
  unfold chunkTryWriteout
  split
  · exact .refl bd
  · split
    · exact .refl bd
    · exact .chunks rfl

theorem dropsAssigned (bd : Bulkdata) (c : Nat) : Drops bd (bd.pieceAssigned c) := by
  unfold pieceAssigned
  split
  · exact dropsState bd c .assigned
  · exact (dropsState bd c .writable).trans (dropsTryWriteout _ c)

theorem dropsNextPiece (bd : Bulkdata) (c : Nat) : Drops bd (bd.pushNextPiece c) := by
  unfold pushNextPiece
  split
  · exact .refl bd
  · split
    · exact .chunks rfl
    · exact .refl bd

theorem dropsBlock (bd : Bulkdata) (c : Nat) (dst : ImageBlock) (t : Target) : Drops bd (bd.setBlock c dst t) := by
  cases t with
  | own => exact .set (.inl rfl)
  | fragment f => exact .chunks rfl

theorem dropsFinished {all : Bool} (ok : bd.chunkMarkFinished c = .ok (next, all)) : Drops bd next := by
  obtain ⟨_, _, rest⟩ := bindOk ok
  cases rest
  refine (dropsState bd c .finished).trans ?_
  unfold pushNextWritable
  split <;> exact .chunks rfl

theorem dropsPreviousBlock {blockSize : Nat} {target : Option Nat}
    (ok : bd.previousBlock blockSize c = .ok (target, next)) : Drops bd next := by
  unfold previousBlock at ok
  split at ok
  · cases ok
    exact .refl bd
  · obtain ⟨f, _, rest⟩ := bindOk ok
    split at rest <;> cases rest
    · exact .set (.inl rfl)
    · exact .refl bd

theorem dropsFragmentAssign {blockSize : Nat} {allocated good : Bool}
    (ok : bd.fragmentPieceAssign blockSize allocated c = .ok (next, good)) : Drops bd next := by
  obtain ⟨_, _, rest⟩ := bindOk ok
  obtain ⟨⟨target, mid⟩, before, rest⟩ := bindOk rest
  have first := dropsPreviousBlock before
  have placed (bd : Bulkdata) (f : Nat) : Drops bd (((bd.fragmentBlockAddPiece f c).pieceAssigned c).pushNextPiece c) := by
    have added : Drops bd (bd.fragmentBlockAddPiece f c) := @Drops.set bd c _ (.inl rfl)
    exact (added.trans (dropsAssigned _ c)).trans (dropsNextPiece _ c)
  cases target with
  | some f =>
    cases rest
    exact first.trans (placed mid f)
  | none =>
    dsimp only at rest
    split at rest <;> cases rest
    · exact first
    · rename_i f created made
      unfold fragmentBlockCreate at made
      split at made <;> cases made
      exact first.trans (Drops.trans (.chunks rfl) (placed _ _))

theorem dropsClosingAssign (ok : bd.closingPieceAssign c = .ok next) : Drops bd next := by
  obtain ⟨_, _, rest⟩ := bindOk ok
  cases rest
  split
  · have flagged : Drops bd (bd.set c {bd.chunk c with flushPreviousBlock := true}) := .set (.inl rfl)
    exact flagged.trans (dropsAssigned _ c)
  · exact dropsAssigned bd c

theorem dropsPieceDeduplicate (ok : bd.fragmentPieceDeduplicate c = .ok next) : Drops bd next := by
  obtain ⟨_, _, rest⟩ := bindOk ok
  dsimp only at rest
  split at rest <;> cases rest <;> exact dropsState bd c .deduplicated

theorem dropsPieceCompress {compress : Bool → Bytes → Option Bytes} {allocated done : Bool}
    (ok : bd.fragmentPieceCompressEnd compress allocated c = .ok (next, done)) : Drops bd next := by
  obtain ⟨f, _, rest⟩ := bindOk ok
  obtain ⟨buffer, _, rest⟩ := bindOk rest
  obtain ⟨result, _, rest⟩ := bindOk rest
  have freed : Drops bd (bd.freePieces (bd.fragmentBlock f).pieces) := fun d => by
    unfold freePieces
    dsimp only
    split
    · exact .inr rfl
    · exact .inl rfl
  cases result with
  | none =>
    cases rest
    exact freed
  | some dst =>
    cases rest
    exact (freed.trans (.chunks rfl)).trans ((dropsState _ c .writable).trans (dropsTryWriteout _ c))

theorem dropsFullCompress {compress : Bool → Bytes → Option Bytes} {allocated done : Bool}
    (ok : bd.fullBlockCompressEnd compress allocated c = .ok (next, done)) :
    Drops bd next ∧ (done = true → (next.chunk c).cachedData = none) := by
  obtain ⟨src, _, rest⟩ := bindOk ok
  obtain ⟨result, _, rest⟩ := bindOk rest
  cases result with
  | none =>
    cases rest
    exact ⟨.refl bd, by simp⟩
  | some dst =>
    cases rest
    have dropped := dropsTryWriteout (bd.set c {bd.chunk c with dst := dst, cachedData := none, state := .writable}) c
    refine ⟨Drops.trans (.set (.inr rfl)) dropped, fun _ => ?_⟩
    rcases dropped c with same | gone
    · exact same.trans (by simp only [Bulkdata.set, Function.update_self])
    · exact gone

theorem popReading (popped : bd.popNext = some (.readq, c, next)) {q : Workq} (other : q ≠ .readq) : bd.workq q = [] := by
  have write : bd.pop .writeq = none := by
    cases first : bd.pop .writeq with
    | none => rfl
    | some => simp [popNext, first] at popped
  have compress : bd.pop .compressq = none := by
    cases first : bd.pop .compressq with
    | none => rfl
    | some => simp [popNext, write, first] at popped
  have assign : bd.pop .assignq = none := by
    cases first : bd.pop .assignq with
    | none => rfl
    | some => simp [popNext, write, compress, first] at popped
  have dedup : bd.pop .dedupq = none := by
    cases first : bd.pop .dedupq with
    | none => rfl
    | some => simp [popNext, write, compress, assign, first] at popped
  have empty (none : bd.pop q = none) : bd.workq q = [] := by
    unfold pop at none
    split at none
    · assumption
    · cases none
  cases q with
  | readq => exact absurd rfl other
  | dedupq => exact empty dedup
  | assignq => exact empty assign
  | compressq => exact empty compress
  | writeq => exact empty write

end
end Bulkdata
namespace Image
open Bulkdata Transition

def Turn.bd : Turn → Bulkdata
  | .again bd _ | .released bd _ _ | .outOfMemory bd => bd

/- A full block that is being read, or is read and not yet compressed. -/
def InHand (s : Image) (c : Nat) : Prop := c < s.bd.count ∧ (s.bd.chunk c).kind = .fullBlock ∧
  ((s.bd.chunk c).state = .none ∧ (∃ t, (s.pc t).held = some c) ∨ Raw (s.bd.chunk c).state)

def InMemory (s : Image) (c : Nat) : Prop := c < s.bd.count ∧ (s.bd.chunk c).kind = .fullBlock ∧
  ((s.bd.chunk c).cachedData.isSome ∨ ∃ t, s.pc t = .reading c)

structure Frugal (n : Nat) (s : Image) : Prop where
  raw : ∀ c, c < s.bd.count → (s.bd.chunk c).kind = .fullBlock → (s.bd.chunk c).cachedData.isSome →
    Raw (s.bd.chunk c).state
  hand : ∀ blocks : Finset Nat, (∀ c ∈ blocks, s.InHand c) → blocks.card ≤ n

section
variable {o : ImageConfig} {s next : Image} {l : Label} {n t c size : Nat} {p : Pc} {pc : Nat → Pc} {q : Workq}
  {bd : Bulkdata} {allocated : Bool}

theorem stageDrops {turn : Turn} (ok : stage o allocated bd size q c = .ok turn) : Drops bd turn.bd := by
  cases q with
  | readq =>
    cases kind : (bd.chunk c).kind <;> simp only [stage, kind] at ok
    case closingPiece =>
      cases ok
      exact dropsState bd c .read
    all_goals
      obtain ⟨_, _, rfl⟩ := mapOk ok
      exact .refl bd
  | dedupq =>
    cases kind : (bd.chunk c).kind <;> simp only [stage, kind] at ok <;> obtain ⟨next, done, rfl⟩ := mapOk ok
    case fullBlock =>
      obtain ⟨_, _, rest⟩ := bindOk done
      cases rest
      exact dropsState bd c .deduplicated
    all_goals exact dropsPieceDeduplicate done
  | assignq =>
    cases kind : (bd.chunk c).kind <;> simp only [stage, kind] at ok <;> obtain ⟨next, done, rfl⟩ := mapOk ok
    case fullBlock =>
      obtain ⟨_, _, rest⟩ := bindOk done
      cases rest
      exact dropsState bd c .assigned
    case fragmentPiece =>
      have drops := dropsFragmentAssign done
      split <;> exact drops
    case closingPiece => exact dropsClosingAssign done
  | compressq =>
    cases kind : (bd.chunk c).kind <;> simp only [stage, kind] at ok <;>
      obtain ⟨_, _, rfl⟩ := mapOk ok <;> exact .refl bd
  | writeq =>
    simp only [stage] at ok
    obtain ⟨_, _, rest⟩ := bindOk ok
    obtain ⟨target, _, rest⟩ := bindOk rest
    cases target with
    | some t =>
      cases rest
      exact dropsBlock bd c _ t
    | none =>
      obtain ⟨⟨next, all⟩, done, rfl⟩ := mapOk rest
      exact dropsFinished done

theorem compressEndDrops {next : Bulkdata} {done : Bool} (ok : compressEnd o allocated bd c = .ok (next, done)) :
    Drops bd next ∧ ((bd.chunk c).kind = .fullBlock → done = true → (next.chunk c).cachedData = none) := by
  unfold compressEnd at ok
  split at ok
  · exact ⟨(dropsFullCompress ok).1, fun _ => (dropsFullCompress ok).2⟩
  · rename_i piece
    exact ⟨dropsPieceCompress ok, fun full => absurd full piece⟩

theorem writeEndDrops {next : Bulkdata} {write : Medium.Write} {all : Bool} (ok : writeEnd bd c = .ok (write, next, all)) :
    Drops bd next := by
  obtain ⟨t?, _, rest⟩ := bindOk ok
  obtain ⟨t, _, rest⟩ := bindOk rest
  obtain ⟨offset, _, rest⟩ := bindOk rest
  obtain ⟨data, _, rest⟩ := bindOk rest
  obtain ⟨⟨mid, flag⟩, done, rest⟩ := bindOk rest
  cases rest
  exact (dropsBlock bd c _ t).trans (dropsFinished done)

theorem stageRaw {all : Bool} {next : Bulkdata} (full : (bd.chunk c).kind = .fullBlock)
    (ok : stage o allocated bd size q c = .ok (.again next all)) : Raw (next.chunk c).state := by
  cases q <;> simp only [stage, full] at ok
  case dedupq =>
    obtain ⟨_, done, same⟩ := mapOk ok
    obtain ⟨_, _, rest⟩ := bindOk done
    cases rest
    cases same
    simp [pushFront, setState, Bulkdata.set, Raw, ChunkState.value]
  case assignq =>
    obtain ⟨_, done, same⟩ := mapOk ok
    obtain ⟨_, _, rest⟩ := bindOk done
    cases rest
    cases same
    simp [pushFront, setState, Bulkdata.set, Raw, ChunkState.value]
  case writeq =>
    obtain ⟨_, _, rest⟩ := bindOk ok
    simp only [target, full] at rest
    cases rest
  all_goals
    obtain ⟨_, _, same⟩ := mapOk ok
    cases same

theorem Frugal.keep (frugal : Frugal n s) (count : next.bd.count = s.bd.count)
    (kind : ∀ d, (next.bd.chunk d).kind = (s.bd.chunk d).kind)
    (state : ∀ d, (next.bd.chunk d).state = (s.bd.chunk d).state) (drops : Drops s.bd next.bd)
    (held : ∀ u d, (next.pc u).held = some d → (s.pc u).held = some d) : Frugal n next where
  raw d inside full some := by
    rw [count] at inside
    rw [kind] at full
    rw [state]
    rcases drops d with same | gone
    · exact frugal.raw d inside full (same ▸ some)
    · rw [gone] at some
      cases some
  hand blocks each := by
    refine frugal.hand blocks fun d member => ?_
    obtain ⟨inside, full, busy⟩ := each d member
    rw [count] at inside
    rw [kind] at full
    rw [state] at busy
    exact ⟨inside, full, busy.imp (fun fresh => ⟨fresh.1, fresh.2.imp fun u => held u d⟩) id⟩

theorem Frugal.goto (frugal : Frugal n s) (bd : next.bd = s.bd)
    (held : ∀ u d, (next.pc u).held = some d → (s.pc u).held = some d) : Frugal n next :=
  frugal.keep (by rw [bd]) (fun _ => by rw [bd]) (fun _ => by rw [bd]) (bd ▸ .refl _) held

theorem Frugal.advance (frugal : Frugal n s) (inside : c < s.bd.count) (mine : (s.pc t).held = some c)
    (adv : Advance s.bd next.bd c) (woken : Woken s.pc pc) (pcs : next.pc = Function.update pc t p) (idle : p.held = none)
    (others : ∀ d, d ≠ c → (next.bd.chunk d).cachedData = (s.bd.chunk d).cachedData ∨ (next.bd.chunk d).cachedData = none)
    (own : (s.bd.chunk c).kind = .fullBlock → (next.bd.chunk c).cachedData.isSome → Raw (next.bd.chunk c).state) :
    Frugal n next where
  raw d below full some := by
    rw [adv.frame.count] at below
    rw [adv.frame.kind] at full
    by_cases same : d = c
    · subst same
      exact own full some
    · rw [adv.kept d same]
      rcases others d same with kept | gone
      · exact frugal.raw d below full (kept ▸ some)
      · rw [gone] at some
        cases some
  hand blocks each := by
    refine frugal.hand blocks fun d member => ?_
    obtain ⟨below, full, busy⟩ := each d member
    rw [adv.frame.count] at below
    rw [adv.frame.kind] at full
    refine ⟨below, full, ?_⟩
    by_cases same : d = c
    · subst same
      have rank := adv.rank
      rcases busy with ⟨fresh, _⟩ | raw
      · rw [fresh] at rank
        exact absurd rank (Nat.not_lt_zero _)
      · cases state : (s.bd.chunk d).state with
        | none => exact .inl ⟨rfl, t, mine⟩
        | _ =>
          refine .inr ?_
          rw [state] at rank
          have above := raw.2
          simp only [Raw, ChunkState.value] at rank above ⊢
          omega
    · rw [adv.kept d same] at busy
      refine busy.imp (fun fresh => ⟨fresh.1, ?_⟩) id
      obtain ⟨u, holds⟩ := fresh.2
      rw [pcs] at holds
      by_cases other : u = t
      · subst other
        rw [Function.update_self, idle] at holds
        cases holds
      · rw [Function.update_of_ne other, woken.held] at holds
        exact ⟨u, holds⟩

theorem Frugal.submit (frugal : Frugal n s) (sound : Sound (fun _ => True) s) {kind : ChunkKind} {data : DataPiece}
    (grown : Grown s.bd next.bd kind data) (woken : Woken s.pc next.pc) : Frugal n next where
  raw d below full some := by
    by_cases new : d = s.bd.count
    · subst new
      rw [grown.new] at some
      cases some
    · have inside : d < s.bd.count := by
        have := grown.count
        omega
      rw [grown.old d inside] at full some ⊢
      exact frugal.raw d inside full some
  hand blocks each := by
    refine frugal.hand blocks fun d member => ?_
    obtain ⟨below, full, busy⟩ := each d member
    by_cases new : d = s.bd.count
    · subst new
      rcases busy with ⟨_, u, holds⟩ | raw
      · rw [woken.held] at holds
        exact absurd (sound.chunks.located.held u _ holds).1 (Nat.lt_irrefl _)
      · rw [grown.new] at raw
        exact absurd raw.1 (by simp [Chunk.create, ChunkState.value])
    · have inside : d < s.bd.count := by
        have := grown.count
        omega
      rw [grown.old d inside] at full busy
      exact ⟨inside, full, busy.imp (fun fresh => ⟨fresh.1, fresh.2.imp fun u holds => by rwa [woken.held] at holds⟩) id⟩

theorem heldBound (crew : ∀ t, n ≤ t → s.pc t = .out) {blocks : Finset Nat}
    (held : ∀ c ∈ blocks, ∃ t, (s.pc t).held = some c) : blocks.card ≤ n := by
  have each (c : Nat) : ∃ t, c ∈ blocks → (s.pc t).held = some c := by
    by_cases member : c ∈ blocks
    · obtain ⟨t, holds⟩ := held c member
      exact ⟨t, fun _ => holds⟩
    · exact ⟨0, fun inside => absurd inside member⟩
  choose holder holds using each
  have mapped : ∀ c ∈ blocks, holder c ∈ Finset.range n := by
    intro c member
    by_contra outside
    have out := crew (holder c) (by simpa using outside)
    have mine := holds c member
    rw [out] at mine
    cases mine
  have apart : ∀ c ∈ blocks, ∀ d ∈ blocks, holder c = holder d → c = d := by
    intro c first d second same
    have mine := holds c first
    rw [same, holds d second] at mine
    exact (Option.some.inj mine).symm
  simpa using Finset.card_le_card_of_injOn holder mapped fun c first d second => apart c first d second

/- A chunk is read only where all blocks that were read are being worked on. -/
theorem rawHeld {d : Nat} {next : Bulkdata} (fit : Fit n s) (popped : s.bd.popNext = some (.readq, c, next))
    (inside : d < s.bd.count) (full : (s.bd.chunk d).kind = .fullBlock) (raw : Raw (s.bd.chunk d).state) :
    ∃ t, (s.pc t).held = some d := by
  have located := fit.sound.chunks.located
  have ready : s.bd.Ready d := by
    refine ⟨fun isOver => ?_, fun _ p prev => ?_, fun writable => ?_⟩
    · rw [isOver] at raw
      exact absurd raw.2 (by decide)
    · rw [fit.sound.chunks.linked.full d inside full] at prev
      cases prev
    · rw [writable] at raw
      exact absurd raw.2 (by decide)
  rcases located.covered d inside ready with ⟨p, queued⟩ | held
  · by_cases last : p = .readq
    · subst last
      have fresh := (located.queued _ d queued).2.1
      rw [fresh] at raw
      exact absurd raw.1 (by decide)
    · rw [popReading popped last] at queued
      cases queued
  · exact held

theorem Frugal.pop (frugal : Frugal n s) (fit : Fit n s) (below : t < n) (here : s.pc t = .loop)
    (popped : s.bd.popNext = some (q, c, bd)) : Frugal n ({s with bd := bd}.goto t (.popped q c)) := by
  obtain ⟨rest, shape, rfl⟩ := popSpec popped
  have located := fit.sound.chunks.located
  have mine := located.queued q c (by rw [shape]; exact List.mem_cons_self)
  refine ⟨frugal.raw, fun blocks each => ?_⟩
  by_cases reading : q = .readq
  · subst reading
    refine @heldBound ({s with bd := {s.bd with workq := Function.update s.bd.workq .readq rest}}.goto t (.popped .readq c)) n
      (fun u high => ?_) blocks fun d member => ?_
    · simp only [Image.goto]
      rw [Function.update_of_ne (by omega)]
      exact fit.crew u high
    · obtain ⟨inside, full, busy⟩ := each d member
      rcases busy with ⟨_, holds⟩ | raw
      · exact holds
      obtain ⟨u, holds⟩ := rawHeld fit popped inside full raw
      refine ⟨u, ?_⟩
      have other : u ≠ t := by
        rintro rfl
        rw [here] at holds
        cases holds
      simp only [Image.goto, Function.update_of_ne other]
      exact holds
  · refine frugal.hand blocks fun d member => ?_
    obtain ⟨inside, full, busy⟩ := each d member
    refine ⟨inside, full, busy.imp (fun fresh => ⟨fresh.1, ?_⟩) id⟩
    obtain ⟨u, holds⟩ := fresh.2
    by_cases other : u = t
    · subst other
      simp only [Image.goto, Function.update_self, Pc.held, Option.some.injEq] at holds
      subst holds
      have fresh : (s.bd.chunk c).state = .none := fresh.1
      rw [mine.2.1] at fresh
      cases q <;> first | exact absurd rfl reading | cases fresh
    · simp only [Image.goto, Function.update_of_ne other] at holds
      exact ⟨u, holds⟩

theorem Frugal.step (frugal : Frugal n s) (fit : Fit n s) (within : Within n s l) (taken : Step o s l next) :
    Frugal n next := by
  obtain ⟨_, move⟩ := taken
  have sound := fit.sound
  have inside {t c} (holds : (s.pc t).held = some c) : c < s.bd.count := (sound.chunks.located.held t c holds).1
  have spec {t q c allocated turn} (here : s.pc t = .popped q c) (result : stage o allocated s.bd s.size q c = .ok turn) :
      TurnSpec s.bd q c turn := by
    obtain ⟨_, inside, _, state⟩ := sound.working here rfl
    exact stageSpec sound.chunks.linked inside (sound.chunks.closing c inside) state result
  have goes {t : Nat} {p : Pc} (pcs : next.pc = Function.update s.pc t p)
      (less : ∀ c, p.held = some c → (s.pc t).held = some c) : ∀ u c, (next.pc u).held = some c → (s.pc u).held = some c := by
    intro u d holds
    rw [pcs] at holds
    by_cases own : u = t
    · subst own
      rw [Function.update_self] at holds
      exact less d holds
    · rwa [Function.update_of_ne own] at holds
  have idle {t : Nat} {p : Pc} (bd : next.bd = s.bd) (pcs : next.pc = Function.update s.pc t p) (none : p.held = none) :
      Frugal n next := frugal.goto bd (goes pcs fun c some => by rw [none] at some; cases some)
  have holding {t : Nat} {p : Pc} (bd : next.bd = s.bd) (pcs : next.pc = Function.update s.pc t p)
      (held : p.held = (s.pc t).held) : Frugal n next := frugal.goto bd (goes pcs fun c some => held ▸ some)
  have stays (bd : next.bd = s.bd) (pcs : next.pc = s.pc) : Frugal n next :=
    frugal.goto bd fun u c holds => by rwa [pcs] at holds
  have closed {pc pc' : Nat → Pc} (first : Signal s.pc pc) (second : Signal pc pc') :
      Frugal n {s with bd := s.bd.submit .closingPiece ⟨[], 0, 0⟩, pc := pc'} :=
    frugal.submit sound (submitGrows sound.chunks.linked .closingPiece ⟨[], 0, 0⟩)
      ((signalWoken first).trans (signalWoken second))
  cases move with
  | @submit kind data pc free unlocked own signal =>
    exact frugal.submit sound (submitGrows sound.chunks.linked kind data) (signalWoken signal)
  | closingQueued here unlocked first second => exact ⟨(closed first second).raw, (closed first second).hand⟩
  | closingQueuedAgain here unlocked first second =>
    have queued : Frugal n ({s with bd := s.bd.sealed, pc := _, api := .processing} : Image) :=
      ⟨(closed first second).raw, (closed first second).hand⟩
    refine queued.goto rfl fun u c holds => ?_
    simp only [Image.goto, Function.update_apply] at holds
    split at holds
    · cases holds
    · exact holds
  | flag here => exact within.1.elim
  | abort here unlocked => exact within.1.elim
  | setRoot | enter | refuse | rootFound | sealNeeded | sealed | closingFails | later | truncateFails | conclude | returns
  | stageFault | compressFault | writeFault => exact stays rfl rfl
  | rootMissing | sealedAgain | closingFailsAgain | processed | concludeFailed | spawn | opened | openFails | locked | leave
  | wait | spurious | abortCall | leaveFailed | waitFailed => exact idle rfl rfl rfl
  | readFails here | writeFails here => exact holding rfl rfl (by rw [here]; rfl)
  | pop here popped => exact frugal.pop fit (within.2 _ rfl) here popped
  | @again t q c allocated bd all here result =>
    obtain ⟨mine, inside, _, _⟩ := sound.working here rfl
    obtain ⟨adv, _⟩ := spec here result
    exact frugal.advance inside mine adv (broadcastWoken _ _) rfl rfl (fun d _ => stageDrops result d)
      fun full _ => stageRaw full result
  | @released t q c allocated bd size pc here result =>
    obtain ⟨same, working⟩ := spec here result
    refine frugal.keep same.frame.count same.frame.kind same.state (stageDrops result) (goes rfl fun d some => ?_)
    rw [here]
    rcases working with ⟨rfl, _⟩ | ⟨rfl, _⟩ | ⟨rfl, _⟩ <;> exact some
  | @outOfMemory t q c allocated bd here result =>
    have same := spec here result
    exact frugal.keep same.frame.count same.frame.kind same.state (stageDrops result) (goes rfl fun d some => by rwa [here])
  | @read t c here unlocked whole =>
    obtain ⟨mine, inside, _, doing⟩ := sound.working here rfl
    refine frugal.advance inside mine (readAdvances inside doing.1) (.refl _) rfl rfl (fun d other => .inl ?_)
      fun _ _ => ?_
    · simp only [Image.goto, chunkDoReadEnd, pushFront, Bulkdata.set, Function.update_of_ne other]
    · simp [Image.goto, chunkDoReadEnd, pushFront, Bulkdata.set, Raw, ChunkState.value]
  | @compressed t c allocated bd here unlocked result =>
    obtain ⟨mine, inside, _, state⟩ := sound.working here rfl
    obtain ⟨drops, given⟩ := compressEndDrops result
    refine frugal.advance inside mine (compressEndAdvances inside state result) (.refl _) rfl rfl
      (fun d _ => drops d) fun full some => ?_
    have gone : (bd.chunk c).cachedData = none := given full rfl
    have some : (bd.chunk c).cachedData.isSome := some
    rw [gone] at some
    cases some
  | @compressFails t c allocated bd here result =>
    obtain ⟨_, inside, _, state⟩ := sound.working here rfl
    have same := compressEndAdvances inside state result
    exact frugal.keep same.frame.count same.frame.kind same.state (compressEndDrops result).1
      (goes rfl fun d some => by rwa [here])
  | @written t c write bd all here unlocked result =>
    obtain ⟨mine, inside, _, state⟩ := sound.working here rfl
    have state : (s.bd.chunk c).state = .writable := state
    obtain ⟨adv, _⟩ := writeEndAdvances inside state result
    refine frugal.advance inside mine adv (broadcastWoken _ _) rfl rfl (fun d _ => writeEndDrops result d)
      fun full some => ?_
    rcases writeEndDrops result c with kept | gone
    · have raw := frugal.raw c inside full (kept ▸ some)
      rw [state] at raw
      exact absurd raw.2 (by decide)
    · have some : (bd.chunk c).cachedData.isSome := some
      rw [gone] at some
      cases some

theorem initFrugal (n : Nat) (compressBlocks compressFragments : Bool) (size : Nat) :
    Frugal n (init compressBlocks compressFragments size) where
  raw c inside := absurd inside (Nat.not_lt_zero c)
  hand blocks each := by
    have empty : blocks = ∅ := Finset.eq_empty_of_forall_notMem fun c member => absurd (each c member).1 (Nat.not_lt_zero c)
    rw [empty]
    exact Nat.zero_le n

/- No more blocks are in memory as they were read than there are threads, however many
were submitted and whichever thread is slow. -/
/- The second half is why: a chunk is read when nothing is left to do for those read before. -/
theorem blocksBuffered {compressBlocks compressFragments : Bool} {trace : List (Event Image Label)} {blocks : Finset Nat}
    (run : Run (Step o) (init compressBlocks compressFragments size) trace s) (some : 0 < n)
    (within : Obeys (Within n) trace) (buffered : ∀ c ∈ blocks, s.InMemory c) : blocks.card ≤ n ∧
      ∀ c bd, s.bd.popNext = .some (.readq, c, bd) → (∀ q, q ≠ .readq → s.bd.workq q = []) ∧
        ∀ d, s.InMemory d → ∃ t, (s.pc t).held = .some d := by
  obtain ⟨fit, frugal⟩ := Run.invariant (I := fun s => Fit n s ∧ Frugal n s)
    ⟨initFit n compressBlocks compressFragments size, initFrugal n compressBlocks compressFragments size⟩
    (fun _ _ _ known within taken => ⟨known.1.step some within taken, known.2.step known.1 within taken⟩) run within
  refine ⟨frugal.hand blocks fun c member => ?_, fun c bd popped => ⟨fun q => popReading popped, fun d held => ?_⟩⟩
  · obtain ⟨inside, full, held | ⟨t, reading⟩⟩ := buffered c member
    · exact ⟨inside, full, .inr (frugal.raw c inside full held)⟩
    · have doing := fit.sound.chunks.doing t
      rw [reading] at doing
      exact ⟨inside, full, .inl ⟨doing.1, t, by rw [reading]; rfl⟩⟩
  · obtain ⟨inside, full, cached | ⟨t, reading⟩⟩ := held
    · exact rawHeld fit popped inside full (frugal.raw d inside full cached)
    · exact ⟨t, by rw [reading]; rfl⟩

theorem twoBuffered : ∃ (o : ImageConfig) (trace : List (Event Image Label)) (s : Image),
    Run (Step o) (init true true 96) trace s ∧ s.bd.count = 2 ∧ s.pc 1 = .reading 0 ∧ s.pc 2 = .reading 1 ∧
      ({0, 1} : Finset Nat).card ≤ 3 := by
  let o : ImageConfig := ⟨4096, fun _ _ => none, [], false⟩
  have first : Run (Step o) (init true true 96) _ _ := .move .start
    ⟨rfl, @Move.submit _ _ .fullBlock ⟨[7], 1, 0⟩ _ ⟨rfl, rfl⟩ rfl (by simp) (.idle fun t => by simp [init])⟩
  have second := first.move
    ⟨rfl, @Move.submit _ _ .fullBlock ⟨[8], 1, 0⟩ _ ⟨rfl, rfl⟩ rfl (by simp) (.idle fun t => by simp [init])⟩
  have spawned := (second.move ⟨rfl, .spawn (t := 1) ⟨rfl, rfl⟩ rfl (by decide)⟩).move
    ⟨rfl, .spawn (t := 2) ⟨rfl, rfl⟩ rfl (by decide)⟩
  have reading := (((spawned.move ⟨rfl, .opened (t := 1) rfl⟩).move ⟨rfl, .locked (t := 1) rfl rfl⟩).move
    ⟨rfl, .pop (t := 1) rfl rfl⟩).move ⟨rfl, @Move.released _ _ 1 _ _ true _ _ _ rfl rfl⟩
  have both := (((reading.move ⟨rfl, .opened (t := 2) rfl⟩).move ⟨rfl, .locked (t := 2) rfl rfl⟩).move
    ⟨rfl, .pop (t := 2) rfl rfl⟩).move ⟨rfl, @Move.released _ _ 2 _ _ true _ _ _ rfl rfl⟩
  refine ⟨o, _, _, both, rfl, rfl, rfl, (blocksBuffered both (by decide) (by simp [Obeys, Within, Clean, init]; decide) ?_).1⟩
  intro c member
  simp only [Finset.mem_insert, Finset.mem_singleton] at member
  rcases member with rfl | rfl
  · exact ⟨by decide, rfl, .inr ⟨1, rfl⟩⟩
  · exact ⟨by decide, rfl, .inr ⟨2, rfl⟩⟩

end
end Image
end Libsqfs
