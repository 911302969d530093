import Libsqfs.BulkdataStages
import Libsqfs.Pipeline

/-! No chunk is lost, duplicated or processed in the wrong state. -/
namespace Libsqfs
namespace Image
open Bulkdata

theorem compressEndAdvances {o : ImageConfig} {bd next : Bulkdata} {c : Nat} {allocated done : Bool}
    (inside : c < bd.count) (state : (bd.chunk c).state = .assigned)
    (ok : compressEnd o allocated bd c = .ok (next, done)) :
    if done then Advance bd next c else Same bd next := by
  unfold compressEnd at ok
  split at ok
  · exact fullCompressAdvances inside state ok
  · exact pieceCompressAdvances inside state ok

theorem writeEndAdvances {bd next : Bulkdata} {c : Nat} {write : Medium.Write} {all : Bool}
    (inside : c < bd.count) (state : (bd.chunk c).state = .writable)
    (ok : writeEnd bd c = .ok (write, next, all)) :
    Advance bd next c ∧ (all = true ↔ next.finished = next.count) := by
  obtain ⟨t?, _, rest⟩ := bindOk ok
  obtain ⟨t, _, rest⟩ := bindOk rest
  obtain ⟨offset, _, rest⟩ := bindOk rest
  obtain ⟨data, _, rest⟩ := bindOk rest
  obtain ⟨⟨bd', all'⟩, done, rest⟩ := bindOk rest
  cases rest
  have same := sameSetBlock bd c {bd.block c t with data := none} t
  obtain ⟨adv, flag⟩ := finishAdvances (by rw [same.frame.count]; exact inside)
    (by rw [same.state]; exact state) done
  exact ⟨adv.after same, flag⟩

theorem mapOk {α β : Type} {x : Except Fault α} {f : α → β} {b : β}
    (ok : x.map f = .ok b) : ∃ a, x = .ok a ∧ f a = b := by
  cases x with
  | error e => cases ok
  | ok a => exact ⟨a, rfl, by simpa [Except.map] using ok⟩

theorem stageReleased {o : ImageConfig} {allocated : Bool} {bd next : Bulkdata} {size size' : Nat}
    {q : Workq} {c : Nat} {pc : Pc} (ok : stage o allocated bd size q c = .ok (.released next size' pc)) :
    pc = .reading c ∨ pc = .compressing c ∨ pc = .writing c := by
  cases q with
  | readq | dedupq | assignq | compressq =>
    cases kind : (bd.chunk c).kind <;> simp only [stage, kind] at ok
    all_goals first
      | cases ok
      | obtain ⟨done, _, same⟩ := mapOk ok
        first
        | cases same; simp
        | cases same
        | split at same <;> cases same
  | writeq =>
    simp only [stage] at ok
    obtain ⟨_, _, rest⟩ := bindOk ok
    obtain ⟨target, _, rest⟩ := bindOk rest
    cases target with
    | some t =>
      cases rest
      simp
    | none =>
      obtain ⟨_, _, same⟩ := mapOk rest
      cases same

def Working (bd : Bulkdata) (c : Nat) (pc : Pc) : Prop :=
  pc = .reading c ∧ (bd.chunk c).state = .none ∧ (bd.chunk c).kind ≠ .closingPiece ∨
    pc = .compressing c ∧ (bd.chunk c).state = .assigned ∨
    pc = .writing c ∧ (bd.chunk c).state = .writable

def TurnSpec (bd : Bulkdata) (q : Workq) (c : Nat) : Turn → Prop
  | .again next all => Advance bd next c ∧
      (q = .writeq → (all = true ↔ next.finished = next.count)) ∧ (q ≠ .writeq → all = false)
  | .released next _ pc => Same bd next ∧ Working bd c pc
  | .outOfMemory next => Same bd next

theorem stageSpec {o : ImageConfig} {allocated : Bool} {bd : Bulkdata} {size : Nat} {q : Workq}
    {c : Nat} {turn : Turn} (linked : Linked bd) (inside : c < bd.count)
    (closing : (bd.chunk c).kind = .closingPiece → (bd.chunk c).state ≠ .finished →
      (bd.chunk c).nextPiece = none)
    (state : (bd.chunk c).state = q.state)
    (ok : stage o allocated bd size q c = .ok turn) : TurnSpec bd q c turn := by
  have none (kind : (bd.chunk c).kind = .fullBlock) := linked.full c inside kind
  cases q with
  | readq =>
    cases kind : (bd.chunk c).kind <;> simp only [stage, kind] at ok
    case closingPiece =>
      cases ok
      exact ⟨closingReadAdvances inside state, by simp, fun _ => rfl⟩
    all_goals
      obtain ⟨_, _, rfl⟩ := mapOk ok
      exact ⟨.refl bd, .inl ⟨rfl, state, by rw [kind]; simp⟩⟩
  | dedupq =>
    cases kind : (bd.chunk c).kind <;> simp only [stage, kind] at ok <;>
      obtain ⟨next, done, rfl⟩ := mapOk ok
    case fullBlock => exact ⟨deduplicateAdvances inside (none kind) done, by simp, fun _ => rfl⟩
    all_goals exact ⟨pieceDeduplicateAdvances inside done, by simp, fun _ => rfl⟩
  | assignq =>
    cases kind : (bd.chunk c).kind <;> simp only [stage, kind] at ok <;>
      obtain ⟨next, done, rfl⟩ := mapOk ok
    case fullBlock =>
      exact ⟨assignAdvances linked inside kind done, by simp, fun _ => rfl⟩
    case fragmentPiece =>
      obtain ⟨next, good⟩ := next
      have spec := fragmentAssignAdvances linked inside done
      cases good with
      | true => exact ⟨spec, by simp, fun _ => rfl⟩
      | false => exact spec
    case closingPiece =>
      exact ⟨closingAssignStep linked inside (closing kind (by rw [state]; decide)) kind done,
        by simp, fun _ => rfl⟩
  | compressq =>
    cases kind : (bd.chunk c).kind <;> simp only [stage, kind] at ok <;>
      obtain ⟨_, _, rfl⟩ := mapOk ok <;>
      exact ⟨.refl bd, .inr (.inl ⟨rfl, state⟩)⟩
  | writeq =>
    simp only [stage] at ok
    obtain ⟨_, _, rest⟩ := bindOk ok
    obtain ⟨target, _, rest⟩ := bindOk rest
    cases target with
    | some t =>
      cases rest
      exact ⟨sameSetBlock bd c _ t, .inr (.inr ⟨rfl, state⟩)⟩
    | none =>
      obtain ⟨⟨next, all⟩, done, rfl⟩ := mapOk rest
      obtain ⟨adv, flag⟩ := finishAdvances inside state done
      exact ⟨adv, fun _ => flag, fun other => absurd rfl other⟩

/-! ### No assertion fails -/

theorem assertError {p : Prop} [Decidable p] {f : Fault} (err : assert p = .error f) : ¬ p := by
  unfold assert at err
  split at err
  · cases err
  · assumption

theorem derefError {α : Type} {x : Option α} {f : Fault} (err : deref x = .error f) :
    f = .nullPointer := by
  cases x with
  | none => cases err; rfl
  | some a => cases err

theorem bindError {α β : Type} {x : Except Fault α} {f : α → Except Fault β} {e : Fault}
    (err : x >>= f = .error e) : x = .error e ∨ ∃ a, x = .ok a ∧ f a = .error e := by
  cases x with
  | error e' => cases err; exact .inl rfl
  | ok a => exact .inr ⟨a, rfl, err⟩

theorem mapError {α β : Type} {x : Except Fault α} {f : α → β} {e : Fault}
    (err : x.map f = .error e) : x = .error e := by
  cases x with
  | error e' => simpa [Except.map] using err
  | ok a => cases err

theorem storeError {compressing allocated : Bool} {compress : Bool → Bytes → Option Bytes}
    {dst : ImageBlock} {src : Bytes} {f : Fault}
    (err : imageBlockStore compressing compress allocated dst src = .error f) : f = .nullPointer := by
  unfold imageBlockStore imageBlockCompress imageBlockUncompressed at err
  repeat' split at err
  all_goals first | cases err; rfl | cases err

theorem flushedError {bd : Bulkdata} {c : Nat} {f : Fault} (err : bd.flushed c = .error f) :
    f = .nullPointer := by
  rcases bindError err with first | ⟨_, _, second⟩
  · exact derefError first
  · exact derefError second

theorem copyError {bd : Bulkdata} {pieces : List Nat} {f : Fault}
    (err : bd.copyPieces pieces = .error f) : f = .nullPointer := by
  induction pieces with
  | nil => cases err
  | cons p rest ih =>
    rcases bindError err with first | ⟨_, _, err⟩
    · exact derefError first
    · rcases bindError err with first | ⟨_, _, err⟩
      · exact ih first
      · cases err

theorem compressEndError {o : ImageConfig} {bd : Bulkdata} {c : Nat} {allocated : Bool} {f : Fault}
    (err : compressEnd o allocated bd c = .error f) : f = .nullPointer := by
  unfold compressEnd at err
  split at err
  · rcases bindError err with first | ⟨_, _, err⟩
    · exact derefError first
    · rcases bindError err with first | ⟨result, _, err⟩
      · exact storeError first
      · cases result <;> cases err
  · rcases bindError err with first | ⟨_, _, err⟩
    · exact flushedError first
    · rcases bindError err with first | ⟨_, _, err⟩
      · exact copyError first
      · rcases bindError err with first | ⟨result, _, err⟩
        · exact storeError first
        · cases result <;> cases err

theorem targetError {bd : Bulkdata} {c : Nat} {f : Fault} (err : bd.target c = .error f) :
    f = .nullPointer := by
  unfold target at err
  split at err
  · cases err
  · split at err
    · exact flushedError (mapError err)
    · cases err

theorem finishError {bd : Bulkdata} {c : Nat} {f : Fault} (prev : bd.PrevFinished c)
    (err : bd.chunkMarkFinished c = .error f) : False := by
  rcases bindError err with first | ⟨_, _, err⟩
  · exact assertError first prev
  · cases err

theorem writeEndError {bd : Bulkdata} {c : Nat} {f : Fault} (prev : bd.PrevFinished c)
    (err : writeEnd bd c = .error f) : f = .nullPointer := by
  rcases bindError err with first | ⟨t?, _, err⟩
  · exact targetError first
  rcases bindError err with first | ⟨t, _, err⟩
  · exact derefError first
  rcases bindError err with first | ⟨offset, _, err⟩
  · exact derefError first
  rcases bindError err with first | ⟨data, _, err⟩
  · exact derefError first
  rcases bindError err with first | ⟨_, _, err⟩
  · exact (finishError (((sameSetBlock bd c _ t).prevFinished c).mpr prev) first).elim
  · cases err

theorem stageError {o : ImageConfig} {allocated : Bool} {bd : Bulkdata} {size : Nat} {q : Workq}
    {c : Nat} {f : Fault} (state : (bd.chunk c).state = q.state) (ready : bd.Ready c)
    (positive : (bd.chunk c).kind ≠ .closingPiece → (bd.chunk c).data.size ≠ 0)
    (flushes : (bd.chunk c).kind ≠ .fullBlock → (bd.chunk c).state = .assigned →
      (bd.chunk c).flushPreviousBlock = true)
    (err : stage o allocated bd size q c = .error f) : f = .nullPointer := by
  cases q with
  | readq =>
    cases kind : (bd.chunk c).kind <;> simp only [stage, kind] at err
    case closingPiece => cases err
    all_goals
      rcases bindError (mapError err) with first | ⟨_, _, second⟩
      · exact absurd state (assertError first)
      · exact absurd (positive (by rw [kind]; simp)) (assertError second)
  | dedupq =>
    cases kind : (bd.chunk c).kind <;> simp only [stage, kind] at err <;>
      rcases bindError (mapError err) with first | ⟨_, _, second⟩
    all_goals first
      | exact absurd state (assertError first)
      | cases second
      | (simp only at second; split at second <;> cases second)
  | assignq =>
    cases kind : (bd.chunk c).kind <;> simp only [stage, kind] at err <;>
      rcases bindError (mapError err) with first | ⟨_, _, second⟩
    case fragmentPiece.inr =>
      rcases bindError second with first | ⟨⟨target, mid⟩, _, err⟩
      · unfold previousBlock at first
        split at first
        · cases first
        · rcases bindError first with err | ⟨_, _, err⟩
          · exact derefError err
          · split at err <;> cases err
      · cases target with
        | some f => cases err
        | none =>
          simp only at err
          split at err <;> cases err
    all_goals first
      | exact absurd state (assertError first)
      | cases second
  | compressq =>
    cases kind : (bd.chunk c).kind <;> simp only [stage, kind] at err
    case fullBlock => exact absurd state (assertError (mapError err))
    all_goals
      rcases bindError (mapError err) with first | ⟨_, _, err⟩
      · exact absurd state (assertError first)
      · rcases bindError err with first | ⟨_, _, err⟩
        · exact absurd (flushes (by rw [kind]; simp) state) (assertError first)
        · rcases bindError err with first | ⟨_, _, err⟩
          · exact flushedError first
          · cases err
  | writeq =>
    simp only [stage] at err
    rcases bindError err with first | ⟨_, _, err⟩
    · exact absurd state (assertError first)
    · rcases bindError err with first | ⟨target, _, err⟩
      · exact targetError first
      · cases target with
        | some t => cases err
        | none => exact (finishError (ready.2.2 state) (mapError err)).elim

/-! ### The invariant -/

end Image

def Pc.held : Pc → Option Nat
  | .popped _ c => some c
  | .reading c => some c
  | .compressing c => some c
  | .writing c => some c
  | .flagging c => c
  | .aborting c => c
  | _ => none

def Pc.Doing (bd : Bulkdata) : Pc → Prop
  | .popped q c => (bd.chunk c).state = q.state
  | .reading c => (bd.chunk c).state = .none ∧ (bd.chunk c).kind ≠ .closingPiece
  | .compressing c => (bd.chunk c).state = .assigned
  | .writing c => (bd.chunk c).state = .writable
  | _ => True

namespace Image
open Bulkdata

def holders (pc : Nat → Pc) : Nat → Option Nat := fun t => (pc t).held

/- `P` is what is known of the pieces of data that were submitted. -/
structure Chunks (P : DataPiece → Prop) (bd : Bulkdata) (pc : Nat → Pc) : Prop where
  linked : Linked bd
  located : Located bd (holders pc)
  doing : ∀ t, (pc t).Doing bd
  fits : ∀ c, c < bd.count → (bd.chunk c).kind ≠ .closingPiece → P (bd.chunk c).data
  flushes : ∀ c, c < bd.count → (bd.chunk c).kind ≠ .fullBlock → (bd.chunk c).state = .assigned →
    (bd.chunk c).flushPreviousBlock = true
  closing : ∀ c, c < bd.count → (bd.chunk c).kind = .closingPiece →
    (bd.chunk c).state ≠ .finished → (bd.chunk c).nextPiece = none
  placed : ∀ c, c < bd.count → (bd.chunk c).kind = .fragmentPiece →
    ChunkState.assigned.value ≤ (bd.chunk c).state.value → (bd.chunk c).fragmentBlock.isSome = true

def Sealing (api : Api) : Prop := api = .seal true ∨ api = .closing true ∨ api = .processing

def Calling (p : Pc) : Prop := p = .out ∨ p = .flagging none ∨ p = .aborting none

/- What the one user of the image has done to the chain. -/
structure Calls (s : Image) : Prop where
  adding : s.bd.mayAddChunks = true → ∀ c, c < s.bd.count → (s.bd.chunk c).kind ≠ .closingPiece
  closed : ¬ Sealing s.api → ∀ c, c < s.bd.count → (s.bd.chunk c).kind = .closingPiece →
    (s.bd.chunk c).state = .finished
  returned : s.pc 0 = .gone → s.bd.finished = s.bd.count ∧ s.bd.mayAddChunks = false
  apart : s.api ≠ .processing → Calling (s.pc 0)
  unsealed : ∀ again, s.api = .closing again → s.bd.mayAddChunks = true
  sealed : Sealing s.api → s.bd.mayAddChunks = false

def Woken (pc next : Nat → Pc) : Prop :=
  ∀ t, next t = pc t ∨ pc t = .waiting ∧ next t = .locking

theorem Woken.refl (pc : Nat → Pc) : Woken pc pc := fun _ => .inl rfl

theorem Woken.trans {a b c : Nat → Pc} (first : Woken a b) (second : Woken b c) : Woken a c := by
  intro t
  rcases second t with same | ⟨was, now⟩
  · rw [same]; exact first t
  · rcases first t with same' | ⟨_, now'⟩
    · exact .inr ⟨same' ▸ was, now⟩
    · rw [now'] at was; cases was

theorem signalWoken {pc next : Nat → Pc} (signal : Signal pc next) : Woken pc next := by
  cases signal with
  | @wake t waits =>
    intro u
    by_cases own : u = t
    · subst own; exact .inr ⟨waits, Function.update_self ..⟩
    · exact .inl (Function.update_of_ne own ..)
  | idle => exact .refl _

theorem wakeAllWoken (pc : Nat → Pc) : Woken pc (wakeAll pc) := by
  intro t
  by_cases waits : pc t = .waiting
  · exact .inr ⟨waits, by simp [wakeAll, waits]⟩
  · exact .inl (by simp [wakeAll, waits])

theorem broadcastWoken (pc : Nat → Pc) (all : Bool) :
    Woken pc (if all then wakeAll pc else pc) := by
  split
  · exact wakeAllWoken pc
  · exact .refl pc

theorem Woken.held {pc next : Nat → Pc} (woken : Woken pc next) (t : Nat) :
    (next t).held = (pc t).held := by
  rcases woken t with same | ⟨was, now⟩
  · rw [same]
  · rw [was, now]; rfl

theorem Woken.doing {pc next : Nat → Pc} {bd : Bulkdata} (woken : Woken pc next) {t : Nat}
    (doing : (pc t).Doing bd) : (next t).Doing bd := by
  rcases woken t with same | ⟨_, now⟩
  · rw [same]; exact doing
  · rw [now]; trivial

theorem holdersUpdate (pc : Nat → Pc) (t : Nat) (p : Pc) :
    holders (Function.update pc t p) = Function.update (holders pc) t p.held := by
  funext u
  simp only [holders, Function.update_apply]
  split <;> rfl

theorem Woken.holders {pc next : Nat → Pc} (woken : Woken pc next) : holders next = holders pc :=
  funext woken.held

theorem doingKept {bd next : Bulkdata} {p : Pc} (kind : ∀ d, (next.chunk d).kind = (bd.chunk d).kind)
    (kept : ∀ d, p.held = some d → (next.chunk d).state = (bd.chunk d).state)
    (doing : p.Doing bd) : p.Doing next := by
  cases p <;> simp only [Pc.Doing] at doing ⊢ <;> simp only [Pc.held, Option.some.injEq] at kept
  case popped q c => rw [kept c rfl]; exact doing
  case reading c => rw [kept c rfl, kind]; exact doing
  case compressing c => rw [kept c rfl]; exact doing
  case writing c => rw [kept c rfl]; exact doing

theorem doingUpdate {bd : Bulkdata} {pc : Nat → Pc} {t : Nat} {p : Pc}
    (doing : ∀ u, u ≠ t → (pc u).Doing bd) (own : p.Doing bd) (u : Nat) :
    (Function.update pc t p u).Doing bd := by
  by_cases same : u = t
  · subst same; rw [Function.update_self]; exact own
  · rw [Function.update_of_ne same]; exact doing u same

section
variable {P : DataPiece → Prop} {bd next : Bulkdata} {pc pc' : Nat → Pc} {t c : Nat} {p : Pc}

theorem Chunks.woken (chunks : Chunks P bd pc) (woken : Woken pc pc') : Chunks P bd pc' where
  linked := chunks.linked
  located := by rw [woken.holders]; exact chunks.located
  doing t := woken.doing (chunks.doing t)
  fits := chunks.fits
  flushes := chunks.flushes
  closing := chunks.closing
  placed := chunks.placed

theorem Chunks.goto (chunks : Chunks P bd pc) (held : p.held = (pc t).held) (doing : p.Doing bd) :
    Chunks P bd (Function.update pc t p) where
  linked := chunks.linked
  located := by
    rw [holdersUpdate, held]
    have same : Function.update (holders pc) t (pc t).held = holders pc :=
      Function.update_eq_self t (holders pc)
    rw [same]
    exact chunks.located
  doing := doingUpdate (fun u _ => chunks.doing u) doing
  fits := chunks.fits
  flushes := chunks.flushes
  closing := chunks.closing
  placed := chunks.placed

theorem Chunks.same (chunks : Chunks P bd pc) (same : Same bd next) : Chunks P next pc where
  linked := same.linked chunks.linked
  located := chunks.located.same same
  doing t := doingKept same.frame.kind (fun d _ => same.state d) (chunks.doing t)
  fits c := by
    rw [same.frame.count, same.frame.kind, same.frame.data]; exact chunks.fits c
  flushes c := by
    rw [same.frame.count, same.frame.kind, same.state]
    exact fun below kind state => same.frame.flush c (chunks.flushes c below kind state)
  closing c := by
    rw [same.frame.count, same.frame.kind, same.state, same.frame.nextPiece]
    exact chunks.closing c
  placed c := by
    rw [same.frame.count, same.frame.kind, same.state]
    exact fun below kind high => same.frame.placed c (chunks.placed c below kind high)

theorem Chunks.advance (chunks : Chunks P bd pc) (mine : (pc t).held = some c)
    (adv : Advance bd next c) (idle : p.held = none) (doing : p.Doing next) :
    Chunks P next (Function.update pc t p) where
  linked := by
    obtain ⟨count, last, _, _, _, _, kind, _, prev, following, _, _⟩ := adv.frame
    refine ⟨fun c p => ?_, fun p n => ?_, fun c => ?_, fun p => ?_⟩
    · rw [count, prev, following, kind]; exact chunks.linked.prev c p
    · rw [count, prev, following]; exact chunks.linked.next p n
    · rw [count, prev, kind]; exact chunks.linked.full c
    · rw [last, count, following, kind]; exact chunks.linked.last p
  located := by
    rw [holdersUpdate, idle]
    exact chunks.located.advance mine adv
  doing := by
    refine doingUpdate (fun u other => ?_) doing
    refine doingKept adv.frame.kind (fun d holds => adv.kept d fun same => other ?_) (chunks.doing u)
    exact chunks.located.unique u t c (same ▸ holds) mine
  fits d := by
    rw [adv.frame.count, adv.frame.kind, adv.frame.data]; exact chunks.fits d
  flushes d := by
    rw [adv.frame.count, adv.frame.kind]
    intro below kind state
    by_cases own : d = c
    · subst own; exact adv.flushes state kind
    · rw [adv.kept d own] at state
      exact adv.frame.flush d (chunks.flushes d below kind state)
  closing d := by
    rw [adv.frame.count, adv.frame.kind, adv.frame.nextPiece]
    intro below kind state
    by_cases own : d = c
    · subst own; exact chunks.closing d below kind adv.unfinished
    · rw [adv.kept d own] at state
      exact chunks.closing d below kind state
  placed d := by
    rw [adv.frame.count, adv.frame.kind]
    intro below kind high
    by_cases own : d = c
    · subst own
      rcases adv.placed high kind with before | now
      · exact adv.frame.placed d (chunks.placed d below kind before)
      · exact now
    · rw [adv.kept d own] at high
      exact adv.frame.placed d (chunks.placed d below kind high)

theorem Chunks.take {q : Workq} {rest : List Nat} (chunks : Chunks P bd pc) (idle : (pc t).held = none)
    (shape : bd.workq q = c :: rest) :
    Chunks P {bd with workq := Function.update bd.workq q rest} (Function.update pc t (.popped q c)) where
  linked := ⟨chunks.linked.prev, chunks.linked.next, chunks.linked.full, chunks.linked.last⟩
  located := by
    rw [holdersUpdate]
    exact chunks.located.take idle shape
  doing := doingUpdate (fun u _ => doingKept (fun _ => rfl) (fun _ _ => rfl) (chunks.doing u))
    (chunks.located.queued q c (by rw [shape]; exact List.mem_cons_self)).2.1
  fits := chunks.fits
  flushes := chunks.flushes
  closing := chunks.closing
  placed := chunks.placed

theorem Chunks.grown {kind : ChunkKind} {data : DataPiece} (chunks : Chunks P bd pc)
    (grown : Grown bd next kind data) (fits : kind ≠ .closingPiece → P data)
    (closed : ∀ c, c < bd.count → (bd.chunk c).kind = .closingPiece →
      (bd.chunk c).state = .finished) : Chunks P next pc where
  linked := grown.linked chunks.linked
  located := grown.located chunks.linked chunks.located
  doing t := by
    have inside (d) (holds : (pc t).held = some d) : d < bd.count :=
      (chunks.located.held t d holds).1
    have doing := chunks.doing t
    have keeps (d) (holds : (pc t).held = some d) : (next.chunk d).state = (bd.chunk d).state ∧
        (next.chunk d).kind = (bd.chunk d).kind := by
      rw [grown.old d (inside d holds)]
      exact ⟨rfl, rfl⟩
    generalize pc t = p at doing keeps
    cases p <;> simp only [Pc.Doing] at doing ⊢ <;> simp only [Pc.held, Option.some.injEq] at keeps
    case popped q c => rw [(keeps c rfl).1]; exact doing
    case reading c => rw [(keeps c rfl).1, (keeps c rfl).2]; exact doing
    case compressing c => rw [(keeps c rfl).1]; exact doing
    case writing c => rw [(keeps c rfl).1]; exact doing
  fits d below := by
    rw [grown.count] at below
    by_cases own : d = bd.count
    · subst own; rw [grown.new]; exact fits
    · rw [grown.old d (by omega)]; exact chunks.fits d (by omega)
  flushes d below := by
    rw [grown.count] at below
    by_cases own : d = bd.count
    · subst own
      rw [grown.new]
      exact fun _ state => by cases state
    · rw [grown.old d (by omega)]; exact chunks.flushes d (by omega)
  closing d below := by
    rw [grown.count] at below
    by_cases own : d = bd.count
    · subst own; rw [grown.new]; exact fun _ _ => rfl
    · have inside : d < bd.count := by omega
      rw [grown.old d inside]
      exact fun kind' state => absurd (closed d inside kind') state
  placed d below := by
    rw [grown.count] at below
    by_cases own : d = bd.count
    · subst own
      rw [grown.new]
      exact fun _ high => absurd high (by simp [Chunk.create, ChunkState.value])
    · rw [grown.old d (by omega)]; exact chunks.placed d (by omega)

end

/- What the calls of thread 0 need of the bulk data after a step of any thread. -/
structure Onward (bd next : Bulkdata) : Prop where
  count : next.count = bd.count
  mayAddChunks : next.mayAddChunks = bd.mayAddChunks
  kind : ∀ d, (next.chunk d).kind = (bd.chunk d).kind
  finished : ∀ d, (bd.chunk d).state = .finished → (next.chunk d).state = .finished
  all : bd.finished = bd.count → next.finished = next.count

theorem onwardSame {bd next : Bulkdata} (same : Same bd next) : Onward bd next where
  count := same.frame.count
  mayAddChunks := same.frame.mayAddChunks
  kind := same.frame.kind
  finished d isOver := by rw [same.state]; exact isOver
  all isOver := by rw [same.finished, same.frame.count]; exact isOver

theorem onwardAdvance {bd next : Bulkdata} {h : Nat → Option Nat} {c : Nat}
    (located : Located bd h) (inside : c < bd.count) (adv : Advance bd next c) :
    Onward bd next where
  count := adv.frame.count
  mayAddChunks := adv.frame.mayAddChunks
  kind := adv.frame.kind
  finished d isOver := by
    have other : d ≠ c := fun same => adv.unfinished (same ▸ isOver)
    rw [adv.kept d other]; exact isOver
  all isOver := absurd ((located.finished c inside).mpr (by omega)) adv.unfinished

theorem Calls.thread {s next : Image} {t : Nat} {p : Pc} {pc : Nat → Pc} (calls : Calls s)
    (onward : Onward s.bd next.bd) (api : next.api = s.api) (woken : Woken s.pc pc)
    (pcs : next.pc = Function.update pc t p) (place : Calling (s.pc t) → t = 0 → Calling p)
    (gone : p = .gone → s.bd.finished = s.bd.count ∧ s.bd.mayAddChunks = false) : Calls next where
  adding := by
    rw [onward.mayAddChunks, onward.count]
    exact fun more c below => by rw [onward.kind]; exact calls.adding more c below
  closed := by
    rw [api, onward.count]
    exact fun free c below closing =>
      onward.finished c (calls.closed free c below (by rw [← onward.kind]; exact closing))
  returned left := by
    rw [onward.mayAddChunks]
    by_cases own : t = 0
    · subst own
      rw [pcs, Function.update_self] at left
      exact ⟨onward.all (gone left).1, (gone left).2⟩
    · rw [pcs, Function.update_of_ne (Ne.symm own)] at left
      rcases woken 0 with same | ⟨_, now⟩
      · rw [same] at left
        exact ⟨onward.all (calls.returned left).1, (calls.returned left).2⟩
      · rw [now] at left; cases left
  apart away := by
    rw [api] at away
    have before := calls.apart away
    by_cases own : t = 0
    · subst own
      rw [pcs, Function.update_self]
      exact place before rfl
    · rw [pcs, Function.update_of_ne (Ne.symm own)]
      rcases woken 0 with same | ⟨was, _⟩
      · rw [same]; exact before
      · rcases before with h | h | h <;> rw [h] at was <;> cases was
  unsealed again here := by rw [onward.mayAddChunks]; exact calls.unsealed again (api ▸ here)
  sealed here := by rw [onward.mayAddChunks]; exact calls.sealed (api ▸ here)

theorem Calls.move {s next : Image} (calls : Calls s) (bd : next.bd = s.bd)
    (sealed : Sealing next.api → s.bd.mayAddChunks = false)
    (closed : Sealing s.api → Sealing next.api ∨ s.bd.finished = s.bd.count)
    (located : Located s.bd (holders s.pc))
    (unsealed : ∀ again, next.api = .closing again → s.bd.mayAddChunks = true)
    (returned : next.pc 0 ≠ .gone) (apart : next.api ≠ .processing → Calling (next.pc 0)) :
    Calls next where
  adding := by rw [bd]; exact calls.adding
  closed free := by
    rw [bd]
    by_cases here : Sealing s.api
    · rcases closed here with still | all
      · exact absurd still free
      · exact fun c below _ => (located.finished c below).mpr (by omega)
    · exact calls.closed here
  returned left := absurd left returned
  apart := apart
  unsealed again here := by rw [bd]; exact unsealed again here
  sealed here := by rw [bd]; exact sealed here

end Image
end Libsqfs
