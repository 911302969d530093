import Libsqfs.PipelineSound

/-! The chunks of an image that may be aborted. What a clearing of the queues or a
failed operation drops is kept in queues of its own, so that every chunk still has
its place. -/
namespace Libsqfs

namespace Bulkdata

def withLost (bd : Bulkdata) (lost : Workq → List Nat) : Bulkdata :=
  {bd with workq := fun q => bd.workq q ++ lost q}

variable {bd next : Bulkdata} {lost : Workq → List Nat} {c : Nat}

theorem lostSame (same : Same bd next) : Same (bd.withLost lost) (next.withLost lost) where
  frame := ⟨same.frame.1, same.frame.2, same.frame.3, same.frame.4, same.frame.5, same.frame.6, same.frame.7,
    same.frame.8, same.frame.9, same.frame.10, same.frame.11, same.frame.12⟩
  state := same.state
  workq := by
    unfold withLost
    rw [same.workq]
  finished := same.finished

theorem lostAdvance (adv : Advance bd next c) : Advance (bd.withLost lost) (next.withLost lost) c where
  frame := ⟨adv.frame.1, adv.frame.2, adv.frame.3, adv.frame.4, adv.frame.5, adv.frame.6, adv.frame.7,
    adv.frame.8, adv.frame.9, adv.frame.10, adv.frame.11, adv.frame.12⟩
  kept := adv.kept
  rank := adv.rank
  queues q := by
    obtain ⟨l, shape, nodup, fresh⟩ := adv.queues q
    exact ⟨l, by simp only [withLost, shape, List.append_assoc], nodup, fresh⟩
  finished := adv.finished
  last := adv.last
  flushes := adv.flushes
  placed := adv.placed

theorem Located.release {h : Nat → Option Nat} {t : Nat} {q : Workq} (located : Located bd h)
    (mine : h t = some c) (state : (bd.chunk c).state = q.state) :
    Located {bd with workq := Function.update bd.workq q (bd.workq q ++ [c])} (Function.update h t none) := by
  obtain ⟨inside, ready, absent⟩ := located.held t c mine
  have member {r : Workq} {d : Nat} (queued : d ∈ Function.update bd.workq q (bd.workq q ++ [c]) r) :
      d ∈ bd.workq r ∨ r = q ∧ d = c := by
    by_cases own : r = q
    · subst own
      rw [Function.update_self] at queued
      rcases List.mem_append.mp queued with old | new
      · exact .inl old
      · exact .inr ⟨rfl, List.mem_singleton.mp new⟩
    · rw [Function.update_of_ne own] at queued
      exact .inl queued
  have stays {r : Workq} {d : Nat} (queued : d ∈ bd.workq r) :
      d ∈ Function.update bd.workq q (bd.workq q ++ [c]) r := by
    by_cases own : r = q
    · subst own
      rw [Function.update_self]
      exact List.mem_append_left _ queued
    · rwa [Function.update_of_ne own]
  have other {u d : Nat} (holds : Function.update h t none u = some d) : h u = some d ∧ u ≠ t := by
    by_cases own : u = t
    · subst own
      rw [Function.update_self] at holds
      cases holds
    · rw [Function.update_of_ne own] at holds
      exact ⟨holds, own⟩
  refine ⟨fun r d queued => ?_, fun r => ?_, fun u d holds => ?_, fun u v d left right => ?_,
    fun d below ready' => ?_, located.bound, located.finished⟩
  · rcases member queued with old | ⟨rfl, rfl⟩
    · exact located.queued r d old
    · exact ⟨inside, state, ready⟩
  · by_cases own : r = q
    · subst own
      simp only [Function.update_self]
      refine List.nodup_append.mpr ⟨located.nodup r, by simp, fun d old x new same => ?_⟩
      rw [same, List.mem_singleton.mp new] at old
      exact absent r old
    · simp only [Function.update_of_ne own]
      exact located.nodup r
  · obtain ⟨holds, away⟩ := other holds
    obtain ⟨below, ready', absent'⟩ := located.held u d holds
    refine ⟨below, ready', fun r queued => ?_⟩
    rcases member queued with old | ⟨_, rfl⟩
    · exact absent' r old
    · exact away (located.unique u t d holds mine)
  · exact located.unique u v d (other left).1 (other right).1
  · rcases located.covered d below ready' with ⟨r, queued⟩ | ⟨u, holds⟩
    · exact .inl ⟨r, stays queued⟩
    · by_cases own : u = t
      · subst own
        rw [mine] at holds
        obtain rfl := Option.some.inj holds
        exact .inl ⟨q, by simp⟩
      · exact .inr ⟨u, by rw [Function.update_of_ne own]; exact holds⟩

theorem Located.perm {h : Nat → Option Nat} (located : Located bd h) {workq : Workq → List Nat}
    (perm : ∀ q, (workq q).Perm (bd.workq q)) : Located {bd with workq := workq} h where
  queued q c member := located.queued q c ((perm q).mem_iff.mp member)
  nodup q := (perm q).nodup_iff.mpr (located.nodup q)
  held t c holds :=
    ⟨(located.held t c holds).1, (located.held t c holds).2.1, fun q member =>
      (located.held t c holds).2.2 q ((perm q).mem_iff.mp member)⟩
  unique := located.unique
  covered c below ready := by
    rcases located.covered c below ready with ⟨q, member⟩ | held
    · exact .inl ⟨q, (perm q).mem_iff.mpr member⟩
    · exact .inr held
  bound := located.bound
  finished := located.finished

theorem lostRelease (bd : Bulkdata) (lost : Workq → List Nat) (q : Workq) (c : Nat) :
    bd.withLost (Function.update lost q (lost q ++ [c])) = {bd.withLost lost with
      workq := Function.update (bd.withLost lost).workq q ((bd.withLost lost).workq q ++ [c])} := by
  unfold withLost
  congr 1
  funext r
  by_cases own : r = q
  · subst own
    simp
  · simp [Function.update_of_ne own]

theorem lostTake (bd : Bulkdata) (lost : Workq → List Nat) (q : Workq) (rest : List Nat) :
    ({bd with workq := Function.update bd.workq q rest} : Bulkdata).withLost lost =
      {bd.withLost lost with workq := Function.update (bd.withLost lost).workq q (rest ++ lost q)} := by
  unfold withLost
  congr 1
  funext r
  by_cases own : r = q
  · subst own
    simp
  · simp [Function.update_of_ne own]

theorem lostSubmit (bd : Bulkdata) (lost : Workq → List Nat) (kind : ChunkKind) (data : DataPiece) :
    (bd.submit kind data).withLost lost =
      {(bd.withLost lost).submit kind data with workq := ((bd.submit kind data).withLost lost).workq} := by
  cases kind with
  | fullBlock => rfl
  | fragmentPiece | closingPiece =>
    unfold submit enqueuePieceLocked
    have same : (bd.withLost lost).lastPiece = bd.lastPiece := rfl
    simp only [same]
    cases bd.lastPiece <;> rfl

theorem lostSubmitPerm (linked : Linked bd) (lost : Workq → List Nat) (kind : ChunkKind) (data : DataPiece)
    (q : Workq) : (((bd.submit kind data).withLost lost).workq q).Perm
      (((bd.withLost lost).submit kind data).workq q) := by
  have linked' : Linked (bd.withLost lost) := ⟨linked.1, linked.2, linked.3, linked.4⟩
  have left := (submitGrows linked kind data).workq q
  have right := (submitGrows linked' kind data).workq q
  rw [right]
  simp only [withLost, left]
  by_cases own : q = .readq
  · subst own
    simp only [if_pos]
    rw [List.append_assoc, List.append_assoc]
    exact List.perm_append_left_iff _ |>.mpr List.perm_append_comm
  · simp only [if_neg own]
    exact .refl _

end Bulkdata

namespace Image
open Bulkdata Transition

section
variable {P : DataPiece → Prop} {o : ImageConfig} {s next : Image} {l : Label} {bd bd' : Bulkdata}
  {pc pc' : Nat → Pc} {t c : Nat} {p : Pc}

def Tracked (P : DataPiece → Prop) (bd : Bulkdata) (pc : Nat → Pc) : Prop :=
  ∃ lost, Chunks P (bd.withLost lost) pc

theorem Tracked.linked (tracked : Tracked P bd pc) : Linked bd := by
  obtain ⟨lost, chunks⟩ := tracked
  exact ⟨chunks.linked.1, chunks.linked.2, chunks.linked.3, chunks.linked.4⟩

theorem Tracked.inside (tracked : Tracked P bd pc) (holds : (pc t).held = some c) : c < bd.count := by
  obtain ⟨lost, chunks⟩ := tracked
  exact (chunks.located.held t c holds).1

theorem Tracked.doing (tracked : Tracked P bd pc) (t : Nat) : (pc t).Doing bd := by
  obtain ⟨lost, chunks⟩ := tracked
  exact doingKept (fun _ => rfl) (fun _ _ => rfl) (chunks.doing t)

theorem Tracked.closing (tracked : Tracked P bd pc) (inside : c < bd.count)
    (kind : (bd.chunk c).kind = .closingPiece) (state : (bd.chunk c).state ≠ .finished) :
    (bd.chunk c).nextPiece = none := by
  obtain ⟨lost, chunks⟩ := tracked
  exact chunks.closing c inside kind state

theorem Tracked.woken (tracked : Tracked P bd pc) (woken : Woken pc pc') : Tracked P bd pc' := by
  obtain ⟨lost, chunks⟩ := tracked
  exact ⟨lost, chunks.woken woken⟩

theorem Tracked.goto (tracked : Tracked P bd pc) (held : p.held = (pc t).held) (doing : p.Doing bd) :
    Tracked P bd (Function.update pc t p) := by
  obtain ⟨lost, chunks⟩ := tracked
  exact ⟨lost, chunks.goto held (doingKept (fun _ => rfl) (fun _ _ => rfl) doing)⟩

theorem Tracked.same (tracked : Tracked P bd pc) (same : Same bd bd') : Tracked P bd' pc := by
  obtain ⟨lost, chunks⟩ := tracked
  exact ⟨lost, chunks.same (lostSame same)⟩

theorem Tracked.advance (tracked : Tracked P bd pc) (mine : (pc t).held = some c) (adv : Advance bd bd' c) :
    Tracked P bd' (Function.update pc t .loop) := by
  obtain ⟨lost, chunks⟩ := tracked
  exact ⟨lost, chunks.advance mine (lostAdvance adv) rfl trivial⟩

theorem Tracked.take {q : Workq} {rest : List Nat} (tracked : Tracked P bd pc) (idle : (pc t).held = none)
    (shape : bd.workq q = c :: rest) :
    Tracked P {bd with workq := Function.update bd.workq q rest} (Function.update pc t (.popped q c)) := by
  obtain ⟨lost, chunks⟩ := tracked
  have shape' : (bd.withLost lost).workq q = c :: (rest ++ lost q) := by
    simp only [withLost, shape, List.cons_append]
  have taken := chunks.take idle shape'
  exact ⟨lost, lostTake bd lost q rest ▸ taken⟩

theorem Tracked.grown {kind : ChunkKind} {data : DataPiece} (tracked : Tracked P bd pc)
    (fits : kind ≠ .closingPiece → P data)
    (none : ∀ c, c < bd.count → (bd.chunk c).kind ≠ .closingPiece) : Tracked P (bd.submit kind data) pc := by
  have linked := tracked.linked
  obtain ⟨lost, chunks⟩ := tracked
  have whole := chunks.grown (submitGrows chunks.linked kind data) fits fun c below closing =>
    absurd closing (none c below)
  refine ⟨lost, ?_⟩
  rw [lostSubmit]
  exact {
    linked := ⟨whole.linked.1, whole.linked.2, whole.linked.3, whole.linked.4⟩
    located := whole.located.perm (lostSubmitPerm linked lost kind data)
    doing := fun t => doingKept (fun _ => rfl) (fun _ _ => rfl) (whole.doing t)
    fits := whole.fits
    flushes := whole.flushes
    closing := whole.closing
    placed := whole.placed }

theorem Tracked.flags (tracked : Tracked P bd pc) (mayAddChunks aborted : Bool) :
    Tracked P {bd with mayAddChunks := mayAddChunks, aborted := aborted} pc := by
  obtain ⟨lost, chunks⟩ := tracked
  obtain ⟨queued, nodup, held, unique, covered, bound, finished⟩ := chunks.located
  exact ⟨lost, ⟨chunks.linked.1, chunks.linked.2, chunks.linked.3, chunks.linked.4⟩,
    ⟨queued, nodup, held, unique, covered, bound, finished⟩,
    fun t => doingKept (fun _ => rfl) (fun _ _ => rfl) (chunks.doing t), chunks.fits, chunks.flushes,
    chunks.closing, chunks.placed⟩

theorem Tracked.cleared (tracked : Tracked P bd pc) : Tracked P {bd with workq := fun _ => []} pc := by
  obtain ⟨lost, chunks⟩ := tracked
  exact ⟨fun q => bd.workq q ++ lost q, chunks⟩

theorem Tracked.release (tracked : Tracked P bd pc) (doing : p.Doing bd) (idle : p.held = none) :
    Tracked P bd (Function.update pc t p) := by
  cases mine : (pc t).held with
  | none => exact tracked.goto (idle.trans mine.symm) doing
  | some c =>
    obtain ⟨lost, chunks⟩ := tracked
    obtain ⟨q, state⟩ := queueOf (chunks.located.held t c mine).2.1.1
    have located := chunks.located.release mine state.symm
    rw [← idle, ← holdersUpdate] at located
    have doing' (u : Nat) : (Function.update pc t p u).Doing (bd.withLost lost) := doingUpdate
      (fun u _ => chunks.doing u) (doingKept (fun _ => rfl) (fun _ _ => rfl) doing) u
    refine ⟨Function.update lost q (lost q ++ [c]), ?_⟩
    rw [lostRelease]
    exact {
      linked := ⟨chunks.linked.1, chunks.linked.2, chunks.linked.3, chunks.linked.4⟩
      located := located
      doing := fun u => doingKept (fun _ => rfl) (fun _ _ => rfl) (doing' u)
      fits := chunks.fits
      flushes := chunks.flushes
      closing := chunks.closing
      placed := chunks.placed }

/-! ### Runs in which nothing is submitted behind a closing piece -/

def Unclosed (bd : Bulkdata) : Prop := ∀ c, c < bd.count → (bd.chunk c).kind ≠ .closingPiece

structure Ordered (s : Image) : Prop where
  tracked : Tracked (fun _ => True) s.bd s.pc
  adding : s.bd.mayAddChunks = true → Unclosed s.bd
  unsealed : ∀ again, s.api = .closing again → Unclosed s.bd
  last : ∀ c, c < s.bd.count → (s.bd.chunk c).kind = .closingPiece → c + 1 = s.bd.count ∧ s.bd.lastPiece = some c
  closing : s.bd.mayAddChunks = false → s.bd.aborted = false →
    ∃ c, c < s.bd.count ∧ (s.bd.chunk c).kind = .closingPiece
  apart : s.api ≠ .processing → Calling (s.pc 0)

structure Still (bd bd' : Bulkdata) : Prop where
  count : bd'.count = bd.count
  lastPiece : bd'.lastPiece = bd.lastPiece
  kind : ∀ d, (bd'.chunk d).kind = (bd.chunk d).kind
  mayAddChunks : bd'.mayAddChunks = true → bd.mayAddChunks = true
  aborted : bd'.aborted = false → bd.aborted = false ∧ bd'.mayAddChunks = bd.mayAddChunks

theorem Still.refl (bd : Bulkdata) : Still bd bd := ⟨rfl, rfl, fun _ => rfl, id, fun running => ⟨running, rfl⟩⟩

theorem frameStill (frame : Frame bd bd') : Still bd bd' :=
  ⟨frame.count, frame.lastPiece, frame.kind, fun more => frame.mayAddChunks ▸ more,
    fun running => ⟨frame.aborted ▸ running, frame.mayAddChunks⟩⟩

theorem Still.unclosed (still : Still bd bd') (unclosed : Unclosed bd) : Unclosed bd' := by
  intro c inside
  rw [still.count] at inside
  rw [still.kind]
  exact unclosed c inside

theorem Ordered.onward (ordered : Ordered s) (still : Still s.bd next.bd)
    (tracked : Tracked (fun _ => True) next.bd next.pc)
    (unsealed : ∀ again, next.api = .closing again → Unclosed s.bd)
    (apart : next.api ≠ .processing → Calling (next.pc 0)) : Ordered next where
  tracked := tracked
  adding more := still.unclosed (ordered.adding (still.mayAddChunks more))
  unsealed again here := still.unclosed (unsealed again here)
  last c inside kind := by
    rw [still.count] at inside ⊢
    rw [still.kind] at kind
    rw [still.lastPiece]
    exact ordered.last c inside kind
  closing shut running := by
    obtain ⟨before, same⟩ := still.aborted running
    rw [same] at shut
    obtain ⟨c, inside, kind⟩ := ordered.closing shut before
    exact ⟨c, by rw [still.count]; exact inside, by rw [still.kind]; exact kind⟩
  apart := apart

theorem Ordered.thread (ordered : Ordered s) (still : Still s.bd next.bd)
    (tracked : Tracked (fun _ => True) next.bd next.pc) (api : next.api = s.api) (woken : Woken s.pc pc)
    (pcs : next.pc = Function.update pc t p) (place : Calling (s.pc t) → t = 0 → Calling p) : Ordered next := by
  refine ordered.onward still tracked (by rw [api]; exact ordered.unsealed) fun away => ?_
  rw [api] at away
  have before := ordered.apart away
  rw [pcs]
  by_cases own : t = 0
  · subst own
    rw [Function.update_self]
    exact place before rfl
  · rw [Function.update_of_ne (Ne.symm own), woken.calling before]
    exact before

theorem Ordered.goto (ordered : Ordered s) (bd : next.bd = s.bd) (api : next.api = s.api)
    (pcs : next.pc = Function.update s.pc t p) (held : p.held = (s.pc t).held) (doing : p.Doing s.bd)
    (place : Calling (s.pc t) → t = 0 → Calling p) : Ordered next := by
  refine ordered.thread (by rw [bd]; exact .refl _) ?_ api (.refl _) pcs place
  rw [bd, pcs]
  exact ordered.tracked.goto held doing

theorem Ordered.call (ordered : Ordered s) (bd : next.bd = s.bd) (pcs : next.pc = Function.update s.pc 0 p)
    (held : p.held = (s.pc 0).held) (doing : p.Doing s.bd)
    (unsealed : ∀ again, next.api = .closing again → Unclosed s.bd)
    (apart : next.api ≠ .processing → Calling p) : Ordered next := by
  refine ordered.onward (by rw [bd]; exact .refl _) ?_ unsealed fun away => ?_
  · rw [bd, pcs]
    exact ordered.tracked.goto held doing
  · rw [pcs, Function.update_self]
    exact apart away

theorem Ordered.stay (ordered : Ordered s) (bd : next.bd = s.bd) (pcs : next.pc = s.pc)
    (outside : s.api ≠ .processing) (unsealed : ∀ again, next.api = .closing again → Unclosed s.bd) :
    Ordered next := by
  have calling := ordered.apart outside
  exact ordered.call bd (by rw [pcs, Function.update_eq_self]) rfl (ordered.tracked.doing 0) unsealed fun _ => calling

theorem Ordered.appended (ordered : Ordered s) {kind : ChunkKind} {data : DataPiece} (unclosed : Unclosed s.bd)
    (woken : Woken s.pc pc) :
    Tracked (fun _ => True) (s.bd.submit kind data) pc ∧
      ∀ c, c < s.bd.count + 1 → ((s.bd.submit kind data).chunk c).kind = .closingPiece →
        c = s.bd.count ∧ kind = .closingPiece := by
  refine ⟨(ordered.tracked.grown (fun _ => trivial) unclosed).woken woken, fun c inside closing => ?_⟩
  have grown := submitGrows ordered.tracked.linked kind data
  by_cases new : c = s.bd.count
  · subst new
    rw [grown.new] at closing
    exact ⟨rfl, closing⟩
  · rw [grown.old c (by omega)] at closing
    exact absurd closing (unclosed c (by omega))

theorem Ordered.closed (ordered : Ordered s) (unclosed : Unclosed s.bd) (woken : Woken s.pc pc) :
    Tracked (fun _ => True) s.bd.sealed pc ∧ (∀ c, c < s.bd.sealed.count →
        (s.bd.sealed.chunk c).kind = .closingPiece → c + 1 = s.bd.sealed.count ∧ s.bd.sealed.lastPiece = some c) ∧
      ∃ c, c < s.bd.sealed.count ∧ (s.bd.sealed.chunk c).kind = .closingPiece := by
  obtain ⟨kept, only⟩ := @Ordered.appended s pc ordered .closingPiece ⟨[], 0, 0⟩ unclosed woken
  have grown := submitGrows ordered.tracked.linked .closingPiece ⟨[], 0, 0⟩
  have count : s.bd.sealed.count = s.bd.count + 1 := grown.count
  have new : s.bd.sealed.chunk s.bd.count = _ := grown.new
  refine ⟨kept.flags false _, fun c inside kind => ?_, s.bd.count, by rw [count]; exact Nat.lt_succ_self _,
    congrArg Chunk.kind new⟩
  rw [count] at inside ⊢
  obtain ⟨rfl, _⟩ := only c inside kind
  exact ⟨rfl, grown.lastPiece⟩

theorem Ordered.step (ordered : Ordered s) (allowed : ∀ kind data, l = .submit kind data → Unclosed s.bd)
    (move : Move o s l next) : Ordered next := by
  have tracked := ordered.tracked
  cases move with
  | @submit kind data pc free unlocked own signal =>
    have unclosed := allowed kind data rfl
    have woken := signalWoken signal
    have grown := submitGrows tracked.linked kind data
    obtain ⟨kept, only⟩ := @Ordered.appended s pc ordered kind data unclosed woken
    have still : Unclosed (s.bd.submit kind data) := fun c inside closing => by
      rw [grown.count] at inside
      exact own (only c inside closing).2
    have idle : pc 0 = .out := (woken.calling (.inl free.2)).trans free.2
    refine ⟨kept, fun _ => still, fun _ _ => still, fun c inside kind => absurd kind (still c inside),
      fun shut running => ?_, fun _ => .inl idle⟩
    rw [grown.mayAddChunks] at shut
    rw [grown.aborted] at running
    obtain ⟨c, inside, closing⟩ := ordered.closing shut running
    exact absurd closing (unclosed c inside)
  | @closingQueued pc pc' here unlocked first second =>
    have woken := (signalWoken first).trans (signalWoken second)
    have calling := ordered.apart (by rw [here]; simp)
    have place : Calling (pc' 0) := (congrArg Calling (woken.calling calling)).mpr calling
    obtain ⟨kept, last, closing⟩ := ordered.closed (ordered.unsealed _ here) woken
    exact ⟨kept, fun more => (Bool.false_ne_true more).elim, (fun again here => by cases here), last,
      fun _ _ => closing, fun _ => place⟩
  | @closingQueuedAgain pc pc' here unlocked first second =>
    have woken := (signalWoken first).trans (signalWoken second)
    have calling := ordered.apart (by rw [here]; simp)
    have place : Calling (pc' 0) := (congrArg Calling (woken.calling calling)).mpr calling
    obtain ⟨kept, last, closing⟩ := ordered.closed (ordered.unsealed _ here) woken
    exact ⟨kept.goto (by rw [(callingHeld place s.bd).1]; rfl) trivial,
      fun more => (Bool.false_ne_true more).elim, (fun again here => by cases here), last, fun _ _ => closing,
      fun away => absurd rfl away⟩
  | spawn free new other =>
    exact ordered.goto rfl rfl rfl (by rw [new]; rfl) trivial fun _ own => absurd own other
  | setRoot free => exact ordered.stay rfl rfl (by rw [free.1]; simp) ordered.unsealed
  | enter free => exact ordered.stay rfl rfl (by rw [free.1]; simp) (by simp)
  | refuse => exact ordered
  | rootMissing here =>
    have calling := ordered.apart (by rw [here]; simp)
    exact ordered.call rfl rfl (by rw [(callingHeld calling s.bd).1]; rfl) trivial (by simp [Image.goto])
      fun _ => .inr (.inl rfl)
  | rootFound here => exact ordered.stay rfl rfl (by rw [here]; simp) (by simp)
  | sealNeeded here unlocked adding =>
    exact ordered.stay rfl rfl (by rw [here]; simp) fun _ _ => ordered.adding adding
  | sealed here => exact ordered.stay rfl rfl (by rw [here]; simp) (by simp)
  | sealedAgain here =>
    have calling := ordered.apart (by rw [here]; simp)
    exact ordered.call rfl rfl (by rw [(callingHeld calling s.bd).1]; rfl) trivial (by simp [Image.goto])
      fun away => absurd rfl away
  | closingFails here => exact ordered.stay rfl rfl (by rw [here]; simp) (by simp)
  | closingFailsAgain here =>
    have calling := ordered.apart (by rw [here]; simp)
    exact ordered.call rfl rfl (by rw [(callingHeld calling s.bd).1]; rfl) trivial (by simp [Image.goto])
      fun away => absurd rfl away
  | processed here left =>
    exact ordered.call rfl rfl (by rw [left]; rfl) trivial (by simp [Image.goto]) fun _ => .inl rfl
  | later here => exact ordered.stay rfl rfl (by rw [here]; simp) (by simp)
  | truncateFails here => exact ordered.stay rfl rfl (by rw [here]; simp) (by simp)
  | conclude here => exact ordered.stay rfl rfl (by rw [here]; simp) (by simp)
  | concludeFailed here idle =>
    exact ordered.call rfl rfl (by rw [idle]; rfl) trivial (by simp [Image.goto]) fun _ => .inr (.inl rfl)
  | returns here => exact ordered.stay rfl rfl (by rw [here]; simp) (by simp)
  | @pop t q c bd here popped =>
    obtain ⟨rest, shape, rfl⟩ := popSpec popped
    have idle : (s.pc t).held = none := by rw [here]; rfl
    exact ordered.thread ⟨rfl, rfl, fun _ => rfl, id, fun running => ⟨running, rfl⟩⟩ (tracked.take idle shape) rfl (.refl _) rfl
      (by simp [here, Calling])
  | @again t q c allocated bd all here result =>
    have below := tracked.inside (t := t) (c := c) (by rw [here]; rfl)
    have state := tracked.doing t
    rw [here] at state
    obtain ⟨adv, _⟩ := stageSpec tracked.linked below (tracked.closing below) state result
    have woken := broadcastWoken s.pc all
    exact ordered.thread (frameStill adv.frame)
      ((tracked.woken woken).advance (by rw [woken.held, here]; rfl) adv) rfl woken rfl (by simp [here, Calling])
  | @released t q c allocated bd size pc here result =>
    have below := tracked.inside (t := t) (c := c) (by rw [here]; rfl)
    have state := tracked.doing t
    rw [here] at state
    obtain ⟨same, working⟩ := stageSpec tracked.linked below (tracked.closing below) state result
    have held : pc.held = some c := by
      rcases working with ⟨rfl, _⟩ | ⟨rfl, _⟩ | ⟨rfl, _⟩ <;> rfl
    have doing : pc.Doing bd := by
      rcases working with ⟨rfl, now, kind⟩ | ⟨rfl, now⟩ | ⟨rfl, now⟩
      · exact ⟨by rw [same.state]; exact now, by rw [same.frame.kind]; exact kind⟩
      · exact (same.state c).trans now
      · exact (same.state c).trans now
    exact ordered.thread (frameStill same.frame) ((tracked.same same).goto (by rw [here, held]; rfl) doing) rfl
      (.refl _) rfl (by simp [here, Calling])
  | @outOfMemory t q c allocated bd here result =>
    have below := tracked.inside (t := t) (c := c) (by rw [here]; rfl)
    have state := tracked.doing t
    rw [here] at state
    have same := stageSpec tracked.linked below (tracked.closing below) state result
    exact ordered.thread (frameStill same.frame) ((tracked.same same).goto (by rw [here]; rfl) trivial) rfl
      (.refl _) rfl (by simp [here, Calling])
  | stageFault | compressFault | writeFault =>
    exact ⟨ordered.tracked, ordered.adding, ordered.unsealed, ordered.last, ordered.closing, ordered.apart⟩
  | @read t c here unlocked whole =>
    have doing := tracked.doing t
    rw [here] at doing
    have adv := readAdvances (tracked.inside (t := t) (c := c) (by rw [here]; rfl)) doing.1
    exact ordered.thread (frameStill adv.frame) (tracked.advance (by rw [here]; rfl) adv) rfl (.refl _) rfl
      (by simp [here, Calling])
  | @compressed t c allocated bd here unlocked result =>
    have state := tracked.doing t
    rw [here] at state
    have adv := compressEndAdvances (tracked.inside (t := t) (c := c) (by rw [here]; rfl)) state result
    exact ordered.thread (frameStill adv.frame) (tracked.advance (by rw [here]; rfl) adv) rfl (.refl _) rfl
      (by simp [here, Calling])
  | @compressFails t c allocated bd here result =>
    have state := tracked.doing t
    rw [here] at state
    have same := compressEndAdvances (tracked.inside (t := t) (c := c) (by rw [here]; rfl)) state result
    exact ordered.thread (frameStill same.frame) ((tracked.same same).goto (by rw [here]; rfl) trivial) rfl
      (.refl _) rfl (by simp [here, Calling])
  | @written t c write bd all here unlocked result =>
    have state := tracked.doing t
    rw [here] at state
    obtain ⟨adv, _⟩ := writeEndAdvances (tracked.inside (t := t) (c := c) (by rw [here]; rfl)) state result
    have woken := broadcastWoken s.pc all
    exact ordered.thread (frameStill adv.frame)
      ((tracked.woken woken).advance (by rw [woken.held, here]; rfl) adv) rfl woken rfl (by simp [here, Calling])
  | abortCall here outside =>
    exact ordered.goto rfl rfl rfl (by rw [here]; rfl) trivial fun _ _ => .inr (.inl rfl)
  | @flag t c here =>
    refine ordered.goto rfl rfl rfl (by rw [here]; rfl) trivial fun calling _ => ?_
    rw [here] at calling
    rcases calling with h | h | h <;> cases h
    exact .inr (.inr rfl)
  | @abort t c here unlocked =>
    have woken := wakeAllWoken s.pc
    have left := ((tracked.cleared.flags false true).woken woken).release (t := t)
      (p := if c = none then .out else .failed) (by split <;> trivial) (by split <;> rfl)
    refine ordered.thread ⟨rfl, rfl, fun _ => rfl, fun more => (Bool.false_ne_true more).elim,
      fun running => (Bool.false_ne_true running.symm).elim⟩ left rfl woken rfl fun calling _ => ?_
    rw [here] at calling
    rcases calling with h | h | h <;> cases h
    exact .inl rfl
  | _ =>
    exact ordered.goto rfl rfl rfl (by simp_all [Pc.held]) trivial (by simp_all [Calling])

/- Every step but the two that append leaves the chain. -/
theorem Ordered.still (ordered : Ordered s) (move : Move o s l next)
    (unsubmitted : ∀ kind data, l ≠ .submit kind data) (unsealed : l ≠ .seal) : Still s.bd next.bd := by
  have tracked := ordered.tracked
  cases move with
  | submit => exact absurd rfl (unsubmitted _ _)
  | closingQueued | closingQueuedAgain => exact absurd rfl unsealed
  | pop here popped =>
    obtain ⟨rest, shape, rfl⟩ := popSpec popped
    exact ⟨rfl, rfl, fun _ => rfl, id, fun running => ⟨running, rfl⟩⟩
  | @again t q c allocated bd all here result =>
    have below := tracked.inside (t := t) (c := c) (by rw [here]; rfl)
    have state := tracked.doing t
    rw [here] at state
    exact frameStill (stageSpec tracked.linked below (tracked.closing below) state result).1.frame
  | @released t q c allocated bd size pc here result =>
    have below := tracked.inside (t := t) (c := c) (by rw [here]; rfl)
    have state := tracked.doing t
    rw [here] at state
    exact frameStill (stageSpec tracked.linked below (tracked.closing below) state result).1.frame
  | @outOfMemory t q c allocated bd here result =>
    have below := tracked.inside (t := t) (c := c) (by rw [here]; rfl)
    have state := tracked.doing t
    rw [here] at state
    exact frameStill (stageSpec tracked.linked below (tracked.closing below) state result).frame
  | @read t c here =>
    have doing := tracked.doing t
    rw [here] at doing
    exact frameStill (readAdvances (tracked.inside (t := t) (c := c) (by rw [here]; rfl)) doing.1).frame
  | @compressed t c allocated bd here unlocked result =>
    have state := tracked.doing t
    rw [here] at state
    exact frameStill (compressEndAdvances (tracked.inside (t := t) (c := c) (by rw [here]; rfl)) state result).frame
  | @compressFails t c allocated bd here result =>
    have state := tracked.doing t
    rw [here] at state
    exact frameStill (compressEndAdvances (tracked.inside (t := t) (c := c) (by rw [here]; rfl)) state result).frame
  | @written t c write bd all here unlocked result =>
    have state := tracked.doing t
    rw [here] at state
    exact frameStill (writeEndAdvances (tracked.inside (t := t) (c := c) (by rw [here]; rfl)) state result).1.frame
  | abort =>
    exact ⟨rfl, rfl, fun _ => rfl, fun more => (Bool.false_ne_true more).elim,
      fun running => (Bool.false_ne_true running.symm).elim⟩
  | _ => exact .refl _

theorem Ordered.assigns (ordered : Ordered s) (here : s.pc t = .popped .assignq c) {p : Nat} (prev : (s.bd.chunk c).prevPiece = some p) :
    (s.bd.chunk p).fragmentBlock.isSome = true := by
  have last := ordered.last p
  obtain ⟨lost, chunks⟩ := ordered.tracked
  have state := chunks.doing t
  rw [here] at state
  obtain ⟨inside, ready, _⟩ := chunks.located.held t c (by simp [holders, here, Pc.held])
  obtain ⟨before, _, piece⟩ := chunks.linked.prev c p inside prev
  have below : p < s.bd.count := Nat.lt_trans before inside
  cases own : (s.bd.chunk p).kind with
  | fullBlock => exact absurd own piece
  | closingPiece =>
    have top := (last below own).1
    have inside' : c < s.bd.count := inside
    omega
  | fragmentPiece => exact chunks.placed p below own (ready.2.1 state p prev)

/-! ### Sealing has succeeded -/

/- libsqfs_bulkdata_seal returns true: the closing piece was queued, or the flag was
off already. -/
def Seals (s : Image) (l : Label) (next : Image) : Prop :=
  l = .seal ∨ s.api = .seal false ∧ next.api = .seal true ∨ s.api = .seal true ∧ next.api = .processing

structure Shut (s : Image) : Prop where
  closed : s.bd.mayAddChunks = false
  outside : ∀ again, s.api ≠ .closing again

theorem sealsShut (move : Move o s l next) (seals : Seals s l next) : Shut next := by
  cases move with
  | closingQueued | closingQueuedAgain => exact ⟨rfl, fun _ => by simp [Image.goto]⟩
  | sealed here unlocked done => exact ⟨done, fun _ => by simp⟩
  | sealedAgain here unlocked done => exact ⟨done, fun _ => by simp [Image.goto]⟩
  | _ =>
    rcases seals with same | ⟨was, now⟩ | ⟨was, now⟩
    · cases same
    · simp_all [Image.goto]
    · simp_all [Image.goto]

theorem Shut.step (shut : Shut s) (move : Move o s l next) (unsubmitted : ∀ kind data, l ≠ .submit kind data) :
    l ≠ .seal ∧ ∀ again, next.api ≠ .closing again := by
  cases move with
  | submit => exact absurd rfl (unsubmitted _ _)
  | closingQueued here | closingQueuedAgain here => exact absurd here (shut.outside _)
  | sealNeeded here unlocked adding =>
    rw [shut.closed] at adding
    cases adding
  | _ =>
    refine ⟨by simp, fun again => ?_⟩
    have := shut.outside again
    simp_all [Image.goto]

end
end Image
end Libsqfs
