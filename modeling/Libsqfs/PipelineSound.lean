import Libsqfs.PipelineChunks

/-! Every step keeps every chunk of the chain in one place, until an abort. -/
namespace Libsqfs
namespace Image
open Bulkdata Transition

structure Sound (P : DataPiece → Prop) (s : Image) : Prop where
  chunks : Chunks P s.bd s.pc
  calls : Calls s
  running : s.bd.aborted = false

/- What is submitted satisfies `P`, and nothing is aborted. -/
def Undisturbed (P : DataPiece → Prop) (_ : Image) : Label → Prop
  | .submit _ data => P data
  | .abort _ => False
  | _ => True

variable {P : DataPiece → Prop}

section
variable {s next : Image} {t c : Nat} {p : Pc} {pc : Nat → Pc} {bd : Bulkdata}

theorem Sound.working (sound : Sound P s) (here : s.pc t = p) (held : p.held = some c) :
    (s.pc t).held = some c ∧ c < s.bd.count ∧ s.bd.Ready c ∧ p.Doing s.bd := by
  subst here
  obtain ⟨inside, ready, _⟩ := sound.chunks.located.held t c held
  exact ⟨held, inside, ready, sound.chunks.doing t⟩

theorem Sound.goto (sound : Sound P s) (bd : next.bd = s.bd) (api : next.api = s.api)
    (pcs : next.pc = Function.update s.pc t p) (held : p.held = (s.pc t).held)
    (doing : p.Doing s.bd) (place : Calling (s.pc t) → t = 0 → Calling p)
    (gone : p = .gone → s.bd.finished = s.bd.count ∧ s.bd.mayAddChunks = false) : Sound P next where
  chunks := by rw [bd, pcs]; exact sound.chunks.goto held doing
  calls := sound.calls.thread (by rw [bd]; exact onwardSame (.refl _)) api (.refl _) pcs place gone
  running := by rw [bd]; exact sound.running

theorem Sound.same (sound : Sound P s) (same : Same s.bd next.bd) (api : next.api = s.api)
    (pcs : next.pc = Function.update s.pc t p) (held : p.held = (s.pc t).held)
    (doing : p.Doing next.bd) (place : ¬ Calling (s.pc t)) (stays : p ≠ .gone) : Sound P next where
  chunks := by rw [pcs]; exact (sound.chunks.same same).goto held doing
  calls := sound.calls.thread (onwardSame same) api (.refl _) pcs (fun h => absurd h place)
    fun left => absurd left stays
  running := same.frame.aborted.trans sound.running

theorem Sound.advance (sound : Sound P s) (mine : (s.pc t).held = some c)
    (adv : Advance s.bd next.bd c) (api : next.api = s.api) (all : Bool)
    (pcs : next.pc = Function.update (if all then wakeAll s.pc else s.pc) t .loop)
    (place : ¬ Calling (s.pc t)) : Sound P next where
  chunks := by
    have woken := broadcastWoken s.pc all
    rw [pcs]
    exact (sound.chunks.woken woken).advance (by rw [woken.held]; exact mine) adv rfl trivial
  calls := sound.calls.thread
    (onwardAdvance sound.chunks.located (sound.chunks.located.held t c mine).1 adv) api
    (broadcastWoken s.pc all) pcs (fun h => absurd h place) (by simp)
  running := adv.frame.aborted.trans sound.running

theorem Sound.call (sound : Sound P s) (bd : next.bd = s.bd)
    (pcs : next.pc = Function.update s.pc 0 p) (held : p.held = (s.pc 0).held)
    (doing : p.Doing s.bd) (sealed : Sealing next.api → s.bd.mayAddChunks = false)
    (closed : Sealing s.api → Sealing next.api ∨ s.bd.finished = s.bd.count)
    (unsealed : ∀ again, next.api = .closing again → s.bd.mayAddChunks = true)
    (stays : p ≠ .gone) (apart : next.api ≠ .processing → Calling p) : Sound P next where
  chunks := by rw [bd, pcs]; exact sound.chunks.goto held doing
  calls := sound.calls.move bd sealed closed sound.chunks.located unsealed
    (by rw [pcs, Function.update_self]; exact stays)
    (by rw [pcs, Function.update_self]; exact apart)
  running := by rw [bd]; exact sound.running

theorem callingHeld {p : Pc} (calling : Calling p) (bd : Bulkdata) :
    p.held = none ∧ p.Doing bd ∧ p ≠ .gone := by
  rcases calling with rfl | rfl | rfl <;> exact ⟨rfl, trivial, by simp⟩

theorem Sound.stay (sound : Sound P s) (bd : next.bd = s.bd) (pcs : next.pc = s.pc)
    (outside : s.api ≠ .processing) (sealed : Sealing next.api → s.bd.mayAddChunks = false)
    (closed : Sealing s.api → Sealing next.api)
    (unsealed : ∀ again, next.api = .closing again → s.bd.mayAddChunks = true) : Sound P next := by
  have calling := sound.calls.apart outside
  obtain ⟨_, doing, stays⟩ := callingHeld calling s.bd
  exact sound.call bd (by rw [pcs, Function.update_eq_self]) rfl doing sealed
    (fun here => .inl (closed here)) unsealed stays fun _ => calling

theorem Chunks.adding (chunks : Chunks P bd pc) (adding : Bool) :
    Chunks P {bd with mayAddChunks := adding} pc where
  linked := ⟨chunks.linked.1, chunks.linked.2, chunks.linked.3, chunks.linked.4⟩
  located := by
    obtain ⟨queued, nodup, held, unique, covered, bound, finished⟩ := chunks.located
    exact ⟨queued, nodup, held, unique, covered, bound, finished⟩
  doing t := doingKept (fun _ => rfl) (fun _ _ => rfl) (chunks.doing t)
  fits := chunks.fits
  flushes := chunks.flushes
  closing := chunks.closing
  placed := chunks.placed

theorem Woken.calling (woken : Woken s.pc pc) (calling : Calling (s.pc 0)) : pc 0 = s.pc 0 := by
  rcases woken 0 with same | ⟨was, _⟩
  · exact same
  · rcases calling with h | h | h <;> rw [h] at was <;> cases was

end

theorem Sound.step {o : ImageConfig} {s next : Image} {l : Label} (sound : Sound P s)
    (undisturbed : Undisturbed P s l) (move : Move o s l next) : Sound P next := by
  have located := sound.chunks.located
  have inside {t c} (holds : (s.pc t).held = some c) : c < s.bd.count := (located.held t c holds).1
  have leaves (leaves : s.bd.Leaves) : s.bd.finished = s.bd.count ∧ s.bd.mayAddChunks = false := by
    rcases leaves with isOver | aborted
    · exact isOver
    · rw [sound.running] at aborted; cases aborted
  cases move with
  | @submit kind data pc free unlocked own signal =>
    have grown := submitGrows sound.chunks.linked kind data
    have woken := signalWoken signal
    have outside : ¬ Sealing s.api := by rw [free.1]; simp [Sealing]
    have closed := sound.calls.closed outside
    have idle : pc 0 = .out := (woken.calling (.inl free.2)).trans free.2
    have kinds {c} (below : c < s.bd.count + 1)
        (closing : ((s.bd.submit kind data).chunk c).kind = .closingPiece) :
        c < s.bd.count ∧ (s.bd.chunk c).kind = .closingPiece := by
      by_cases new : c = s.bd.count
      · subst new
        rw [grown.new] at closing
        exact absurd closing own
      · rw [grown.old c (by omega)] at closing
        exact ⟨by omega, closing⟩
    refine ⟨(sound.chunks.grown grown (fun _ => undisturbed) closed).woken woken,
      ⟨?_, ?_, ?_, ?_, ?_, ?_⟩, grown.aborted.trans sound.running⟩
    · intro adding c below closing
      rw [grown.mayAddChunks] at adding
      rw [grown.count] at below
      obtain ⟨old, kindC⟩ := kinds below closing
      exact sound.calls.adding adding c old kindC
    · intro _ c below closing
      rw [grown.count] at below
      obtain ⟨old, kindC⟩ := kinds below closing
      rw [(grown.state old).1]
      exact closed c old kindC
    · exact fun left => by cases idle.symm.trans left
    · exact fun _ => .inl idle
    · intro again here; rw [free.1] at here; cases here
    · exact fun here => absurd here outside
  | @spawn t free new other =>
    exact sound.goto rfl rfl rfl (by rw [new]; rfl) trivial (fun _ own => absurd own other) (by simp)
  | setRoot free building missing =>
    exact ⟨sound.chunks, ⟨sound.calls.adding, sound.calls.closed, sound.calls.returned,
      sound.calls.apart, sound.calls.unsealed, sound.calls.sealed⟩, sound.running⟩
  | enter free building =>
    exact ⟨sound.chunks, sound.calls.move rfl (by simp [Sealing]) (by rw [free.1]; simp [Sealing])
      located (by simp) (by rw [free.2]; simp) fun _ => .inl free.2, sound.running⟩
  | refuse free isOver => exact sound
  | rootMissing here missing =>
    have calling := sound.calls.apart (by rw [here]; simp)
    exact sound.call rfl rfl (by rw [(callingHeld calling s.bd).1]; rfl) trivial
      (by simp [Image.goto, Sealing]) (by rw [here]; simp [Sealing]) (by simp [Image.goto]) (by simp)
      fun _ => .inr (.inl rfl)
  | rootFound here found =>
    exact sound.stay rfl rfl (by rw [here]; simp) (by simp [Sealing]) (by rw [here]; simp [Sealing])
      (by simp)
  | @sealNeeded again here unlocked adding =>
    refine sound.stay rfl rfl (by rw [here]; simp) (fun sealing => ?_) ?_ fun _ _ => adding
    · have h : again = true := by simpa [Sealing] using sealing
      subst h
      exact sound.calls.sealed (.inl here)
    · rw [here]; simp [Sealing]
  | sealed here unlocked done =>
    exact sound.stay rfl rfl (by rw [here]; simp) (fun _ => done) (by rw [here]; simp [Sealing])
      (by simp)
  | sealedAgain here unlocked done =>
    have calling := sound.calls.apart (by rw [here]; simp)
    exact sound.call rfl rfl (by rw [(callingHeld calling s.bd).1]; rfl) trivial
      (fun _ => done) (fun _ => .inl (.inr (.inr rfl))) (by simp [Image.goto]) (by simp)
      fun h => absurd rfl h
  | closingFails here =>
    exact sound.stay rfl rfl (by rw [here]; simp) (by simp [Sealing]) (by rw [here]; simp [Sealing])
      (by simp)
  -- sealing again finds nothing to do
  | closingFailsAgain here | closingQueuedAgain here =>
    have open' := sound.calls.unsealed true here
    rw [sound.calls.sealed (.inr (.inl here))] at open'
    cases open'
  | closingQueued here unlocked first second =>
    have adding := sound.calls.unsealed false here
    have none := sound.calls.adding adding
    have grown := submitGrows sound.chunks.linked .closingPiece ⟨[], 0, 0⟩
    have woken := (signalWoken first).trans (signalWoken second)
    have calling := sound.calls.apart (by rw [here]; simp)
    have same := woken.calling calling
    refine ⟨((sound.chunks.grown grown (by simp) fun c below kind =>
      absurd kind (none c below)).woken woken).adding false, ⟨?_, ?_, ?_, ?_, ?_, ?_⟩,
      grown.aborted.trans sound.running⟩
    · exact fun open' => by cases open'
    · exact fun free => absurd (.inl rfl) free
    · exact fun left => absurd (same.symm.trans left) (callingHeld calling s.bd).2.2
    · have place : Calling _ := (congrArg Calling same).mpr calling
      exact fun _ => place
    · exact fun again here => by cases here
    · exact fun _ => rfl
  | processed here left =>
    have isOver := (sound.calls.returned left).1
    exact sound.call rfl rfl (by rw [left]; rfl) trivial (by simp [Image.goto, Sealing])
      (fun _ => .inr isOver) (by simp [Image.goto]) (by simp) fun _ => .inl rfl
  | later here =>
    exact sound.stay rfl rfl (by rw [here]; simp) (by simp [Sealing]) (by rw [here]; simp [Sealing])
      (by simp)
  | truncateFails here padding =>
    exact sound.stay rfl rfl (by rw [here]; simp) (by simp [Sealing]) (by rw [here]; simp [Sealing])
      (by simp)
  | conclude here =>
    exact sound.stay rfl rfl (by rw [here]; simp) (by simp [Sealing]) (by rw [here]; simp [Sealing])
      (by simp)
  | concludeFailed here idle =>
    exact sound.call rfl rfl (by rw [idle]; rfl) trivial (by simp [Image.goto, Sealing])
      (by rw [here]; simp [Sealing]) (by simp [Image.goto]) (by simp) fun _ => .inr (.inl rfl)
  | returns here idle =>
    exact sound.stay rfl rfl (by rw [here]; simp) (by simp [Sealing]) (by rw [here]; simp [Sealing])
      (by simp)
  | opened here =>
    exact sound.goto rfl rfl rfl (by rw [here]; rfl) trivial (by simp [here, Calling]) (by simp)
  | openFails here =>
    exact sound.goto rfl rfl rfl (by rw [here]; rfl) trivial (by simp [here, Calling]) (by simp)
  | locked here unlocked =>
    exact sound.goto rfl rfl rfl (by rw [here]; rfl) trivial (by simp [here, Calling]) (by simp)
  | @pop t q c bd here popped =>
    obtain ⟨rest, shape, rfl⟩ := popSpec popped
    have idle : (s.pc t).held = none := by rw [here]; rfl
    exact ⟨sound.chunks.take idle shape, sound.calls.thread ⟨rfl, rfl, fun _ => rfl, fun _ => id, id⟩
      rfl (.refl _) rfl (by simp [here, Calling]) (by simp), sound.running⟩
  | @again t q c allocated bd all here result =>
    have below := inside (t := t) (by rw [here]; rfl)
    have state := sound.chunks.doing t
    rw [here] at state
    obtain ⟨adv, _⟩ := stageSpec sound.chunks.linked below (sound.chunks.closing c below) state result
    exact sound.advance (by rw [here]; rfl) adv rfl all rfl (by simp [here, Calling])
  | @released t q c allocated bd size pc here result =>
    have below := inside (t := t) (by rw [here]; rfl)
    have state := sound.chunks.doing t
    rw [here] at state
    obtain ⟨same, working⟩ :=
      stageSpec sound.chunks.linked below (sound.chunks.closing c below) state result
    have held : pc.held = some c := by
      rcases working with ⟨rfl, _⟩ | ⟨rfl, _⟩ | ⟨rfl, _⟩ <;> rfl
    have doing : pc.Doing bd := by
      rcases working with ⟨rfl, now, kind⟩ | ⟨rfl, now⟩ | ⟨rfl, now⟩
      · exact ⟨by rw [same.state]; exact now, by rw [same.frame.kind]; exact kind⟩
      · exact (same.state c).trans now
      · exact (same.state c).trans now
    exact sound.same same rfl rfl (by rw [here, held]; rfl) doing (by simp [here, Calling])
      (by rintro rfl; cases held)
  | @outOfMemory t q c allocated bd here result =>
    have below := inside (t := t) (by rw [here]; rfl)
    have state := sound.chunks.doing t
    rw [here] at state
    have same := stageSpec sound.chunks.linked below (sound.chunks.closing c below) state result
    exact sound.same same rfl rfl (by rw [here]; rfl) trivial (by simp [here, Calling]) (by simp)
  | stageFault here result | compressFault here result | writeFault here unlocked result =>
    exact ⟨sound.chunks, ⟨sound.calls.adding, sound.calls.closed, sound.calls.returned,
      sound.calls.apart, sound.calls.unsealed, sound.calls.sealed⟩, sound.running⟩
  | @read t c here unlocked whole =>
    have doing := sound.chunks.doing t
    rw [here] at doing
    have adv := readAdvances (inside (t := t) (by rw [here]; rfl)) doing.1
    exact sound.advance (by rw [here]; rfl) adv rfl false rfl (by simp [here, Calling])
  | @compressed t c allocated bd here unlocked result =>
    have state := sound.chunks.doing t
    rw [here] at state
    have adv := compressEndAdvances (inside (t := t) (by rw [here]; rfl)) state result
    exact sound.advance (by rw [here]; rfl) adv rfl false rfl (by simp [here, Calling])
  | @compressFails t c allocated bd here result =>
    have state := sound.chunks.doing t
    rw [here] at state
    have same := compressEndAdvances (inside (t := t) (by rw [here]; rfl)) state result
    exact sound.same same rfl rfl (by rw [here]; rfl) trivial (by simp [here, Calling]) (by simp)
  | @written t c write bd all here unlocked result =>
    have state := sound.chunks.doing t
    rw [here] at state
    obtain ⟨adv, _⟩ := writeEndAdvances (inside (t := t) (by rw [here]; rfl)) state result
    exact sound.advance (by rw [here]; rfl) adv rfl all rfl (by simp [here, Calling])
  | readFails here | writeFails here =>
    exact sound.goto rfl rfl rfl (by rw [here]; rfl) trivial (by simp [here, Calling]) (by simp)
  | leave here empty left =>
    exact sound.goto rfl rfl rfl (by rw [here]; rfl) trivial (by simp [here, Calling])
      fun _ => leaves left
  | wait here empty stays =>
    exact sound.goto rfl rfl rfl (by rw [here]; rfl) trivial (by simp [here, Calling]) (by simp)
  | spurious here =>
    exact sound.goto rfl rfl rfl (by rw [here]; rfl) trivial (by simp [here, Calling]) (by simp)
  | abortCall here outside =>
    exact sound.goto rfl rfl rfl (by rw [here]; rfl) trivial (fun _ _ => .inr (.inl rfl)) (by simp)
  | @flag t c here =>
    refine sound.goto rfl rfl rfl (by rw [here]; rfl) trivial (fun calling _ => ?_) (by simp)
    rw [here] at calling
    rcases calling with h | h | h <;> cases h
    exact .inr (.inr rfl)
  | abort here unlocked => exact undisturbed.elim
  | leaveFailed here unlocked left =>
    exact sound.goto rfl rfl rfl (by rw [here]; rfl) trivial (by simp [here, Calling])
      fun _ => leaves left
  | waitFailed here unlocked stays =>
    exact sound.goto rfl rfl rfl (by rw [here]; rfl) trivial (by simp [here, Calling]) (by simp)

theorem initSound (compressBlocks compressFragments : Bool) (size : Nat) :
    Sound P (init compressBlocks compressFragments size) where
  chunks := {
    linked := ⟨fun c p below => absurd below (by simp [init, Bulkdata.init]), fun p n below =>
      absurd below (by simp [init, Bulkdata.init]), fun c below =>
      absurd below (by simp [init, Bulkdata.init]), fun p last => by cases last⟩
    located := {
      queued := fun q c member => by cases member
      nodup := fun q => List.nodup_nil
      held := fun t c holds => by cases holds
      unique := fun t u c holds => by cases holds
      covered := fun c below => absurd below (by simp [init, Bulkdata.init])
      bound := Nat.le_refl 0
      finished := fun c below => absurd below (by simp [init, Bulkdata.init]) }
    doing := fun t => trivial
    fits := fun c below => absurd below (by simp [init, Bulkdata.init])
    flushes := fun c below => absurd below (by simp [init, Bulkdata.init])
    closing := fun c below => absurd below (by simp [init, Bulkdata.init])
    placed := fun c below => absurd below (by simp [init, Bulkdata.init]) }
  calls := {
    adding := fun _ c below => absurd below (by simp [init, Bulkdata.init])
    closed := fun _ c below => absurd below (by simp [init, Bulkdata.init])
    returned := fun left => by cases left
    apart := fun _ => .inl rfl
    unsealed := fun again here => by cases here
    sealed := fun here => by simp [init, Sealing] at here }
  running := rfl

/-! ### The situations of a chunk -/

inductive Situation where
  | queued | held | waitsForPiece | waitsForPrevious | finished
  deriving DecidableEq, Repr

def Situated (s : Image) (c : Nat) : Situation → Prop
  | .queued => ∃ q, (s.bd.workq q).count c = 1 ∧ (s.bd.chunk c).state = q.state ∧
      ∀ r, r ≠ q → c ∉ s.bd.workq r
  | .held => ∃ t, (s.pc t).held = some c ∧ ∀ u, (s.pc u).held = some c → u = t
  | .waitsForPiece => (s.bd.chunk c).kind ≠ .fullBlock ∧ (s.bd.chunk c).state = .deduplicated ∧
      ∃ p, (s.bd.chunk c).prevPiece = some p ∧
        (s.bd.chunk p).state.value < ChunkState.assigned.value
  | .waitsForPrevious => (s.bd.chunk c).state = .writable ∧ c ≠ 0 ∧
      (s.bd.chunk (c - 1)).state ≠ .finished
  | .finished => (s.bd.chunk c).state = .finished

def BeingWritten (s : Image) (c : Nat) : Prop :=
  c ∈ s.bd.workq .writeq ∨ ∃ t, s.pc t = .popped .writeq c ∨ s.pc t = .writing c

structure InPlace (s : Image) : Prop where
  situated : ∀ c, c < s.bd.count → ∃ k, Situated s c k ∧ ∀ k', Situated s c k' → k' = k
  finished : s.bd.finished =
    ((List.range s.bd.count).filter fun c => (s.bd.chunk c).state = .finished).length
  chain : ∀ c d, c < s.bd.count → d < c → (s.bd.chunk c).state = .finished →
    (s.bd.chunk d).state = .finished
  written : ∀ c d, BeingWritten s c → BeingWritten s d → c = d
  asserted : s.fault ≠ some .assertion

/- A ready chunk is queued or held, a chunk that is not ready is parked or finished. -/
theorem Situated.ready {s : Image} {c : Nat} {k : Situation} (sound : Sound P s)
    (situated : Situated s c k) : s.bd.Ready c ↔ k = .queued ∨ k = .held := by
  cases k with
  | queued =>
    obtain ⟨q, once, _⟩ := situated
    have member : c ∈ s.bd.workq q := List.count_pos_iff.mp (by omega)
    exact iff_of_true (sound.chunks.located.queued q c member).2.2 (.inl rfl)
  | held =>
    obtain ⟨t, holds, _⟩ := situated
    exact iff_of_true (sound.chunks.located.held t c holds).2.1 (.inr rfl)
  | waitsForPiece =>
    obtain ⟨_, state, p, prev, low⟩ := situated
    refine iff_of_false (fun ready => ?_) (by simp)
    have := ready.2.1 state p prev
    omega
  | waitsForPrevious =>
    obtain ⟨state, later, prev⟩ := situated
    refine iff_of_false (fun ready => ?_) (by simp)
    rcases ready.2.2 state with first | isOver
    · exact later first
    · exact prev isOver
  | finished => exact iff_of_false (fun ready => ready.1 situated) (by simp)

theorem Sound.situated {s : Image} {c : Nat} (sound : Sound P s) (inside : c < s.bd.count) :
    ∃ k, Situated s c k ∧ ∀ k', Situated s c k' → k' = k := by
  have located := sound.chunks.located
  by_cases ready : s.bd.Ready c
  · have parked {k} (other : Situated s c k) : k = .queued ∨ k = .held :=
      (other.ready sound).mp ready
    rcases located.covered c inside ready with ⟨q, member⟩ | ⟨t, holds⟩
    · have state := (located.queued q c member).2.1
      refine ⟨.queued, ⟨q, by rw [(located.nodup q).count, if_pos member], state,
        fun r other twice => other ?_⟩, fun k other => ?_⟩
      · have same := (located.queued r c twice).2.1.symm.trans state
        revert same
        cases r <;> cases q <;> simp [Workq.state]
      · rcases parked other with rfl | rfl
        · rfl
        · obtain ⟨t, holds, _⟩ := other
          exact absurd member ((located.held t c holds).2.2 q)
    · refine ⟨.held, ⟨t, holds, fun u also => located.unique u t c also holds⟩, fun k other => ?_⟩
      rcases parked other with rfl | rfl
      · obtain ⟨q, once, _⟩ := other
        exact absurd (List.count_pos_iff.mp (by omega)) ((located.held t c holds).2.2 q)
      · rfl
  · have away {k} (other : Situated s c k) : k ≠ .queued ∧ k ≠ .held :=
      not_or.mp fun busy => ready ((other.ready sound).mpr busy)
    have cause : Situated s c .finished ∨ Situated s c .waitsForPiece ∨
        Situated s c .waitsForPrevious := by
      simp only [Ready, not_and_or, Classical.not_imp, not_not] at ready
      rcases ready with isOver | ⟨state, waits⟩ | ⟨state, waits⟩
      · exact .inl isOver
      · simp only [PrevAssigned, not_forall, Nat.not_le] at waits
        obtain ⟨p, prev, low⟩ := waits
        have piece (full : (s.bd.chunk c).kind = .fullBlock) : False := by
          rw [sound.chunks.linked.full c inside full] at prev
          cases prev
        exact .inr (.inl ⟨piece, state, p, prev, low⟩)
      · simp only [PrevFinished, not_or] at waits
        exact .inr (.inr ⟨state, waits⟩)
    -- the three ways of waiting and being finished differ in the state
    have state {k} (other : Situated s c k) :
        k = .waitsForPiece ∧ (s.bd.chunk c).state = .deduplicated ∨
          k = .waitsForPrevious ∧ (s.bd.chunk c).state = .writable ∨
          k = .finished ∧ (s.bd.chunk c).state = .finished := by
      cases k with
      | queued => exact absurd rfl (away other).1
      | held => exact absurd rfl (away other).2
      | waitsForPiece => exact .inl ⟨rfl, other.2.1⟩
      | waitsForPrevious => exact .inr (.inl ⟨rfl, other.1⟩)
      | finished => exact .inr (.inr ⟨rfl, other⟩)
    have differ {k k'} (first : Situated s c k) (second : Situated s c k') : k' = k := by
      rcases state first with ⟨rfl, one⟩ | ⟨rfl, one⟩ | ⟨rfl, one⟩ <;>
        rcases state second with ⟨rfl, two⟩ | ⟨rfl, two⟩ | ⟨rfl, two⟩ <;>
          first
          | rfl
          | rw [one] at two
            cases two
    rcases cause with at' | at' | at' <;> exact ⟨_, at', fun k' => differ at'⟩

theorem rangeFilter {m n : Nat} (le : m ≤ n) :
    ((List.range n).filter fun c => c < m).length = m := by
  induction n with
  | zero => simp; omega
  | succ n ih =>
    rw [List.range_succ, List.filter_append, List.length_append]
    by_cases below : m ≤ n
    · simp [ih below, Nat.not_lt.mpr below]
    · have : m = n + 1 := by omega
      subst this
      rw [List.filter_eq_self.mpr]
      · simp
      · intro c inside; have := List.mem_range.mp inside; simp; omega

theorem Sound.inPlace {s : Image} (sound : Sound P s) (asserted : s.fault ≠ some .assertion) :
    InPlace s where
  situated c inside := sound.situated inside
  finished := by
    have located := sound.chunks.located
    have same : ((List.range s.bd.count).filter fun c => (s.bd.chunk c).state = .finished) =
        (List.range s.bd.count).filter fun c => c < s.bd.finished :=
      List.filter_congr fun c inside => by
        simp only [located.finished c (List.mem_range.mp inside)]
    rw [same, rangeFilter located.bound]
  chain c d inside earlier isOver := by
    have located := sound.chunks.located
    have := (located.finished c inside).mp isOver
    exact (located.finished d (by omega)).mpr (by omega)
  written := by
    have turn {c} (writing : BeingWritten s c) : c = s.bd.finished := by
      have located := sound.chunks.located
      have spec : c < s.bd.count ∧ s.bd.Ready c ∧ (s.bd.chunk c).state = .writable := by
        rcases writing with member | ⟨t, popped | working⟩
        · obtain ⟨inside, state, ready⟩ := located.queued .writeq c member
          exact ⟨inside, ready, state⟩
        · have doing := sound.chunks.doing t
          rw [popped] at doing
          obtain ⟨inside, ready, _⟩ := located.held t c (by simp [holders, popped, Pc.held])
          exact ⟨inside, ready, doing⟩
        · have doing := sound.chunks.doing t
          rw [working] at doing
          obtain ⟨inside, ready, _⟩ := located.held t c (by simp [holders, working, Pc.held])
          exact ⟨inside, ready, doing⟩
      obtain ⟨inside, ready, state⟩ := spec
      exact firstUnfinished located inside ready.1 (ready.2.2 state)
    exact fun c d first second => (turn first).trans (turn second).symm
  asserted := asserted

def Positive (p : DataPiece) : Prop := p.size ≠ 0

/- The only fault a step can come to is a null pointer. -/
theorem Sound.fault {o : ImageConfig} {s next : Image} {l : Label} (sound : Sound Positive s)
    (move : Move o s l next) : next.fault = s.fault ∨ next.fault = some .nullPointer := by
  cases move with
  | @stageFault t q c allocated f here result =>
    have state := sound.chunks.doing t
    rw [here] at state
    have held := sound.chunks.located.held t c (by simp [holders, here, Pc.held])
    rw [stageError state held.2.1 (sound.chunks.fits c held.1) (sound.chunks.flushes c held.1)
      result]
    exact .inr rfl
  | @compressFault t c allocated f here result =>
    rw [compressEndError result]
    exact .inr rfl
  | @writeFault t c f here unlocked result =>
    have state := sound.chunks.doing t
    rw [here] at state
    have held := sound.chunks.located.held t c (by simp [holders, here, Pc.held])
    rw [writeEndError (held.2.1.2.2 state) result]
    exact .inr rfl
  | _ => exact .inl rfl

theorem chunksInPlace {o : ImageConfig} {compressBlocks compressFragments : Bool} {size : Nat}
    {trace : List (Event Image Label)} {s : Image}
    (run : Run (Step o) (init compressBlocks compressFragments size) trace s)
    (undisturbed : Obeys (Undisturbed Positive) trace) : InPlace s := by
  have kept (s : Image) (l : Label) (next : Image)
      (known : Sound Positive s ∧ s.fault ≠ some .assertion) (allowed : Undisturbed Positive s l)
      (taken : Step o s l next) : Sound Positive next ∧ next.fault ≠ some .assertion := by
    obtain ⟨sound, asserted⟩ := known
    obtain ⟨_, move⟩ := taken
    refine ⟨sound.step allowed move, ?_⟩
    rcases sound.fault move with same | null
    · rw [same]; exact asserted
    · rw [null]; simp
  obtain ⟨sound, asserted⟩ := Run.invariant
    (I := fun s => Sound Positive s ∧ s.fault ≠ some .assertion)
    ⟨initSound compressBlocks compressFragments size, by simp [init]⟩ kept run undisturbed
  exact sound.inPlace asserted

/- A block and a piece, sealed, with a worker at hand. -/
def pairStart : Image :=
  {({init true true 96 with
    root := true
    bd := (((init true true 96).bd.submit .fullBlock ⟨[1, 2, 3], 3, 0⟩).submit .fragmentPiece ⟨[7], 1, 0⟩).sealed
    api := .seal true}.goto 1 .opening).goto 1 .locking with lock := none}

def pairConfig (later : List Later) : ImageConfig := ⟨3, fun _ _ => none, later, false⟩

theorem pairSubmitted (later : List Later) : ∃ trace, Run (Step (pairConfig later)) (init true true 96) trace pairStart ∧
    .seal ∈ labels trace ∧ ∀ e ∈ trace, e.label ∈ [.thread 0, .thread 1, .submit .fullBlock ⟨[1, 2, 3], 3, 0⟩,
      .submit .fragmentPiece ⟨[7], 1, 0⟩, .enter, .seal] ∧ ((∃ kind data, e.label = .submit kind data) →
        e.before.bd.mayAddChunks = true ∧ e.before.state = .building) := by
  have nobody (t : Nat) : (((init true true 96).goto 1 .opening).goto 1 .locking).pc t ≠ .waiting := by
    simp only [goto, Function.update_apply, init]
    split <;> simp
  have started : Run (Step (pairConfig later)) (init true true 96) _ _ :=
    .move (.move .start ⟨rfl, .spawn (t := 1) ⟨rfl, rfl⟩ rfl (by decide)⟩) ⟨rfl, .opened (t := 1) rfl⟩
  have submitted := (started.move ⟨rfl, @Move.submit _ _ .fullBlock ⟨[1, 2, 3], 3, 0⟩ _ ⟨rfl, rfl⟩ rfl (by simp)
    (.idle nobody)⟩).move ⟨rfl, @Move.submit _ _ .fragmentPiece ⟨[7], 1, 0⟩ _ ⟨rfl, rfl⟩ rfl (by simp) (.idle nobody)⟩
  have entered := ((submitted.move ⟨rfl, .setRoot ⟨rfl, rfl⟩ rfl rfl⟩).move ⟨rfl, .enter ⟨rfl, rfl⟩ rfl⟩).move
    ⟨rfl, .rootFound rfl rfl⟩
  have sealed := (entered.move ⟨rfl, .sealNeeded rfl rfl rfl⟩).move ⟨rfl, .closingQueued rfl rfl (.idle nobody) (.idle nobody)⟩
  refine ⟨_, sealed, by simp [labels], fun e member => ?_⟩
  simp only [List.nil_append, List.cons_append, List.mem_cons, List.not_mem_nil, or_false] at member
  rcases member with rfl | rfl | rfl | rfl | rfl | rfl | rfl | rfl | rfl <;>
    exact ⟨by simp, by simp <;> exact ⟨rfl, rfl⟩⟩

structure PairDone (s : Image) : Prop where
  written : s.written = [(96, [1, 2, 3]), (99, [7])]
  count : s.bd.count = 3
  finished : s.bd.finished = 3
  shut : s.bd.mayAddChunks = false
  blocks : s.bd.fragmentBlockCount = 1
  pieces : (s.bd.fragmentBlock 0).pieces = [1]
  alive : s.fault = none
  api : s.api = .processing
  state : s.state = .building
  places : s.pc = Function.update (Function.update (fun _ => .out) 1 .gone) 0 .gone

/- Thread 0 waits for the worker to write the block, behind which the fragment block comes. -/
theorem pairWorked (later : List Later) : ∃ (early late : List (Event Image Label)) (s last : Image),
    Run (Step (pairConfig later)) pairStart early s ∧ Run (Step (pairConfig later)) s late last ∧
      (∀ e ∈ early ++ late, e.label ∈ [.thread 0, .thread 1]) ∧
      s.pc 0 = .waiting ∧ s.pc 1 = .compressing 0 ∧ (s.bd.chunk 2).state = .writable ∧ s.bd.mayAddChunks = false ∧
      PairDone last := by
  have first : Run (Step (pairConfig later)) pairStart _ _ := Run.start.move ⟨rfl, .sealedAgain rfl rfl rfl⟩
  have popped₁ := ((first.move ⟨rfl, .locked (t := 1) rfl rfl⟩).move ⟨rfl, .pop (t := 1) rfl rfl⟩).move ⟨rfl, @Move.released _ _ 1 _ _ true _ _ _ rfl rfl⟩
  have popped₀ := ((popped₁.move ⟨rfl, .locked (t := 0) rfl rfl⟩).move ⟨rfl, .pop (t := 0) rfl rfl⟩).move ⟨rfl, @Move.released _ _ 0 _ _ true _ _ _ rfl rfl⟩
  have read₁ := popped₀.move ⟨rfl, .read (t := 1) rfl rfl rfl⟩
  have deduplicated₁ := (read₁.move ⟨rfl, .pop (t := 1) rfl rfl⟩).move ⟨rfl, @Move.again _ _ 1 _ _ true _ _ rfl rfl⟩
  have assigned₁ := (deduplicated₁.move ⟨rfl, .pop (t := 1) rfl rfl⟩).move ⟨rfl, @Move.again _ _ 1 _ _ true _ _ rfl rfl⟩
  have compressing₁ := (assigned₁.move ⟨rfl, .pop (t := 1) rfl rfl⟩).move ⟨rfl, @Move.released _ _ 1 _ _ true _ _ _ rfl rfl⟩
  have read₀ := compressing₁.move ⟨rfl, .read (t := 0) rfl rfl rfl⟩
  have deduplicated₀ := (read₀.move ⟨rfl, .pop (t := 0) rfl rfl⟩).move ⟨rfl, @Move.again _ _ 0 _ _ true _ _ rfl rfl⟩
  have assigned₀ := (deduplicated₀.move ⟨rfl, .pop (t := 0) rfl rfl⟩).move ⟨rfl, @Move.again _ _ 0 _ _ true _ _ rfl rfl⟩
  have closing := (assigned₀.move ⟨rfl, .pop (t := 0) rfl rfl⟩).move ⟨rfl, @Move.again _ _ 0 _ _ true _ _ rfl rfl⟩
  have closed₁ := (closing.move ⟨rfl, .pop (t := 0) rfl rfl⟩).move ⟨rfl, @Move.again _ _ 0 _ _ true _ _ rfl rfl⟩
  have closed₂ := (closed₁.move ⟨rfl, .pop (t := 0) rfl rfl⟩).move ⟨rfl, @Move.again _ _ 0 _ _ true _ _ rfl rfl⟩
  have compressing₀ := (closed₂.move ⟨rfl, .pop (t := 0) rfl rfl⟩).move ⟨rfl, @Move.released _ _ 0 _ _ true _ _ _ rfl rfl⟩
  have waiting := (compressing₀.move ⟨rfl, @Move.compressed _ _ 0 _ true _ rfl rfl rfl⟩).move ⟨rfl, .wait (t := 0) rfl rfl (by decide)⟩
  have here := waiting.here
  have compressed := here.move ⟨rfl, @Move.compressed _ _ 1 _ true _ rfl rfl rfl⟩
  have written := ((compressed.move ⟨rfl, .pop (t := 1) rfl rfl⟩).move ⟨rfl, @Move.released _ _ 1 _ _ true _ _ _ rfl rfl⟩).move ⟨rfl, .written (t := 1) rfl rfl rfl⟩
  have finished := (written.move ⟨rfl, .pop (t := 1) rfl rfl⟩).move ⟨rfl, @Move.again _ _ 1 _ _ true _ _ rfl rfl⟩
  have flushed := ((finished.move ⟨rfl, .pop (t := 1) rfl rfl⟩).move ⟨rfl, @Move.released _ _ 1 _ _ true _ _ _ rfl rfl⟩).move ⟨rfl, .written (t := 1) rfl rfl rfl⟩
  have left := flushed.move ⟨rfl, .leave (t := 1) rfl rfl (by decide)⟩
  have gone := (left.move ⟨rfl, .locked (t := 0) rfl rfl⟩).move ⟨rfl, .leave (t := 0) rfl rfl (by decide)⟩
  refine ⟨_, _, _, _, waiting, gone, by simp, rfl, rfl, rfl, rfl, rfl, rfl, rfl, rfl, rfl, rfl, rfl, rfl, rfl, ?_⟩
  funext t
  rcases t with _ | _ | t <;> rfl

theorem pairInPlace : ∃ (o : ImageConfig) (trace : List (Event Image Label)) (s : Image),
    Run (Step o) (init true true 96) trace s ∧ s.bd.mayAddChunks = false ∧ s.pc 0 = .waiting ∧
      s.pc 1 = .compressing 0 ∧ (s.bd.chunk 2).state = .writable ∧ InPlace s := by
  obtain ⟨trace, submitted, _, labelled⟩ := pairSubmitted []
  obtain ⟨early, late, s, _, run, _, each, waiting, compressing, writable, shut, _⟩ := pairWorked []
  refine ⟨_, _, s, submitted.append run, shut, waiting, compressing, writable,
    chunksInPlace (submitted.append run) fun e member => ?_⟩
  rcases List.mem_append.mp member with first | second
  · have own := (labelled e first).1
    simp only [List.mem_cons, List.not_mem_nil, or_false] at own
    rcases own with own | own | own | own | own | own <;> simp [own, Undisturbed, Positive]
  · have own := each e (List.mem_append_left _ second)
    simp only [List.mem_cons, List.not_mem_nil, or_false] at own
    rcases own with own | own <;> simp [own, Undisturbed]

end Image
end Libsqfs
