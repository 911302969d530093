import Libsqfs.PipelineSound

/-! No wake-up is lost: a thread that waits while there is work can rely on one
that runs, and when nobody runs any more everything is finished. -/
namespace Libsqfs

/- Inside the loop of libsqfs_bulkdata_process, or failing in one of its stages. -/
def Pc.InLoop : Pc → Prop
  | .locking | .loop | .waiting | .popped .. | .reading _ | .compressing _ | .writing _ => True
  | .flagging (some _) | .aborting (some _) | .failed => True
  | _ => False

def Pc.Healthy (p : Pc) : Prop := p ≠ .failed ∧ ∀ c, p ≠ .aborting c

/- Not blocked, or with a wake-up pending: a woken thread waits for the lock. -/
def Pc.Awake (p : Pc) : Prop := p.InLoop ∧ p ≠ .waiting

namespace Image
open Bulkdata Transition

/- One user who submits and then seals, and no error. -/
def Clean (s : Image) : Label → Prop
  | .submit _ _ => s.bd.mayAddChunks = true
  | .flag _ | .abort _ => False
  | _ => True

structure Alert (s : Image) : Prop where
  awake : ∀ q c t, c ∈ s.bd.workq q → s.pc t = .waiting → ∃ u, (s.pc u).Awake
  woken : s.bd.finished = s.bd.count → s.bd.mayAddChunks = false → ∀ t, s.pc t ≠ .waiting
  isOver : s.bd.mayAddChunks = false → ¬ Sealing s.api → s.bd.finished = s.bd.count

theorem signalAwake {pc next : Nat → Pc} (signal : Signal pc next) {t : Nat}
    (waits : next t = .waiting) : ∃ u, (next u).Awake := by
  cases signal with
  | @wake u _ => exact ⟨u, by rw [Function.update_self]; simp [Pc.Awake, Pc.InLoop]⟩
  | idle nobody => exact absurd waits (nobody t)

theorem Woken.waiting {pc next : Nat → Pc} (woken : Woken pc next) {t : Nat}
    (waits : next t = .waiting) : pc t = .waiting := by
  rcases woken t with same | ⟨_, now⟩
  · rw [← same]; exact waits
  · rw [now] at waits; cases waits

theorem wakeAllAwake (pc : Nat → Pc) (t : Nat) : wakeAll pc t ≠ .waiting := by
  unfold wakeAll
  split
  · simp
  · assumption

theorem Woken.healthy {pc next : Nat → Pc} (woken : Woken pc next)
    (healthy : ∀ t, Pc.Healthy (pc t)) (t : Nat) : Pc.Healthy (next t) := by
  rcases woken t with same | ⟨_, now⟩
  · rw [same]; exact healthy t
  · rw [now]; simp [Pc.Healthy]

section
variable {P : DataPiece → Prop} {s next : Image} {t c : Nat} {p : Pc} {pc : Nat → Pc}

/- A thread that goes on in the loop keeps everybody else from being stuck. -/
theorem Alert.running (alert : Alert s) (onward : Onward s.bd next.bd) (woken : Woken s.pc pc)
    (pcs : next.pc = Function.update pc t p) (awake : p.Awake)
    (api : next.api = s.api)
    (all : next.bd.finished = next.bd.count →
      s.bd.finished = s.bd.count ∨ ∀ u, pc u ≠ .waiting) : Alert next where
  awake q c u _ _ := ⟨t, by rw [pcs, Function.update_self]; exact awake⟩
  woken done adding u waits := by
    rw [onward.mayAddChunks] at adding
    by_cases own : u = t
    · subst own
      rw [pcs, Function.update_self] at waits
      exact awake.2 waits
    · rw [pcs, Function.update_of_ne own] at waits
      rcases all done with before | nobody
      · exact alert.woken before adding u (woken.waiting waits)
      · exact nobody u waits
  isOver adding free := by
    rw [onward.mayAddChunks] at adding
    rw [api] at free
    exact onward.all (alert.isOver adding free)

theorem Alert.idle (alert : Alert s) (bd : next.bd = s.bd) (api : next.api = s.api)
    (pcs : next.pc = Function.update s.pc t p) (empty : ∀ q, s.bd.workq q = [])
    (waits : p = .waiting → ¬ s.bd.Leaves) : Alert next where
  awake q c u member := by rw [bd, empty] at member; cases member
  woken done adding u blocked := by
    rw [bd] at done adding
    by_cases own : u = t
    · subst own
      rw [pcs, Function.update_self] at blocked
      exact waits blocked (.inl ⟨done, adding⟩)
    · rw [pcs, Function.update_of_ne own] at blocked
      exact alert.woken done adding u blocked
  isOver adding free := by
    rw [bd] at adding ⊢
    rw [api] at free
    exact alert.isOver adding free

theorem Alert.outside (alert : Alert s) (bd : next.bd = s.bd)
    (pcs : next.pc = Function.update s.pc t p) (kept : (s.pc t).Awake → p.Awake)
    (waits : p = .waiting → s.pc t = .waiting)
    (isOver : s.bd.mayAddChunks = false → ¬ Sealing next.api →
      s.bd.finished = s.bd.count) : Alert next where
  awake q c u member blocked := by
    rw [bd] at member
    have before : s.pc u = .waiting := by
      by_cases own : u = t
      · subst own
        rw [pcs, Function.update_self] at blocked
        exact waits blocked
      · rw [pcs, Function.update_of_ne own] at blocked
        exact blocked
    obtain ⟨v, awake⟩ := alert.awake q c u member before
    refine ⟨v, ?_⟩
    by_cases own : v = t
    · subst own; rw [pcs, Function.update_self]; exact kept awake
    · rw [pcs, Function.update_of_ne own]; exact awake
  woken done adding u blocked := by
    rw [bd] at done adding
    by_cases own : u = t
    · subst own
      rw [pcs, Function.update_self] at blocked
      exact alert.woken done adding u (waits blocked)
    · rw [pcs, Function.update_of_ne own] at blocked
      exact alert.woken done adding u blocked
  isOver adding free := by
    rw [bd] at adding ⊢
    exact isOver adding free

theorem Alert.stay (alert : Alert s) (bd : next.bd = s.bd) (pcs : next.pc = s.pc)
    (isOver : s.bd.mayAddChunks = false → ¬ Sealing next.api →
      s.bd.finished = s.bd.count) : Alert next :=
  alert.outside (t := 0) bd (by rw [pcs, Function.update_eq_self]) id id isOver

theorem callingAsleep {p : Pc} (calling : Calling p) : ¬ p.Awake ∧ p ≠ .waiting := by
  rcases calling with rfl | rfl | rfl <;> simp [Pc.Awake, Pc.InLoop]

theorem Sound.pending (sound : Sound P s) {bd : Bulkdata} (mine : (s.pc t).held = some c)
    (adv : Advance s.bd bd c) (state : (s.bd.chunk c).state ≠ .writable) :
    bd.finished ≠ bd.count := by
  have located := sound.chunks.located
  obtain ⟨inside, ready, _⟩ := located.held t c mine
  have early : s.bd.finished ≤ c := by
    by_contra late
    exact ready.1 ((located.finished c inside).mpr (by omega))
  have unfinished : (bd.chunk c).state ≠ .finished := fun isOver => state (adv.last isOver).2
  rw [adv.finished, if_neg unfinished, adv.frame.count]
  omega

end

theorem stageHealthy {o : ImageConfig} {allocated : Bool} {bd next : Bulkdata} {size size' : Nat}
    {q : Workq} {c : Nat} {pc : Pc} (ok : stage o allocated bd size q c = .ok (.released next size' pc)) :
    pc.Healthy := by
  rcases stageReleased ok with rfl | rfl | rfl <;> simp [Pc.Healthy]

/- Only flagging an error leads to an abort. -/
theorem healthyStep {o : ImageConfig} {s next : Image} {l : Label}
    (healthy : ∀ t, (s.pc t).Healthy) (unflagged : ∀ t, l ≠ .flag t) (move : Move o s l next) (t : Nat) :
    (next.pc t).Healthy := by
  have updated {pc : Nat → Pc} {u : Nat} {p : Pc} (woken : Woken s.pc pc) (fine : p.Healthy) :
      (Function.update pc u p t).Healthy := by
    by_cases own : t = u
    · subst own; rw [Function.update_self]; exact fine
    · rw [Function.update_of_ne own]; exact woken.healthy healthy t
  cases move with
  | submit free unlocked own signal => exact (signalWoken signal).healthy healthy t
  | closingQueued here unlocked first second =>
    exact ((signalWoken first).trans (signalWoken second)).healthy healthy t
  | closingQueuedAgain here unlocked first second =>
    exact updated ((signalWoken first).trans (signalWoken second)) (by simp [Pc.Healthy])
  | flag here => exact absurd rfl (unflagged _)
  | abort here unlocked => exact absurd here ((healthy _).2 _)
  | again here result | written here unlocked result =>
    exact updated (broadcastWoken _ _) (by simp [Pc.Healthy])
  | @released u q c allocated bd size pc here result =>
    have fine := stageHealthy result
    exact updated (.refl _) fine
  | setRoot | enter | refuse | rootFound | sealNeeded | sealed | closingFails | later
  | truncateFails | conclude | returns | stageFault | compressFault | writeFault => exact healthy t
  | _ => exact updated (.refl _) (by simp [Pc.Healthy])

theorem Alert.step {P : DataPiece → Prop} {o : ImageConfig} {s next : Image} {l : Label}
    (alert : Alert s) (sound : Sound P s) (healthy : ∀ t, (s.pc t).Healthy) (clean : Clean s l)
    (move : Move o s l next) : Alert next := by
  have located := sound.chunks.located
  have isOver (more : s.bd.mayAddChunks = false) (api : ¬ Sealing s.api) := alert.isOver more api
  have inside {t c} (holds : (s.pc t).held = some c) : c < s.bd.count := (located.held t c holds).1
  cases move with
  | @submit kind data pc free unlocked own signal =>
    have grown := submitGrows sound.chunks.linked kind data
    have woken := signalWoken signal
    have adding : (s.bd.submit kind data).mayAddChunks = true := grown.mayAddChunks.trans clean
    refine ⟨fun q c t _ waits => ?_, fun _ closed => ?_, fun closed => ?_⟩
    · exact signalAwake signal waits
    · exact absurd (adding.symm.trans closed) (by simp)
    · exact absurd (adding.symm.trans closed) (by simp)
  | @closingQueued pc pc' here unlocked first second =>
    have grown := submitGrows sound.chunks.linked .closingPiece ⟨[], 0, 0⟩
    have woken := (signalWoken first).trans (signalWoken second)
    refine ⟨fun q c t _ waits => ?_, fun done _ => ?_, fun _ free => absurd (.inl rfl) free⟩
    · exact signalAwake second waits
    · have counted : s.bd.finished = s.bd.count + 1 :=
        grown.finished.symm.trans (done.trans grown.count)
      have := located.bound
      omega
  -- sealing again finds nothing to do
  | closingFailsAgain here | closingQueuedAgain here =>
    have adding := sound.calls.unsealed true here
    rw [sound.calls.sealed (.inr (.inl here))] at adding
    cases adding
  | flag here => exact clean.elim
  | abort here unlocked => exact clean.elim
  | leaveFailed here unlocked left => exact absurd here (healthy _).1
  | waitFailed here unlocked stays => exact absurd here (healthy _).1
  -- thread 0 in its calls
  | setRoot free building missing => exact alert.stay rfl rfl isOver
  | enter free building =>
    exact alert.stay rfl rfl fun more _ => isOver more (by rw [free.1]; simp [Sealing])
  | refuse free left => exact alert
  | rootFound here found =>
    exact alert.stay rfl rfl fun more _ => isOver more (by rw [here]; simp [Sealing])
  | sealNeeded here unlocked adding =>
    exact alert.stay rfl rfl fun more _ => by rw [adding] at more; cases more
  | sealed here unlocked done => exact alert.stay rfl rfl fun _ free => absurd (.inl rfl) free
  | closingFails here =>
    exact alert.stay rfl rfl fun more _ => isOver more (by rw [here]; simp [Sealing])
  | later here => exact alert.stay rfl rfl fun more _ => isOver more (by rw [here]; simp [Sealing])
  | truncateFails here padding =>
    exact alert.stay rfl rfl fun more _ => isOver more (by rw [here]; simp [Sealing])
  | conclude here => exact alert.stay rfl rfl fun more _ => isOver more (by rw [here]; simp [Sealing])
  | returns here idle =>
    exact alert.stay rfl rfl fun more _ => isOver more (by rw [here]; simp [Sealing])
  | rootMissing here missing =>
    have asleep := callingAsleep (sound.calls.apart (by rw [here]; simp))
    exact alert.outside rfl rfl (fun awake => absurd awake asleep.1) (by simp)
      fun more _ => isOver more (by rw [here]; simp [Sealing])
  | concludeFailed here idle =>
    exact alert.outside rfl rfl (fun awake => by rw [idle] at awake; exact awake.1.elim) (by simp)
      fun more _ => isOver more (by rw [here]; simp [Sealing])
  | sealedAgain here unlocked done =>
    have asleep := callingAsleep (sound.calls.apart (by rw [here]; simp))
    exact alert.outside rfl rfl (fun awake => absurd awake asleep.1) (by simp)
      fun _ free => absurd (.inr (.inr rfl)) free
  | processed here left =>
    exact alert.outside rfl rfl (fun awake => by rw [left] at awake; exact awake.1.elim) (by simp)
      fun _ _ => (sound.calls.returned left).1
  -- threads on their way into the loop, or not in it
  | spawn free new other =>
    exact alert.outside rfl rfl (fun awake => by rw [new] at awake; exact awake.1.elim) (by simp)
      isOver
  | openFails here =>
    exact alert.outside rfl rfl (fun awake => by rw [here] at awake; exact awake.1.elim) (by simp)
      isOver
  | abortCall here outside =>
    exact alert.outside rfl rfl (fun awake => by rw [here] at awake; exact awake.1.elim) (by simp)
      isOver
  | opened here | locked here unlocked | spurious here | readFails here | writeFails here =>
    exact alert.outside rfl rfl (fun _ => by simp [Pc.Awake, Pc.InLoop]) (by simp)
      isOver
  | stageFault here result | compressFault here result | writeFault here unlocked result =>
    exact alert.stay rfl rfl isOver
  -- the stages
  | pop here popped =>
    obtain ⟨rest, shape, rfl⟩ := popSpec popped
    exact alert.running ⟨rfl, rfl, fun _ => rfl, fun _ => id, id⟩ (.refl _) rfl
      (by simp [Pc.Awake, Pc.InLoop]) rfl .inl
  | @again t q c allocated bd all here result =>
    obtain ⟨mine, inside, _, state⟩ := sound.working here rfl
    obtain ⟨adv, flag, quiet⟩ :=
      stageSpec sound.chunks.linked inside (sound.chunks.closing c inside) state result
    refine alert.running (onwardAdvance located inside adv) (broadcastWoken s.pc all) rfl
      (by simp [Pc.Awake, Pc.InLoop]) rfl fun done => ?_
    by_cases writing : q = .writeq
    · rw [(flag writing).mpr done]
      exact .inr (wakeAllAwake s.pc)
    · refine absurd done (sound.pending mine adv fun writable => writing ?_)
      have same : q.state = .writable := state.symm.trans writable
      cases q <;> cases same
      rfl
  | @released t q c allocated bd size pc here result =>
    obtain ⟨_, inside, _, state⟩ := sound.working here rfl
    obtain ⟨same, working⟩ :=
      stageSpec sound.chunks.linked inside (sound.chunks.closing c inside) state result
    have going : pc.Awake := by
      rcases working with ⟨rfl, _⟩ | ⟨rfl, _⟩ | ⟨rfl, _⟩ <;> simp [Pc.Awake, Pc.InLoop]
    exact alert.running (onwardSame same) (.refl _) rfl going rfl fun done =>
      .inl (same.finished.symm.trans (done.trans same.frame.count))
  | @outOfMemory t q c allocated bd here result =>
    obtain ⟨_, inside, _, state⟩ := sound.working here rfl
    have same :=
      stageSpec sound.chunks.linked inside (sound.chunks.closing c inside) state result
    exact alert.running (onwardSame same) (.refl _) rfl (by simp [Pc.Awake, Pc.InLoop])
      rfl fun done =>
        .inl (same.finished.symm.trans (done.trans same.frame.count))
  | @read t c here unlocked whole =>
    obtain ⟨mine, inside, _, doing⟩ := sound.working here rfl
    have adv := readAdvances inside doing.1
    exact alert.running (onwardAdvance located inside adv) (.refl _) rfl
      (by simp [Pc.Awake, Pc.InLoop]) rfl fun done =>
        absurd done (sound.pending mine adv (by rw [doing.1]; simp))
  | @compressed t c allocated bd here unlocked result =>
    obtain ⟨mine, inside, _, doing⟩ := sound.working here rfl
    have state : (s.bd.chunk c).state = .assigned := doing
    have adv := compressEndAdvances inside state result
    exact alert.running (onwardAdvance located inside adv) (.refl _) rfl
      (by simp [Pc.Awake, Pc.InLoop]) rfl fun done =>
        absurd done (sound.pending mine adv (by rw [state]; simp))
  | @compressFails t c allocated bd here result =>
    obtain ⟨_, inside, _, state⟩ := sound.working here rfl
    have same := compressEndAdvances inside state result
    exact alert.running (onwardSame same) (.refl _) rfl (by simp [Pc.Awake, Pc.InLoop])
      rfl fun done =>
        .inl (same.finished.symm.trans (done.trans same.frame.count))
  | @written t c write bd all here unlocked result =>
    obtain ⟨_, inside, _, state⟩ := sound.working here rfl
    obtain ⟨adv, flag⟩ := writeEndAdvances inside state result
    refine alert.running (onwardAdvance located inside adv) (broadcastWoken s.pc all) rfl
      (by simp [Pc.Awake, Pc.InLoop]) rfl fun done => ?_
    rw [flag.mpr done]
    exact .inr (wakeAllAwake s.pc)
  | leave here empty left =>
    exact alert.idle rfl rfl rfl (popNone empty) (by simp)
  | wait here empty stays =>
    exact alert.idle rfl rfl rfl (popNone empty) fun _ => stays

def AtRest (s : Image) (t : Nat) : Prop :=
  s.pc t = .waiting ∨ s.pc t = .gone ∨ s.pc t = .out ∧ (t = 0 → ¬ Sealing s.api)

theorem AtRest.asleep {s : Image} {t : Nat} (rest : AtRest s t) :
    ¬ (s.pc t).Awake ∧ (s.pc t).held = none := by
  rcases rest with h | h | ⟨h, _⟩ <;> rw [h] <;> simp [Pc.Awake, Pc.InLoop, Pc.held]

/- Of the unfinished chunks the first one is never parked. -/
theorem Sound.firstReady {P : DataPiece → Prop} {s : Image} (sound : Sound P s)
    (left : s.bd.finished < s.bd.count) : s.bd.Ready s.bd.finished := by
  have located := sound.chunks.located
  have done (d) (before : d < s.bd.finished) : (s.bd.chunk d).state = .finished :=
    (located.finished d (by omega)).mpr before
  refine ⟨fun isOver => ?_, fun _ p prev => ?_, fun _ => ?_⟩
  · have := (located.finished _ left).mp isOver
    omega
  · rw [done p (sound.chunks.linked.prev _ p left prev).1]
    decide
  · by_cases first : s.bd.finished = 0
    · exact .inl first
    · exact .inr (done _ (by omega))

theorem Sound.allFinished {P : DataPiece → Prop} {s : Image} (sound : Sound P s)
    (nobody : ∀ t, (s.pc t).held = none) (empty : ∀ q, s.bd.workq q = []) :
    s.bd.finished = s.bd.count := by
  have located := sound.chunks.located
  by_contra left
  have bound := located.bound
  have below : s.bd.finished < s.bd.count := by omega
  rcases located.covered _ below (sound.firstReady below) with ⟨q, member⟩ | ⟨t, holds⟩
  · rw [empty] at member; cases member
  · exact absurd (holds.symm.trans (nobody t)) (by simp)

theorem Sound.queuesEmpty {P : DataPiece → Prop} {s : Image} (sound : Sound P s)
    (done : s.bd.finished = s.bd.count) (q : Workq) : s.bd.workq q = [] := by
  have located := sound.chunks.located
  refine List.eq_nil_iff_forall_not_mem.mpr fun c member => ?_
  obtain ⟨inside, _, ready⟩ := located.queued q c member
  exact ready.1 ((located.finished c inside).mpr (by omega))

theorem deadlockFree {o : ImageConfig} {compressBlocks compressFragments : Bool} {size : Nat}
    {trace : List (Event Image Label)} {s : Image}
    (run : Run (Step o) (init compressBlocks compressFragments size) trace s)
    (clean : Obeys Clean trace) :
    (s.bd.mayAddChunks = false → (∀ t, AtRest s t) →
      s.bd.finished = s.bd.count ∧ (∀ q, s.bd.workq q = []) ∧ ∀ t, s.pc t ≠ .waiting) ∧
    (s.bd.mayAddChunks = true → (∃ t, (s.pc t).InLoop) → (∃ q, s.bd.workq q ≠ []) →
      ∃ t, (s.pc t).Awake) := by
  have kept (s : Image) (l : Label) (next : Image)
      (known : Sound (fun _ => True) s ∧ (∀ t, (s.pc t).Healthy) ∧ Alert s) (allowed : Clean s l)
      (taken : Step o s l next) :
      Sound (fun _ => True) next ∧ (∀ t, (next.pc t).Healthy) ∧ Alert next := by
    obtain ⟨sound, healthy, alert⟩ := known
    have undisturbed : Undisturbed (fun _ => True) s l := by
      cases l <;> trivial
    exact ⟨sound.step undisturbed taken.2, healthyStep healthy (fun t same => by subst same; exact allowed) taken.2,
      alert.step sound healthy allowed taken.2⟩
  have first : Alert (init compressBlocks compressFragments size) :=
    ⟨fun _ _ _ member => (List.not_mem_nil member).elim, fun _ more => (by cases more),
      fun more => (by cases more)⟩
  obtain ⟨sound, _, alert⟩ := Run.invariant
    (I := fun s => Sound (fun _ => True) s ∧ (∀ t, (s.pc t).Healthy) ∧ Alert s)
    ⟨initSound compressBlocks compressFragments size, fun t => by simp [init, Pc.Healthy], first⟩
    kept run clean
  refine ⟨fun closed rest => ?_, fun _ worker work => ?_⟩
  · have done : s.bd.finished = s.bd.count := by
      by_cases blocked : ∃ t, s.pc t = .waiting
      · obtain ⟨t, waits⟩ := blocked
        refine sound.allFinished (fun t => (rest t).asleep.2) fun q => ?_
        refine List.eq_nil_iff_forall_not_mem.mpr fun c member => ?_
        obtain ⟨u, awake⟩ := alert.awake q c t member waits
        exact (rest u).asleep.1 awake
      · rcases rest 0 with waits | gone | ⟨_, free⟩
        · exact absurd ⟨0, waits⟩ blocked
        · exact (sound.calls.returned gone).1
        · exact alert.isOver closed (free rfl)
    exact ⟨done, sound.queuesEmpty done, alert.woken done closed⟩
  · obtain ⟨t, inLoop⟩ := worker
    obtain ⟨q, busy⟩ := work
    by_cases waits : s.pc t = .waiting
    · obtain ⟨c, member⟩ := List.exists_mem_of_ne_nil _ busy
      exact alert.awake q c t member waits
    · exact ⟨t, inLoop, waits⟩

def emptyDone : Bulkdata :=
  ({(Bulkdata.init true true).sealed with workq := fun _ => [], finished := 1} : Bulkdata).setState 0 .finished

theorem rootedAlone (o : ImageConfig) : ∃ (trace : List (Event Image Label)) (s : Image),
    Run (Step o) {init true true 96 with root := true} trace s ∧
      (∀ e ∈ trace, e.label ∈ [.thread 0, .enter, .seal] ∧ e.after.root = e.before.root) ∧
      s = {init true true 96 with
        root := true, api := .processing, bd := emptyDone, pc := fun t => if t = 0 then .gone else .out} := by
  have entered : Run (Step o) {init true true 96 with root := true} _ _ := Run.start.move ⟨rfl, .enter ⟨rfl, rfl⟩ rfl⟩
  have needed := (entered.move ⟨rfl, .rootFound rfl rfl⟩).move ⟨rfl, .sealNeeded rfl rfl rfl⟩
  have closed := needed.move
    ⟨rfl, .closingQueued rfl rfl (.idle fun t => by simp [init]) (.idle fun t => by simp [init])⟩
  have popped := ((closed.move ⟨rfl, .sealedAgain rfl rfl rfl⟩).move
    ⟨rfl, .locked (t := 0) rfl rfl⟩).move ⟨rfl, .pop (t := 0) rfl rfl⟩
  have read := (popped.move ⟨rfl, @Move.again _ _ 0 _ _ true _ _ rfl rfl⟩).move
    ⟨rfl, .pop (t := 0) rfl rfl⟩
  have deduplicated := (read.move ⟨rfl, @Move.again _ _ 0 _ _ true _ _ rfl rfl⟩).move
    ⟨rfl, .pop (t := 0) rfl rfl⟩
  have assigned := (deduplicated.move ⟨rfl, @Move.again _ _ 0 _ _ true _ _ rfl rfl⟩).move
    ⟨rfl, .pop (t := 0) rfl rfl⟩
  have finished := (assigned.move ⟨rfl, @Move.again _ _ 0 _ _ true _ _ rfl rfl⟩).move
    ⟨rfl, .leave (t := 0) rfl rfl (by decide)⟩
  refine ⟨_, _, finished, by simp [goto], ?_⟩
  have same {bd bd' : Bulkdata} (chunk : ∀ c, bd.chunk c = bd'.chunk c) (workq : ∀ q, bd.workq q = bd'.workq q)
      (rest : {bd with chunk := bd'.chunk, workq := bd'.workq} = bd') : bd = bd' := by
    rw [← rest, ← funext chunk, ← funext workq]
  have bulk {s s' : Image} (bd : s.bd = s'.bd) (pc : ∀ t, s.pc t = s'.pc t)
      (rest : {s with bd := s'.bd, pc := s'.pc} = s') : s = s' := by
    rw [← rest, ← bd, ← funext pc]
  exact bulk (same (fun c => by cases c <;> rfl) (fun q => by cases q <;> rfl) rfl) (fun t => by cases t <;> rfl) rfl

theorem sealedAlone (o : ImageConfig) : ∃ (trace : List (Event Image Label)) (s : Image),
    Run (Step o) (init true true 96) trace s ∧ (∀ e ∈ trace, e.label ∈ [.thread 0, .enter, .seal]) ∧
      s.fault = none ∧ s.state = .building ∧ s.api = .processing ∧
      (∀ t, s.pc t = if t = 0 then .gone else .out) ∧ s.bd = emptyDone := by
  have rooted : Run (Step o) (init true true 96) _ {init true true 96 with root := true} :=
    Run.start.move ⟨rfl, .setRoot ⟨rfl, rfl⟩ rfl rfl⟩
  obtain ⟨trace, s, run, alone, rfl⟩ := rootedAlone o
  refine ⟨_, _, rooted.append run, fun e member => ?_, rfl, rfl, rfl, fun t => rfl, rfl⟩
  rcases List.mem_append.mp member with first | later
  · obtain rfl := List.mem_singleton.mp first
    simp
  · exact (alone e later).1

theorem pairRun (later : List Later) : ∃ (trace : List (Event Image Label)) (s : Image),
    Run (Step (pairConfig later)) (init true true 96) trace s ∧ Obeys Clean trace ∧
      .seal ∈ labels trace ∧ (∀ e ∈ trace, e.label ∈ [.thread 0, .thread 1, .submit .fullBlock ⟨[1, 2, 3], 3, 0⟩,
        .submit .fragmentPiece ⟨[7], 1, 0⟩, .enter, .seal] ∧
          ((∃ kind data, e.label = .submit kind data) → e.before.state = .building)) ∧ PairDone s := by
  obtain ⟨trace, submitted, sealed, labelled⟩ := pairSubmitted later
  obtain ⟨early, late, _, s, first, second, each, _, _, _, _, done⟩ := pairWorked later
  have threads (e) (member : e ∈ early ++ late) : e.label = .thread 0 ∨ e.label = .thread 1 := by
    simpa using each e member
  refine ⟨trace ++ (early ++ late), s, submitted.append (first.append second), fun e member => ?_,
    List.mem_map.mpr ?_, fun e member => ?_, done⟩
  · rcases List.mem_append.mp member with begun | worked
    · obtain ⟨own, adding⟩ := labelled e begun
      simp only [List.mem_cons, List.not_mem_nil, or_false] at own
      rcases own with own | own | own | own | own | own <;> rw [own]
      · trivial
      · trivial
      · exact (adding ⟨_, _, own⟩).1
      · exact (adding ⟨_, _, own⟩).1
      · trivial
      · trivial
    · rcases threads e worked with own | own <;> rw [own] <;> trivial
  · obtain ⟨e, member, sealing⟩ := List.mem_map.mp sealed
    exact ⟨e, List.mem_append_left _ member, sealing⟩
  · rcases List.mem_append.mp member with begun | worked
    · exact ⟨(labelled e begun).1, fun submits => ((labelled e begun).2 submits).2⟩
    · rcases threads e worked with own | own <;> rw [own] <;> simp

theorem pairFinishes : ∃ (o : ImageConfig) (trace : List (Event Image Label)) (s : Image),
    Run (Step o) (init true true 96) trace s ∧ s.bd.count = 3 ∧ s.pc 0 = .gone ∧ s.pc 1 = .gone ∧
      s.bd.finished = s.bd.count := by
  obtain ⟨trace, s, run, clean, _, _, done⟩ := pairRun []
  refine ⟨_, trace, s, run, done.count, by rw [done.places]; rfl, by rw [done.places]; rfl,
    ((deadlockFree run clean).1 done.shut fun t => ?_).1⟩
  rw [AtRest, done.places]
  rcases t with _ | _ | t
  · exact .inr (.inl rfl)
  · exact .inr (.inl rfl)
  · exact .inr (.inr ⟨rfl, by simp⟩)

end Image
end Libsqfs
