import Mathlib.Algebra.BigOperators.Group.Finset.Basic
import Mathlib.Algebra.Order.BigOperators.Group.Finset
import Libsqfs.PipelineProgress
import Libsqfs.PipelineSealed

/-! The threads do not go on for ever: what is left to do bounds the steps they can
take, whatever their order, and a thread that works can take one. -/
namespace Libsqfs

def Pc.Running : Pc → Prop
  | .opening | .locking | .loop | .popped .. | .reading _ | .compressing _ | .writing _ => True
  | _ => False

instance : (p : Pc) → Decidable p.Running
  | .opening | .locking | .loop | .popped .. | .reading _ | .compressing _ | .writing _ => .isTrue trivial
  | .out | .waiting | .flagging _ | .aborting _ | .failed | .gone => .isFalse id

def Pc.Inside (p : Pc) : Prop := p = .loop ∨ ∃ q c, p = .popped q c

def Pc.effort : Pc → Nat
  | .opening => 5
  | .locking => 4
  | .loop => 3
  | .popped .. => 2
  | .reading _ | .compressing _ | .writing _ => 1
  | _ => 0

def Bulkdata.remaining (bd : Bulkdata) : Nat := ∑ c ∈ Finset.range bd.count, (5 - (bd.chunk c).state.value)

namespace Image
open Bulkdata Transition

/- A step in libsqfs_bulkdata_process, or of thread 0 into it. -/
def AtWork (s : Image) : Label → Prop
  | .thread t => (s.pc t).Running ∨ t = 0 ∧ s.api = .seal true
  | _ => False

instance (s : Image) : (l : Label) → Decidable (s.AtWork l)
  | .thread t => inferInstanceAs (Decidable ((s.pc t).Running ∨ t = 0 ∧ s.api = .seal true))
  | .submit .. | .seal | .flag _ | .abort _ | .enter | .returned _ | .later _ | .conclude => .isFalse id

def entering (api : Api) : Nat := if api = .seal true then 5 else 0

def crew (n : Nat) (pc : Nat → Pc) : Nat := ∑ t ∈ Finset.range n, (pc t).effort

/- Those who wait are woken once, when the last chunk is finished. -/
def effort (n : Nat) (s : Image) : Nat :=
  3 * s.bd.remaining + (if s.bd.finished = s.bd.count then 0 else 4 * n) + crew n s.pc + entering s.api +
    if s.fault = none then 1 else 0

section
variable {s next : Image} {n t c : Nat} {p : Pc} {pc : Nat → Pc}

theorem crewUpdate (below : t < n) (pc : Nat → Pc) (p : Pc) :
    crew n (Function.update pc t p) + (pc t).effort = crew n pc + p.effort := by
  have member := Finset.mem_range.mpr below
  have others : ∑ u ∈ (Finset.range n).erase t, (Function.update pc t p u).effort =
      ∑ u ∈ (Finset.range n).erase t, (pc u).effort :=
    Finset.sum_congr rfl fun u inside => by rw [Function.update_of_ne (Finset.ne_of_mem_erase inside)]
  rw [crew, crew, ← Finset.add_sum_erase _ _ member, ← Finset.add_sum_erase _ (fun u => (pc u).effort) member, others,
    Function.update_self]
  omega

theorem crewWakeAll (n : Nat) (pc : Nat → Pc) : crew n (wakeAll pc) ≤ crew n pc + 4 * n := by
  have each (t : Nat) : (wakeAll pc t).effort ≤ (pc t).effort + 4 := by
    unfold wakeAll
    split
    · simp [Pc.effort]
    · omega
  calc crew n (wakeAll pc) ≤ ∑ t ∈ Finset.range n, ((pc t).effort + 4) := Finset.sum_le_sum fun t _ => each t
    _ = crew n pc + 4 * n := by
      rw [Finset.sum_add_distrib, Finset.sum_const_nat fun _ _ => rfl, Finset.card_range, crew, Nat.mul_comm n]

theorem remainingKept (count : next.bd.count = s.bd.count)
    (state : ∀ d, (next.bd.chunk d).state = (s.bd.chunk d).state) : next.bd.remaining = s.bd.remaining := by
  rw [remaining, remaining, count]
  exact Finset.sum_congr rfl fun d _ => by rw [state]

theorem stateBound (state : ChunkState) : state.value ≤ 5 := by
  cases state <;> decide

theorem remainingAdvance {bd next : Bulkdata} (inside : c < bd.count) (adv : Advance bd next c) :
    next.remaining < bd.remaining := by
  rw [remaining, remaining, adv.frame.count]
  refine Finset.sum_lt_sum (fun d _ => ?_) ⟨c, Finset.mem_range.mpr inside, ?_⟩
  · by_cases own : d = c
    · subst own
      have := adv.rank
      omega
    · rw [adv.kept d own]
  · have := adv.rank
    have := stateBound (next.chunk c).state
    omega

theorem effortGoto (below : t < n) (count : next.bd.count = s.bd.count) (finished : next.bd.finished = s.bd.finished)
    (state : ∀ d, (next.bd.chunk d).state = (s.bd.chunk d).state) (fault : next.fault = s.fault)
    (pcs : next.pc = Function.update s.pc t p) :
    effort n next + (s.pc t).effort + entering s.api = effort n s + p.effort + entering next.api := by
  have := crewUpdate below s.pc p
  simp only [effort, remainingKept count state, count, finished, fault, pcs]
  omega

theorem effortSame (below : t < n) (same : Same s.bd next.bd) (fault : next.fault = s.fault) (api : next.api = s.api)
    (pcs : next.pc = Function.update s.pc t p) (less : p.effort < (s.pc t).effort) : effort n next < effort n s := by
  have := effortGoto below same.frame.count same.finished same.state fault pcs
  rw [api] at this
  omega

theorem effortAdvance {P : DataPiece → Prop} (sound : Sound P s) (below : t < n) (mine : (s.pc t).held = some c)
    (adv : Advance s.bd next.bd c) (all : Bool) (flag : all = true → next.bd.finished = next.bd.count)
    (fault : next.fault = s.fault) (api : next.api = s.api)
    (pcs : next.pc = Function.update (if all then wakeAll s.pc else s.pc) t .loop) (some : 0 < (s.pc t).effort) :
    effort n next < effort n s := by
  obtain ⟨inside, ready, _⟩ := sound.chunks.located.held t c mine
  have early : s.bd.finished ≠ s.bd.count := fun all => by
    have := (sound.chunks.located.finished c inside).not.mp ready.1
    omega
  have fewer := remainingAdvance inside adv
  have awake : (if all then wakeAll s.pc else s.pc) t = s.pc t := by
    split
    · unfold wakeAll
      split
      · rename_i waits
        rw [waits] at mine
        cases mine
      · rfl
    · rfl
  have moved := crewUpdate below (if all then wakeAll s.pc else s.pc) .loop
  rw [awake, ← pcs, show Pc.loop.effort = 3 from rfl] at moved
  simp only [effort, fault, api, if_neg early]
  cases all with
  | true =>
    have := crewWakeAll n s.pc
    simp only [if_true] at moved
    rw [if_pos (flag rfl)]
    omega
  | false =>
    simp only [Bool.false_eq_true, if_false] at moved
    split <;> omega

structure Spends (n : Nat) (s : Image) (l : Label) (next : Image) : Prop where
  limit : effort n next ≤ effort n s + 5
  work : s.AtWork l → effort n next < effort n s

theorem spendsLess {l : Label} (less : effort n next < effort n s) : Spends n s l next :=
  ⟨by omega, fun _ => less⟩

theorem spendsIdle {l : Label} (limit : effort n next ≤ effort n s + 5) (idle : ¬ s.AtWork l) : Spends n s l next :=
  ⟨limit, fun work => absurd work idle⟩

theorem callingIdle {p : Pc} (calling : Calling p) : p.effort = 0 ∧ ¬ p.Running := by
  rcases calling with rfl | rfl | rfl <;> exact ⟨rfl, id⟩

theorem effortStep {P : DataPiece → Prop} {o : ImageConfig} {l : Label} (sound : Sound P s)
    (healthy : ∀ t, (s.pc t).Healthy) (closed : s.bd.mayAddChunks = false) (clean : Clean s l)
    (below : ∀ t, l = .thread t → t < n) (taken : Step o s l next) : Spends n s l next := by
  obtain ⟨alive, move⟩ := taken
  have inside {t c} (holds : (s.pc t).held = some c) : c < s.bd.count := (sound.chunks.located.held t c holds).1
  -- a thread that goes on without touching the chunks
  have goes {t : Nat} {p : Pc} (own : l = .thread t) (bd : next.bd = s.bd) (fault : next.fault = s.fault)
      (api : next.api = s.api) (pcs : next.pc = Function.update s.pc t p) (less : p.effort < (s.pc t).effort) :
      Spends n s l next :=
    spendsLess (effortSame (below t own) (bd ▸ .refl _) fault api pcs less)
  have fails {f : Fault} (same : next = {s with fault := some f}) : Spends n s l next := by
    refine spendsLess ?_
    simp only [same, effort, alive]
    simp
  have stays (bd : next.bd = s.bd) (fault : next.fault = s.fault) (pcs : next.pc = s.pc) (idle : ¬ s.AtWork l) :
      Spends n s l next := by
    refine spendsIdle ?_ idle
    simp only [effort, bd, fault, pcs, entering]
    split <;> split <;> omega
  have leaves {t : Nat} {p : Pc} (own : l = .thread t) (bd : next.bd = s.bd) (fault : next.fault = s.fault)
      (pcs : next.pc = Function.update s.pc t p) (more : p.effort ≤ (s.pc t).effort + 5) (idle : ¬ s.AtWork l)
      (api : entering next.api = entering s.api) : Spends n s l next := by
    have moved := effortGoto (below t own) (by rw [bd]) (by rw [bd]) (fun _ => by rw [bd]) fault pcs
    exact spendsIdle (by omega) idle
  cases move with
  | @submit kind data pc free unlocked own signal => exact absurd (clean.symm.trans closed) (by simp)
  | closingQueued here unlocked first second =>
    have adding := sound.calls.unsealed _ here
    rw [closed] at adding
    cases adding
  | closingQueuedAgain here unlocked first second =>
    have adding := sound.calls.unsealed _ here
    rw [closed] at adding
    cases adding
  | flag here => exact clean.elim
  | abort here unlocked => exact clean.elim
  | leaveFailed here unlocked left => exact absurd here (healthy _).1
  | waitFailed here unlocked stays => exact absurd here (healthy _).1
  | closingFailsAgain here =>
    have adding := sound.calls.unsealed _ here
    rw [closed] at adding
    cases adding
  | sealNeeded here unlocked adding =>
    rw [closed] at adding
    cases adding
  -- thread 0 in its calls
  | setRoot free building missing => exact stays rfl rfl rfl (by simp [AtWork, free.1, free.2, Pc.Running])
  | enter | later | truncateFails | conclude | returns => exact stays rfl rfl rfl id
  | refuse => exact stays rfl rfl rfl id
  | rootFound here found | sealed here unlocked done | closingFails here =>
    have calling := callingIdle (sound.calls.apart (by rw [here]; simp))
    exact stays rfl rfl rfl (by simp [AtWork, here, calling.2])
  | rootMissing here missing =>
    have calling := callingIdle (sound.calls.apart (by rw [here]; simp))
    exact leaves rfl rfl rfl rfl (by rw [calling.1]; exact Nat.zero_le 5) (by simp [AtWork, here, calling.2]) (by rw [here]; rfl)
  | concludeFailed here idle =>
    exact leaves rfl rfl rfl rfl (by rw [idle]; exact Nat.zero_le 5) (by simp [AtWork, here, idle, Pc.Running]) (by rw [here]; rfl)
  | processed here left =>
    exact leaves rfl rfl rfl rfl (by rw [left]; exact Nat.zero_le 5) (by simp [AtWork, here, left, Pc.Running]) (by rw [here]; rfl)
  | sealedAgain here unlocked done =>
    have calling := callingIdle (sound.calls.apart (by rw [here]; simp))
    have moved := @effortGoto s ({s with api := .processing}.goto 0 .locking) n 0 _ (below 0 rfl) rfl rfl (fun _ => rfl) rfl rfl
    rw [here, calling.1] at moved
    refine spendsLess ?_
    simp only [goto, entering, if_true, Pc.effort, reduceCtorEq, if_false] at moved
    simp only [goto]
    omega
  -- threads that are not at work
  | spawn free new other =>
    exact leaves rfl rfl rfl rfl (by rw [new]; exact le_refl 5) (by simp [AtWork, new, Pc.Running, other]) rfl
  | abortCall here outside =>
    refine leaves rfl rfl rfl rfl (by rw [here]; exact Nat.zero_le 5) ?_ rfl
    rintro (running | ⟨own, api⟩)
    · rw [here] at running
      exact running
    · rw [outside own] at api
      cases api
  | spurious here =>
    refine leaves rfl rfl rfl rfl (by rw [here]; exact Nat.le_succ 4) ?_ rfl
    rintro (running | ⟨rfl, api⟩)
    · rw [here] at running
      exact running
    · rcases sound.calls.apart (by rw [api]; simp) with same | same | same <;> rw [here] at same <;> cases same
  -- the loop
  | opened here | openFails here | locked here unlocked | readFails here | writeFails here | leave here | wait here =>
    exact goes rfl rfl rfl rfl rfl (by simp [here, Pc.effort])
  | stageFault | compressFault | writeFault => exact fails rfl
  | @pop t q c bd here popped =>
    obtain ⟨rest, _, rfl⟩ := popSpec popped
    have moved := @effortGoto s ({s with bd := {s.bd with workq := Function.update s.bd.workq q rest}}.goto t (.popped q c))
      n t _ (below t rfl) rfl rfl (fun _ => rfl) rfl rfl
    rw [here] at moved
    refine spendsLess ?_
    simp only [goto, Pc.effort] at moved ⊢
    omega
  | @again t q c allocated bd all here result =>
    obtain ⟨mine, inside, _, state⟩ := sound.working here rfl
    obtain ⟨adv, flag, quiet⟩ :=
      stageSpec sound.chunks.linked inside (sound.chunks.closing c inside) state result
    refine spendsLess (effortAdvance sound (below t rfl) mine adv all (fun here => ?_) rfl rfl rfl
      (by simp [here, Pc.effort]))
    by_cases writing : q = .writeq
    · exact (flag writing).mp here
    · rw [quiet writing] at here
      cases here
  | @released t q c allocated bd size pc here result =>
    obtain ⟨_, inside, _, state⟩ := sound.working here rfl
    obtain ⟨same, working⟩ :=
      stageSpec sound.chunks.linked inside (sound.chunks.closing c inside) state result
    refine spendsLess (effortSame (below t rfl) same rfl rfl rfl ?_)
    rw [here]
    rcases working with ⟨rfl, _⟩ | ⟨rfl, _⟩ | ⟨rfl, _⟩ <;> exact Nat.one_lt_two
  | @outOfMemory t q c allocated bd here result =>
    obtain ⟨_, inside, _, state⟩ := sound.working here rfl
    have same :=
      stageSpec sound.chunks.linked inside (sound.chunks.closing c inside) state result
    exact spendsLess (effortSame (below t rfl) same rfl rfl rfl (by simp [here, Pc.effort]))
  | @read t c here unlocked whole =>
    obtain ⟨mine, inside, _, doing⟩ := sound.working here rfl
    exact spendsLess (effortAdvance sound (below t rfl) mine (readAdvances inside doing.1) false (by simp)
      rfl rfl rfl (by simp [here, Pc.effort]))
  | @compressed t c allocated bd here unlocked result =>
    obtain ⟨mine, inside, _, state⟩ := sound.working here rfl
    exact spendsLess (effortAdvance sound (below t rfl) mine (compressEndAdvances inside state result) false
      (by simp) rfl rfl rfl (by simp [here, Pc.effort]))
  | @compressFails t c allocated bd here result =>
    obtain ⟨_, inside, _, state⟩ := sound.working here rfl
    exact spendsLess (effortSame (below t rfl) (compressEndAdvances inside state result) rfl rfl rfl
      (by simp [here, Pc.effort]))
  | @written t c write bd all here unlocked result =>
    obtain ⟨mine, inside, _, state⟩ := sound.working here rfl
    obtain ⟨adv, flag⟩ := writeEndAdvances inside state result
    exact spendsLess (effortAdvance sound (below t rfl) mine adv all flag.mp rfl rfl rfl (by simp [here, Pc.effort]))

end

/-! ### The lock -/

def Locked (s : Image) : Prop := ∀ t, s.lock = some t ↔ (s.pc t).Inside

section
variable {s next : Image} {t : Nat} {p : Pc} {pc : Nat → Pc}

theorem Woken.inside (woken : Woken s.pc pc) (t : Nat) : (pc t).Inside ↔ (s.pc t).Inside := by
  rcases woken t with same | ⟨was, now⟩
  · rw [same]
  · simp [was, now, Pc.Inside]

theorem Locked.own (locked : Locked s) (free : s.lock = none ∨ (s.pc t).Inside) (woken : Woken s.pc pc)
    (pcs : next.pc = Function.update pc t p) (lock : ∀ u, next.lock = some u ↔ u = t ∧ p.Inside) : Locked next := by
  intro u
  rw [lock, pcs]
  by_cases own : u = t
  · subst own
    simp
  · rw [Function.update_of_ne own, woken.inside, ← locked]
    refine ⟨fun here => absurd here.1 own, fun here => ?_⟩
    rcases free with none | inside
    · rw [none] at here
      cases here
    · exact absurd (Option.some.inj (here.symm.trans ((locked t).mpr inside))) own

theorem Locked.others (locked : Locked s) (was : ¬ (s.pc t).Inside) (now : ¬ p.Inside) (woken : Woken s.pc pc)
    (pcs : next.pc = Function.update pc t p) (lock : next.lock = s.lock) : Locked next := by
  intro u
  rw [lock, pcs]
  by_cases own : u = t
  · subst own
    rw [Function.update_self, locked]
    exact ⟨fun here => absurd here was, fun here => absurd here now⟩
  · rw [Function.update_of_ne own, woken.inside, locked]

theorem Locked.stay (locked : Locked s) (woken : Woken s.pc next.pc) (lock : next.lock = s.lock) : Locked next := by
  intro u
  rw [lock, locked, woken.inside]

theorem callingOutside {p : Pc} (calling : Calling p) : ¬ p.Inside := by
  rcases calling with rfl | rfl | rfl <;> simp [Pc.Inside]

theorem Locked.step {P : DataPiece → Prop} {o : ImageConfig} {l : Label} (locked : Locked s) (sound : Sound P s)
    (move : Move o s l next) : Locked next := by
  have loop : Pc.loop.Inside := .inl rfl
  have popped (q : Workq) (c : Nat) : (Pc.popped q c).Inside := .inr ⟨q, c, rfl⟩
  cases move with
  | submit free unlocked own signal => exact locked.stay (signalWoken signal) rfl
  | closingQueued here unlocked first second =>
    exact locked.stay ((signalWoken first).trans (signalWoken second)) rfl
  | closingQueuedAgain here unlocked first second =>
    have outside := callingOutside (sound.calls.apart (by rw [here]; simp))
    exact locked.others (t := 0) outside (by simp [Pc.Inside]) ((signalWoken first).trans (signalWoken second)) rfl rfl
  | setRoot | enter | refuse | rootFound | sealNeeded | sealed | closingFails | later | truncateFails | conclude | returns
  | stageFault | compressFault | writeFault => exact locked.stay (.refl _) rfl
  | rootMissing here | sealedAgain here | closingFailsAgain here =>
    have outside := callingOutside (sound.calls.apart (by rw [here]; simp))
    exact locked.others (t := 0) outside (by simp [Pc.Inside]) (.refl _) rfl rfl
  | processed here left => exact locked.others (t := 0) (by simp [left, Pc.Inside]) (by simp [Pc.Inside]) (.refl _) rfl rfl
  | concludeFailed here idle =>
    exact locked.others (t := 0) (by simp [idle, Pc.Inside]) (by simp [Pc.Inside]) (.refl _) rfl rfl
  | spawn free here | opened here | openFails here | readFails here | compressFails here | writeFails here | spurious here
  | abortCall here | flag here | leaveFailed here | waitFailed here =>
    exact locked.others (by simp [here, Pc.Inside]) (by simp [Pc.Inside]) (.refl _) rfl rfl
  | @abort t c here unlocked =>
    exact locked.others (by simp [here, Pc.Inside]) (by split <;> simp [Pc.Inside]) (wakeAllWoken _) rfl rfl
  | locked here unlocked => exact locked.own (.inl unlocked) (.refl _) rfl (by simp [goto, loop, eq_comm])
  | @pop t q c bd here _ =>
    have inside : (s.pc t).Inside := by rw [here]; exact loop
    refine locked.own (.inr inside) (.refl _) rfl fun u => ?_
    simp only [goto, (locked t).mpr inside, popped, and_true, Option.some.injEq, eq_comm]
  | @again t q c allocated bd all here result =>
    have inside : (s.pc t).Inside := by rw [here]; exact popped q c
    refine locked.own (.inr inside) (broadcastWoken s.pc all) rfl fun u => ?_
    simp only [goto, (locked t).mpr inside, loop, and_true, Option.some.injEq, eq_comm]
  | @released t q c allocated bd size pc here result =>
    refine locked.own (.inr (by rw [here]; exact popped q c)) (.refl _) rfl fun u => ?_
    rcases stageReleased result with rfl | rfl | rfl <;> simp [goto, Pc.Inside]
  | @outOfMemory t q c allocated bd here result =>
    exact locked.own (.inr (by rw [here]; exact popped q c)) (.refl _) rfl fun u => by simp [goto, Pc.Inside]
  | read here unlocked | compressed here unlocked =>
    exact locked.own (.inl unlocked) (.refl _) rfl (by simp [goto, loop, eq_comm])
  | @written t c write bd all here unlocked result =>
    exact locked.own (.inl unlocked) (broadcastWoken s.pc all) rfl (by simp [goto, loop, eq_comm])
  | leave here | wait here =>
    exact locked.own (.inr (by rw [here]; exact loop)) (.refl _) rfl (by simp [goto, Pc.Inside])

end

/-! ### Whole runs -/

/- What the bound rests on. Of the threads only the first n have to do with the image. -/
structure Fit (n : Nat) (s : Image) : Prop where
  sound : Sound (fun _ => True) s
  healthy : ∀ t, (s.pc t).Healthy
  ordered : Ordered s
  locked : Locked s
  crew : ∀ t, n ≤ t → s.pc t = .out
  entered : s.api = .processing → (s.pc 0).InLoop ∨ s.pc 0 = .gone

def Within (n : Nat) (s : Image) (l : Label) : Prop := Clean s l ∧ ∀ t, l = .thread t → t < n

section
variable {o : ImageConfig} {s next : Image} {l : Label} {n t : Nat} {p : Pc} {pc : Nat → Pc}

theorem crewStep (crew : ∀ t, n ≤ t → s.pc t = .out) (within : Within n s l) (some : 0 < n) (move : Move o s l next) :
    ∀ t, n ≤ t → next.pc t = .out := by
  intro u high
  have waked {pc : Nat → Pc} (woken : Woken s.pc pc) : pc u = .out := by
    rcases woken u with same | ⟨was, _⟩
    · rw [same, crew u high]
    · rw [crew u high] at was
      cases was
  have updated {pc : Nat → Pc} {t : Nat} {p : Pc} (woken : Woken s.pc pc) (low : t < n) :
      Function.update pc t p u = .out := by
    rw [Function.update_of_ne (by omega)]
    exact waked woken
  cases move with
  | submit free unlocked own signal => exact waked (signalWoken signal)
  | closingQueued here unlocked first second => exact waked ((signalWoken first).trans (signalWoken second))
  | closingQueuedAgain here unlocked first second =>
    exact updated ((signalWoken first).trans (signalWoken second)) some
  | setRoot | enter | refuse | rootFound | sealNeeded | sealed | closingFails | later | truncateFails | conclude | returns
  | stageFault | compressFault | writeFault => exact crew u high
  | flag | abort => exact within.1.elim
  | again | written => exact updated (broadcastWoken _ _) (within.2 _ rfl)
  | _ => exact updated (.refl _) (within.2 _ rfl)

theorem enteredStep (entered : s.api = .processing → (s.pc 0).InLoop ∨ s.pc 0 = .gone) (clean : Clean s l)
    (move : Move o s l next) : next.api = .processing → (next.pc 0).InLoop ∨ next.pc 0 = .gone := by
  have waked {pc : Nat → Pc} (woken : Woken s.pc pc) (here : s.api = .processing) : (pc 0).InLoop ∨ pc 0 = .gone := by
    rcases woken 0 with same | ⟨_, now⟩
    · rw [same]
      exact entered here
    · rw [now]
      exact .inl trivial
  have updated {pc : Nat → Pc} {t : Nat} {p : Pc} (woken : Woken s.pc pc) (inside : p.InLoop ∨ p = .gone)
      (here : s.api = .processing) : (Function.update pc t p 0).InLoop ∨ Function.update pc t p 0 = .gone := by
    by_cases own : 0 = t
    · subst own
      rwa [Function.update_self]
    · rw [Function.update_of_ne own]
      exact waked woken here
  cases move with
  | submit free unlocked own signal => exact waked (signalWoken signal)
  | closingQueued | sealed | sealNeeded | closingFails | rootMissing | rootFound | processed | later | truncateFails
  | conclude | concludeFailed | returns | enter => exact fun here => by cases here
  | closingQueuedAgain | sealedAgain | closingFailsAgain => exact fun _ => .inl (by simp [goto, Pc.InLoop])
  | setRoot | refuse | stageFault | compressFault | writeFault => exact entered
  | flag | abort => exact clean.elim
  | again | written => exact updated (broadcastWoken _ _) (.inl trivial)
  | @released t q c allocated bd size pc here result =>
    refine updated (.refl _) (.inl ?_)
    rcases stageReleased result with rfl | rfl | rfl <;> trivial
  | @spawn t free new other =>
    exact fun here => absurd (free.1.symm.trans here) (by simp)
  | @openFails t here | @opened t here | @abortCall t here =>
    intro busy
    have other : t ≠ 0 := by
      rintro rfl
      rcases entered busy with inside | inside <;> rw [here] at inside <;> cases inside
    simp only [goto, Function.update_of_ne (Ne.symm other)]
    exact entered busy
  | leave here | leaveFailed here => exact updated (.refl _) (.inr rfl)
  | _ => exact updated (.refl _) (.inl trivial)

theorem Fit.step (fit : Fit n s) (some : 0 < n) (within : Within n s l) (taken : Step o s l next) : Fit n next where
  sound := fit.sound.step (by cases l <;> first | trivial | exact within.1) taken.2
  healthy := healthyStep fit.healthy (fun t same => by subst same; exact within.1) taken.2
  ordered := fit.ordered.step (fun kind data same => by subst same; exact fit.ordered.adding within.1) taken.2
  locked := fit.locked.step fit.sound taken.2
  crew := crewStep fit.crew within some taken.2
  entered := enteredStep fit.entered within.1 taken.2

theorem initFit (n : Nat) (compressBlocks compressFragments : Bool) (size : Nat) :
    Fit n (init compressBlocks compressFragments size) where
  sound := initSound compressBlocks compressFragments size
  healthy _ := by simp [init, Pc.Healthy]
  ordered := {
    tracked := ⟨fun _ => [], (initSound (P := fun _ => True) compressBlocks compressFragments size).chunks⟩
    adding := fun _ c inside => absurd inside (by simp [init, Bulkdata.init])
    unsealed := fun again here => by cases here
    last := fun c inside => absurd inside (by simp [init, Bulkdata.init])
    closing := fun shut => by cases shut
    apart := fun _ => .inl rfl }
  locked _ := by simp [init, Pc.Inside]
  crew _ _ := rfl
  entered here := by cases here

theorem closedStep (fit : Fit n s) (closed : s.bd.mayAddChunks = false) (clean : Clean s l) (taken : Step o s l next) :
    next.bd.mayAddChunks = false := by
  have unsubmitted (kind : ChunkKind) (data : DataPiece) : l ≠ .submit kind data := by
    rintro rfl
    exact absurd (clean.symm.trans closed) (by simp)
  have unsealed : l ≠ .seal := by
    rintro rfl
    obtain ⟨_, move⟩ := taken
    cases move with
    | closingQueued here | closingQueuedAgain here =>
      have adding := fit.sound.calls.unsealed _ here
      rw [closed] at adding
      cases adding
  cases more : next.bd.mayAddChunks with
  | false => rfl
  | true => exact absurd ((fit.ordered.still taken.2 unsubmitted unsealed).mayAddChunks more) (by simp [closed])

/- Whoever has the lock can go on, and anybody at work if nobody has it. -/
theorem workGoesOn (fit : Fit n s) (closed : s.bd.mayAddChunks = false) (alive : s.fault = none)
    (work : ∃ t, s.AtWork (.thread t)) : ∃ t next, s.AtWork (.thread t) ∧ Step o s (.thread t) next := by
  cases lock : s.lock with
  | some t =>
    rcases (fit.locked t).mp lock with here | ⟨q, c, here⟩
    · have work : s.AtWork (.thread t) := .inl (by rw [here]; trivial)
      cases popped : s.bd.popNext with
      | some popped' =>
        obtain ⟨q, c, bd⟩ := popped'
        exact ⟨t, _, work, alive, .pop here popped⟩
      | none =>
        by_cases leaves : s.bd.Leaves
        · exact ⟨t, _, work, alive, .leave here popped leaves⟩
        · exact ⟨t, _, work, alive, .wait here popped leaves⟩
    · have work : s.AtWork (.thread t) := .inl (by rw [here]; trivial)
      rcases result : stage o true s.bd s.size q c with f | turn
      · exact ⟨t, _, work, alive, .stageFault here result⟩
      · cases turn with
        | again bd all => exact ⟨t, _, work, alive, .again here result⟩
        | released bd size pc => exact ⟨t, _, work, alive, .released here result⟩
        | outOfMemory bd => exact ⟨t, _, work, alive, .outOfMemory here result⟩
  | none =>
    obtain ⟨t, work⟩ := work
    rcases work with running | ⟨rfl, api⟩
    · have work : s.AtWork (.thread t) := .inl running
      have outside : ¬ (s.pc t).Inside := fun inside => by
        rw [(fit.locked t).mpr inside] at lock
        cases lock
      cases here : s.pc t with
      | opening => exact ⟨t, _, work, alive, .opened here⟩
      | locking => exact ⟨t, _, work, alive, .locked here lock⟩
      | loop => exact absurd (.inl here) outside
      | popped q c => exact absurd (.inr ⟨q, c, here⟩) outside
      | reading c => exact ⟨t, _, work, alive, .readFails here⟩
      | writing c => exact ⟨t, _, work, alive, .writeFails here⟩
      | compressing c =>
        rcases result : compressEnd o true s.bd c with f | ⟨bd, _ | _⟩
        · exact ⟨t, _, work, alive, .compressFault here result⟩
        · exact ⟨t, _, work, alive, .compressFails here result⟩
        · exact ⟨t, _, work, alive, .compressed here lock result⟩
      | _ =>
        rw [here] at running
        exact running.elim
    · exact ⟨0, _, .inr ⟨rfl, api⟩, alive, .sealedAgain api lock closed⟩

theorem effortBound (n : Nat) (s : Image) : effort n s ≤ 15 * s.bd.count + 9 * n + 6 := by
  have remaining : s.bd.remaining ≤ 5 * s.bd.count := by
    refine (Finset.sum_le_sum fun c _ => Nat.sub_le 5 _).trans ?_
    rw [Finset.sum_const_nat fun _ _ => rfl, Finset.card_range, Nat.mul_comm]
  have crew : crew n s.pc ≤ 5 * n := by
    have each (p : Pc) : p.effort ≤ 5 := by
      cases p <;> simp [Pc.effort]
    refine (Finset.sum_le_sum fun t _ => each (s.pc t)).trans ?_
    rw [Finset.sum_const_nat fun _ _ => rfl, Finset.card_range, Nat.mul_comm]
  simp only [effort, entering]
  split <;> split <;> split <;> omega

/- Once everything is submitted the threads come to an end in whatever order they go on,
and without an error they end with everything finished. -/
theorem workersStop {compressBlocks compressFragments : Bool} {size : Nat} {trace later : List (Event Image Label)} {last : Image}
    (run : Run (Step o) (init compressBlocks compressFragments size) trace s) (onward : Run (Step o) s later last)
    (some : 0 < n) (within : Obeys (Within n) (trace ++ later)) (closed : s.bd.mayAddChunks = false) :
    later.countP (fun e => e.before.AtWork e.label) ≤
        15 * s.bd.count + 9 * n + 6 + 5 * later.countP (fun e => ¬ e.before.AtWork e.label) ∧
      ((∀ t next, last.AtWork (.thread t) → ¬ Step o last (.thread t) next) →
        last.fault ≠ none ∨ (∃ t c, last.pc t = .flagging c) ∨
          last.bd.finished = last.bd.count ∧ (∀ q, last.bd.workq q = []) ∧ ∀ t, ¬ (last.pc t).InLoop) := by
  have early : Obeys (Within n) trace := within.earlier
  have late : Obeys (Within n) later := fun e member => within e (List.mem_append_right _ member)
  have fit : Fit n s := Run.invariant (initFit n compressBlocks compressFragments size)
    (fun _ _ _ fit within taken => fit.step some within taken) run early
  obtain ⟨fit', closed'⟩ : Fit n last ∧ last.bd.mayAddChunks = false := Run.invariant
    (I := fun s => Fit n s ∧ s.bd.mayAddChunks = false) ⟨fit, closed⟩
    (fun _ _ _ known within taken => ⟨known.1.step some within taken, closedStep known.1 known.2 within.1 taken⟩) onward late
  constructor
  · have bound := @Run.amortized _ _ _ _ _ _ _ (fun s => Fit n s ∧ s.bd.mayAddChunks = false) (effort n)
      (fun e => e.before.AtWork e.label) _ 5 ⟨fit, closed⟩ (fun s label next known within taken => by
        have spends := effortStep known.1.sound known.1.healthy known.2 within.1 within.2 taken
        exact ⟨⟨known.1.step some within taken, closedStep known.1 known.2 within.1 taken⟩, spends.limit, spends.work⟩)
      onward late
    have := effortBound n s
    omega
  · intro stuck
    by_cases alive : last.fault = none
    · right
      by_cases flagging : ∃ t c, last.pc t = .flagging c
      · exact .inl flagging
      · right
        have idle (t : Nat) : ¬ last.AtWork (.thread t) := fun work => by
          obtain ⟨u, next, busy, taken⟩ := @workGoesOn o _ _ fit' closed' alive ⟨t, work⟩
          exact stuck u next busy taken
        have rest (t : Nat) : AtRest last t := by
          have still : ¬ (last.pc t).Running := fun running => idle t (.inl running)
          have healthy := fit'.healthy t
          cases here : last.pc t with
          | waiting => exact .inl here
          | gone => exact .inr (.inl here)
          | flagging c => exact absurd ⟨t, c, here⟩ flagging
          | aborting c => exact absurd here (healthy.2 c)
          | failed => exact absurd here healthy.1
          | out =>
            refine .inr (.inr ⟨here, ?_⟩)
            rintro rfl (api | api | api)
            · exact idle 0 (.inr ⟨rfl, api⟩)
            · have adding := fit'.sound.calls.unsealed _ api
              rw [closed'] at adding
              cases adding
            · rcases fit'.entered api with inside | inside <;> rw [here] at inside <;> cases inside
          | _ =>
            rw [here] at still
            exact (still trivial).elim
        have clean : Obeys Clean (trace ++ later) := within.weaken fun _ _ => And.left
        obtain ⟨done, empty, awake⟩ := (deadlockFree (run.append onward) clean).1 closed' rest
        refine ⟨done, empty, fun t inside => ?_⟩
        rcases rest t with here | here | ⟨here, _⟩
        · exact awake t here
        · rw [here] at inside
          exact inside
        · rw [here] at inside
          exact inside
    · exact .inl alive

theorem pairStops : ∃ (o : ImageConfig) (trace later : List (Event Image Label)) (s last : Image),
    Run (Step o) (init true true 96) trace s ∧ Run (Step o) s later last ∧ s.bd.count = 3 ∧
      later.countP (fun e => e.before.AtWork e.label) ≤
        15 * s.bd.count + 9 * 2 + 6 + 5 * later.countP (fun e => ¬ e.before.AtWork e.label) ∧
      (last.fault ≠ none ∨ (∃ t c, last.pc t = .flagging c) ∨
        last.bd.finished = last.bd.count ∧ (∀ q, last.bd.workq q = []) ∧ ∀ t, ¬ (last.pc t).InLoop) := by
  obtain ⟨trace, submitted, _, labelled⟩ := pairSubmitted []
  obtain ⟨early, late, _, last, first, second, each, _, _, _, _, done⟩ := pairWorked []
  have within : Obeys (Within 2) (trace ++ (early ++ late)) := fun e member => by
    rcases List.mem_append.mp member with begun | worked
    · obtain ⟨own, adding⟩ := labelled e begun
      simp only [List.mem_cons, List.not_mem_nil, or_false] at own
      rcases own with own | own | own | own | own | own <;> simp [own, Within, Clean]
      · exact (adding ⟨_, _, own⟩).1
      · exact (adding ⟨_, _, own⟩).1
    · have own := each e worked
      simp only [List.mem_cons, List.not_mem_nil, or_false] at own
      rcases own with own | own <;> simp [own, Within, Clean]
  obtain ⟨bound, stuck⟩ := workersStop submitted (first.append second) Nat.two_pos within rfl
  refine ⟨_, trace, early ++ late, pairStart, last, submitted, first.append second, rfl, bound,
    stuck fun t next busy => absurd busy ?_⟩
  rw [AtWork, done.places, done.api]
  rcases t with _ | _ | t <;> simp [Pc.Running]

end

end Image
end Libsqfs
