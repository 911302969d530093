import Mathlib.Logic.Relation
import Libsqfs.ChunkWorkq
import Libsqfs.PipelineSound

/-! The threads use the work queues as these have to be used: what they do to the
queues, in every order of their steps, is a sequence of calls that push only
chunks that wait nowhere. So pointers that undergo these calls are the lists. -/
namespace Libsqfs
open Relation Transition

def Deques.Edited {α κ : Type} [DecidableEq α] [DecidableEq κ] (d d' : Deques α κ) : Prop :=
  ∃ call, d.Permits call ∧ d' = d.perform call

section
variable {α κ : Type} [DecidableEq α] [DecidableEq κ] {d d' : Deques α κ}

theorem editedRun (s₀ : Workqs α κ) (edited : ReflTransGen Deques.Edited (fun _ => []) d) :
    ∃ trace s, Run Workqs.Step (s₀, fun _ => []) trace (s, d) ∧ Obeys Workqs.Disciplined trace := by
  induction edited with
  | refl => exact ⟨[], s₀, .start, fun _ member => nomatch member⟩
  | @tail d _ _ last ih =>
    obtain ⟨trace, s, run, obeys⟩ := ih
    obtain ⟨call, permits, rfl⟩ := last
    have taken : Workqs.Step (s, d) (call, (call.perform s).2) ((call.perform s).1, d.perform call) :=
      ⟨rfl, rfl⟩
    exact ⟨_, _, run.move taken, obeysAppend obeys permits⟩

theorem pushedFront {q : κ} {l : List α} (nodup : l.Nodup) (free : ∀ e ∈ l, ∀ q, e ∉ d q) :
    ReflTransGen Deques.Edited d (Function.update d q (l ++ d q)) := by
  induction l with
  | nil => simpa using ReflTransGen.refl
  | cons e rest ih =>
    obtain ⟨fresh, nodup⟩ := List.nodup_cons.mp nodup
    refine (ih nodup fun x member => free x (List.mem_cons_of_mem _ member)).tail ?_
    refine ⟨.pushFront q e, fun q' => ?_, ?_⟩
    · have away := free e (by simp)
      rw [Function.update_apply]
      split
      · simpa using ⟨fresh, away q⟩
      · exact away q'
    · simp [Deques.perform, WorkqCall.queue, WorkqCall.edit]

end

namespace Bulkdata

variable {bd next : Bulkdata} {h : Nat → Option Nat} {t c : Nat}

theorem Workq.stateInj {q q' : Workq} (same : q.state = q'.state) : q = q' := by
  cases q <;> cases q' <;> first | rfl | cases same

theorem Located.fresh (loc : Located bd h) (mine : h t = some c) {e : Nat}
    (fresh : Fresh bd next c e) (q : Workq) : e ∉ bd.workq q := by
  obtain ⟨_, _, rfl | parked⟩ := fresh
  · exact (loc.held t e mine).2.2 q
  · exact fun waits => parked (loc.queued q e waits).2.2

theorem advanceEdits (loc : Located bd h) (mine : h t = some c) (adv : Advance bd next c)
    (qs : List Workq) : ReflTransGen Deques.Edited bd.workq
      fun q => if q ∈ qs then next.workq q else bd.workq q := by
  induction qs with
  | nil => simpa using ReflTransGen.refl
  | cons q rest ih =>
    by_cases done : q ∈ rest
    · convert ih using 3 with q'
      simp only [List.mem_cons, or_iff_right_iff_imp]
      rintro rfl
      exact done
    · obtain ⟨l, shape, nodup, fresh⟩ := adv.queues q
      refine ih.trans ?_
      have away : ∀ e ∈ l, ∀ q', e ∉ if q' ∈ rest then next.workq q' else bd.workq q' := by
        intro e member q'
        obtain ⟨new, state⟩ := (fresh e).mp member
        split
        · rename_i later
          obtain ⟨l', shape', _, fresh'⟩ := adv.queues q'
          rw [shape', List.mem_append]
          rintro (own | old)
          · have same := Workq.stateInj (((fresh' e).mp own).2.symm.trans state)
            exact done (same ▸ later)
          · exact loc.fresh mine new q' old
        · exact loc.fresh mine new q'
      convert pushedFront (q := q) nodup away using 1
      funext q'
      rw [Function.update_apply, if_neg done]
      by_cases own : q' = q
      · rw [if_pos own, own, if_pos (by simp), shape]
      · rw [if_neg own]
        simp [own]

end Bulkdata

namespace Image
open Bulkdata

variable {P : DataPiece → Prop} {o : ImageConfig} {s next : Image} {l : Label}

theorem Sound.advanceQueues {t c : Nat} (sound : Sound P s) (mine : (s.pc t).held = some c)
    (adv : Advance s.bd next.bd c) : ReflTransGen Deques.Edited s.bd.workq next.bd.workq := by
  have all := advanceEdits sound.chunks.located mine adv [.readq, .dedupq, .assignq, .compressq, .writeq]
  convert all using 1
  funext q
  cases q <;> rfl

theorem Sound.submitQueues (sound : Sound P s) (kind : ChunkKind) (data : DataPiece) :
    ReflTransGen Deques.Edited s.bd.workq (s.bd.submit kind data).workq := by
  have grown := submitGrows sound.chunks.linked kind data
  refine .single ⟨.pushBack .readq s.bd.count, fun q waits => ?_, ?_⟩
  · exact absurd (sound.chunks.located.queued q _ waits).1 (lt_irrefl _)
  · funext q
    rw [grown.workq]
    simp [Deques.perform, WorkqCall.queue, WorkqCall.edit, Function.update_apply]

theorem Sound.queues (sound : Sound P s) (undisturbed : Undisturbed P s l) (move : Move o s l next) :
    ReflTransGen Deques.Edited s.bd.workq next.bd.workq := by
  have inside {t c} (holds : (s.pc t).held = some c) : c < s.bd.count :=
    (sound.chunks.located.held t c holds).1
  cases move with
  | @submit kind data pc free unlocked own signal => exact sound.submitQueues kind data
  | closingQueued here unlocked first second | closingQueuedAgain here unlocked first second =>
    exact sound.submitQueues .closingPiece ⟨[], 0, 0⟩
  | @pop t q c bd here popped =>
    obtain ⟨rest, shape, rfl⟩ := popSpec popped
    refine .single ⟨.pop q, trivial, ?_⟩
    simp [Deques.perform, WorkqCall.queue, WorkqCall.edit, shape, Image.goto]
  | @again t q c allocated bd all here result =>
    have state := sound.chunks.doing t
    have below := inside (t := t) (by rw [here]; rfl)
    rw [here] at state
    obtain ⟨adv, _⟩ := stageSpec sound.chunks.linked below (sound.chunks.closing c below) state result
    exact sound.advanceQueues (t := t) (by rw [here]; rfl) adv
  | @released t q c allocated bd size pc here result =>
    have state := sound.chunks.doing t
    have below := inside (t := t) (by rw [here]; rfl)
    rw [here] at state
    obtain ⟨same, _⟩ := stageSpec sound.chunks.linked below (sound.chunks.closing c below) state result
    exact same.workq ▸ .refl
  | @outOfMemory t q c allocated bd here result =>
    have state := sound.chunks.doing t
    have below := inside (t := t) (by rw [here]; rfl)
    rw [here] at state
    have same := stageSpec sound.chunks.linked below (sound.chunks.closing c below) state result
    exact same.workq ▸ .refl
  | @read t c here unlocked whole =>
    have doing := sound.chunks.doing t
    rw [here] at doing
    have adv := readAdvances (inside (t := t) (by rw [here]; rfl)) doing.1
    exact sound.advanceQueues (t := t) (by rw [here]; rfl) adv
  | @compressed t c allocated bd here unlocked result =>
    have state := sound.chunks.doing t
    rw [here] at state
    have adv := compressEndAdvances (inside (t := t) (by rw [here]; rfl)) state result
    exact sound.advanceQueues (t := t) (by rw [here]; rfl) adv
  | @compressFails t c allocated bd here result =>
    have state := sound.chunks.doing t
    rw [here] at state
    have same := compressEndAdvances (inside (t := t) (by rw [here]; rfl)) state result
    exact same.workq ▸ .refl
  | @written t c write bd all here unlocked result =>
    have state := sound.chunks.doing t
    rw [here] at state
    obtain ⟨adv, _⟩ := writeEndAdvances (inside (t := t) (by rw [here]; rfl)) state result
    exact sound.advanceQueues (t := t) (by rw [here]; rfl) adv
  | abort here unlocked => exact undisturbed.elim
  | _ => exact .refl

/- In every run without an abort, pointers that undergo the calls of the threads
are the queues. -/
theorem pointersFollow {compressBlocks compressFragments : Bool} {size : Nat} {trace}
    {s₀ : Workqs Nat Workq} (initial : ∀ q, s₀.workq q = .init)
    (run : Run (Step o) (init compressBlocks compressFragments size) trace s)
    (obeys : Obeys (Undisturbed P) trace) :
    ∃ calls m, Run Workqs.Step (s₀, fun _ => []) calls (m, s.bd.workq) ∧
      Obeys Workqs.Disciplined calls ∧ ∀ q, m.Enumerates q (s.bd.workq q) := by
  have edited : Sound P s ∧ ReflTransGen Deques.Edited (fun _ => []) s.bd.workq :=
    Run.invariant (I := fun s => Sound P s ∧ ReflTransGen Deques.Edited (fun _ => []) s.bd.workq)
      ⟨initSound .., .refl⟩ (fun s label next ⟨sound, earlier⟩ undisturbed ⟨_, move⟩ =>
        ⟨sound.step undisturbed move, earlier.trans (sound.queues undisturbed move)⟩) run obeys
  obtain ⟨calls, m, performed, disciplined⟩ := editedRun s₀ edited.2
  exact ⟨calls, m, performed, disciplined, (Workqs.runHolds initial performed disciplined).enumerates⟩

end Image
end Libsqfs
