import Mathlib.Data.List.Basic

/-! Runs of a labelled transition relation. `Obeys` restricts the steps of a
run by what they start from and their label, so that an invariant may rest on a
discipline of the environment. -/
namespace Libsqfs.Transition

structure Event (σ ℓ : Type) where
  before : σ
  label : ℓ
  after : σ

section
variable {σ ℓ : Type}

inductive Run (step : σ → ℓ → σ → Prop) (first : σ) : List (Event σ ℓ) → σ → Prop where
  | start : Run step first [] first
  | move {trace s label next} (run : Run step first trace s) (taken : step s label next) :
      Run step first (trace ++ [⟨s, label, next⟩]) next

def Obeys (allowed : σ → ℓ → Prop) (trace : List (Event σ ℓ)) : Prop :=
  ∀ e ∈ trace, allowed e.before e.label

def labels (trace : List (Event σ ℓ)) : List ℓ := trace.map Event.label

variable {step : σ → ℓ → σ → Prop} {first s : σ} {trace : List (Event σ ℓ)}
  {allowed : σ → ℓ → Prop}

@[simp] theorem labelsSnoc (trace : List (Event σ ℓ)) (e : Event σ ℓ) :
    labels (trace ++ [e]) = labels trace ++ [e.label] := by
  simp [labels]

theorem obeysSnoc {e : Event σ ℓ} (h : Obeys allowed (trace ++ [e])) :
    Obeys allowed trace ∧ allowed e.before e.label :=
  ⟨fun x member => h x (List.mem_append_left _ member), h e (by simp)⟩

theorem obeysAppend {e : Event σ ℓ} (h : Obeys allowed trace) (last : allowed e.before e.label) :
    Obeys allowed (trace ++ [e]) := by
  intro x member
  rcases List.mem_append.mp member with old | new
  · exact h x old
  · rw [List.mem_singleton] at new
    subst new
    exact last

/- What holds at first and is kept by each allowed step holds at the end. The
property may speak of the events so far, and rest on what each of them is like. -/
theorem Run.historyEach {I : List (Event σ ℓ) → σ → Prop} {G : Event σ ℓ → Prop} (holds : I [] first)
    (kept : ∀ trace s label next, I trace s → allowed s label → G ⟨s, label, next⟩ → step s label next →
      I (trace ++ [⟨s, label, next⟩]) next)
    (run : Run step first trace s) (obeys : Obeys allowed trace) (each : ∀ e ∈ trace, G e) : I trace s := by
  induction run with
  | start => exact holds
  | @move trace s label next run taken ih =>
    obtain ⟨earlier, last⟩ := obeysSnoc obeys
    exact kept _ _ _ _ (ih earlier fun e member => each e (List.mem_append_left _ member)) last
      (each _ (by simp)) taken

theorem Run.history {I : List (Event σ ℓ) → σ → Prop} (holds : I [] first)
    (kept : ∀ trace s label next, I trace s → allowed s label → step s label next →
      I (trace ++ [⟨s, label, next⟩]) next)
    (run : Run step first trace s) (obeys : Obeys allowed trace) : I trace s :=
  run.historyEach (G := fun _ => True) holds (fun trace s label next known own _ => kept trace s label next known own)
    obeys fun _ _ => trivial

theorem Run.invariant {I : σ → Prop} (holds : I first)
    (kept : ∀ s label next, I s → allowed s label → step s label next → I next)
    (run : Run step first trace s) (obeys : Obeys allowed trace) : I s :=
  Run.history (I := fun _ s => I s) holds (fun _ s label next => kept s label next) run obeys

theorem Run.reaches (run : Run step first trace s) {e : Event σ ℓ} (member : e ∈ trace) :
    ∃ earlier later, trace = earlier ++ e :: later ∧ Run step first earlier e.before ∧
      step e.before e.label e.after := by
  induction run with
  | start => simp at member
  | @move trace s label next run taken ih =>
    rcases List.mem_append.mp member with old | new
    · obtain ⟨earlier, later, shape, reached, own⟩ := ih old
      exact ⟨earlier, later ++ [⟨s, label, next⟩], by simp [shape], reached, own⟩
    · rw [List.mem_singleton] at new
      subst new
      exact ⟨trace, [], rfl, run, taken⟩

theorem Run.idle (run : Run step first [] s) : s = first := by
  generalize empty : ([] : List (Event σ ℓ)) = trace at run
  cases run with
  | start => rfl
  | move => simp at empty

theorem Run.here (_ : Run step first trace s) : Run step s [] s := .start

theorem Run.front {e : Event σ ℓ} {rest : List (Event σ ℓ)} (run : Run step first (e :: rest) s) :
    e.before = first ∧ step first e.label e.after ∧ Run step e.after rest s := by
  generalize shape : e :: rest = trace at run
  induction run generalizing rest with
  | start => cases shape
  | @move trace s label next run taken ih =>
    cases trace with
    | nil =>
      obtain rfl := run.idle
      obtain ⟨rfl, rfl⟩ := List.cons.inj shape
      exact ⟨rfl, taken, .start⟩
    | cons x trace =>
      obtain ⟨rfl, rfl⟩ := List.cons.inj shape
      obtain ⟨before, own, others⟩ := ih rfl
      exact ⟨before, own, others.move taken⟩

theorem Run.append {mid : σ} {later : List (Event σ ℓ)} (run : Run step first trace mid)
    (rest : Run step mid later s) : Run step first (trace ++ later) s := by
  induction rest with
  | start => rwa [List.append_nil]
  | move rest taken ih =>
    rw [← List.append_assoc]
    exact ih.move taken

theorem Run.through {mid next : σ} {label : ℓ} {later : List (Event σ ℓ)} (run : Run step first trace mid)
    (taken : step mid label next) (rest : Run step next later s) :
    Run step first (trace ++ ⟨mid, label, next⟩ :: later) s := by
  simpa using (run.move taken).append rest

theorem Run.split {later : List (Event σ ℓ)} (run : Run step first (trace ++ later) s) :
    ∃ mid, Run step first trace mid ∧ Run step mid later s := by
  induction trace generalizing first with
  | nil => exact ⟨first, .start, run⟩
  | cons e trace ih =>
    obtain ⟨before, taken, rest⟩ := run.front
    obtain ⟨mid, earlier, last⟩ := ih rest
    subst before
    exact ⟨mid, (Run.start.move taken).append earlier, last⟩

theorem Run.part {before after : List ℓ} {label : ℓ} (run : Run step first trace s)
    (shape : labels trace = before ++ label :: after) : ∃ earlier later mid next, labels earlier = before ∧
      labels later = after ∧ (⟨mid, label, next⟩ : Event σ ℓ) ∈ trace ∧ Run step first earlier mid ∧
      step mid label next ∧ Run step next later s := by
  obtain ⟨earlier, rest, rfl, same, others⟩ := List.map_eq_append_iff.mp shape
  obtain ⟨e, later, rfl, own, last⟩ := List.map_eq_cons_iff.mp others
  obtain ⟨mid, reached, onward⟩ := run.split
  obtain ⟨rfl, taken, onward⟩ := onward.front
  subst own
  exact ⟨earlier, later, _, _, same, last, by simp, reached, taken, onward⟩

/- Steps that lower a potential, among others that raise it by no more than k. -/
theorem Run.amortized {I : σ → Prop} {potential : σ → Nat} {lowers : Event σ ℓ → Prop} [DecidablePred lowers] {k : Nat}
    (holds : I first)
    (kept : ∀ s label next, I s → allowed s label → step s label next → I next ∧
      potential next ≤ potential s + k ∧ (lowers ⟨s, label, next⟩ → potential next < potential s))
    (run : Run step first trace s) (obeys : Obeys allowed trace) :
    trace.countP lowers + potential s ≤ potential first + k * trace.countP (fun e => ¬ lowers e) := by
  have whole : I s ∧
      trace.countP lowers + potential s ≤ potential first + k * trace.countP (fun e => ¬ lowers e) := by
    refine Run.history (I := fun trace s => I s ∧
      trace.countP lowers + potential s ≤ potential first + k * trace.countP (fun e => ¬ lowers e)) ⟨holds, by simp⟩ ?_ run obeys
    intro trace s label next ⟨known, bound⟩ own taken
    obtain ⟨after, raised, lowered⟩ := kept s label next known own taken
    refine ⟨after, ?_⟩
    rw [List.countP_append, List.countP_append, List.countP_singleton, List.countP_singleton]
    by_cases here : lowers ⟨s, label, next⟩
    · have := lowered here
      simp only [here, decide_true, if_true, not_true_eq_false, decide_false, Bool.false_eq_true, if_false, Nat.add_zero]
      omega
    · simp only [here, decide_false, Bool.false_eq_true, if_false, not_false_eq_true, decide_true, if_true, Nat.mul_add,
        Nat.mul_one]
      omega
  exact whole.2

def Once (kind : Event σ ℓ → Prop) (trace : List (Event σ ℓ)) : Prop :=
  ∃ before e after, trace = before ++ e :: after ∧ kind e ∧ ∀ x ∈ before ++ after, ¬ kind x

theorem Once.later {kind : Event σ ℓ → Prop} (once : Once kind trace) {e : Event σ ℓ}
    (other : ¬ kind e) : Once kind (trace ++ [e]) := by
  obtain ⟨before, x, after, shape, here, apart⟩ := once
  refine ⟨before, x, after ++ [e], by simp [shape], here, fun y member => ?_⟩
  rw [← List.append_assoc] at member
  rcases List.mem_append.mp member with old | new
  · exact apart y old
  · rw [List.mem_singleton.mp new]; exact other

theorem Once.now {kind : Event σ ℓ → Prop} {e : Event σ ℓ} (here : kind e)
    (never : ∀ x ∈ trace, ¬ kind x) : Once kind (trace ++ [e]) :=
  ⟨trace, e, [], rfl, here, by simpa using never⟩

def Since (kind p : Event σ ℓ → Prop) (trace : List (Event σ ℓ)) : Prop :=
  ∀ before e after, trace = before ++ e :: after → kind e → ∀ x ∈ after, p x

theorem sinceSnoc {kind p : Event σ ℓ → Prop} {last : Event σ ℓ} :
    Since kind p (trace ++ [last]) ↔ Since kind p trace ∧ ((∃ e ∈ trace, kind e) → p last) := by
  constructor
  · intro since
    refine ⟨fun before e after shape here x member => ?_, fun ⟨e, member, here⟩ => ?_⟩
    · exact since before e (after ++ [last]) (by simp [shape]) here x (List.mem_append_left _ member)
    · obtain ⟨before, after, shape⟩ := List.append_of_mem member
      exact since before e (after ++ [last]) (by simp [shape]) here last (by simp)
  · rintro ⟨earlier, own⟩ before e after shape here x member
    rcases List.eq_nil_or_concat' after with rfl | ⟨rest, y, rfl⟩
    · cases member
    · rw [← List.cons_append, ← List.append_assoc] at shape
      obtain ⟨same, final⟩ := List.append_inj' shape rfl
      obtain rfl := List.singleton_inj.mp final
      rcases List.mem_append.mp member with old | new
      · exact earlier before e rest same here x old
      · rw [List.mem_singleton.mp new]
        exact own ⟨e, by simp [same], here⟩

theorem Obeys.weaken {weaker : σ → ℓ → Prop} (h : Obeys allowed trace)
    (imp : ∀ s label, allowed s label → weaker s label) : Obeys weaker trace :=
  fun e member => imp _ _ (h e member)

theorem Obeys.earlier {before after : List (Event σ ℓ)} (h : Obeys allowed (before ++ after)) :
    Obeys allowed before :=
  fun e member => h e (List.mem_append_left _ member)

end
end Libsqfs.Transition
