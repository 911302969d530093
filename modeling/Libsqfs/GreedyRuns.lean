import Mathlib.Data.List.Chain

/-! Cutting a list into runs, each as long as the next element fits. `fits run x`
is asked of the open run and the element after it. -/
namespace Libsqfs.GreedyRuns

section
variable {α : Type} (fits : List α → α → Bool)

def runsFrom : List α → List α → List (List α)
  | opened, [] => [opened]
  | opened, x :: rest =>
    if fits opened x then runsFrom (opened ++ [x]) rest else opened :: runsFrom [x] rest

def runs : List α → List (List α)
  | [] => []
  | x :: rest => runsFrom fits [x] rest

variable {fits}

theorem runsFromFlatten (opened l : List α) : (runsFrom fits opened l).flatten = opened ++ l := by
  induction l generalizing opened with
  | nil => simp [runsFrom]
  | cons x rest ih =>
    rw [runsFrom]
    split
    · rw [ih, List.append_assoc, List.singleton_append]
    · rw [List.flatten_cons, ih, List.singleton_append]

theorem runsFlatten (l : List α) : (runs fits l).flatten = l := by
  cases l with
  | nil => rfl
  | cons x rest => exact runsFromFlatten [x] rest

theorem runsFromMap {β : Type} {f : α → β} {fits' : List β → β → Bool}
    (same : ∀ run x, fits' (run.map f) (f x) = fits run x) (opened l : List α) :
    runsFrom fits' (opened.map f) (l.map f) = (runsFrom fits opened l).map (·.map f) := by
  induction l generalizing opened with
  | nil => rfl
  | cons x rest ih =>
    have grown := ih (opened ++ [x])
    rw [List.map_append] at grown
    rw [List.map_cons, runsFrom, runsFrom, same]
    split
    · exact grown
    · rw [List.map_cons, ← ih [x]]
      rfl

theorem runsMap {β : Type} {f : α → β} {fits' : List β → β → Bool}
    (same : ∀ run x, fits' (run.map f) (f x) = fits run x) (l : List α) :
    runs fits' (l.map f) = (runs fits l).map (·.map f) := by
  cases l with
  | nil => rfl
  | cons x rest => exact runsFromMap same [x] rest

/- What holds of single elements and is kept where an element fits holds of
every run. -/
theorem runsFromAll {P : List α → Prop} (single : ∀ x, P [x])
    (grown : ∀ run x, P run → fits run x = true → P (run ++ [x])) {opened : List α} (holds : P opened)
    (l : List α) : ∀ run ∈ runsFrom fits opened l, P run := by
  induction l generalizing opened with
  | nil => simpa [runsFrom] using holds
  | cons x rest ih =>
    rw [runsFrom]
    split
    · rename_i fit
      exact ih (grown opened x holds fit)
    · intro run member
      rcases List.mem_cons.mp member with rfl | later
      · exact holds
      · exact ih (single x) run later

theorem runsAll {P : List α → Prop} (single : ∀ x, P [x])
    (grown : ∀ run x, P run → fits run x = true → P (run ++ [x])) (l : List α) :
    ∀ run ∈ runs fits l, P run := by
  cases l with
  | nil => simp [runs]
  | cons x rest => exact runsFromAll single grown (single x) rest

def Broken (fits : List α → α → Bool) (run next : List α) : Prop :=
  ∃ x rest, next = x :: rest ∧ fits run x = false

theorem runsFromHead {x : α} {opened l : List α} :
    ∃ run rest, runsFrom fits (x :: opened) l = (x :: run) :: rest := by
  induction l generalizing opened with
  | nil => exact ⟨opened, [], rfl⟩
  | cons y rest ih =>
    rw [runsFrom]
    split
    · rw [List.cons_append]; exact ih
    · exact ⟨opened, _, rfl⟩

theorem runsFromBroken (opened l : List α) :
    (runsFrom fits opened l).IsChain (Broken fits) := by
  induction l generalizing opened with
  | nil => exact List.isChain_singleton _
  | cons x rest ih =>
    rw [runsFrom]
    split
    · exact ih _
    · rename_i unfit
      obtain ⟨run, later, shape⟩ := @runsFromHead _ fits x [] rest
      have tail := ih [x]
      rw [shape] at tail ⊢
      exact List.isChain_cons_cons.mpr ⟨⟨x, run, rfl, by simpa using unfit⟩, tail⟩

theorem runsBroken (l : List α) : (runs fits l).IsChain (Broken fits) := by
  cases l with
  | nil => exact List.isChain_nil
  | cons x rest => exact runsFromBroken [x] rest

theorem runsFromSnoc (opened l : List α) (x : α) : ∃ front last, runsFrom fits opened l = front ++ [last] ∧
    runsFrom fits opened (l ++ [x]) = front ++ (if fits last x then [last ++ [x]] else [last, [x]]) := by
  induction l generalizing opened with
  | nil => exact ⟨[], opened, rfl, by simp only [List.nil_append, runsFrom]⟩
  | cons y rest ih =>
    rw [List.cons_append, runsFrom, runsFrom]
    split
    · exact ih _
    · obtain ⟨front, last, old, new⟩ := ih [y]
      exact ⟨opened :: front, last, by rw [old, List.cons_append], by rw [new, List.cons_append]⟩

theorem runsSnoc {l : List α} (some : l ≠ []) (x : α) : ∃ front last, runs fits l = front ++ [last] ∧
    runs fits (l ++ [x]) = front ++ (if fits last x then [last ++ [x]] else [last, [x]]) := by
  cases l with
  | nil => exact absurd rfl some
  | cons y rest => exact runsFromSnoc [y] rest x

theorem runsNonempty (l : List α) : ∀ run ∈ runs fits l, run ≠ [] :=
  runsAll (by simp) (by simp) l

end
end Libsqfs.GreedyRuns
