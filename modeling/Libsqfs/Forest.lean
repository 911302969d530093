import Mathlib.Logic.Relation
import Mathlib.Data.List.Nodup
import Mathlib.Data.Finset.Card

/-! A relation in which what a root reaches has one predecessor, and the root
none. Below it there are no cycles, and two children of one node reach nothing
in common. -/
namespace Libsqfs.Forest
open Relation

section
variable {α : Type} {r : α → α → Prop} {root a b c x : α}

structure Tree (r : α → α → Prop) (root : α) : Prop where
  single : ∀ x, ReflTransGen r root x → ∀ a b, r a x → r b x → a = b
  rootless : ∀ a, ¬ r a root

theorem Tree.predecessor (tree : Tree r root) (reached : ReflTransGen r root x) (above : r a x) :
    ReflTransGen r root a := by
  rcases ReflTransGen.cases_tail reached with same | ⟨b, before, last⟩
  · exact absurd (same ▸ above) (tree.rootless a)
  · rwa [tree.single x reached a b above last]

theorem Tree.above (tree : Tree r root) (reached : ReflTransGen r root x) (path : ReflTransGen r a x) :
    ReflTransGen r root a := by
  induction path using ReflTransGen.head_induction_on with
  | refl => exact reached
  | head step _ ih => exact tree.predecessor ih step

theorem Tree.acyclic (tree : Tree r root) (reached : ReflTransGen r root x) : ¬ TransGen r x x := by
  induction reached with
  | refl =>
    intro cycle
    obtain ⟨a, _, last⟩ := TransGen.tail'_iff.mp cycle
    exact tree.rootless a last
  | @tail b c path step ih =>
    intro cycle
    obtain ⟨a, before, last⟩ := TransGen.tail'_iff.mp cycle
    rw [tree.single c (path.tail step) a b last step] at before
    exact ih (TransGen.head' step before)

theorem Tree.apart (tree : Tree r root) (reached : ReflTransGen r root a) (left : r a b) (right : r a c)
    (fromLeft : ReflTransGen r b x) (fromRight : ReflTransGen r c x) : b = c := by
  have below : ReflTransGen r root x := (reached.tail left).trans fromLeft
  have ordered : ∀ {y z}, ReflTransGen r y x → ReflTransGen r z x → ReflTransGen r y z ∨ ReflTransGen r z y := by
    intro y z first
    induction first using ReflTransGen.head_induction_on with
    | refl => exact fun second => .inr second
    | @head y w step path ih =>
      intro second
      rcases ih second with forward | backward
      · exact .inl (.head step forward)
      · rcases ReflTransGen.cases_tail backward with same | ⟨v, before, last⟩
        · exact .inl (same ▸ .single step)
        · rw [tree.single w (tree.above below path) v y last step] at before
          exact .inr before
  have later {y z : α} (step : r a y) (step' : r a z) (path : ReflTransGen r y z) : y = z := by
    rcases ReflTransGen.cases_tail path with same | ⟨v, before, last⟩
    · exact same.symm
    · rw [tree.single z (reached.tail step') v a last step'] at before
      exact absurd (TransGen.head' step before) (tree.acyclic reached)
  rcases ordered fromLeft fromRight with forward | backward
  · exact later left right forward
  · exact (later right left backward).symm

/- A path without repetition through numbers below a bound is no longer than it. -/
theorem boundedPath {n : Nat} {path : List Nat} (nodup : path.Nodup) (bounded : ∀ d ∈ path, d < n) :
    path.length ≤ n := by
  have inside : path.toFinset ⊆ Finset.range n := fun d member =>
    Finset.mem_range.mpr (bounded d (List.mem_toFinset.mp member))
  have small := Finset.card_le_card inside
  rwa [List.toFinset_card_of_nodup nodup, Finset.card_range] at small

end
end Libsqfs.Forest
