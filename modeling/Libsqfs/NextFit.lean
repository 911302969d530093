import Libsqfs.GreedyRuns
import Mathlib.Algebra.Order.BigOperators.Group.List
import Mathlib.Tactic.Linarith

/-! Next-fit: things are put into bins in the order in which they come, and a bin is
closed by the first one that does not fit in. Any two neighbours hold more than one bin
could, so no other way of packing them needs half as many bins. -/
namespace Libsqfs.NextFit
open GreedyRuns

structure Packing (capacity : Nat) (sizes : List Nat) (packing : List (List Nat)) : Prop where
  all : packing.flatten.Perm sizes
  capped : ∀ bin ∈ packing, bin.sum ≤ capacity

section
variable {α : Type} (size : α → Nat) (capacity : Nat)

def load (bin : List α) : Nat := (bin.map size).sum

def fits (bin : List α) (x : α) : Bool := decide (load size bin + size x ≤ capacity)

def bins (l : List α) : List (List α) := runs (fits size capacity) l

variable {size} {capacity} {sizes : List Nat} {l : List α}

theorem loadSnoc (bin : List α) (x : α) : load size (bin ++ [x]) = load size bin + size x := by
  simp [load]

theorem binsSizes (l : List α) : bins id capacity (l.map size) = (bins size capacity l).map (·.map size) := by
  refine runsMap (fun run x => ?_) l
  have same : load id (run.map size) = load size run := by simp [load]
  rw [fits, fits, same]
  rfl

theorem binsKnown {xs ys : List (List Nat)} (positive : ∀ n ∈ xs.flatten, 0 < n) (flat : xs.flatten = ys.flatten)
    (loads : xs.map List.sum = ys.map List.sum) : xs = ys := by
  induction xs generalizing ys with
  | nil => exact (List.map_eq_nil_iff.mp loads.symm).symm
  | cons x xs ih =>
    cases ys with
    | nil => cases loads
    | cons y ys =>
      obtain ⟨first, others⟩ := List.cons.inj loads
      rw [List.flatten_cons] at positive flat
      rw [List.flatten_cons] at flat
      have empty {c : List Nat} (sum : c.sum = 0) (inside : ∀ n ∈ c, 0 < n) : c = [] := by
        refine List.eq_nil_iff_forall_not_mem.mpr fun n member => ?_
        exact absurd (List.sum_eq_zero_iff.mp sum n member) (Nat.ne_of_gt (inside n member))
      obtain ⟨rfl, rest⟩ : x = y ∧ xs.flatten = ys.flatten := by
        rcases List.append_eq_append_iff.mp flat with ⟨c, rfl, rest⟩ | ⟨c, rfl, rest⟩
        · rw [List.sum_append] at first
          obtain rfl := empty (c := c) (by omega) fun n member => positive n (by simp [rest, member])
          exact ⟨(List.append_nil x).symm, rest⟩
        · rw [List.sum_append] at first
          obtain rfl := empty (c := c) (by omega) fun n member => positive n (by simp [member])
          exact ⟨List.append_nil y, rest.symm⟩
      rw [ih (fun n member => positive n (List.mem_append_right _ member)) rest others]

theorem binsCapped (small : ∀ x ∈ l, size x ≤ capacity) : ∀ bin ∈ bins size capacity l, load size bin ≤ capacity := by
  have each : ∀ bin ∈ bins size capacity l, (∀ x ∈ bin, size x ≤ capacity) → load size bin ≤ capacity := by
    refine runsAll (fun x single => ?_) (fun bin x _ fit _ => ?_) l
    · simpa [load] using single x (List.mem_singleton_self x)
    · rw [loadSnoc]
      exact of_decide_eq_true fit
  intro bin member
  refine each bin member fun x inside => small x ?_
  rw [← @runsFlatten _ (fits size capacity) l]
  exact List.mem_flatten.mpr ⟨bin, member, inside⟩

theorem binsPacking (small : ∀ x ∈ l, size x ≤ capacity) :
    Packing capacity (l.map size) ((bins size capacity l).map (·.map size)) where
  all := by
    rw [← List.map_flatten, bins, runsFlatten]
  capped bin member := by
    obtain ⟨run, inside, rfl⟩ := List.mem_map.mp member
    exact binsCapped small run inside

theorem binsCrowded (l : List α) :
    ((bins size capacity l).map (load size)).IsChain fun a b => capacity < a + b := by
  refine List.isChain_map _ |>.mpr ((runsBroken l).imp fun bin next broken => ?_)
  obtain ⟨x, rest, rfl, unfit⟩ := broken
  have exceeds : capacity < load size bin + size x := by simpa [fits] using unfit
  simp only [load, List.map_cons, List.sum_cons] at exceeds ⊢
  omega

theorem binsLoad (l : List α) : ((bins size capacity l).map (load size)).sum = load size l := by
  have flat := congrArg (load size) (@runsFlatten _ (fits size capacity) l)
  rw [← flat, load, List.map_flatten, List.sum_flatten, List.map_map]
  rfl

theorem crowdedSum : ∀ {loads : List Nat}, loads.IsChain (fun a b => capacity < a + b) →
    (capacity + 1) * (loads.length / 2) ≤ loads.sum
  | [], _ => by simp
  | [_], _ => by simp
  | a :: b :: rest, crowded => by
    obtain ⟨pair, later⟩ := List.isChain_cons_cons.mp crowded
    have others := crowdedSum (List.IsChain.tail later)
    have half : (a :: b :: rest).length / 2 = rest.length / 2 + 1 := by
      simp only [List.length_cons]
      omega
    rw [List.tail_cons] at others
    rw [half, Nat.mul_succ, List.sum_cons, List.sum_cons]
    omega

theorem Packing.sum {packing : List (List Nat)} (packed : Packing capacity sizes packing) :
    sizes.sum ≤ packing.length * capacity := by
  rw [← packed.all.sum_eq, List.sum_flatten]
  calc (packing.map List.sum).sum ≤ (packing.map List.sum).length * capacity :=
        List.sum_le_card_nsmul _ _ fun s member => by
          obtain ⟨bin, inside, rfl⟩ := List.mem_map.mp member
          exact packed.capped bin inside
    _ = packing.length * capacity := by rw [List.length_map]

/- Next-fit needs fewer than twice as many bins as any other way. -/
theorem binsTwice {packing : List (List Nat)} (packed : Packing capacity (l.map size) packing) :
    (bins size capacity l).length ≤ 2 * packing.length - 1 := by
  cases l with
  | nil => exact Nat.zero_le _
  | cons x rest =>
    have some : packing ≠ [] := by
      rintro rfl
      have empty := packed.all.length_eq
      simp at empty
    have positive := List.length_pos_iff.mpr some
    have enough := packed.sum
    have crowded := @crowdedSum capacity _ (@binsCrowded _ size capacity (x :: rest))
    rw [binsLoad, List.length_map] at crowded
    have fewer : (bins size capacity (x :: rest)).length / 2 < packing.length := by
      by_contra many
      have both : (capacity + 1) * packing.length ≤ packing.length * capacity :=
        ((Nat.mul_le_mul_left _ (not_lt.mp many)).trans crowded).trans enough
      rw [Nat.succ_mul, Nat.mul_comm] at both
      omega
    omega

end
end Libsqfs.NextFit
