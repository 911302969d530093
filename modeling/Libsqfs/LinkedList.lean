import Mathlib.Data.List.Nodup
import Mathlib.Logic.Function.Basic

/-! Doubly linked lists over two link fields. `Linked` says that the links of the
nodes of a list run through it in both directions, from the node before it to
the node after it; `Represents` that a list with two end pointers is this list. -/
namespace Libsqfs.LinkedList

section
variable {α : Type}

def Linked (prev next : α → Option α) : Option α → List α → Option α → Prop
  | _, [], _ => True
  | before, e :: rest, after =>
    prev e = before ∧ next e = rest.head?.or after ∧ Linked prev next (some e) rest after

structure Represents (prev next : α → Option α) (first last : Option α) (l : List α) : Prop where
  first : first = l.head?
  last : last = l.getLast?
  linked : Linked prev next none l none
  nodup : l.Nodup

def follow (step : α → Option α) : Nat → Option α → List α
  | 0, _ => []
  | _ + 1, none => []
  | fuel + 1, some e => e :: follow step fuel (step e)

variable {prev next prev' next' : α → Option α} {before after before' after' : Option α}

theorem linkedAppend {xs ys : List α} : Linked prev next before (xs ++ ys) after ↔
    Linked prev next before xs (ys.head?.or after) ∧
      Linked prev next (xs.getLast?.or before) ys after := by
  induction xs generalizing before with
  | nil => simp [Linked]
  | cons x rest ih =>
    have last : ((x :: rest).getLast?).or before = (rest.getLast?).or (some x) := by
      cases rest with
      | nil => rfl
      | cons y rest =>
        rw [List.getLast?_cons_cons]
        simp [List.getLast?_cons]
    rw [List.cons_append, Linked, Linked, ih, last, List.head?_append, Option.or_assoc]
    tauto

theorem linkedCongr {l : List α} (linked : Linked prev next before l after)
    (links : ∀ e ∈ l, prev' e = prev e ∧ next' e = next e) : Linked prev' next' before l after := by
  induction l generalizing before with
  | nil => trivial
  | cons x rest ih =>
    obtain ⟨back, on, tail⟩ := linked
    obtain ⟨samePrev, sameNext⟩ := links x (by simp)
    exact ⟨samePrev.trans back, sameNext.trans on,
      ih tail fun e member => links e (List.mem_cons_of_mem _ member)⟩

theorem linkedNext {l : List α} (linked : Linked prev next before l after) (nodup : l.Nodup)
    (kept : ∀ e ∈ l, l.getLast? ≠ some e → next' e = next e)
    (last : ∀ e, l.getLast? = some e → next' e = after') : Linked prev next' before l after' := by
  induction l generalizing before with
  | nil => trivial
  | cons x rest ih =>
    obtain ⟨back, on, tail⟩ := linked
    obtain ⟨fresh, nodup⟩ := List.nodup_cons.mp nodup
    cases rest with
    | nil => exact ⟨back, last x rfl, trivial⟩
    | cons y rest =>
      have other : (x :: y :: rest).getLast? ≠ some x := by
        rw [List.getLast?_cons_cons]
        exact fun same => fresh (List.mem_of_getLast? same)
      refine ⟨back, (kept x (by simp) other).trans on, ih tail nodup (fun e member away => ?_) fun e ends => ?_⟩
      · exact kept e (List.mem_cons_of_mem _ member) (by rwa [List.getLast?_cons_cons])
      · exact last e (by rwa [List.getLast?_cons_cons])

theorem linkedPrev {l : List α} (linked : Linked prev next before l after) (nodup : l.Nodup)
    (kept : ∀ e ∈ l, l.head? ≠ some e → prev' e = prev e)
    (first : ∀ e, l.head? = some e → prev' e = before') : Linked prev' next before' l after := by
  cases l with
  | nil => trivial
  | cons x rest =>
    obtain ⟨_, on, tail⟩ := linked
    obtain ⟨fresh, _⟩ := List.nodup_cons.mp nodup
    refine ⟨first x rfl, on, linkedCongr tail fun e member => ⟨?_, rfl⟩⟩
    exact kept e (List.mem_cons_of_mem _ member) fun same => fresh (Option.some.inj same ▸ member)

theorem Represents.congr {first last : Option α} {l : List α}
    (h : Represents prev next first last l)
    (links : ∀ e ∈ l, prev' e = prev e ∧ next' e = next e) : Represents prev' next' first last l :=
  ⟨h.first, h.last, linkedCongr h.linked links, h.nodup⟩

theorem Represents.insert [DecidableEq α] {first last first' last' : Option α} {xs ys : List α} {e : α}
    (h : Represents prev next first last (xs ++ ys)) (fresh : e ∉ xs ++ ys)
    (back : prev' e = xs.getLast?) (on : next' e = ys.head?)
    (after : ∀ x ∈ xs ++ ys, next' x = if xs.getLast? = some x then some e else next x)
    (before : ∀ x ∈ xs ++ ys, prev' x = if ys.head? = some x then some e else prev x)
    (head : first' = if xs = [] then some e else first)
    (tail : last' = if ys = [] then some e else last) :
    Represents prev' next' first' last' (xs ++ e :: ys) := by
  obtain ⟨sameFirst, sameLast, linked, nodup⟩ := h
  obtain ⟨left, right⟩ := linkedAppend.mp linked
  obtain ⟨nodupLeft, nodupRight, apart⟩ := List.nodup_append'.mp nodup
  refine ⟨?_, ?_, linkedAppend.mpr ⟨?_, ?_, ?_, ?_⟩, ?_⟩
  · cases xs with
    | nil => simpa using head
    | cons x rest => rw [head, if_neg (by simp), sameFirst]; rfl
  · cases ys with
    | nil => simpa using tail
    | cons y rest =>
      rw [tail, if_neg (by simp), sameLast, List.getLast?_append, List.getLast?_append,
        List.getLast?_cons_cons]
  · -- the nodes before it
    refine linkedNext (linkedCongr left fun x member => ⟨?_, rfl⟩) nodupLeft
      (fun x member away => ?_) fun x ends => ?_
    · rw [before x (List.mem_append_left _ member), if_neg]
      exact fun same => apart member (List.mem_of_mem_head? same)
    · rw [after x (List.mem_append_left _ member), if_neg away]
    · rw [after x (List.mem_append_left _ (List.mem_of_getLast? ends)), if_pos ends]
      rfl
  · rw [back]; cases xs.getLast? <;> rfl
  · rw [on]; cases ys.head? <;> rfl
  · -- the nodes after it
    refine linkedPrev (linkedCongr right fun x member => ⟨rfl, ?_⟩) nodupRight
      (fun x member away => ?_) fun x starts => ?_
    · rw [after x (List.mem_append_right _ member), if_neg]
      exact fun same => apart (List.mem_of_getLast? same) member
    · rw [before x (List.mem_append_right _ member), if_neg away]
    · rw [before x (List.mem_append_right _ (List.mem_of_mem_head? starts)), if_pos starts]
  · rw [List.nodup_middle]
    exact List.nodup_cons.mpr ⟨fresh, nodup⟩

theorem Represents.remove [DecidableEq α] {first last first' last' : Option α} {xs ys : List α} {e : α}
    (h : Represents prev next first last (xs ++ e :: ys))
    (after : ∀ x ∈ xs ++ ys, next' x = if xs.getLast? = some x then ys.head? else next x)
    (before : ∀ x ∈ xs ++ ys, prev' x = if ys.head? = some x then xs.getLast? else prev x)
    (head : first' = if xs = [] then ys.head? else first)
    (tail : last' = if ys = [] then xs.getLast? else last) :
    Represents prev' next' first' last' (xs ++ ys) := by
  obtain ⟨sameFirst, sameLast, linked, nodup⟩ := h
  obtain ⟨left, _, _, right⟩ := linkedAppend.mp linked
  obtain ⟨_, nodup⟩ := List.nodup_cons.mp (List.nodup_middle.mp nodup)
  obtain ⟨nodupLeft, nodupRight, apart⟩ := List.nodup_append'.mp nodup
  refine ⟨?_, ?_, linkedAppend.mpr ⟨?_, ?_⟩, nodup⟩
  · cases xs with
    | nil => simpa using head
    | cons x rest => rw [head, if_neg (by simp), sameFirst]; rfl
  · cases ys with
    | nil => simpa using tail
    | cons y rest =>
      rw [tail, if_neg (by simp), sameLast, List.getLast?_append, List.getLast?_append,
        List.getLast?_cons_cons]
  · refine linkedNext (linkedCongr left fun x member => ⟨?_, rfl⟩) nodupLeft
      (fun x member away => ?_) fun x ends => ?_
    · rw [before x (List.mem_append_left _ member), if_neg]
      exact fun same => apart member (List.mem_of_mem_head? same)
    · rw [after x (List.mem_append_left _ member), if_neg away]
    · rw [after x (List.mem_append_left _ (List.mem_of_getLast? ends)), if_pos ends, Option.or_none]
  · refine linkedPrev (linkedCongr right fun x member => ⟨rfl, ?_⟩) nodupRight
      (fun x member away => ?_) fun x starts => ?_
    · rw [after x (List.mem_append_right _ member), if_neg]
      exact fun same => apart (List.mem_of_getLast? same) member
    · rw [before x (List.mem_append_right _ member), if_neg away]
    · rw [before x (List.mem_append_right _ (List.mem_of_mem_head? starts)), if_pos starts,
        Option.or_none]

theorem followLinked {l : List α} {fuel : Nat} (linked : Linked prev next before l none)
    (enough : l.length ≤ fuel) : follow next fuel l.head? = l := by
  induction l generalizing before fuel with
  | nil => cases fuel <;> rfl
  | cons x rest ih =>
    obtain ⟨fuel, rfl⟩ : ∃ k, fuel = k + 1 := ⟨fuel - 1, by simp at enough; omega⟩
    obtain ⟨_, on, tail⟩ := linked
    rw [Option.or_none] at on
    rw [List.head?_cons, follow, on, ih tail (by simpa using enough)]

theorem Represents.forward {first last : Option α} {l : List α} {fuel : Nat}
    (h : Represents prev next first last l) (enough : l.length ≤ fuel) :
    follow next fuel first = l := by
  rw [h.first]
  exact followLinked h.linked enough

theorem linkedReverse {l : List α} (linked : Linked prev next before l after) :
    Linked next prev after l.reverse before := by
  induction l generalizing before with
  | nil => trivial
  | cons x rest ih =>
    obtain ⟨back, on, tail⟩ := linked
    rw [List.reverse_cons]
    refine linkedAppend.mpr ⟨by simpa using ih tail, ?_, by simpa using back, trivial⟩
    rw [on, List.getLast?_reverse]

theorem Represents.backward {first last : Option α} {l : List α} {fuel : Nat}
    (h : Represents prev next first last l) (enough : l.length ≤ fuel) :
    follow prev fuel last = l.reverse := by
  rw [h.last, ← List.head?_reverse]
  exact followLinked (linkedReverse h.linked) (by simpa using enough)

end
end Libsqfs.LinkedList
