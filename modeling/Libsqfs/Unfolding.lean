import Mathlib.Data.List.Basic

/-! Graphs unfolded into trees. A view of a node is what it says of itself, and its
entries with the nodes they lead to. -/
namespace Libsqfs.Unfolding

inductive Tree (ν ε : Type) where
  | node (own : ν) (entries : List (ε × Tree ν ε))

section
variable {α β γ ν ε : Type}

abbrev View (α ν ε : Type) := α → Option (ν × List (ε × α))

def each (f : α → Option β) : List (ε × α) → Option (List (ε × β))
  | [] => some []
  | x :: rest => do
    let b ← f x.2
    let later ← each f rest
    some ((x.1, b) :: later)

/- none: a node that is not seen, or deeper than the fuel allows. -/
def unfold (view : View α ν ε) : Nat → α → Option (Tree ν ε)
  | 0, _ => none
  | fuel + 1, a => do
    let seen ← view a
    let below ← each (unfold view fuel) seen.2
    some (.node seen.1 below)

theorem eachMap {f : β → Option γ} {g : α → Option γ} {h : α → β} {l : List (ε × α)}
    (same : ∀ x ∈ l, f (h x.2) = g x.2) : each f (l.map fun x => (x.1, h x.2)) = each g l := by
  induction l with
  | nil => rfl
  | cons x rest ih =>
    have own := same x (by simp)
    have later := ih fun y member => same y (List.mem_cons_of_mem _ member)
    simp only [List.map_cons, each, own, later]

theorem eachSome {f : α → Option β} {l : List (ε × α)} (all : ∀ x ∈ l, ∃ b, f x.2 = some b) :
    ∃ bs, each f l = some bs := by
  induction l with
  | nil => exact ⟨[], rfl⟩
  | cons x rest ih =>
    obtain ⟨b, own⟩ := all x (by simp)
    obtain ⟨bs, later⟩ := ih fun y member => all y (List.mem_cons_of_mem _ member)
    exact ⟨(x.1, b) :: bs, by simp only [each, own, later, bind, Option.bind_some]⟩

theorem eachMono {f g : α → Option β} (below : ∀ a b, f a = some b → g a = some b) {l : List (ε × α)}
    {bs : List (ε × β)} (found : each f l = some bs) : each g l = some bs := by
  induction l generalizing bs with
  | nil => exact found
  | cons x rest ih =>
    simp only [each, bind, Option.bind_eq_some_iff] at found
    obtain ⟨b, own, later, others, same⟩ := found
    cases same
    simp only [each, below _ _ own, ih others, bind, Option.bind_some]

/- Nodes that are named otherwise but look the same unfold into the same tree. -/
theorem unfoldMap {view : View α ν ε} {view' : View β ν ε} {name : α → β} {P : α → Prop}
    (same : ∀ a, P a → ∃ own entries, view a = some (own, entries) ∧ (∀ x ∈ entries, P x.2) ∧
      view' (name a) = some (own, entries.map fun x => (x.1, name x.2)))
    (fuel : Nat) {a : α} (here : P a) : unfold view' fuel (name a) = unfold view fuel a := by
  induction fuel generalizing a with
  | zero => rfl
  | succ fuel ih =>
    obtain ⟨own, entries, seen, closed, seen'⟩ := same a here
    have below := @eachMap α β _ ε (unfold view' fuel) (unfold view fuel) name entries fun x member =>
      ih (closed x member)
    simp only [unfold, seen, seen', bind, Option.bind_some, below]

/- With a rank that goes down along the entries the unfolding ends. -/
theorem unfoldEnds {view : View α ν ε} {P : α → Prop} {rank : α → Nat}
    (seen : ∀ a, P a → ∃ own entries, view a = some (own, entries) ∧ ∀ x ∈ entries, P x.2 ∧ rank x.2 < rank a)
    {fuel : Nat} {a : α} (here : P a) (enough : rank a < fuel) : ∃ tree, unfold view fuel a = some tree := by
  induction fuel generalizing a with
  | zero => exact absurd enough (Nat.not_lt_zero _)
  | succ fuel ih =>
    obtain ⟨own, entries, found, below⟩ := seen a here
    obtain ⟨bs, others⟩ := @eachSome α _ ε (unfold view fuel) entries fun x member => by
      obtain ⟨inside, less⟩ := below x member
      exact ih inside (Nat.lt_of_lt_of_le less (Nat.le_of_lt_succ enough))
    exact ⟨.node own bs, by simp only [unfold, found, others, bind, Option.bind_some]⟩

theorem unfoldDeeper {view : View α ν ε} {fuel fuel' : Nat} (deeper : fuel ≤ fuel') {a : α} {tree : Tree ν ε}
    (found : unfold view fuel a = some tree) : unfold view fuel' a = some tree := by
  induction fuel generalizing fuel' a tree with
  | zero => cases found
  | succ fuel ih =>
    obtain ⟨fuel', rfl⟩ : ∃ n, fuel' = n + 1 := ⟨fuel' - 1, by omega⟩
    simp only [unfold, bind, Option.bind_eq_some_iff] at found
    obtain ⟨seen, own, below, others, same⟩ := found
    cases same
    have all := eachMono (fun _ _ once => ih (Nat.le_of_succ_le_succ deeper) once) others
    simp only [unfold, own, all, bind, Option.bind_some]

def follow {κ : Type} (view : View α ν ε) (chosen : κ → ε → Bool) : List κ → α → Option α
  | [], a => some a
  | k :: path, a => do
    let seen ← view a
    let entry ← seen.2.find? fun x => chosen k x.1
    follow view chosen path entry.2

end
end Libsqfs.Unfolding
