import Libsqfs.LinkedList
import Libsqfs.Transition
import Libsqfs.Bulkdata

/-! src/bulkdata.c: the work queues as the pointers hold them. All queues share
the two link fields of the chunks, and a chunk that leaves a queue keeps its
links. The lists of `Deques` are what the queues stand for. -/
namespace Libsqfs
open LinkedList Transition

structure ChunkWorkq (α : Type) where
  first : Option α
  last : Option α
  deriving DecidableEq, Repr

def ChunkWorkq.init {α : Type} : ChunkWorkq α := ⟨none, none⟩

structure Workqs (α κ : Type) where
  workqPrev : α → Option α
  workqNext : α → Option α
  workq : κ → ChunkWorkq α

abbrev Deques (α κ : Type) := κ → List α

section
variable {α κ : Type}

namespace Workqs

/- Each queue is its list, and the lists share no chunk. -/
structure Holds (s : Workqs α κ) (d : Deques α κ) : Prop where
  represents : ∀ q, Represents s.workqPrev s.workqNext (s.workq q).first (s.workq q).last (d q)
  apart : ∀ q q', q ≠ q' → (d q).Disjoint (d q')

def Enumerates (s : Workqs α κ) (q : κ) (l : List α) : Prop :=
  ∀ fuel, l.length ≤ fuel → follow s.workqNext fuel (s.workq q).first = l ∧
    follow s.workqPrev fuel (s.workq q).last = l.reverse

variable {s : Workqs α κ} {d : Deques α κ} {q : κ} {chunk : α} {l l' : List α}

theorem Enumerates.unique (h : s.Enumerates q l) (h' : s.Enumerates q l') : l = l' := by
  have left := (h _ (Nat.le_max_left l.length l'.length)).1
  have right := (h' _ (Nat.le_max_right l.length l'.length)).1
  exact left.symm.trans right

theorem Holds.enumerates (holds : s.Holds d) (q : κ) : s.Enumerates q (d q) :=
  fun _ enough => ⟨(holds.represents q).forward enough, (holds.represents q).backward enough⟩

theorem initialHolds (initial : ∀ q, s.workq q = .init) : s.Holds fun _ => [] where
  represents q := by
    rw [initial q]
    exact ⟨rfl, rfl, trivial, List.nodup_nil⟩
  apart _ _ _ := List.disjoint_nil_left _

theorem Holds.neighbours {xs ys : List α} (holds : s.Holds d) (shape : d q = xs ++ chunk :: ys) :
    s.workqPrev chunk = xs.getLast? ∧ s.workqNext chunk = ys.head? ∧ chunk ∉ xs ++ ys := by
  have own := holds.represents q
  rw [shape] at own
  obtain ⟨_, back, on, _⟩ := linkedAppend.mp own.linked
  refine ⟨by simpa using back, by simpa using on, ?_⟩
  exact (List.nodup_cons.mp (List.nodup_middle.mp own.nodup)).1

end Workqs
end

section
variable {α κ : Type} [DecidableEq α] [DecidableEq κ]

namespace Workqs

def setPrev (s : Workqs α κ) (chunk : α) (value : Option α) : Workqs α κ :=
  {s with workqPrev := Function.update s.workqPrev chunk value}

def setNext (s : Workqs α κ) (chunk : α) (value : Option α) : Workqs α κ :=
  {s with workqNext := Function.update s.workqNext chunk value}

def setFirst (s : Workqs α κ) (q : κ) (value : Option α) : Workqs α κ :=
  {s with workq := Function.update s.workq q {s.workq q with first := value}}

def setLast (s : Workqs α κ) (q : κ) (value : Option α) : Workqs α κ :=
  {s with workq := Function.update s.workq q {s.workq q with last := value}}

def clear (s : Workqs α κ) (q : κ) : Workqs α κ :=
  (s.setLast q none).setFirst q none

def pushBack (s : Workqs α κ) (q : κ) (chunk : α) : Workqs α κ :=
  let s := s.setPrev chunk (s.workq q).last
  let s := s.setNext chunk none
  let s := match (s.workq q).last with
    | some last => s.setNext last (some chunk)
    | none => s.setFirst q (some chunk)
  s.setLast q (some chunk)

def pushFront (s : Workqs α κ) (q : κ) (chunk : α) : Workqs α κ :=
  let s := s.setPrev chunk none
  let s := s.setNext chunk (s.workq q).first
  let s := match (s.workq q).first with
    | some first => s.setPrev first (some chunk)
    | none => s.setLast q (some chunk)
  s.setFirst q (some chunk)

def remove (s : Workqs α κ) (q : κ) (chunk : α) : Workqs α κ :=
  let s := match s.workqPrev chunk with
    | some back => s.setNext back (s.workqNext chunk)
    | none => s.setFirst q (s.workqNext chunk)
  match s.workqNext chunk with
  | some on => s.setPrev on (s.workqPrev chunk)
  | none => s.setLast q (s.workqPrev chunk)

def pop (s : Workqs α κ) (q : κ) : Workqs α κ × Option α :=
  match (s.workq q).first with
  | none => (s, none)
  | some chunk =>
    let s := match s.workqNext chunk with
      | some on => s.setPrev on none
      | none => s.setLast q none
    (s.setFirst q (s.workqNext chunk), some chunk)

end Workqs

inductive WorkqCall (α κ : Type) where
  | clear (q : κ)
  | pushBack (q : κ) (chunk : α)
  | pushFront (q : κ) (chunk : α)
  | remove (q : κ) (chunk : α)
  | pop (q : κ)

namespace WorkqCall

def queue : WorkqCall α κ → κ
  | clear q => q
  | pushBack q _ => q
  | pushFront q _ => q
  | remove q _ => q
  | pop q => q

def perform (s : Workqs α κ) : WorkqCall α κ → Workqs α κ × Option α
  | clear q => (s.clear q, none)
  | pushBack q chunk => (s.pushBack q chunk, none)
  | pushFront q chunk => (s.pushFront q chunk, none)
  | remove q chunk => (s.remove q chunk, none)
  | pop q => s.pop q

def edit : WorkqCall α κ → List α → List α
  | clear _, _ => []
  | pushBack _ chunk, l => l ++ [chunk]
  | pushFront _ chunk, l => chunk :: l
  | remove _ chunk, l => l.erase chunk
  | pop _, l => l.tail

def returned : WorkqCall α κ → List α → Option α
  | pop _, l => l.head?
  | _, _ => none

end WorkqCall

def Deques.perform (d : Deques α κ) (call : WorkqCall α κ) : Deques α κ :=
  Function.update d call.queue (call.edit (d call.queue))

/- A chunk is pushed while it is in no queue and removed from the queue that it
is in. -/
def Deques.Permits (d : Deques α κ) : WorkqCall α κ → Prop
  | .pushBack _ chunk => ∀ q, chunk ∉ d q
  | .pushFront _ chunk => ∀ q, chunk ∉ d q
  | .remove q chunk => chunk ∈ d q
  | _ => True

namespace Workqs

variable {s : Workqs α κ} {d : Deques α κ} {q : κ} {chunk : α}

/- What a call on one queue has to show. The other queues only need the links of
their own chunks. -/
theorem Holds.edited {s' : Workqs α κ} {l : List α} (holds : s.Holds d)
    (own : Represents s'.workqPrev s'.workqNext (s'.workq q).first (s'.workq q).last l)
    (fresh : ∀ e ∈ l, e ∉ d q → ∀ q', e ∉ d q')
    (queues : ∀ q', q' ≠ q → s'.workq q' = s.workq q')
    (links : ∀ e, e ∉ d q → e ∉ l →
      s'.workqPrev e = s.workqPrev e ∧ s'.workqNext e = s.workqNext e) :
    s'.Holds (Function.update d q l) := by
  have away : ∀ q', q' ≠ q → l.Disjoint (d q') := by
    intro q' other e member inOther
    by_cases old : e ∈ d q
    · exact holds.apart q' q other inOther old
    · exact fresh e member old q' inOther
  constructor
  · intro q'
    by_cases same : q' = q
    · subst same
      rwa [Function.update_self]
    · rw [Function.update_of_ne same, queues q' same]
      refine (holds.represents q').congr fun e member => links e ?_ ?_
      · exact fun inOwn => holds.apart q' q same member inOwn
      · exact fun inOwn => away q' same inOwn member
  · intro q₁ q₂ different
    by_cases first : q₁ = q
    · subst first
      rw [Function.update_self, Function.update_of_ne (Ne.symm different)]
      exact away q₂ (Ne.symm different)
    · rw [Function.update_of_ne first]
      by_cases second : q₂ = q
      · subst second
        rw [Function.update_self]
        exact List.disjoint_symm (away q₁ first)
      · rw [Function.update_of_ne second]
        exact holds.apart q₁ q₂ different

theorem Holds.clear (holds : s.Holds d) : (s.clear q).Holds (Function.update d q []) := by
  refine holds.edited ?_ (by simp) (fun q' other => ?_) fun _ _ _ => ⟨rfl, rfl⟩
  · simpa [Workqs.clear, setFirst, setLast] using ⟨rfl, rfl, trivial, List.nodup_nil⟩
  · simp [Workqs.clear, setFirst, setLast, other]

theorem pushBackFields (s : Workqs α κ) (q : κ) (chunk : α) :
    (∀ e, (s.pushBack q chunk).workqPrev e =
      if e = chunk then (s.workq q).last else s.workqPrev e) ∧
    (∀ e, (s.pushBack q chunk).workqNext e =
      if (s.workq q).last = some e then some chunk
      else if e = chunk then none else s.workqNext e) ∧
    (s.pushBack q chunk).workq = Function.update s.workq q
      ⟨if (s.workq q).last = none then some chunk else (s.workq q).first, some chunk⟩ := by
  unfold pushBack
  cases ends : (s.workq q).last with
  | none => simp [setPrev, setNext, setFirst, setLast, ends, Function.update_apply]
  | some last =>
    simp [setPrev, setNext, setLast, ends, Function.update_apply, @eq_comm _ last]

theorem pushFrontFields (s : Workqs α κ) (q : κ) (chunk : α) :
    (∀ e, (s.pushFront q chunk).workqPrev e =
      if (s.workq q).first = some e then some chunk
      else if e = chunk then none else s.workqPrev e) ∧
    (∀ e, (s.pushFront q chunk).workqNext e =
      if e = chunk then (s.workq q).first else s.workqNext e) ∧
    (s.pushFront q chunk).workq = Function.update s.workq q
      ⟨some chunk, if (s.workq q).first = none then some chunk else (s.workq q).last⟩ := by
  unfold pushFront
  cases starts : (s.workq q).first with
  | none => simp [setPrev, setNext, setFirst, setLast, starts, Function.update_apply]
  | some first =>
    simp [setPrev, setNext, setFirst, starts, Function.update_apply, @eq_comm _ first]

theorem removeFields (apart : s.workqPrev chunk ≠ some chunk) :
    (∀ e, (s.remove q chunk).workqPrev e =
      if s.workqNext chunk = some e then s.workqPrev chunk else s.workqPrev e) ∧
    (∀ e, (s.remove q chunk).workqNext e =
      if s.workqPrev chunk = some e then s.workqNext chunk else s.workqNext e) ∧
    (s.remove q chunk).workq = Function.update s.workq q
      ⟨if s.workqPrev chunk = none then s.workqNext chunk else (s.workq q).first,
        if s.workqNext chunk = none then s.workqPrev chunk else (s.workq q).last⟩ := by
  unfold remove
  cases back : s.workqPrev chunk with
  | none =>
    cases on : s.workqNext chunk with
    | none => simp [setFirst, setLast, back, on]
    | some y => simp [setPrev, setFirst, back, on, Function.update_apply, @eq_comm _ y]
  | some x =>
    have other : chunk ≠ x := fun same => apart (by rw [back, same])
    cases on : s.workqNext chunk with
    | none => simp [setNext, setLast, back, on, other, Function.update_apply, @eq_comm _ x]
    | some y =>
      simp [setPrev, setNext, back, on, other, Function.update_apply, @eq_comm _ x, @eq_comm _ y]

theorem popFields (s : Workqs α κ) (q : κ) (starts : (s.workq q).first = some chunk) :
    (s.pop q).2 = some chunk ∧
    (∀ e, (s.pop q).1.workqPrev e =
      if s.workqNext chunk = some e then none else s.workqPrev e) ∧
    (s.pop q).1.workqNext = s.workqNext ∧
    (s.pop q).1.workq = Function.update s.workq q
      ⟨s.workqNext chunk,
        if s.workqNext chunk = none then none else (s.workq q).last⟩ := by
  unfold pop
  cases on : s.workqNext chunk with
  | none => simp [setFirst, setLast, starts, on]
  | some y => simp [setPrev, setFirst, starts, on, Function.update_apply, @eq_comm _ y]

theorem Holds.pushBack (holds : s.Holds d) (free : ∀ q, chunk ∉ d q) :
    (s.pushBack q chunk).Holds (Function.update d q (d q ++ [chunk])) := by
  obtain ⟨back, on, queues⟩ := s.pushBackFields q chunk
  have old : Represents s.workqPrev s.workqNext (s.workq q).first (s.workq q).last (d q ++ []) := by
    simpa using holds.represents q
  have ends := (holds.represents q).last
  refine holds.edited (q := q) (old.insert ?_ ?_ ?_ ?_ ?_ ?_ ?_) ?_ ?_ ?_
  · simpa using free q
  · rw [back, if_pos rfl, ends]
  · rw [on, if_neg, if_pos rfl]
    · rfl
    · rw [ends]
      exact fun last => free q (List.mem_of_getLast? last)
  · intro x member
    have other : x ≠ chunk := fun same => free q (by simpa [same] using member)
    rw [on, if_neg other, ends]
  · intro x member
    have other : x ≠ chunk := fun same => free q (by simpa [same] using member)
    rw [back, if_neg other]
    rfl
  · rw [queues, Function.update_self, ends]
    simp [List.getLast?_eq_none_iff]
  · rw [queues, Function.update_self, if_pos rfl]
  · intro e member apart q'
    obtain rfl : e = chunk := by simpa [apart] using member
    exact free q'
  · intro q' other
    rw [queues, Function.update_of_ne other]
  · intro e apart fresh
    have other : e ≠ chunk := fun same => fresh (by simp [same])
    rw [back, on, if_neg other, if_neg other, if_neg]
    · exact ⟨rfl, rfl⟩
    · rw [ends]
      exact fun last => apart (List.mem_of_getLast? last)

theorem Holds.pushFront (holds : s.Holds d) (free : ∀ q, chunk ∉ d q) :
    (s.pushFront q chunk).Holds (Function.update d q (chunk :: d q)) := by
  obtain ⟨back, on, queues⟩ := s.pushFrontFields q chunk
  have old : Represents s.workqPrev s.workqNext (s.workq q).first (s.workq q).last ([] ++ d q) :=
    holds.represents q
  have starts := (holds.represents q).first
  refine holds.edited (q := q) (old.insert ?_ ?_ ?_ ?_ ?_ ?_ ?_) ?_ ?_ ?_
  · exact free q
  · rw [back, if_neg, if_pos rfl]
    · rfl
    · rw [starts]
      exact fun first => free q (List.mem_of_mem_head? first)
  · rw [on, if_pos rfl, starts]
  · intro x member
    have other : x ≠ chunk := fun same => free q (same ▸ member)
    rw [on, if_neg other]
    rfl
  · intro x member
    have other : x ≠ chunk := fun same => free q (same ▸ member)
    rw [back, if_neg other, starts]
  · rw [queues, Function.update_self, if_pos rfl]
  · rw [queues, Function.update_self, starts]
    simp [List.head?_eq_none_iff]
  · intro e member apart q'
    obtain rfl : e = chunk := by simpa [apart] using member
    exact free q'
  · intro q' other
    rw [queues, Function.update_of_ne other]
  · intro e apart fresh
    have other : e ≠ chunk := fun same => fresh (by simp [same])
    rw [back, on, if_neg other, if_neg other, if_neg]
    · exact ⟨rfl, rfl⟩
    · rw [starts]
      exact fun first => apart (List.mem_of_mem_head? first)

theorem Holds.remove (holds : s.Holds d) (member : chunk ∈ d q) :
    (s.remove q chunk).Holds (Function.update d q ((d q).erase chunk)) := by
  obtain ⟨xs, ys, shape⟩ := List.append_of_mem member
  obtain ⟨before, after, left⟩ := holds.neighbours shape
  have apart : s.workqPrev chunk ≠ some chunk := by
    rw [before]
    exact fun last => left (List.mem_append_left _ (List.mem_of_getLast? last))
  obtain ⟨back, on, queues⟩ := removeFields (q := q) apart
  have erased : (d q).erase chunk = xs ++ ys := by
    rw [shape, List.erase_append_right _ fun old => left (List.mem_append_left _ old),
      List.erase_cons_head]
  have own := holds.represents q
  rw [shape] at own
  rw [erased]
  refine holds.edited (own.remove ?_ ?_ ?_ ?_) ?_ ?_ ?_
  · exact fun x _ => by rw [on, before, after]
  · exact fun x _ => by rw [back, before, after]
  · rw [queues, Function.update_self, before, after]
    simp [List.getLast?_eq_none_iff]
  · rw [queues, Function.update_self, before, after]
    simp [List.head?_eq_none_iff]
  · intro e inRest gone
    exact absurd (by rw [← erased] at inRest; exact List.mem_of_mem_erase inRest) gone
  · intro q' other
    rw [queues, Function.update_of_ne other]
  · intro e gone _
    rw [back, on, if_neg, if_neg]
    · exact ⟨rfl, rfl⟩
    · rw [before]
      exact fun last => gone (by rw [shape]; exact List.mem_append_left _ (List.mem_of_getLast? last))
    · rw [after]
      exact fun first => gone (by
        rw [shape]
        exact List.mem_append_right _ (List.mem_cons_of_mem _ (List.mem_of_mem_head? first)))

theorem Holds.pop (holds : s.Holds d) :
    (s.pop q).2 = (d q).head? ∧ (s.pop q).1.Holds (Function.update d q (d q).tail) := by
  have own := holds.represents q
  cases shape : d q with
  | nil =>
    have starts : (s.workq q).first = none := by rw [own.first, shape]; rfl
    have same : Function.update d q [] = d := by rw [← shape, Function.update_eq_self]
    have idle : s.pop q = (s, none) := by rw [Workqs.pop, starts]
    rw [List.tail_nil, same, idle]
    exact ⟨rfl, holds⟩
  | cons chunk rest =>
    have starts : (s.workq q).first = some chunk := by rw [own.first, shape]; rfl
    have front : d q = [] ++ chunk :: rest := shape
    obtain ⟨_, after, _⟩ := holds.neighbours front
    obtain ⟨result, back, on, queues⟩ := popFields s q starts
    refine ⟨result, ?_⟩
    rw [front] at own
    refine holds.edited (own.remove ?_ ?_ ?_ ?_) ?_ ?_ ?_
    · exact fun x _ => by rw [on]; rfl
    · exact fun x _ => by rw [back, after]; rfl
    · rw [queues, Function.update_self, after, if_pos rfl]
    · rw [queues, Function.update_self, after]
      simp [List.head?_eq_none_iff]
    · exact fun e inRest gone => absurd (by rw [shape]; exact List.mem_cons_of_mem _ inRest) gone
    · intro q' other
      rw [queues, Function.update_of_ne other]
    · intro e gone _
      rw [back, on, if_neg]
      · exact ⟨rfl, rfl⟩
      · rw [after]
        exact fun first => gone (by
          rw [shape]; exact List.mem_cons_of_mem _ (List.mem_of_mem_head? first))

theorem Holds.perform {call : WorkqCall α κ} (holds : s.Holds d) (permits : d.Permits call) :
    (call.perform s).2 = call.returned (d call.queue) ∧
      (call.perform s).1.Holds (d.perform call) := by
  cases call with
  | clear q => exact ⟨rfl, holds.clear⟩
  | pushBack q chunk => exact ⟨rfl, holds.pushBack permits⟩
  | pushFront q chunk => exact ⟨rfl, holds.pushFront permits⟩
  | remove q chunk => exact ⟨rfl, holds.remove permits⟩
  | pop q => exact holds.pop

def Step (b : Workqs α κ × Deques α κ) (label : WorkqCall α κ × Option α)
    (b' : Workqs α κ × Deques α κ) : Prop :=
  label.1.perform b.1 = (b'.1, label.2) ∧ b'.2 = b.2.perform label.1

def Disciplined (b : Workqs α κ × Deques α κ) (label : WorkqCall α κ × Option α) : Prop :=
  b.2.Permits label.1

theorem Holds.step {b b' : Workqs α κ × Deques α κ} {label : WorkqCall α κ × Option α}
    (holds : b.1.Holds b.2) (permits : Disciplined b label) (taken : Step b label b') :
    label.2 = label.1.returned (b.2 label.1.queue) ∧ b'.1.Holds b'.2 := by
  obtain ⟨performed, edited⟩ := taken
  obtain ⟨result, kept⟩ := holds.perform permits
  rw [performed] at result kept
  rw [edited]
  exact ⟨result, kept⟩

theorem runHolds {s₀ : Workqs α κ} {trace b} (initial : ∀ q, s₀.workq q = .init)
    (run : Run Step (s₀, fun _ => []) trace b) (obeys : Obeys Disciplined trace) : b.1.Holds b.2 :=
  Run.invariant (I := fun b => b.1.Holds b.2) (initialHolds initial)
    (fun _ _ _ holds permits taken => (holds.step permits taken).2) run obeys

/- In every run the queues are the lists, and a call concerns only its own. -/
theorem workqDeque {s₀ : Workqs α κ} {trace b} (initial : ∀ q, s₀.workq q = .init)
    (run : Run Step (s₀, fun _ => []) trace b) (obeys : Obeys Disciplined trace) :
    (∀ q, b.1.Enumerates q (b.2 q)) ∧ ∀ e ∈ trace,
      (∀ q, e.before.1.Enumerates q (e.before.2 q)) ∧
      (∀ q, e.after.1.Enumerates q (e.after.2 q)) ∧
      e.label.2 = e.label.1.returned (e.before.2 e.label.1.queue) ∧
      ∀ q l, q ≠ e.label.1.queue → (e.after.1.Enumerates q l ↔ e.before.1.Enumerates q l) := by
  refine ⟨(runHolds initial run obeys).enumerates, fun e member => ?_⟩
  obtain ⟨earlier, later, shape, reached, taken⟩ := run.reaches member
  rw [shape] at obeys
  have holds := runHolds initial reached obeys.earlier
  obtain ⟨result, kept⟩ := holds.step (obeys e (by simp)) taken
  refine ⟨holds.enumerates, kept.enumerates, result, fun q l other => ?_⟩
  have same : e.after.2 q = e.before.2 q := by
    rw [taken.2]
    exact Function.update_of_ne other ..
  constructor
  · intro found
    rw [found.unique (kept.enumerates q), same]
    exact holds.enumerates q
  · intro found
    rw [found.unique (holds.enumerates q), ← same]
    exact kept.enumerates q

def events (b : Workqs α κ × Deques α κ) :
    List (WorkqCall α κ) → List (Event (Workqs α κ × Deques α κ) (WorkqCall α κ × Option α))
  | [] => []
  | call :: rest =>
    let (s', result) := call.perform b.1
    ⟨b, (call, result), (s', b.2.perform call)⟩ :: events (s', b.2.perform call) rest

def performAll (b : Workqs α κ × Deques α κ) (calls : List (WorkqCall α κ)) :
    Workqs α κ × Deques α κ :=
  calls.foldl (fun b call => ((call.perform b.1).1, b.2.perform call)) b

theorem eventsRun (b : Workqs α κ × Deques α κ) (calls : List (WorkqCall α κ)) :
    Run Step b (events b calls) (performAll b calls) := by
  induction calls generalizing b with
  | nil => exact .start
  | cons call rest ih => exact Run.through .start ⟨rfl, rfl⟩ (ih _)

/- Two queues take chunks over from each other; the links start out anyhow. -/
def sharedCalls : List (WorkqCall Nat Bool) :=
  [.pushBack true 1, .pushBack true 2, .pushFront true 3, .pop true, .pushBack false 3,
    .remove true 2, .pushFront false 2, .clear true, .pushFront false 1]

def staleWorkqs : Workqs Nat Bool := ⟨fun e => some (e + 1), fun e => some e, fun _ => .init⟩

theorem sharedQueues : (performAll (staleWorkqs, fun _ => []) sharedCalls).1.Enumerates false [1, 2, 3] :=
  (workqDeque (fun _ => rfl : ∀ q, staleWorkqs.workq q = .init) (eventsRun _ sharedCalls)
    (by simp [Obeys, Disciplined, sharedCalls, events, Deques.Permits, Deques.perform,
      WorkqCall.edit, WorkqCall.queue])).1 false

end Workqs
end
end Libsqfs
