import Libsqfs.Bytes

/-! A byte stream cut into blocks of one capacity, each block kept in a frame
whose size differs from block to block. A position is the start of a frame and
an offset in its content; reading continues into the frames that follow. In a
`Cut` every block but the last is full and none is empty. Reading takes one unit
of fuel a frame: `n` bytes never need more than `n` frames. -/
namespace Libsqfs.FramedStream

structure Framing (β : Type) where
  frame : β → Bytes
  content : β → Bytes

section
variable {β : Type} (F : Framing β)

def encoded (blocks : List β) : Bytes := blocks.flatMap F.frame

def contents (blocks : List β) : Bytes := blocks.flatMap F.content

def start (blocks : List β) (n : Nat) : Nat := (encoded F (blocks.take n)).length

@[simp] theorem encodedNil : encoded F [] = [] := rfl
@[simp] theorem contentsNil : contents F [] = [] := rfl

@[simp] theorem encodedCons (b : β) (rest : List β) :
    encoded F (b :: rest) = F.frame b ++ encoded F rest := rfl

@[simp] theorem contentsCons (b : β) (rest : List β) :
    contents F (b :: rest) = F.content b ++ contents F rest := rfl

@[simp] theorem encodedAppend (xs ys : List β) :
    encoded F (xs ++ ys) = encoded F xs ++ encoded F ys := by simp [encoded]

@[simp] theorem contentsAppend (xs ys : List β) :
    contents F (xs ++ ys) = contents F xs ++ contents F ys := by simp [contents]

theorem encodedDropStart (blocks : List β) (n : Nat) :
    (encoded F blocks).drop (start F blocks n) = encoded F (blocks.drop n) := by
  conv_lhs => rw [← List.take_append_drop n blocks, encodedAppend]
  simp only [List.take_append_drop, start, List.drop_left]

theorem startAppend (blocks more : List β) {n : Nat} (inside : n ≤ blocks.length) :
    start F (blocks ++ more) n = start F blocks n := by
  simp only [start, List.take_append_of_le_length inside]

theorem startSucc (blocks : List β) (n : Nat) {b : β} (found : blocks[n]? = some b) :
    start F blocks (n + 1) = start F blocks n + (F.frame b).length := by
  obtain ⟨inside, same⟩ := List.getElem?_eq_some_iff.mp found
  subst same
  simp only [start, List.take_add_one, List.getElem?_eq_getElem inside, Option.toList_some,
    encodedAppend, encodedCons, encodedNil, List.append_nil, List.length_append]

theorem startMono (blocks : List β) {m n : Nat} (le : m ≤ n) :
    start F blocks m ≤ start F blocks n := by
  obtain ⟨d, rfl⟩ := Nat.exists_eq_add_of_le le
  simp only [start, List.take_add, encodedAppend, List.length_append]
  omega

theorem startLength (blocks : List β) :
    start F blocks blocks.length = (encoded F blocks).length := by
  simp [start]

theorem startInjective {blocks : List β} (nonempty : ∀ b ∈ blocks, F.frame b ≠ []) {m n : Nat}
    (left : m ≤ blocks.length) (right : n ≤ blocks.length) (same : start F blocks m = start F blocks n) : m = n := by
  have before {m n : Nat} (below : m < n) (inside : n ≤ blocks.length) : start F blocks m < start F blocks n := by
    have found := List.getElem?_eq_getElem (Nat.lt_of_lt_of_le below inside)
    have next := startSucc F blocks m found
    have positive := List.length_pos_of_ne_nil (nonempty _ (List.mem_of_getElem? found))
    have later := startMono F blocks (show m + 1 ≤ n from below)
    omega
  rcases Nat.lt_trichotomy m n with less | equal | greater
  · exact absurd same (Nat.ne_of_lt (before less right))
  · exact equal
  · exact absurd same.symm (Nat.ne_of_lt (before greater left))

structure Cut (capacity : Nat) (blocks : List β) : Prop where
  full : ∀ b ∈ blocks.dropLast, (F.content b).length = capacity
  bounded : ∀ b ∈ blocks, 0 < (F.content b).length ∧ (F.content b).length ≤ capacity

namespace Cut
variable {F} {capacity : Nat}

theorem tail {b : β} {rest : List β} (cut : Cut F capacity (b :: rest)) : Cut F capacity rest := by
  refine ⟨fun x member => ?_, fun x member => cut.bounded x (List.mem_cons_of_mem _ member)⟩
  cases rest with
  | nil => simp at member
  | cons c rest => exact cut.full x (by simp [member])

theorem drop {blocks : List β} (cut : Cut F capacity blocks) (n : Nat) :
    Cut F capacity (blocks.drop n) := by
  induction n generalizing blocks with
  | zero => simpa using cut
  | succ n ih =>
    cases blocks with
    | nil => simpa using cut
    | cons b rest => simpa using ih cut.tail

theorem ofFull {blocks : List β} {last : β} (positive : 0 < capacity)
    (full : ∀ b ∈ blocks, (F.content b).length = capacity)
    (fill : 0 < (F.content last).length ∧ (F.content last).length ≤ capacity) :
    Cut F capacity (blocks ++ [last]) := by
  refine ⟨fun b member => full b (by simpa using member), fun b member => ?_⟩
  rcases List.mem_append.mp member with old | new
  · exact ⟨by rw [full b old]; exact positive, (full b old).le⟩
  · rw [List.mem_singleton.mp new]
    exact fill

theorem ofAllFull {blocks : List β} (positive : 0 < capacity)
    (full : ∀ b ∈ blocks, (F.content b).length = capacity) : Cut F capacity blocks :=
  ⟨fun b member => full b (List.dropLast_subset _ member),
    fun b member => ⟨by rw [full b member]; exact positive, (full b member).le⟩⟩

theorem contentsDrop {blocks : List β} (cut : Cut F capacity blocks) (n : Nat) :
    contents F (blocks.drop n) = (contents F blocks).drop (n * capacity) := by
  induction n generalizing blocks with
  | zero => simp
  | succ n ih =>
    cases blocks with
    | nil => simp
    | cons b rest =>
      have inside := (cut.bounded b (by simp)).2
      have size : (n + 1) * capacity = capacity + n * capacity := by ring
      cases rest with
      | nil =>
        simp only [List.drop_succ_cons, List.drop_nil, contentsNil, contentsCons, List.append_nil]
        rw [List.drop_eq_nil_of_le (by omega)]
      | cons c rest =>
        have whole : (F.content b).length = capacity := cut.full b (by simp)
        rw [List.drop_succ_cons, ih cut.tail, contentsCons F b, size, ← List.drop_drop]
        congr 1
        rw [← whole, List.drop_left]

theorem contentsLe {blocks : List β} (cut : Cut F capacity blocks) :
    (contents F blocks).length ≤ blocks.length * capacity := by
  have h := congrArg List.length (cut.contentsDrop blocks.length)
  simp only [List.drop_length, contentsNil, List.length_nil, List.length_drop] at h
  omega

theorem count {blocks : List β} (cut : Cut F capacity blocks) :
    blocks.length = ((contents F blocks).length + capacity - 1) / capacity := by
  induction blocks with
  | nil =>
    by_cases zero : capacity = 0
    · simp [zero]
    · exact (Nat.div_eq_of_lt (by simp; omega)).symm
  | cons b rest ih =>
    have fill := cut.bounded b (by simp)
    have positive : 0 < capacity := by omega
    cases rest with
    | nil =>
      simp only [contentsCons, contentsNil, List.append_nil, List.length_cons, List.length_nil]
      refine (Nat.div_eq_of_lt_le ?_ ?_).symm <;> omega
    | cons c rest =>
      have whole : (F.content b).length = capacity := cut.full b (by simp)
      rw [List.length_cons, ih cut.tail, contentsCons F b, List.length_append, whole]
      rw [show capacity + (contents F (c :: rest)).length + capacity - 1 =
        ((contents F (c :: rest)).length + capacity - 1) + capacity by omega,
        Nat.add_div_right _ positive]

end Cut
end

def readFrom (parse : Bytes → Option (Bytes × Bytes)) : Nat → Bytes → Nat → Nat → Option Bytes
  | _, _, _, 0 => some []
  | 0, _, _, _ + 1 => none
  | fuel + 1, raw, offset, n + 1 =>
    match parse raw with
    | none => none
    | some (content, rest) =>
      let here := Bytes.slice content offset (n + 1)
      (readFrom parse fuel rest 0 (n + 1 - here.length)).map (here ++ ·)

def readAt (parse : Bytes → Option (Bytes × Bytes)) (raw : Bytes) (block offset n : Nat) :
    Option Bytes :=
  readFrom parse n (raw.drop block) offset n

def parseAll (parse : Bytes → Option (Bytes × Bytes)) : Nat → Bytes → Option (List Bytes)
  | _, [] => some []
  | 0, _ :: _ => none
  | fuel + 1, b :: raw => do
    let (content, rest) ← parse (b :: raw)
    let tail ← parseAll parse fuel rest
    some (content :: tail)

section
variable {β : Type} {F : Framing β} {parse : Bytes → Option (Bytes × Bytes)} {capacity : Nat}

theorem readFromHead {fuel : Nat} {blocks : List β} {offset n : Nat}
    (parsed : ∀ b ∈ blocks, ∀ rest, parse (F.frame b ++ rest) = some (F.content b, rest))
    (nonempty : ∀ b ∈ blocks, 0 < (F.content b).length)
    (here : ∀ b, blocks.head? = some b → offset < (F.content b).length)
    (inside : offset + n ≤ (contents F blocks).length) (enough : n ≤ fuel) :
    readFrom parse fuel (encoded F blocks) offset n =
      some (Bytes.slice (contents F blocks) offset n) := by
  induction blocks generalizing fuel offset n with
  | nil =>
    have none : n = 0 := by simp at inside; omega
    subst none
    simp [readFrom, Bytes.slice]
  | cons b rest ih =>
    cases n with
    | zero => cases fuel <;> simp [readFrom, Bytes.slice]
    | succ n =>
      obtain ⟨fuel, rfl⟩ : ∃ k, fuel = k + 1 := ⟨fuel - 1, by omega⟩
      have start := here b rfl
      simp only [encodedCons, readFrom, parsed b (by simp) (encoded F rest)]
      -- the slice of the first content is not empty, so the fuel goes down with what is left
      have taken : (Bytes.slice (F.content b) offset (n + 1)).length =
          min (n + 1) ((F.content b).length - offset) := by
        simp [Bytes.slice]
      simp only [contentsCons, List.length_append] at inside
      have step : readFrom parse fuel (encoded F rest) 0
          (n + 1 - (Bytes.slice (F.content b) offset (n + 1)).length) =
          some (Bytes.slice (contents F rest) 0
            (n + 1 - (Bytes.slice (F.content b) offset (n + 1)).length)) := by
        apply ih (fun c member => parsed c (List.mem_cons_of_mem _ member))
          (fun c member => nonempty c (List.mem_cons_of_mem _ member))
        · intro c head
          exact nonempty c (List.mem_cons_of_mem _ (List.mem_of_mem_head? head))
        · rw [taken]; omega
        · rw [taken]; omega
      rw [step, Option.map_some]
      congr 1
      simp only [Bytes.slice, contentsCons, List.drop_zero, List.length_take, List.length_drop]
      rw [List.drop_append_of_le_length (by omega), List.take_append]
      simp only [List.length_drop]
      congr 2
      omega

/-- A position in the stream is read back from the frame that covers it. -/
theorem readAtStream {blocks : List β} {k n : Nat} (positive : 0 < capacity)
    (parsed : ∀ b ∈ blocks, ∀ rest, parse (F.frame b ++ rest) = some (F.content b, rest))
    (cut : Cut F capacity blocks) (inside : k + n ≤ (contents F blocks).length) :
    readAt parse (encoded F blocks) (start F blocks (k / capacity)) (k % capacity) n =
      some (Bytes.slice (contents F blocks) k n) := by
  have split : k / capacity * capacity + k % capacity = k := by
    rw [Nat.mul_comm]; exact Nat.div_add_mod k capacity
  cases n with
  | zero => simp [readAt, readFrom, Bytes.slice]
  | succ n =>
    unfold readAt
    rw [encodedDropStart]
    have rest := cut.contentsDrop (k / capacity)
    have size : (contents F (blocks.drop (k / capacity))).length =
        (contents F blocks).length - k / capacity * capacity := by rw [rest, List.length_drop]
    rw [readFromHead (fun b member => parsed b (List.mem_of_mem_drop member))
      (fun b member => (cut.bounded b (List.mem_of_mem_drop member)).1) ?_ (by omega) (Nat.le_refl _)]
    · rw [rest, Bytes.slice, List.drop_drop, split, Bytes.slice]
    · intro b head
      -- either another block follows, and this one is full, or it holds all that is left
      have below := Nat.mod_lt k positive
      obtain ⟨tail, shape⟩ : ∃ tail, blocks.drop (k / capacity) = b :: tail := by
        cases h : blocks.drop (k / capacity) with
        | nil => rw [h] at head; simp at head
        | cons c tail => rw [h] at head; exact ⟨tail, by simpa using head⟩
      cases tail with
      | nil =>
        rw [shape] at size
        simp only [contentsCons, contentsNil, List.append_nil] at size
        omega
      | cons c tail =>
        have whole := (cut.drop (k / capacity)).full b (by simp [shape])
        omega

theorem parseAllEncoded {fuel : Nat} {blocks : List β}
    (parsed : ∀ b ∈ blocks, ∀ rest, parse (F.frame b ++ rest) = some (F.content b, rest))
    (framed : ∀ b ∈ blocks, F.frame b ≠ []) (enough : blocks.length ≤ fuel) :
    parseAll parse fuel (encoded F blocks) = some (blocks.map F.content) := by
  induction blocks generalizing fuel with
  | nil => cases fuel <;> rfl
  | cons b rest ih =>
    obtain ⟨fuel, rfl⟩ : ∃ k, fuel = k + 1 := ⟨fuel - 1, by simp at enough; omega⟩
    obtain ⟨x, xs, shape⟩ := List.exists_cons_of_ne_nil (framed b (by simp))
    have head := parsed b (by simp) (encoded F rest)
    have tail := ih (fun c member => parsed c (List.mem_cons_of_mem _ member))
      (fun c member => framed c (List.mem_cons_of_mem _ member)) (by simpa using enough)
    rw [shape] at head
    rw [encodedCons, shape]
    simp only [List.cons_append] at head ⊢
    simp only [parseAll, head, tail, bind, Option.bind_some, List.map_cons]

end
end Libsqfs.FramedStream
