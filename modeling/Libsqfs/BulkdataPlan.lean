import Libsqfs.Bulkdata

/-! What the bulk data pipeline is for: the chunks handled one after the other,
in the order they were submitted. Pieces are packed next-fit, a full block is
written at its own place, a fragment block at the place of the piece that did
not fit in, or of the closing piece. -/
namespace Libsqfs

/- The block size and how the content of the block is stored that is written at a
place of the order. -/
structure Rule where
  blockSize : Nat
  block : Nat → Bytes → Bytes × Bool
  fragment : Nat → Bytes → Bytes × Bool

def stored (compressing : Bool) (compress : Bytes → Option Bytes) (src : Bytes) : Bytes × Bool :=
  match if compressing then compress src else none with
  | some z => (z, true)
  | none => (src, false)

structure Extent where
  offset : Nat
  size : Nat
  compressed : Bool
  deriving DecidableEq, Repr

inductive Place where
  | block (extent : Extent)
  | piece (fragment offset : Nat)
  | closing
  deriving DecidableEq, Repr

structure Item where
  kind : ChunkKind
  data : DataPiece
  deriving DecidableEq, Repr

/- `current` is the content of the fragment block that is not yet written,
`contents` are those of the fragment blocks that are. -/
structure Plan where
  size : Nat
  written : List Medium.Write
  places : List Place
  fragments : List Extent
  contents : List Bytes
  current : Option Bytes
  deriving DecidableEq, Repr

namespace Plan

def init (size : Nat) : Plan := ⟨size, [], [], [], [], none⟩

def extent (p : Plan) (z : Bytes × Bool) : Extent := ⟨p.size, z.1.length, z.2⟩

def write (p : Plan) (z : Bytes × Bool) : Plan :=
  {p with size := p.size + z.1.length, written := p.written ++ [(p.size, z.1)]}

def flush (r : Rule) (p : Plan) : Plan :=
  match p.current with
  | none => p
  | some content =>
    {p.write (r.fragment p.places.length content) with
      fragments := p.fragments ++ [p.extent (r.fragment p.places.length content)]
      contents := p.contents ++ [content]
      current := none}

def Flushes (r : Rule) (p : Plan) (i : Item) : Prop :=
  match i.kind, p.current with
  | .fragmentPiece, some content => r.blockSize < content.length + i.data.size
  | .closingPiece, some _ => True
  | _, _ => False

instance (r : Rule) (p : Plan) (i : Item) : Decidable (p.Flushes r i) := by
  unfold Flushes; split <;> infer_instance

def flushFor (r : Rule) (p : Plan) (i : Item) : Plan := if p.Flushes r i then p.flush r else p

/- Where a piece goes: the number of its fragment block, and its offset there. -/
def room (p : Plan) : Nat × Nat := (p.contents.length, (p.current.getD []).length)

def add (p : Plan) (bytes : Bytes) : Plan :=
  {p with
    places := p.places ++ [.piece p.room.1 p.room.2]
    current := some (p.current.getD [] ++ bytes)}

def step (r : Rule) (p : Plan) (i : Item) : Plan :=
  match i.kind with
  | .fullBlock =>
    {p.write (r.block p.places.length i.data.pread) with
      places := p.places ++ [.block (p.extent (r.block p.places.length i.data.pread))]}
  | .fragmentPiece => (p.flushFor r i).add i.data.pread
  | .closingPiece => {p.flushFor r i with places := (p.flushFor r i).places ++ [.closing]}

def sequential (r : Rule) (size : Nat) (items : List Item) : Plan := items.foldl (step r) (init size)

def output (r : Rule) (p : Plan) (i : Item) : Option (Bytes × Bool) :=
  if i.kind = .fullBlock then some (r.block p.places.length i.data.pread)
  else if p.Flushes r i then p.current.map (r.fragment p.places.length)
  else none

section
variable {r : Rule} {p : Plan} {i : Item}

theorem flushesFull (full : i.kind = .fullBlock) : ¬ p.Flushes r i := by
  unfold Flushes
  rw [full]
  simp

theorem flushesCurrent (flushes : p.Flushes r i) : ∃ content, p.current = some content := by
  unfold Flushes at flushes
  split at flushes
  · exact ⟨_, by assumption⟩
  · exact ⟨_, by assumption⟩
  · exact flushes.elim

theorem outputFull (full : i.kind = .fullBlock) : p.output r i = some (r.block p.places.length i.data.pread) := if_pos full

theorem outputFlush {content : Bytes} (flushes : p.Flushes r i) (current : p.current = some content) :
    p.output r i = some (r.fragment p.places.length content) := by
  unfold output
  rw [if_neg fun full => flushesFull full flushes, if_pos flushes, current]
  rfl

theorem outputNone (piece : i.kind ≠ .fullBlock) (fits : ¬ p.Flushes r i) : p.output r i = none := by
  unfold output
  rw [if_neg piece, if_neg fits]

theorem flushForFlushes {content : Bytes} (flushes : p.Flushes r i)
    (current : p.current = some content) : p.flushFor r i = {p.write (r.fragment p.places.length content) with
      fragments := p.fragments ++ [p.extent (r.fragment p.places.length content)]
      contents := p.contents ++ [content]
      current := none} := by
  unfold flushFor flush
  rw [if_pos flushes, current]

theorem flushForFits (fits : ¬ p.Flushes r i) : p.flushFor r i = p := if_neg fits

theorem flushForWritten (piece : i.kind ≠ .fullBlock) :
    (p.flushFor r i).size = p.size + ((p.output r i).map fun z => z.1.length).getD 0 ∧
    (p.flushFor r i).written = p.written ++ ((p.output r i).map fun z => (p.size, z.1)).toList := by
  by_cases flushes : p.Flushes r i
  · obtain ⟨content, current⟩ := flushesCurrent flushes
    rw [flushForFlushes flushes current, outputFlush flushes current]
    exact ⟨rfl, rfl⟩
  · rw [flushForFits flushes, outputNone piece flushes]
    simp

theorem stepWritten (r : Rule) (p : Plan) (i : Item) :
    (p.step r i).size = p.size + ((p.output r i).map fun z => z.1.length).getD 0 ∧
    (p.step r i).written = p.written ++ ((p.output r i).map fun z => (p.size, z.1)).toList := by
  cases kind : i.kind with
  | fullBlock =>
    unfold step output
    rw [kind]
    exact ⟨rfl, rfl⟩
  | fragmentPiece =>
    have piece : i.kind ≠ .fullBlock := by rw [kind]; simp
    unfold step
    rw [kind]
    exact flushForWritten piece
  | closingPiece =>
    have piece : i.kind ≠ .fullBlock := by rw [kind]; simp
    unfold step
    rw [kind]
    exact flushForWritten piece

/- The pieces do not see the full blocks between them. -/
theorem stepFull (full : i.kind = .fullBlock) :
    (p.step r i).contents = p.contents ∧ (p.step r i).current = p.current ∧
      (p.step r i).fragments = p.fragments := by
  unfold step
  rw [full]
  exact ⟨rfl, rfl, rfl⟩

theorem stepPiece (piece : i.kind = .fragmentPiece) : p.step r i = (p.flushFor r i).add i.data.pread := by
  unfold step
  rw [piece]

theorem stepClosing (closing : i.kind = .closingPiece) :
    (p.step r i).contents = (p.flushFor r i).contents ∧ (p.step r i).current = none ∧
      (p.step r i).fragments = (p.flushFor r i).fragments := by
  unfold step
  rw [closing]
  refine ⟨rfl, ?_, rfl⟩
  by_cases flushes : p.Flushes r i
  · obtain ⟨content, current⟩ := flushesCurrent flushes
    simp only [flushForFlushes flushes current]
  · simp only [flushForFits flushes]
    unfold Flushes at flushes
    rw [closing] at flushes
    cases current : p.current with
    | none => rfl
    | some content => rw [current] at flushes; simp at flushes

theorem stepContents (r : Rule) (p : Plan) (i : Item) :
    (p.step r i).contents = (p.flushFor r i).contents ∧
      (p.step r i).fragments = (p.flushFor r i).fragments := by
  cases kind : i.kind with
  | fullBlock =>
    rw [flushForFits (flushesFull kind)]
    exact ⟨(stepFull kind).1, (stepFull kind).2.2⟩
  | fragmentPiece => rw [stepPiece kind]; exact ⟨rfl, rfl⟩
  | closingPiece => exact ⟨(stepClosing kind).1, (stepClosing kind).2.2⟩

theorem flushForContents (r : Rule) (p : Plan) (i : Item) :
    (p.flushFor r i).contents = p.contents ++ (if p.Flushes r i then p.current.toList else []) ∧
    (p.flushFor r i).fragments = p.fragments ++
      (if p.Flushes r i then (p.output r i).toList.map p.extent else []) := by
  by_cases flushes : p.Flushes r i
  · obtain ⟨content, current⟩ := flushesCurrent flushes
    rw [flushForFlushes flushes current, outputFlush flushes current, current]
    simp [flushes]
  · rw [flushForFits flushes]
    simp [flushes]

theorem flushForPlaces (r : Rule) (p : Plan) (i : Item) : (p.flushFor r i).places = p.places := by
  by_cases flushes : p.Flushes r i
  · obtain ⟨content, current⟩ := flushesCurrent flushes
    rw [flushForFlushes flushes current]
    rfl
  · rw [flushForFits flushes]

def place (r : Rule) (p : Plan) (i : Item) : Place :=
  match i.kind with
  | .fullBlock => .block (p.extent (r.block p.places.length i.data.pread))
  | .fragmentPiece => .piece (p.flushFor r i).room.1 (p.flushFor r i).room.2
  | .closingPiece => .closing

theorem stepPlaces (r : Rule) (p : Plan) (i : Item) :
    (p.step r i).places = p.places ++ [p.place r i] := by
  unfold step place
  cases i.kind with
  | fullBlock => rfl
  | fragmentPiece => simp only [add, flushForPlaces]
  | closingPiece => simp only [flushForPlaces]

end

/-! ### The plan of a prefix -/

def upTo (r : Rule) (size : Nat) (item : Nat → Item) : Nat → Plan
  | 0 => init size
  | n + 1 => (upTo r size item n).step r (item n)

section
variable {r : Rule} {size : Nat} {item other : Nat → Item} {m n : Nat}

theorem upToCongr (same : ∀ c, c < n → other c = item c) :
    upTo r size other n = upTo r size item n := by
  induction n with
  | zero => rfl
  | succ n ih =>
    rw [upTo, upTo, ih fun c below => same c (by omega), same n (by omega)]

theorem upToSequential (items : List Item) (shape : items = (List.range n).map item) :
    sequential r size items = upTo r size item n := by
  subst shape
  induction n with
  | zero => rfl
  | succ n ih =>
    rw [sequential, List.range_succ, List.map_append, List.foldl_append]
    exact congrArg (fun p => step r p (item n)) ih

theorem upToClosed {items : List Item} {closing : Item} (listed : items = (List.range n).map item)
    (member : closing ∈ items) (kind : closing.kind = .closingPiece)
    (last : ∀ c, c < n → (item c).kind = .closingPiece → c + 1 = n) : (upTo r size item n).current = none := by
  rw [listed] at member
  obtain ⟨c, inside, rfl⟩ := List.mem_map.mp member
  rw [← last c (List.mem_range.mp inside) kind]
  exact (stepClosing kind).2.1

theorem contentsGrow (le : m ≤ n) :
    ∃ more, (upTo r size item n).contents = (upTo r size item m).contents ++ more := by
  induction n, le using Nat.le_induction with
  | base => exact ⟨[], by simp⟩
  | succ n le ih =>
    obtain ⟨more, grown⟩ := ih
    rw [upTo, (stepContents _ _ _).1, (flushForContents _ _ _).1, grown]
    exact ⟨_, List.append_assoc _ _ _⟩

theorem contentsFlushed {content : Bytes} (flushes : (upTo r size item m).Flushes r (item m))
    (current : (upTo r size item m).current = some content) (lt : m < n) :
    (upTo r size item n).contents[(upTo r size item m).contents.length]? = some content := by
  obtain ⟨more, grown⟩ := @contentsGrow r size item (m + 1) n lt
  have now : (upTo r size item (m + 1)).contents = (upTo r size item m).contents ++ [content] := by
    rw [upTo, (stepContents _ _ _).1, (flushForContents _ _ _).1, if_pos flushes, current]
    rfl
  rw [grown, now]
  simp

theorem flushedOnce {c d : Nat} (first : (upTo r size item c).Flushes r (item c))
    (second : (upTo r size item d).Flushes r (item d))
    (same : (upTo r size item c).contents.length = (upTo r size item d).contents.length) :
    c = d := by
  have grows {a b : Nat} (flushes : (upTo r size item a).Flushes r (item a)) (lt : a < b) :
      (upTo r size item a).contents.length < (upTo r size item b).contents.length := by
    obtain ⟨content, current⟩ := flushesCurrent flushes
    have found := contentsFlushed flushes current lt
    exact (List.getElem?_eq_some_iff.mp found).1
  rcases Nat.lt_trichotomy c d with lt | eq | lt
  · have := grows first lt; omega
  · exact eq
  · have := grows second lt; omega

theorem placesLength (n : Nat) : (upTo r size item n).places.length = n := by
  induction n with
  | zero => rfl
  | succ n ih => rw [upTo, stepPlaces, List.length_append, ih, List.length_singleton]

theorem outputFullAt {c : Nat} (full : (item c).kind = .fullBlock) :
    (upTo r size item c).output r (item c) = some (r.block c (item c).data.pread) := by
  rw [outputFull full, placesLength]

theorem outputFlushAt {c : Nat} {content : Bytes} (flushes : (upTo r size item c).Flushes r (item c))
    (current : (upTo r size item c).current = some content) :
    (upTo r size item c).output r (item c) = some (r.fragment c content) := by
  rw [outputFlush flushes current, placesLength]

theorem placesAt {c : Nat} (lt : c < n) :
    (upTo r size item n).places[c]? = some ((upTo r size item c).place r (item c)) := by
  induction n, lt using Nat.le_induction with
  | base =>
    rw [upTo, stepPlaces, List.getElem?_append_right (by rw [placesLength]), placesLength]
    simp
  | succ n le ih =>
    rw [upTo, stepPlaces, List.getElem?_append_left (by rw [placesLength]; omega)]
    exact ih

theorem fragmentsLength (n : Nat) :
    (upTo r size item n).fragments.length = (upTo r size item n).contents.length := by
  induction n with
  | zero => rfl
  | succ n ih =>
    rw [upTo, (stepContents _ _ _).1, (stepContents _ _ _).2, (flushForContents _ _ _).1,
      (flushForContents _ _ _).2, List.length_append, List.length_append, ih]
    by_cases flushes : (upTo r size item n).Flushes r (item n)
    · obtain ⟨content, current⟩ := flushesCurrent flushes
      rw [if_pos flushes, if_pos flushes, outputFlush flushes current, current]
      rfl
    · rw [if_neg flushes, if_neg flushes]
      rfl

theorem flushedAt {f : Nat} (below : f < (upTo r size item n).contents.length) :
    ∃ c content, c < n ∧ (upTo r size item c).Flushes r (item c) ∧
      (upTo r size item c).contents.length = f ∧ (upTo r size item c).current = some content ∧
      (upTo r size item n).fragments[f]? =
        some ((upTo r size item c).extent (r.fragment c content)) ∧
      (upTo r size item n).contents[f]? = some content := by
  induction n with
  | zero => exact absurd below (Nat.not_lt_zero f)
  | succ n ih =>
    have contents := (stepContents r (upTo r size item n) (item n)).1.trans
      (flushForContents r (upTo r size item n) (item n)).1
    have fragments := (stepContents r (upTo r size item n) (item n)).2.trans
      (flushForContents r (upTo r size item n) (item n)).2
    by_cases old : f < (upTo r size item n).contents.length
    · obtain ⟨c, content, lt, flushes, number, current, fragment, found⟩ := ih old
      refine ⟨c, content, by omega, flushes, number, current, ?_, ?_⟩
      · rw [upTo, fragments, List.getElem?_append_left (by rw [fragmentsLength]; exact old)]
        exact fragment
      · rw [upTo, contents, List.getElem?_append_left old]
        exact found
    · rw [upTo, contents, List.length_append] at below
      by_cases flushes : (upTo r size item n).Flushes r (item n)
      · obtain ⟨content, current⟩ := flushesCurrent flushes
        rw [if_pos flushes, current] at below contents
        rw [if_pos flushes, outputFlush flushes current] at fragments
        have last : (upTo r size item n).contents.length = f := by
          simp only [Option.toList_some, List.length_singleton] at below
          omega
        refine ⟨n, content, by omega, flushes, last, current, ?_, ?_⟩
        · rw [upTo, fragments, List.getElem?_append_right (by rw [fragmentsLength]; omega),
            fragmentsLength, last]
          simp [placesLength]
        · rw [upTo, contents, List.getElem?_append_right (by omega), last]
          simp
      · rw [if_neg flushes] at below
        simp at below
        omega

theorem upToFull (le : m ≤ n) (full : ∀ c, m ≤ c → c < n → (item c).kind = .fullBlock) :
    (upTo r size item n).contents = (upTo r size item m).contents ∧
      (upTo r size item n).current = (upTo r size item m).current := by
  induction n, le using Nat.le_induction with
  | base => exact ⟨rfl, rfl⟩
  | succ n le ih =>
    obtain ⟨contents, current⟩ := ih fun c low high => full c low (by omega)
    have last := full n le (by omega)
    rw [upTo, (stepFull last).1, (stepFull last).2.1]
    exact ⟨contents, current⟩

end

/- Of these pieces no two go into one block. -/
theorem piecesApart {r : Rule} {size : Nat} {x : Item} (piece : x.kind = .fragmentPiece) (whole : x.data.pread.length = x.data.size)
    (apart : r.blockSize < x.data.size + x.data.size) (plain : ∀ c src, r.fragment c src = (src, false)) (n : Nat) :
    (sequential r size (List.replicate (n + 1) x)).size = size + n * x.data.size ∧
      (sequential r size (List.replicate (n + 1) x)).fragments.length = n ∧
      (sequential r size (List.replicate (n + 1) x)).current = some x.data.pread := by
  induction n with
  | zero =>
    have fits : ¬ (init size).Flushes r x := by
      unfold Flushes
      rw [piece]
      exact id
    have step : sequential r size (List.replicate (0 + 1) x) = (init size).step r x := rfl
    rw [step, stepPiece piece, flushForFits fits]
    exact ⟨(by simp [add, init]), rfl, rfl⟩
  | succ n ih =>
    obtain ⟨grown, count, current⟩ := ih
    have step : sequential r size (List.replicate (n + 1 + 1) x) =
        (sequential r size (List.replicate (n + 1) x)).step r x := by
      rw [List.replicate_succ', sequential, List.foldl_append]
      rfl
    have flushes : (sequential r size (List.replicate (n + 1) x)).Flushes r x := by
      unfold Flushes
      rw [piece, current]
      change r.blockSize < x.data.pread.length + x.data.size
      rw [whole]
      exact apart
    rw [step, stepPiece piece, flushForFlushes flushes current, plain]
    refine ⟨?_, ?_, rfl⟩
    · change (sequential r size (List.replicate (n + 1) x)).size + x.data.pread.length = _
      rw [grown, whole, Nat.succ_mul, Nat.add_assoc]
    · change ((sequential r size (List.replicate (n + 1) x)).fragments ++ [_]).length = _
      rw [List.length_append, count, List.length_singleton]

theorem piecesClosed {r : Rule} {size : Nat} {x closing : Item} (piece : x.kind = .fragmentPiece)
    (whole : x.data.pread.length = x.data.size) (apart : r.blockSize < x.data.size + x.data.size)
    (plain : ∀ c src, r.fragment c src = (src, false)) (kind : closing.kind = .closingPiece) {n : Nat} (some : 0 < n) :
    (sequential r size (List.replicate n x ++ [closing])).size = size + n * x.data.size ∧
      (sequential r size (List.replicate n x ++ [closing])).fragments.length = n := by
  obtain ⟨m, rfl⟩ := Nat.exists_eq_add_of_lt some
  rw [Nat.zero_add]
  obtain ⟨grown, count, current⟩ := @piecesApart r size x piece whole apart plain m
  have step : sequential r size (List.replicate (m + 1) x ++ [closing]) =
      (sequential r size (List.replicate (m + 1) x)).step r closing := by
    rw [sequential, List.foldl_append]
    rfl
  have flushes : (sequential r size (List.replicate (m + 1) x)).Flushes r closing := by
    unfold Flushes
    rw [kind, current]
    trivial
  rw [step]
  constructor
  · rw [(stepWritten r _ closing).1, outputFlush flushes current, plain, grown]
    change size + m * x.data.size + x.data.pread.length = _
    rw [whole, Nat.succ_mul, Nat.add_assoc]
  · rw [(stepContents r _ closing).2, (flushForContents r _ closing).2, if_pos flushes, outputFlush flushes current,
      List.length_append, count]
    rfl

end Plan
end Libsqfs
