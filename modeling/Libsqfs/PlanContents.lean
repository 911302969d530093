import Libsqfs.FragmentBlocks

/-! What the plan leaves on the medium: each block at its extent, and each piece in its
fragment block. -/
namespace Libsqfs
namespace Plan

section
variable {r : Rule} {size : Nat} {item : Nat → Item} {m n c f : Nat}

theorem sizesGrow (le : m ≤ n) : (upTo r size item m).size ≤ (upTo r size item n).size := by
  induction n, le using Nat.le_induction with
  | base => exact le_refl _
  | succ n le ih =>
    rw [upTo, (stepWritten _ _ _).1]
    exact Nat.le_add_right_of_le ih

theorem outputRead {z : Bytes × Bool} (output : (upTo r size item c).output r (item c) = some z) (lt : c < n) :
    Medium.read (upTo r size item n).written (upTo r size item c).size z.1.length = z.1 ∧
      (upTo r size item c).size + z.1.length ≤ (upTo r size item n).size := by
  have first : (upTo r size item (c + 1)).size = (upTo r size item c).size + z.1.length ∧
      (upTo r size item (c + 1)).written = (upTo r size item c).written ++ [((upTo r size item c).size, z.1)] := by
    obtain ⟨grown, written⟩ := stepWritten r (upTo r size item c) (item c)
    rw [output] at grown written
    exact ⟨grown, written⟩
  induction n, lt using Nat.le_induction with
  | base => exact ⟨by rw [first.2, Medium.readWritten], first.1.ge⟩
  | succ n le ih =>
    obtain ⟨grown, written⟩ := stepWritten r (upTo r size item n) (item n)
    refine ⟨?_, by rw [upTo, grown]; exact Nat.le_add_right_of_le ih.2⟩
    rw [upTo, written, Medium.readKept, ih.1]
    intro w member i low high covered
    obtain ⟨x, _, rfl⟩ := Option.map_eq_some_iff.mp (Option.mem_toList.mp member)
    have below := ih.2
    have above := covered.1
    dsimp only at above
    omega

theorem pieceKept (piece : (item c).kind = .fragmentPiece) (lt : c < n) : ∃ content before after,
    content = before ++ ((item c).data.pread ++ after) ∧
    before.length = ((upTo r size item c).flushFor r (item c)).room.2 ∧
    ((upTo r size item n).contents[((upTo r size item c).flushFor r (item c)).room.1]? = some content ∨
      (upTo r size item n).contents.length = ((upTo r size item c).flushFor r (item c)).room.1 ∧
        (upTo r size item n).current = some content) := by
  induction n, lt using Nat.le_induction with
  | base =>
    refine ⟨_, ((upTo r size item c).flushFor r (item c)).current.getD [], [], rfl, rfl, .inr ?_⟩
    rw [upTo, stepPiece piece, List.append_nil]
    exact ⟨rfl, rfl⟩
  | succ n le ih =>
    obtain ⟨content, before, after, shape, place, found⟩ := ih
    obtain ⟨contents, _⟩ := flushForContents r (upTo r size item n) (item n)
    have stepped := (stepContents r (upTo r size item n) (item n)).1.trans contents
    rcases found with written | ⟨number, current⟩
    · refine ⟨content, before, after, shape, place, .inl ?_⟩
      rw [upTo, stepped, List.getElem?_append_left (List.getElem?_eq_some_iff.mp written).1]
      exact written
    by_cases flushes : (upTo r size item n).Flushes r (item n)
    · refine ⟨content, before, after, shape, place, .inl ?_⟩
      rw [upTo, stepped, if_pos flushes, current, List.getElem?_append_right number.le, number, Nat.sub_self]
      rfl
    · rw [if_neg flushes, List.append_nil] at stepped
      cases kind : (item n).kind with
      | fullBlock =>
        refine ⟨content, before, after, shape, place, .inr ?_⟩
        obtain ⟨_, same, _⟩ := @stepFull r (upTo r size item n) (item n) kind
        rw [upTo, stepped, same]
        exact ⟨number, current⟩
      | fragmentPiece =>
        refine ⟨content ++ (item n).data.pread, before, after ++ (item n).data.pread, ?_, place, .inr ?_⟩
        · rw [shape, List.append_assoc, List.append_assoc]
        · rw [upTo, stepped]
          refine ⟨number, ?_⟩
          rw [stepPiece kind, flushForFits flushes, add, current]
          rfl
      | closingPiece =>
        refine absurd ?_ flushes
        unfold Flushes
        rw [kind, current]
        trivial

theorem pieceWritten (piece : (item c).kind = .fragmentPiece) (lt : c < n)
    (closed : (upTo r size item n).current = none) : ∃ content before after,
    content = before ++ ((item c).data.pread ++ after) ∧
    before.length = ((upTo r size item c).flushFor r (item c)).room.2 ∧
    (upTo r size item n).contents[((upTo r size item c).flushFor r (item c)).room.1]? = some content := by
  obtain ⟨content, before, after, shape, place, found⟩ := pieceKept piece lt
  rcases found with written | ⟨_, current⟩
  · exact ⟨content, before, after, shape, place, written⟩
  · rw [closed] at current
    cases current

theorem fragmentWritten {content : Bytes} (found : (upTo r size item n).contents[f]? = some content) :
    ∃ c extent, (upTo r size item n).fragments[f]? = some extent ∧ extent.size = (r.fragment c content).1.length ∧
      extent.compressed = (r.fragment c content).2 ∧ size ≤ extent.offset ∧
      extent.offset + extent.size ≤ (upTo r size item n).size ∧
      Medium.read (upTo r size item n).written extent.offset extent.size = (r.fragment c content).1 := by
  obtain ⟨c, content', below, flushes, _, current, fragment, same⟩ :=
    flushedAt (List.getElem?_eq_some_iff.mp found).1
  obtain rfl := Option.some.inj (same.symm.trans found)
  obtain ⟨bytes, inside⟩ := outputRead (outputFlushAt flushes current) below
  exact ⟨c, _, fragment, rfl, rfl, sizesGrow (Nat.zero_le c), inside, bytes⟩

end
end Plan
end Libsqfs
