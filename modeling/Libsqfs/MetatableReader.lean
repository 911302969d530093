import Libsqfs.MetatableStream

/-! Runs of appends followed by a write, and the reader of the table on the
medium. Positions are those handed out before the blocks they name were closed. -/
namespace Libsqfs.Metatable
open FramedStream

structure Appended where
  ok : Bool
  position : MetatableEntry
  deriving DecidableEq, Repr

def appendAll : Metatable → List Bytes → Env → List Appended × Metatable × Env
  | tab, [], env => ([], tab, env)
  | tab, data :: rest, env =>
    let result := tab.append data env
    let tail := appendAll result.2.1 rest result.2.2
    (⟨result.1, tab.position⟩ :: tail.1, tail.2)

def encodedSize (tab : Metatable) : Nat := (tab.blocks.map fun b => b.size + 2).sum

def onMedium (tab : Metatable) (env : Env) : Bytes :=
  Medium.read env.written (tab.offset.getD 0) tab.size

section
variable {decompress : Bytes → Option Bytes}

theorem encodedSizeExact {tab : Metatable} (stored : ∀ b ∈ tab.blocks, Stored decompress b) :
    tab.encodedSize = (encoded (framing decompress) tab.blocks).length := by
  unfold encodedSize
  generalize tab.blocks = blocks at stored
  induction blocks with
  | nil => rfl
  | cons b rest ih =>
    rw [List.map_cons, List.sum_cons, encodedCons, List.length_append,
      frameLength (stored b (by simp)), ih (fun c member => stored c (List.mem_cons_of_mem _ member))]

/- Closing blocks costs two bytes each and never more than the bytes themselves. -/
theorem encodedSizeLe {tab : Metatable} {stream : Bytes} (h : Closed decompress tab stream) :
    tab.encodedSize ≤ stream.length + 2 * tab.blocks.length := by
  have stored := h.stored
  rw [← h.stream, encodedSize]
  generalize tab.blocks = blocks at stored
  induction blocks with
  | nil => simp
  | cons b rest ih =>
    obtain ⟨content, decoded, _, _, shrunk⟩ := (stored b (by simp)).decoded
    have tail := ih (fun c member => stored c (List.mem_cons_of_mem _ member))
    rw [List.map_cons, List.sum_cons, contentsCons, contentOf decoded, List.length_append,
      List.length_cons]
    omega

theorem writtenOnMedium {host : Bytes.Host} {tab next : Metatable} {stream : Bytes} {env after : Env}
    (h : Holds decompress tab stream) (ok : tab.write host env = (true, next, after))
    (small : next.encodedSize < 2 ^ 32) :
    onMedium next after = encoded (framing decompress) next.blocks ∧
      Closed decompress next stream ∧ next.blocks = tab.flush.blocks := by
  rw [encodedSizeExact (writeClosed h ok).1.stored] at small
  obtain ⟨closed, blocks, offset, size, _, buffers, log, same⟩ := writeSpec h ok small
  refine ⟨?_, closed, blocks⟩
  rw [onMedium, offset, Option.getD_some, size, ← same, log]
  exact Medium.readConsecutive _ _ _

theorem readMedium {host : Bytes.Host} {tab next : Metatable} {stream : Bytes} {env after : Env}
    (h : Holds decompress tab stream) (ok : tab.write host env = (true, next, after))
    (small : next.encodedSize < 2 ^ 32) {k n : Nat} (inside : k + n ≤ stream.length) :
    readAt (readMetablock decompress) (onMedium next after)
        (uint (start (framing decompress) next.blocks (k / metadataSize))) (k % metadataSize) n =
      some (Bytes.slice stream k n) := by
  obtain ⟨medium, closed, _⟩ := writtenOnMedium h ok small
  rw [encodedSizeExact closed.stored] at small
  have below : start (framing decompress) next.blocks (k / metadataSize) < 2 ^ 32 := by
    refine Nat.lt_of_le_of_lt ?_ small
    by_cases within : k / metadataSize ≤ next.blocks.length
    · rw [← startLength]
      exact startMono _ _ within
    · rw [start, List.take_of_length_le (by omega)]
  rw [medium, uint, Nat.mod_eq_of_lt below, readAtStream (by simp [metadataSize])
    (fun b member => readFrame (closed.stored b member)) closed.cut
    (by rw [closed.stream]; exact inside), closed.stream]

/- The run lemma over the appends: the stream grows by what each append took. -/
theorem appendAllSpec {tab : Metatable} {stream : Bytes} (appends : List Bytes) (env : Env)
    (h : Holds decompress tab stream) :
    ∃ taken : List Bytes,
      Holds decompress (appendAll tab appends env).2.1 (stream ++ taken.flatten) ∧
      tab.blocks <+: (appendAll tab appends env).2.1.blocks ∧
      ∀ k r, (appendAll tab appends env).1[k]? = some r →
        (r.ok = true → taken[k]? = appends[k]?) ∧
        (stream ++ (taken.take k).flatten).length / metadataSize ≤
          (appendAll tab appends env).2.1.blocks.length ∧
        r.position = ⟨uint (start (framing decompress) (appendAll tab appends env).2.1.blocks
            ((stream ++ (taken.take k).flatten).length / metadataSize)),
          (stream ++ (taken.take k).flatten).length % metadataSize⟩ := by
  induction appends generalizing tab stream env with
  | nil => exact ⟨[], by simpa [appendAll] using h, by simp [appendAll], by simp [appendAll]⟩
  | cons data rest ih =>
    obtain ⟨first, _, holds, grown, all, _⟩ := appendSpec data env h
    obtain ⟨taken, last, more, each⟩ := ih (tab.append data env).2.2 holds
    refine ⟨first :: taken, by simpa [appendAll, List.append_assoc] using last,
      grown.trans more, ?_⟩
    intro k r found
    cases k with
    | zero =>
      simp only [appendAll, List.getElem?_cons_zero, Option.some.injEq] at found
      subst found
      obtain ⟨count, _, place⟩ := positionStream h
      obtain ⟨added, shape⟩ := grown.trans more
      have inside : tab.blocks.length ≤ (appendAll tab (data :: rest) env).2.1.blocks.length := by
        simp only [appendAll]; rw [← shape]; simp
      refine ⟨fun ok => by simp [all ok], by simpa [← count] using inside, ?_⟩
      simp only [List.take_zero, List.flatten_nil, List.append_nil, appendAll]
      rw [place, ← shape, startAppend _ _ _ (Nat.le_of_eq count.symm)]
    | succ k =>
      have h := each k r (by simpa [appendAll] using found)
      simpa [appendAll, List.append_assoc] using h

/-- Whatever the lengths, each append is read back from the position handed out
for it, followed by the appends after it; failing allocations only end this. -/
theorem writtenTableReadsBack (host : Bytes.Host) {compressor : Option Compressor}
    (inverse : Inverse compressor decompress) (appends : List Bytes) (env : Env)
    {next : Metatable} {after : Env}
    (written : (appendAll (init compressor) appends env).2.1.write host
      (appendAll (init compressor) appends env).2.2 = (true, next, after))
    (small : next.encodedSize < 2 ^ 32) :
    (∀ i j r, (appendAll (init compressor) appends env).1[i]? = some r →
      (∀ k, i ≤ k → k < j →
        ∃ s, (appendAll (init compressor) appends env).1[k]? = some s ∧ s.ok = true) →
      readAt (readMetablock decompress) (onMedium next after) r.position.block r.position.offset
          ((appends.drop i).take (j - i)).flatten.length =
        some ((appends.drop i).take (j - i)).flatten) ∧
    (∀ r ∈ (appendAll (init compressor) appends env).1, r.position.offset < metadataSize) ∧
    ∃ blocks, parseAll (readMetablock decompress) next.blocks.length (onMedium next after) =
        some blocks ∧
      (∀ content ∈ blocks.dropLast, content.length = metadataSize) ∧
      (∀ content ∈ blocks, content ≠ []) := by
  obtain ⟨taken, holds, _, each⟩ := appendAllSpec appends env (initHolds inverse)
  simp only [List.nil_append] at holds each
  obtain ⟨medium, closed, blocks⟩ := writtenOnMedium holds written small
  refine ⟨?_, ?_, ?_⟩
  · intro i j r found succeeded
    obtain ⟨_, inside, place⟩ := each i r found
    have same : (taken.drop i).take (j - i) = (appends.drop i).take (j - i) := by
      apply List.ext_getElem?
      intro k
      by_cases near : k < j - i
      · obtain ⟨s, hs, ok⟩ := succeeded (i + k) (by omega) (by omega)
        simp only [List.getElem?_take, List.getElem?_drop, near, if_true]
        exact (each (i + k) s hs).1 ok
      · simp [near]
    have split : taken.flatten = (taken.take i).flatten ++
        (((appends.drop i).take (j - i)).flatten ++ ((taken.drop i).drop (j - i)).flatten) := by
      rw [← same, ← List.flatten_append, List.take_append_drop, ← List.flatten_append,
        List.take_append_drop]
    have grown : (appendAll (init compressor) appends env).2.1.blocks <+: next.blocks := by
      rw [blocks]
      exact flushPrefix _
    obtain ⟨added, shape⟩ := grown
    rw [place, ← startAppend _ _ added inside, shape]
    rw [readMedium holds written small (by rw [split]; simp), split, Bytes.sliceMiddle]
  · intro r member
    obtain ⟨k, found⟩ := List.mem_iff_getElem?.mp member
    rw [(each k r found).2.2]
    exact Nat.mod_lt _ (by simp [metadataSize])
  · refine ⟨next.blocks.map (framing decompress).content, ?_, ?_, ?_⟩
    · rw [medium]
      exact parseAllEncoded (fun b member => readFrame (closed.stored b member))
        (fun b _ => frameNonempty b) (Nat.le_refl _)
    · intro content member
      rw [← List.map_dropLast] at member
      obtain ⟨b, inside, rfl⟩ := List.mem_map.mp member
      exact closed.cut.full b inside
    · intro content member empty
      obtain ⟨b, inside, rfl⟩ := List.mem_map.mp member
      have h := (closed.cut.bounded b inside).1
      simp [empty] at h

end

def zeroRuns (block : Bytes) : Option Bytes :=
  if block = List.replicate block.length 0 then some (Bytes.le 2 block.length) else none

def zeroRunsBack (z : Bytes) : Option Bytes := some (List.replicate (Bytes.readLE z) 0)

def zeroCompressor : Compressor := ⟨fun _ => zeroRuns, some zeroRuns⟩

theorem zeroRunsInverse : Inverse (some zeroCompressor) zeroRunsBack := by
  intro c present block _ bound z compressed
  cases present
  simp only [zeroCompressor, Compressor.instanceCompressMeta, Option.bind_some, zeroRuns] at compressed
  split at compressed
  · rename_i zeros
    cases compressed
    have small : block.length < 256 ^ 2 := by unfold metadataSize at bound; omega
    rw [zeroRunsBack, Bytes.readLeBounded small, ← zeros]
  · cases compressed

def zeroAppends : List Appended × Metatable × Env :=
  appendAll (init (some zeroCompressor)) [[0, 0, 0], [], [0, 0]] Env.fresh

theorem zerosReadBack :
    (zeroAppends.2.1.write .little zeroAppends.2.2).1 = true ∧
      readAt (readMetablock zeroRunsBack)
        (onMedium (zeroAppends.2.1.write .little zeroAppends.2.2).2.1
          (zeroAppends.2.1.write .little zeroAppends.2.2).2.2) 0 3 2 = some [0, 0] := by
  refine ⟨rfl, ?_⟩
  have h := (writtenTableReadsBack .little zeroRunsInverse [[0, 0, 0], [], [0, 0]] Env.fresh
    rfl (by decide)).1 2 3 ⟨true, ⟨0, 3⟩⟩ rfl
  exact h (fun k low high => ⟨⟨true, ⟨0, 3⟩⟩, by
    obtain rfl : k = 2 := by omega
    rfl, rfl⟩)

end Libsqfs.Metatable
