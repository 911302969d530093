import Libsqfs.TableLayout
import Libsqfs.XattrCodec
import Libsqfs.ImageLayout

/-! The attributes of a set, found in the table of attributes as it lies in an image. -/
namespace Libsqfs
open FramedStream Metatable
open Bytes (field take?)

namespace FramedStream
variable {parse : Bytes → Option (Bytes × Bytes)} {more : Bytes}

theorem readFromMore (tolerant : ∀ raw content rest, parse raw = some (content, rest) →
      parse (raw ++ more) = some (content, rest ++ more)) {fuel offset n : Nat} {bytes out : Bytes}
    (read : readFrom parse fuel bytes offset n = some out) : readFrom parse fuel (bytes ++ more) offset n = some out := by
  induction fuel generalizing bytes offset n out with
  | zero =>
    cases n with
    | zero => exact read
    | succ n => cases read
  | succ fuel ih =>
    cases n with
    | zero => exact read
    | succ n =>
      simp only [readFrom] at read ⊢
      cases parsed : parse bytes with
      | none =>
        rw [parsed] at read
        cases read
      | some result =>
        obtain ⟨content, rest⟩ := result
        rw [parsed] at read
        obtain ⟨tail, others, same⟩ := Option.map_eq_some_iff.mp read
        rw [tolerant bytes content rest parsed]
        exact Option.map_eq_some_iff.mpr ⟨tail, ih others, same⟩

theorem readAtMore (tolerant : ∀ raw content rest, parse raw = some (content, rest) →
      parse (raw ++ more) = some (content, rest ++ more)) (nothing : parse [] = none) {block offset n : Nat}
    {bytes out : Bytes} (read : readAt parse bytes block offset n = some out) :
    readAt parse (bytes ++ more) block offset n = some out := by
  rw [readAt] at read ⊢
  by_cases inside : block ≤ bytes.length
  · rw [List.drop_append_of_le_length inside]
    exact readFromMore tolerant read
  · rw [List.drop_eq_nil_of_le (by omega)] at read
    cases n with
    | zero => exact read
    | succ n =>
      simp only [readFrom, nothing] at read
      cases read

end FramedStream

theorem Bytes.takeMore {n : Nat} {raw bytes rest : Bytes} (taken : take? n raw = some (bytes, rest)) (more : Bytes) :
    take? n (raw ++ more) = some (bytes, rest ++ more) := by
  simp only [take?, Option.ite_none_right_eq_some] at taken
  obtain ⟨inside, same⟩ := taken
  cases same
  rw [take?, if_pos (by rw [List.length_append]; omega), List.take_append_of_le_length inside,
    List.drop_append_of_le_length inside]

theorem Bytes.fieldMore {n value : Nat} {raw rest : Bytes} (taken : field n raw = some (value, rest)) (more : Bytes) :
    field n (raw ++ more) = some (value, rest ++ more) := by
  simp only [field, Option.ite_none_right_eq_some] at taken
  obtain ⟨inside, same⟩ := taken
  cases same
  rw [field, if_pos (by rw [List.length_append]; omega), List.take_append_of_le_length inside,
    List.drop_append_of_le_length inside]

theorem Metatable.readMetablockMore {decompress : Bytes → Option Bytes} (more raw content rest : Bytes)
    (read : readMetablock decompress raw = some (content, rest)) :
    readMetablock decompress (raw ++ more) = some (content, rest ++ more) := by
  simp only [readMetablock, bind, Option.bind_eq_some_iff] at read
  obtain ⟨⟨header, mid⟩, first, ⟨stored, last⟩, second, decoded⟩ := read
  simp only [readMetablock, Bytes.fieldMore first more, bind, Option.bind_some, Bytes.takeMore second more]
  dsimp only at decoded ⊢
  split at decoded
  · rename_i flag
    rw [if_pos flag]
    cases decoded
    rfl
  · rename_i flag
    rw [if_neg flag]
    obtain ⟨content', found, same⟩ := Option.bind_eq_some_iff.mp decoded
    cases same
    rw [found]
    rfl

namespace XattrTable
variable {host : Bytes.Host} {tab next : XattrTable} {env after : Env}

end XattrTable

/-! ### The table on the medium -/

theorem Env.Fills.read {first buffers behind : List Bytes} {env after : Env}
    (fills : Fills (first ++ buffers ++ behind) env after) :
    Medium.read after.written (env.size + first.flatten.length) buffers.flatten.length = buffers.flatten := by
  have whole := Medium.readConsecutive env.written env.size (first ++ buffers ++ behind)
  rw [← fills.written] at whole
  rw [Medium.readSlice after.written env.size (m := (first ++ buffers ++ behind).flatten.length)
    (by simp only [List.flatten_append, List.length_append]; omega), whole]
  rw [List.flatten_append, List.flatten_append, List.append_assoc]
  exact Bytes.sliceMiddle ..

def xattrDataOf (log : List Medium.Write) (table : Nat) : Nat := Bytes.readLE (Medium.read log table 8)

namespace XattrTable
variable {host : Bytes.Host} {tab next : XattrTable} {env after last : Env} {decompress : Bytes → Option Bytes}

structure Lies (decompress : Bytes → Option Bytes) (host : Bytes.Host) (tab : XattrTable) (log : List Medium.Write)
    (table : Nat) : Prop where
  data : ∃ more, Medium.read log (xattrDataOf log table) (table - xattrDataOf log table) =
    encoded (framing decompress) tab.xattrData.flush.blocks ++ more
  descriptors : ∃ rows base,
    Indexed decompress host rows (tab.xattrsets.map (Xattrset.descriptor host)).flatten log base (table + 16)

end XattrTable

namespace XattrTable
variable {host : Bytes.Host} {tab : XattrTable} {decompress : Bytes → Option Bytes} {log : List Medium.Write}

theorem Lies.few {host : Bytes.Host} {table : Nat} (lies : Lies raw host tab log table) :
    tab.xattrsets.length < 2 ^ 28 := by
  obtain ⟨_, rows, base, indexed⟩ := lies
  have small := indexed.small
  have closed := indexed.closed
  rw [encodedSizeExact closed.stored, rawEncodedLength closed.stored, closed.stream,
    Bytes.flattenLength (descriptorsSized _), List.length_map] at small
  omega

structure Placed (tab : XattrTable) (id : Nat) (set : Xattrset) : Prop where
  found : tab.xattrsets[id]? = some set
  fits : ∀ x ∈ set.attrs, x.Fits
  size : (Xattrset.bytes .little set.attrs).length < 2 ^ 32
  near : (dataOf .little ((tab.xattrsets.take id).map Xattrset.attrs)).length < 2 ^ 16

end XattrTable
end Libsqfs
