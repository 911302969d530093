import Libsqfs.Inodes

/-! libsqfs_directory_encode of src/directory.c: the first of its loops, which
builds the on-disk representation of the entries. -/
namespace Libsqfs
open Metatable (uint)
open Bytes (put)

structure Listed where
  name : Bytes
  place : MetatableEntry
  inodeNumber : Nat
  type : Nat
  deriving DecidableEq, Repr

structure EncodedEntry where
  listed : Listed
  serialno : Nat
  offset : Nat
  encodedData : Bytes
  encodedSize : Nat
  deriving DecidableEq, Repr

/- `reference` is the place among the entries of the one after the last header,
`indexed` the places of all of these. -/
structure Encoder where
  count : Nat
  reference : Option Nat
  offset : Nat
  serialno : Nat
  done : List EncodedEntry
  indexed : List Nat
  deriving DecidableEq, Repr

/- Differences of unsigned int and of size_t values. -/
def uintSub (m n : Nat) : Nat := (m + (2 ^ 32 - n % 2 ^ 32)) % 2 ^ 32
def sizetSub (m n : Nat) : Nat := (m + (2 ^ 64 - n % 2 ^ 64)) % 2 ^ 64

def dirHeaderSize : Nat := 12
def dirEntrySize : Nat := 8

def dirHeader (host : Bytes.Host) (count startBlock inodeNumber : Nat) : Bytes :=
  put host 4 count ++ put host 4 startBlock ++ put host 4 inodeNumber

def dirEntry (host : Bytes.Host) (x : Listed) (base : Nat) : Bytes :=
  put host 2 x.place.offset ++ put host 2 (uintSub x.inodeNumber base) ++
    put host 2 x.type ++ put host 2 (sizetSub x.name.length 1) ++ x.name

def needNewDirHeader (entry : EncodedEntry) : Option EncodedEntry → Bool
  | none => true
  | some reference =>
    if entry.listed.place.block ≠ reference.listed.place.block then true else
    let diff : Int := (entry.listed.inodeNumber : Int) - reference.listed.inodeNumber
    if diff < -32768 ∨ diff > 32767 then true else
    if entry.encodedSize + entry.offset - reference.offset > metadataSize then true else
    if entry.serialno - reference.serialno > 255 then true else
    false

namespace Encoder

def start : Encoder := ⟨0, none, 0, 0, [], []⟩

/- revisit "previous" dir header and record entry count -/
def recordCount (host : Bytes.Host) (enc : Encoder) : Encoder :=
  match enc.reference with
  | none => enc
  | some r => {enc with done := enc.done.modify r fun x =>
      {x with encodedData := put host 4 (uintSub enc.count 1) ++ x.encodedData.drop 4}}

/- Until it is recorded the count in a header is what the memory held before. -/
def encodeEntry (host : Bytes.Host) (stale : Nat) (enc : Encoder) (x : Listed) (env : Env) :
    Bool × Encoder × Env :=
  let entry : EncodedEntry := ⟨x, enc.serialno, enc.offset, [], dirEntrySize + x.name.length⟩
  let reference := enc.reference.bind fun r => enc.done[r]?
  let insertDirHeader := needNewDirHeader entry reference
  let entry := if insertDirHeader then {entry with encodedSize := entry.encodedSize + dirHeaderSize}
    else entry
  let (allocated, env) := env.malloc
  if !allocated then (false, enc, env) else
  let enc := if insertDirHeader then {enc.recordCount host with
      count := 0
      reference := some enc.serialno
      indexed := enc.indexed ++ [enc.serialno]}
    else enc
  let header := if insertDirHeader then dirHeader host stale x.place.block x.inodeNumber else []
  let base := if insertDirHeader then x.inodeNumber
    else (reference.map fun y => y.listed.inodeNumber).getD 0
  (true, {enc with
    count := uint (enc.count + 1)
    offset := enc.offset + entry.encodedSize
    serialno := enc.serialno + 1
    done := enc.done ++ [{entry with encodedData := header ++ dirEntry host x base}]}, env)

def encodeLoop (host : Bytes.Host) (stale : Nat) : List Listed → Encoder → Env → Bool × Encoder × Env
  | [], enc, env => (true, enc.recordCount host, env)
  | x :: rest, enc, env =>
    match encodeEntry host stale enc x env with
    | (false, enc, env) => (false, enc, env)
    | (true, enc, env) => encodeLoop host stale rest enc env

end Encoder

def encodeEntries (host : Bytes.Host) (stale : Nat) (entries : List Listed) (env : Env) :
    Bool × Encoder × Env :=
  Encoder.encodeLoop host stale entries .start env

end Libsqfs
