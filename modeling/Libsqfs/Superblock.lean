import Libsqfs.Bulkdata
import Libsqfs.Pipeline
import Libsqfs.Serialize
import Libsqfs.Xattr

/-! The image as libsqfs_image_finalize completes it, and what is written only
there: the fragment table, the export table, the compressor options and the
superblock (src/bulkdata.c, src/export.c, src/image.c, src/superblock.c). -/
namespace Libsqfs
open Bytes (put)

structure ImageOptions where
  inodeCompression : Bool
  dataCompression : Bool
  fragmentCompression : Bool
  fragments : FragmentsOption
  exportable : Bool
  compressorId : Nat
  padding : Bool
  blockSize : Nat
  blockSizeLog : Nat
  deriving DecidableEq, Repr

/- struct libsqfs_image without its destination and size, which are the
environment. An offset is none while it is -1. -/
structure Assembly where
  options : ImageOptions
  creationTime : Nat
  state : ImageState
  errorMsg : Option String
  bulkdata : Bulkdata
  fragTableLoc : Option Nat
  idtable : IdTable
  inodes : Inodes
  exportOffset : Option Nat
  xattrTable : XattrTable
  compressor : Compressor
  compressorOptionData : Option Bytes
  compressorOptionDataLoc : Nat

namespace Assembly

def outOfMemoryMsg : String := "Memory allocation failed"

/- A message that is already there stays. The copy of the new one is allocated. -/
def flagError (image : Assembly) (description : String) (env : Env) : Assembly × Env :=
  let flagged := {image with state := .fatalError, bulkdata := image.bulkdata.abort}
  match image.errorMsg with
  | some _ => (flagged, env)
  | none =>
    let (copied, env) := env.malloc
    ({flagged with errorMsg := some (if copied then description else outOfMemoryMsg)}, env)

def location (offset : Option Nat) : Nat := offset.getD (2 ^ 64 - 1)

/- libsqfs_bulkdata_write_fragment_table. COMPRESSED_BIT_BLOCK actually means "uncompressed". -/
def fragmentEntry (host : Bytes.Host) (dst : ImageBlock) : Bytes :=
  put host 8 (location dst.offset) ++
    put host 4 (if dst.compressed then Metatable.uint dst.size else Metatable.uint dst.size ||| 2 ^ 24) ++
    put host 4 0

def fragmentEntries (host : Bytes.Host) (bd : Bulkdata) : List Bytes :=
  (List.range bd.fragmentBlockCount).map fun f => fragmentEntry host (bd.fragmentBlock f).dst

def fragmentTable (host : Bytes.Host) (image : Assembly) (env : Env) : Bool × Metatable × Env :=
  let (appended, table, env) := (Metatable.init (some image.compressor)).append
    (fragmentEntries host image.bulkdata).flatten env
  if appended then table.writeWithIndex host env else (false, table, env)

def writeFragmentTable (host : Bytes.Host) (image : Assembly) (env : Env) : Bool × Assembly × Env :=
  if image.bulkdata.fragmentBlockCount = 0 then
    let (start, env) := env.reserve 0
    (true, {image with fragTableLoc := some start}, env)
  else
    let (success, table, env) := image.fragmentTable host env
    (success, {image with fragTableLoc := table.offset}, env)

/-! ### The export table -/

def encodedInode (x : Inode) : Nat := x.inodeTableEntry.offset ||| x.inodeTableEntry.block <<< 16

/- The array is filled at the places that the inode numbers name. -/
def inodeMap (t : Inodes) : List Nat :=
  (List.range t.count).foldl
    (fun map i => map.set (Metatable.uint ((t.inode i).inodeNumber + uintMax)) (encodedInode (t.inode i)))
    (List.replicate t.count 0)

def exportEntries (host : Bytes.Host) (t : Inodes) : List Bytes := (inodeMap t).map (put host 8)

def writeExportTable (host : Bytes.Host) (image : Assembly) (env : Env) : Bool × Assembly × Env :=
  let (appended, table, env) := (Metatable.init none).append (exportEntries host image.inodes).flatten env
  let (success, table, env) := if appended then table.writeWithIndex host env else (false, table, env)
  (success, {image with exportOffset := table.offset}, env)

/-! ### Compressor options and superblock -/

def writeCompressorOptions (host : Bytes.Host) (image : Assembly) (env : Env) : Bool × Env :=
  match image.compressorOptionData with
  | none => (true, env)
  | some data =>
    match env.pwrite (put host 2 (data.length ||| 2 ^ 15)) image.compressorOptionDataLoc with
    | (false, env) => (false, env)
    | (true, env) => env.pwrite data (image.compressorOptionDataLoc + 2)

def fragmentsFlag : FragmentsOption → Nat
  | .never => 2 ^ 4
  | .small => 0
  | .always => 2 ^ 5

def flags (image : Assembly) : Nat :=
  (if image.options.inodeCompression then 0 else 2 ^ 0) |||
    (if image.options.dataCompression then 0 else 2 ^ 1) |||
    (if image.options.fragmentCompression then 0 else 2 ^ 3) |||
    fragmentsFlag image.options.fragments |||
    (if image.options.exportable then 2 ^ 7 else 0) ||| 2 ^ 6 |||
    (if image.compressorOptionData.isSome then 2 ^ 10 else 0)

def superblock (host : Bytes.Host) (image : Assembly) (root : Inode) (size : Nat) : Bytes :=
  put host 4 0x73717368 ++ put host 4 image.inodes.count ++ put host 4 image.creationTime ++
    put host 4 image.options.blockSize ++ put host 4 image.bulkdata.fragmentBlockCount ++
    put host 2 image.options.compressorId ++ put host 2 image.options.blockSizeLog ++
    put host 2 image.flags ++ put host 2 image.idtable.ids.length ++ put host 2 4 ++ put host 2 0 ++
    put host 8 (encodedInode root) ++ put host 8 size ++ put host 8 (location image.idtable.offset) ++
    put host 8 (location image.xattrTable.offset) ++
    put host 8 (location image.inodes.inodeTable.offset) ++
    put host 8 (location image.inodes.dirTable.offset) ++ put host 8 (location image.fragTableLoc) ++
    put host 8 (location image.exportOffset)

def writeSuperblock (host : Bytes.Host) (image : Assembly) (root : Inode) (env : Env) : Bool × Env :=
  env.pwrite (superblock host image root env.size) 0

end Assembly
end Libsqfs
