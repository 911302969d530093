import Libsqfs.Env

/-! src/metatable.c. A metadata table collects bytes in blocks of 8192 and keeps
each closed block compressed or raw. `data` is the part of the block's array
that is in use. The table size and the block offsets are C `unsigned int`. -/
namespace Libsqfs

structure Metablock where
  size : Nat
  offset : Nat
  compressed : Bool
  data : Bytes
  deriving DecidableEq, Repr

structure MetatableEntry where
  block : Nat
  offset : Nat
  deriving DecidableEq, Repr

structure Metatable where
  blocks : List Metablock
  nmetablocks : Nat
  openedBlock : Option Metablock
  openedBlockFill : Nat
  compressor : Option Compressor
  size : Nat
  offset : Option Nat

namespace Metatable

def uint (n : Nat) : Nat := n % 2 ^ 32

def init (compressor : Option Compressor) : Metatable := ⟨[], 0, none, 0, compressor, 0, none⟩

def close (compressor : Option Compressor) (block : Metablock) : Metablock :=
  match compressor.bind (fun c => c.instanceCompressMeta (block.data.take block.size)) with
  | some z =>
    if z.length < block.size then {block with data := z, size := z.length, compressed := true}
    else block
  | none => block

def flush (tab : Metatable) : Metatable :=
  match tab.openedBlock with
  | none => tab
  | some opened =>
    let block := close tab.compressor {opened with size := tab.openedBlockFill}
    {tab with
      openedBlock := none
      openedBlockFill := 0
      size := uint (tab.size + (block.size + 2))
      blocks := tab.blocks ++ [block]
      nmetablocks := tab.nmetablocks + 1}

/- What became of the table closed a block, which calls compress_meta where there is a
compressor, and that is a null pointer. -/
def nullCalled (tab after : Metatable) : Bool :=
  (tab.compressor.any fun c => c.compressMeta.isNone) && tab.nmetablocks != after.nmetablocks

def getblock (tab : Metatable) (env : Env) : Option (Metablock × Metatable) × Env :=
  match tab.openedBlock with
  | some block => (some (block, tab), env)
  | none =>
    let (allocated, env) := env.malloc
    if allocated then
      let block : Metablock := ⟨metadataSize, tab.size, false, []⟩
      (some (block, {tab with openedBlock := some block, openedBlockFill := 0}), env)
    else (none, env)

def copyIn (tab : Metatable) (block : Metablock) (data : Bytes) : Metatable :=
  let tab := {tab with
    openedBlock := some {block with data := block.data ++ data}
    openedBlockFill := tab.openedBlockFill + data.length}
  if tab.openedBlockFill = metadataSize then tab.flush else tab

/- The loop of libsqfs_metatable_append. Every turn copies at least one byte,
so the number of bytes is fuel enough. -/
def appendLoop : Nat → Metatable → Bytes → Env → Bool × Metatable × Env
  | _, tab, [], env => (true, tab, env)
  | 0, tab, _ :: _, env => (false, tab, env)
  | fuel + 1, tab, b :: rest, env =>
    match tab.getblock env with
    | (none, env) => (false, tab, env)
    | (some (block, tab), env) =>
      let toCopy := min (metadataSize - tab.openedBlockFill) (b :: rest).length
      appendLoop fuel (tab.copyIn block ((b :: rest).take toCopy)) ((b :: rest).drop toCopy) env

def append (tab : Metatable) (data : Bytes) (env : Env) : Bool × Metatable × Env :=
  appendLoop data.length tab data env

def appendEach : List Bytes → Metatable → Env → Bool × Metatable × Env
  | [], tab, env => (true, tab, env)
  | data :: rest, tab, env =>
    match tab.append data env with
    | (false, tab, env) => (false, tab, env)
    | (true, tab, env) => appendEach rest tab env

def position (tab : Metatable) : MetatableEntry := ⟨tab.size, tab.openedBlockFill⟩

/- COMPRESSED_BIT actually means "uncompressed". -/
def header (block : Metablock) : Nat := block.size ||| (if block.compressed then 0 else 2 ^ 15)

def writeBlocks (host : Bytes.Host) : List Metablock → Nat → Env → Bool × Env
  | [], _, env => (true, env)
  | block :: rest, offset, env =>
    match env.pwrite (Bytes.store host 2 (Bytes.cpuToLe host 2 (header block))) offset with
    | (false, env) => (false, env)
    | (true, env) =>
      match env.pwrite (block.data.take block.size) (offset + 2) with
      | (false, env) => (false, env)
      | (true, env) => writeBlocks host rest (offset + block.size + 2) env

def write (host : Bytes.Host) (tab : Metatable) (env : Env) : Bool × Metatable × Env :=
  let tab := tab.flush
  let (start, env) := env.reserve tab.size
  match writeBlocks host tab.blocks start env with
  | (false, env) => (false, tab, env)
  | (true, env) => (true, {tab with offset := some start}, env)

def indexTable (host : Bytes.Host) (base : Nat) (blocks : List Metablock) : Bytes :=
  blocks.flatMap fun block => Bytes.store host 8 (Bytes.cpuToLe host 8 (base + block.offset))

def writeWithIndex (host : Bytes.Host) (tab : Metatable) (env : Env) : Bool × Metatable × Env :=
  match tab.write host env with
  | (false, tab, env) => (false, tab, env)
  | (true, tab, env) =>
    let base := tab.offset.getD 0
    let (indexBase, env) := env.reserve (tab.nmetablocks * 8)
    match env.pwrite (indexTable host base (tab.blocks.take tab.nmetablocks)) indexBase with
    | (false, env) => (false, tab, env)
    | (true, env) => (true, {tab with offset := some indexBase}, env)

end Metatable
end Libsqfs
