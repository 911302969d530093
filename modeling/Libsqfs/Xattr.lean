import Libsqfs.MetatableIndex

/-! src/xattrs.c: attributes, the sets made of them and the two metadata tables
they are stored in. Names are C strings without their terminating zero. -/
namespace Libsqfs

structure XattrDomain where
  literal : Bytes
  code : Nat
  deriving DecidableEq, Repr

def ascii (s : String) : Bytes := s.toList.map fun c => UInt8.ofNat c.toNat

def xattrDomains : List XattrDomain :=
  [⟨ascii "user.", 0⟩, ⟨ascii "trusted.", 1⟩, ⟨ascii "security.", 2⟩]

def tolower (b : UInt8) : UInt8 := if 65 ≤ b ∧ b ≤ 90 then b + 32 else b

def classifyXattrDomain (name : Bytes) : Option XattrDomain :=
  xattrDomains.find? fun dom => (name.take dom.literal.length).map tolower = dom.literal

structure Xattr where
  name : Bytes
  domain : XattrDomain
  value : Bytes
  classified : classifyXattrDomain name = some domain

def Xattr.suffix (xattr : Xattr) : Bytes := xattr.name.drop xattr.domain.literal.length

structure Xattrset where
  attrs : List Xattr
  id : Nat
  storedPos : MetatableEntry
  storedSize : Nat

structure XattrTable where
  xattrs : List Xattr
  xattrsets : List Xattrset
  nids : Nat
  offset : Option Nat
  xattrData : Metatable
  xattrDescriptors : Metatable

namespace XattrTable

def init : XattrTable := ⟨[], [], 0, none, Metatable.init none, Metatable.init none⟩

def xattrCreate (tab : XattrTable) (name value : Bytes) (env : Env) :
    Option Xattr × XattrTable × Env :=
  match h : classifyXattrDomain name with
  | none => (none, tab, env)
  | some dom =>
    let (allocated, env) := env.malloc
    if !allocated then (none, tab, env) else
    let (copied, env) := env.malloc
    if !copied then (none, tab, env) else
    let (stored, env) := env.malloc
    if !stored then (none, tab, env) else
    let xattr : Xattr := ⟨name, dom, value, h⟩
    (some xattr, {tab with xattrs := tab.xattrs ++ [xattr]}, env)

end XattrTable

namespace Xattr

/- Both fields of the record are 16 bits wide but converted as 32-bit values. -/
def entry (host : Bytes.Host) (xattr : Xattr) : Bytes :=
  Bytes.store host 2 (Bytes.cpuToLe host 4 xattr.domain.code) ++
    Bytes.store host 2 (Bytes.cpuToLe host 4 xattr.suffix.length)

def val (host : Bytes.Host) (xattr : Xattr) : Bytes :=
  Bytes.store host 4 (Bytes.cpuToLe host 4 xattr.value.length)

def pieces (host : Bytes.Host) (xattr : Xattr) : List Bytes :=
  [xattr.suffix, xattr.val host, xattr.value]

end Xattr

namespace Xattrset
open Metatable (uint)

def serializeLoop (host : Bytes.Host) : List Xattr → Bool → Xattrset → Metatable → Env →
    Bool × Xattrset × Metatable × Env
  | [], _, set, table, env => (true, set, table, env)
  | xattr :: rest, first, set, table, env =>
    let pos := table.position
    match table.append (xattr.entry host) env with
    | (false, table, env) => (false, set, table, env)
    | (true, table, env) =>
      let set := {set with storedPos := if first then pos else set.storedPos}
      match Metatable.appendEach (xattr.pieces host) table env with
      | (false, table, env) => (false, set, table, env)
      | (true, table, env) =>
        let size := set.storedSize + (4 + xattr.suffix.length + 4 + xattr.value.length)
        serializeLoop host rest false {set with storedSize := size} table env

/- The block is an unsigned int, so it is shifted within 32 bits. -/
def reference (pos : MetatableEntry) : Nat := uint (pos.block <<< 16) ||| pos.offset

def descriptor (host : Bytes.Host) (set : Xattrset) : Bytes :=
  Bytes.store host 8 (Bytes.cpuToLe host 8 (reference set.storedPos)) ++
    Bytes.store host 4 (Bytes.cpuToLe host 4 set.attrs.length) ++
    Bytes.store host 4 (Bytes.cpuToLe host 4 set.storedSize)

def serializeData (host : Bytes.Host) (set : Xattrset) (tab : XattrTable) (env : Env) :
    Bool × Xattrset × XattrTable × Env :=
  match serializeLoop host set.attrs true {set with storedSize := 0} tab.xattrData env with
  | (false, set, table, env) => (false, set, {tab with xattrData := table}, env)
  | (true, set, table, env) =>
    let (success, descriptors, env) := tab.xattrDescriptors.append (set.descriptor host) env
    (success, set, {tab with xattrData := table, xattrDescriptors := descriptors}, env)

end Xattrset

namespace XattrTable

/- `stale` is what the allocated record holds as its position before it is set. -/
def xattrsetCreate (host : Bytes.Host) (stale : MetatableEntry) (attrs : List Xattr)
    (tab : XattrTable) (env : Env) : Option Nat × XattrTable × Env :=
  let (allocated, env) := env.malloc
  if !allocated then (none, tab, env) else
  let (copied, env) := env.malloc
  if !copied then (none, tab, env) else
  let set : Xattrset := ⟨attrs, tab.nids, stale, 0⟩
  let (success, set, table, env) := set.serializeData host {tab with nids := tab.nids + 1} env
  (if success then some set.id else none, {table with xattrsets := tab.xattrsets ++ [set]}, env)

def createAll (host : Bytes.Host) (stale : MetatableEntry) :
    List (List Xattr) → XattrTable → Env → List (Option Nat) × XattrTable × Env
  | [], tab, env => ([], tab, env)
  | attrs :: rest, tab, env =>
    let head := tab.xattrsetCreate host stale attrs env
    let tail := createAll host stale rest head.2.1 head.2.2
    (head.1 :: tail.1, tail.2)

def header (host : Bytes.Host) (tab : XattrTable) : Bytes :=
  Bytes.store host 8 (Bytes.cpuToLe host 8 (tab.xattrData.offset.getD 0)) ++
    Bytes.store host 4 (Bytes.cpuToLe host 4 tab.nids) ++ Bytes.store host 4 0

def indexEntries (tab : XattrTable) : Nat := (tab.nids * 16 + metadataSize - 1) / metadataSize

/- None when the list of descriptor blocks ends before the index is filled: the
loop then follows a null pointer. -/
def write (host : Bytes.Host) (tab : XattrTable) (env : Env) : Option (Bool × XattrTable × Env) :=
  if tab.nids = 0 then some (true, {tab with offset := none}, env) else
  match tab.xattrData.write host env with
  | (false, data, env) => some (false, {tab with xattrData := data}, env)
  | (true, data, env) =>
    let tab := {tab with xattrData := data}
    match tab.xattrDescriptors.write host env with
    | (false, descriptors, env) => some (false, {tab with xattrDescriptors := descriptors}, env)
    | (true, descriptors, env) =>
      let tab := {tab with xattrDescriptors := descriptors}
      let (headerPos, env) := env.reserve 16
      match env.pwrite (tab.header host) headerPos with
      | (false, env) => some (false, tab, env)
      | (true, env) =>
        let (indexPos, env) := env.reserve (tab.indexEntries * 8)
        if descriptors.blocks.length < tab.indexEntries then none else
        let index := Metatable.indexTable host (descriptors.offset.getD 0)
          (descriptors.blocks.take tab.indexEntries)
        match env.pwrite index indexPos with
        | (false, env) => some (false, tab, env)
        | (true, env) => some (true, {tab with offset := some headerPos}, env)

end XattrTable
end Libsqfs
