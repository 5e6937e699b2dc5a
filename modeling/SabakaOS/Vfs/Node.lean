import SabakaOS.Fat32.Driver

namespace Vfs

open Word ByteMemory Prog
open Fat32 (Fat32Entry kstrcmp isCString)

def vfsMaxName : Nat := 64

def vfsMaxChildren : Nat := 16

def vfsMaxNodes : Nat := 128

def vfsMaxFileData : Nat := 4096

inductive VfsNodeType where
  | file
  | dir
  deriving DecidableEq

inductive VfsOps where
  | ramfs
  | disk
  deriving DecidableEq

-- A node of the static pool, or one that make_disk_node took from the heap.
inductive Ptr where
  | pool (i : Nat)
  | heap (i : Nat)
  deriving DecidableEq

-- What the data pointer of a node leads to.
inductive Data where
  | bytes (b : Nat → UInt8)
  | entry (e : Fat32Entry)

-- child_count is the length of children.
structure VfsNode where
  name : List UInt8
  type : VfsNodeType
  size : Nat
  data : Option Data
  ops : Option VfsOps
  children : List Ptr
  parent : Option Ptr

structure NodeStore where
  nodes : Ptr → VfsNode
  nodePoolUsed : Nat
  rootNode : Option Ptr
  cwdNode : Option Ptr

-- heap answers the n-th kmalloc of this layer.
structure Kernel where
  vfs : NodeStore
  disk : Fat32.World
  heap : Nat → Bool
  heapCalls : Nat

def kmalloc : Prog Kernel Bool := fun k =>
  (some (k.heap k.heapCalls), { k with heapCalls := k.heapCalls + 1 })

def setNode (v : NodeStore) (p : Ptr) (f : VfsNode → VfsNode) : NodeStore :=
  { v with nodes := Function.update v.nodes p (f (v.nodes p)) }

def blankNode : VfsNode where
  name := []
  type := .file
  size := 0
  data := none
  ops := none
  children := []
  parent := none

def allocNode (v : NodeStore) : Option Ptr × NodeStore :=
  if vfsMaxNodes ≤ v.nodePoolUsed then (none, v)
  else (some (.pool v.nodePoolUsed), { v with
    nodes := Function.update v.nodes (.pool v.nodePoolUsed) blankNode
    nodePoolUsed := v.nodePoolUsed + 1 })

-- The bytes read, in place of their number and the caller's buffer.
def ramfsRead (v : NodeStore) (node : Option Ptr) (offset size : Nat) : Except Int (List UInt8) :=
  match node with
  | none => .error (-1)
  | some p =>
    let n := v.nodes p
    if n.type ≠ .file then .error (-1)
    else if n.size ≤ offset then .ok []
    else
      let avail := n.size - offset
      let size := if avail < size then avail else size
      match n.data with
      | some (.bytes b) => .ok (readBytes b size offset)
      | _ => .ok []

def ramfsWrite (node : Option Ptr) (buf : List UInt8) (offset : Nat) : Prog Kernel Int := do
  let k ← get
  match node with
  | none => pure (-1)
  | some p =>
    let n := k.vfs.nodes p
    let sum := u32 (offset + buf.length)
    if n.type ≠ .file then pure (-1)
    else if vfsMaxFileData < sum ∧ vfsMaxFileData ≤ offset then pure (-1)
    else do
      let size := if vfsMaxFileData < sum then vfsMaxFileData - offset else buf.length
      let last := if vfsMaxFileData < sum then vfsMaxFileData else sum
      let store := fun b => Prog.modify fun k => { k with vfs := setNode k.vfs p fun n => { n with
        data := some (.bytes (writeBytes b offset (buf.take size)))
        size := if n.size < last then last else n.size } }
      match n.data with
      | some (.bytes b) => do
        store b
        pure (size : Int)
      | _ => do
        let ok ← kmalloc
        if !ok then pure (-1)
        else do
          store fun _ => 0
          pure (size : Int)

def ramfsFinddir (v : NodeStore) (node : Option Ptr) (name : List UInt8) : Option Ptr :=
  match node with
  | none => none
  | some d =>
    if (v.nodes d).type ≠ .dir then none
    else (v.nodes d).children.find? fun c => kstrcmp (v.nodes c).name name = 0

-- The name copied to name_out, in place of 0 and the caller's buffer.
def ramfsReaddir (v : NodeStore) (node : Option Ptr) (index : Nat) : Except Int (List UInt8) :=
  match node with
  | none => .error (-1)
  | some d =>
    if (v.nodes d).type ≠ .dir then .error (-1)
    else
      match (v.nodes d).children[index]? with
      | none => .error (-1)
      | some child => .ok (v.nodes child).name

-- The bodies of ramfs_mkdir and ramfs_create, which differ in the type of the new node.
def ramfsAdd (type : VfsNodeType) (v : NodeStore) (node : Option Ptr) (name : List UInt8) :
    Option Ptr × NodeStore :=
  match node with
  | none => (none, v)
  | some d =>
    if (v.nodes d).type ≠ .dir then (none, v)
    else if vfsMaxChildren ≤ (v.nodes d).children.length then (none, v)
    else if (ramfsFinddir v node name).isSome then (none, v)
    else
      match allocNode v with
      | (none, v) => (none, v)
      | (some child, v) =>
        let v := setNode v child fun n =>
          { n with name := name, type := type, ops := (v.nodes d).ops, parent := some d }
        (some child, setNode v d fun n => { n with children := n.children ++ [child] })

def ramfsMkdir : NodeStore → Option Ptr → List UInt8 → Option Ptr × NodeStore := ramfsAdd .dir

def ramfsCreate : NodeStore → Option Ptr → List UInt8 → Option Ptr × NodeStore := ramfsAdd .file

def rootName : List UInt8 := [0x2F]

def vfsInit (v : NodeStore) : NodeStore :=
  match allocNode { v with nodePoolUsed := 0 } with
  | (none, v) => v
  | (some root, v) =>
    { setNode v root fun n =>
        { n with name := rootName, type := .dir, ops := some .ramfs, parent := some root } with
      rootNode := some root
      cwdNode := some root }

end Vfs
