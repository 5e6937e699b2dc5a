import SabakaOS.Vfs.Node

namespace Vfs

open Prog
open Fat32 (Fat32Entry Drv kstrcmp hasAttr attrDirectory dotName dotdotName)

def onDisk {α : Type} (p : Drv α) : Prog Kernel α := fun k =>
  ((p k.disk).1, { k with disk := (p k.disk).2 })

def onNodes {α : Type} (f : NodeStore → α × NodeStore) : Prog Kernel α := fun k =>
  (some (f k.vfs).1, { k with vfs := (f k.vfs).2 })

def getEntry (n : VfsNode) : Option Fat32Entry :=
  match n.data with
  | some (.entry e) => some e
  | _ => none

def diskRead (fuel : Nat) (node : Ptr) (offset size : Nat) :
    Prog Kernel (Except Int (List UInt8)) := do
  let k ← get
  match getEntry (k.vfs.nodes node) with
  | none => pure (.error (-1))
  | some e => onDisk (Fat32.fat32Read fuel e offset size)

def diskWrite (fuel : Nat) (node : Ptr) (buf : List UInt8) (offset : Nat) : Prog Kernel Int := do
  let k ← get
  match getEntry (k.vfs.nodes node) with
  | none => pure (-1)
  | some e => do
    let r ← onDisk (Fat32.fat32Write fuel e buf offset)
    Prog.modify fun k => { k with vfs := setNode k.vfs node fun n => { n with
      data := some (.entry r.2)
      size := if 0 < r.1 then r.2.size else n.size } }
    pure r.1

def dirCluster (k : Kernel) (node : Ptr) : Nat :=
  match getEntry (k.vfs.nodes node) with
  | some e => e.cluster
  | none => k.disk.mount.rootCluster

def diskNode (name : List UInt8) (entry : Fat32Entry) (ops : Option VfsOps) : VfsNode where
  name := name
  type := if hasAttr entry.attr attrDirectory then .dir else .file
  size := entry.size
  data := some (.entry entry)
  ops := some (ops.getD .disk)
  children := []
  parent := none

def makeDiskNode (name : List UInt8) (entry : Fat32Entry) (ops : Option VfsOps) :
    Prog Kernel (Option Ptr) := do
  let k ← get
  let ok ← kmalloc
  if !ok then pure none
  else do
    Prog.modify fun k' => { k' with
      vfs := setNode k'.vfs (.heap k.heapCalls) fun _ => diskNode name entry ops }
    pure (some (.heap k.heapCalls))

-- The entry is copied to the heap before the node is made.
def storedNode (node : Ptr) (r : Except Int Fat32Entry) : Prog Kernel (Option Ptr) :=
  match r with
  | .error _ => pure none
  | .ok found => do
    let ok ← kmalloc
    if !ok then pure none
    else do
      let k ← get
      makeDiskNode found.name found (k.vfs.nodes node).ops

def diskFinddir (fuel : Nat) (node : Ptr) (name : List UInt8) : Prog Kernel (Option Ptr) := do
  let k ← get
  let r ← onDisk (Fat32.fat32Find fuel (dirCluster k node) name)
  storedNode node r

def diskMkdir (fuel : Nat) (node : Ptr) (name : List UInt8) : Prog Kernel (Option Ptr) := do
  let k ← get
  let r ← onDisk (Fat32.fat32Mkdir fuel (dirCluster k node) name)
  storedNode node r

def diskCreate (fuel : Nat) (node : Ptr) (name : List UInt8) : Prog Kernel (Option Ptr) := do
  let k ← get
  let r ← onDisk (Fat32.fat32Create fuel (dirCluster k node) name)
  storedNode node r

-- The loop of disk_readdir from entry i on, realIndex of the entries before it not being dots.
def diskReaddirFrom (fuel dirCluster index : Nat) :
    Nat → Nat → Nat → Prog Kernel (Except Int (List UInt8))
  | 0, _, _ => stopped
  | turns + 1, i, realIndex => do
    let r ← onDisk (Fat32.fat32Readdir fuel dirCluster i)
    match r with
    | .error _ => pure (.error (-1))
    | .ok e =>
      if Fat32.isDots e.name then diskReaddirFrom fuel dirCluster index turns (i + 1) realIndex
      else if realIndex = index then pure (.ok e.name)
      else diskReaddirFrom fuel dirCluster index turns (i + 1) (realIndex + 1)

def diskReaddir (fuel : Nat) (node : Ptr) (index : Nat) :
    Prog Kernel (Except Int (List UInt8)) := do
  let k ← get
  diskReaddirFrom fuel (dirCluster k node) index fuel 0 0

def opsOf (k : Kernel) (node : Option Ptr) : Option (Ptr × VfsOps) :=
  node.bind fun p => (k.vfs.nodes p).ops.map fun ops => (p, ops)

def vfsFinddir (fuel : Nat) (node : Option Ptr) (name : List UInt8) :
    Prog Kernel (Option Ptr) := do
  let k ← get
  match opsOf k node with
  | none => pure none
  | some (p, .ramfs) => pure (ramfsFinddir k.vfs p name)
  | some (p, .disk) => diskFinddir fuel p name

def vfsMkdir (fuel : Nat) (node : Option Ptr) (name : List UInt8) : Prog Kernel (Option Ptr) := do
  let k ← get
  match opsOf k node with
  | none => pure none
  | some (p, .ramfs) => onNodes fun v => ramfsMkdir v p name
  | some (p, .disk) => diskMkdir fuel p name

def vfsCreate (fuel : Nat) (node : Option Ptr) (name : List UInt8) :
    Prog Kernel (Option Ptr) := do
  let k ← get
  match opsOf k node with
  | none => pure none
  | some (p, .ramfs) => onNodes fun v => ramfsCreate v p name
  | some (p, .disk) => diskCreate fuel p name

def vfsRead (fuel : Nat) (node : Option Ptr) (offset size : Nat) :
    Prog Kernel (Except Int (List UInt8)) := do
  let k ← get
  match opsOf k node with
  | none => pure (.error (-1))
  | some (p, .ramfs) => pure (ramfsRead k.vfs p offset size)
  | some (p, .disk) => diskRead fuel p offset size

def vfsWrite (fuel : Nat) (node : Option Ptr) (buf : List UInt8) (offset : Nat) :
    Prog Kernel Int := do
  let k ← get
  match opsOf k node with
  | none => pure (-1)
  | some (p, .ramfs) => ramfsWrite p buf offset
  | some (p, .disk) => diskWrite fuel p buf offset

def vfsReaddir (fuel : Nat) (node : Option Ptr) (index : Nat) :
    Prog Kernel (Except Int (List UInt8)) := do
  let k ← get
  match opsOf k node with
  | none => pure (.error (-1))
  | some (p, .ramfs) => pure (ramfsReaddir k.vfs p index)
  | some (p, .disk) => diskReaddir fuel p index

def slash : UInt8 := 0x2F

-- The node that ".." leads to.
def up (v : NodeStore) (cur : Ptr) : Ptr :=
  match (v.nodes cur).parent with
  | some p => p
  | none => cur

def pathComponent (path : List UInt8) : List UInt8 :=
  (path.takeWhile (· != slash)).take (vfsMaxName - 1)

-- The loop of vfs_resolve_path; every turn takes at least one byte of the path.
def resolveFrom (fuel : Nat) : Nat → List UInt8 → Ptr → Prog Kernel (Option Ptr)
  | 0, _, cur => pure (some cur)
  | n + 1, path, cur =>
    let path := path.dropWhile (· = slash)
    if path = [] then pure (some cur)
    else
      let component := pathComponent path
      let rest := path.drop component.length
      if kstrcmp component dotName = 0 then resolveFrom fuel n rest cur
      else if kstrcmp component dotdotName = 0 then do
        let k ← get
        resolveFrom fuel n rest (up k.vfs cur)
      else do
        let next ← vfsFinddir fuel cur component
        match next with
        | none => pure none
        | some next => resolveFrom fuel n rest next

-- A null path is as an empty one.
def vfsResolvePath (fuel : Nat) (path : List UInt8) : Prog Kernel (Option Ptr) := do
  let k ← get
  match path with
  | [] => pure k.vfs.cwdNode
  | c :: rest =>
    match if c = slash then k.vfs.rootNode else k.vfs.cwdNode with
    | none => pure none
    | some cur =>
      if c = slash then resolveFrom fuel rest.length rest cur
      else resolveFrom fuel (rest.length + 1) (c :: rest) cur

end Vfs
