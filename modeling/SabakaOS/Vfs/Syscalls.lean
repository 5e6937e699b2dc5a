import SabakaOS.Vfs.Calls

namespace Vfs

open Word Prog

def maxFd : Nat := 32

structure FDEntry where
  used : Bool
  node : Option Ptr
  offset : Nat

-- terminal is what terminal_putchar was given so far.
structure Machine where
  kernel : Kernel
  fdTable : Nat → FDEntry
  terminal : List UInt8

def inKernel {α : Type} (p : Prog Kernel α) : Prog Machine α := fun s =>
  ((p s.kernel).1, { s with kernel := (p s.kernel).2 })

def setFd (s : Machine) (fd : Nat) (e : FDEntry) : Machine :=
  { s with fdTable := Function.update s.fdTable fd e }

def syscallInit (s : Machine) : Machine :=
  { s with fdTable := fun fd =>
      if fd < maxFd then { s.fdTable fd with used := false } else s.fdTable fd }

def freeFd (s : Machine) : Option Nat :=
  (List.range' 3 (maxFd - 3)).find? fun fd => !(s.fdTable fd).used

def allocFd (node : Option Ptr) : Prog Machine Int := fun s =>
  match freeFd s with
  | none => (some (-1), s)
  | some fd => (some (fd : Int), setFd s fd { used := true, node := node, offset := 0 })

def advance (fd r : Nat) : Prog Machine Unit :=
  Prog.modify fun s =>
    setFd s fd { s.fdTable fd with offset := u32 ((s.fdTable fd).offset + r) }

-- mapped is paging_is_mapped; the caller's buffer starts at addr.
def putBuffer (mapped : Nat → Bool) (addr : Nat) (buf : List UInt8) : Prog Machine Int := fun s =>
  let shown := (List.range buf.length).takeWhile fun i => mapped (u32 (addr + i))
  (some (if shown.length < buf.length then -1 else (buf.length : Int)),
    { s with terminal := s.terminal ++ buf.take shown.length })

def sysWrite (fuel : Nat) (mapped : Nat → Bool) (fd addr : Nat) (buf : List UInt8) :
    Prog Machine Int := do
  let buf := buf.take 65536
  let s ← get
  if fd = 1 ∨ fd = 2 then putBuffer mapped addr buf
  else if fd < maxFd ∧ (s.fdTable fd).used = true then do
    let r ← inKernel (vfsWrite fuel (s.fdTable fd).node buf (s.fdTable fd).offset)
    if 0 < r then do
      advance fd r.toNat
      pure r
    else pure r
  else pure (-1)

def sysRead (fuel fd len : Nat) : Prog Machine (Except Int (List UInt8)) := do
  let s ← get
  if fd = 0 then pure (.error (-1))
  else if fd < maxFd ∧ (s.fdTable fd).used = true then do
    let r ← inKernel (vfsRead fuel (s.fdTable fd).node (s.fdTable fd).offset len)
    match r with
    | .error e => pure (.error e)
    | .ok bytes =>
      if 0 < bytes.length then do
        advance fd bytes.length
        pure (.ok bytes)
      else pure (.ok bytes)
  else pure (.error (-1))

def lastComponent (path : List UInt8) : List UInt8 :=
  (path.reverse.takeWhile (· != slash)).reverse

def sysOpen (fuel : Nat) (path : List UInt8) (flags : Nat) : Prog Machine Int := do
  let node ← inKernel (vfsResolvePath fuel path)
  let s ← get
  let node ← if node.isNone && flags.testBit 6 then
      inKernel (vfsCreate fuel s.kernel.vfs.cwdNode (lastComponent path))
    else pure node
  if node.isNone then pure (-1)
  else allocFd node

def sysClose (fd : Nat) : Prog Machine Int := fun s =>
  if fd < 3 ∨ maxFd ≤ fd ∨ (s.fdTable fd).used = false then (some (-1), s)
  else (some 0, setFd s fd { s.fdTable fd with used := false })

end Vfs
