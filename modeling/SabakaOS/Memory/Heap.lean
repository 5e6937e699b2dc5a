import SabakaOS.Library.Word
import SabakaOS.Library.Run
import SabakaOS.Library.ByteMemory

namespace Heap

open Word ByteMemory

abbrev Memory := Nat → UInt8

structure Header where
  size : Nat
  free : Bool
  next : Nat
  prev : Nat
  magic : Nat
  deriving DecidableEq

def sizeofBlock : Nat := 20

def heapMagic : Nat := 0xABCD1234

def minSplit : Nat := 16

def header (m : Memory) (b : Nat) : Header :=
  { size := readLE m 4 (u32 b)
    free := m (u32 (b + 4)) != 0
    next := readLE m 4 (u32 (b + 8))
    prev := readLE m 4 (u32 (b + 12))
    magic := readLE m 4 (u32 (b + 16)) }

def setSize (m : Memory) (b v : Nat) : Memory := writeLE m 4 (u32 b) v

def setFree (m : Memory) (b : Nat) (f : Bool) : Memory :=
  Function.update m (u32 (b + 4)) (if f then 1 else 0)

def setNext (m : Memory) (b v : Nat) : Memory := writeLE m 4 (u32 (b + 8)) v

def setPrev (m : Memory) (b v : Nat) : Memory := writeLE m 4 (u32 (b + 12)) v

def setMagic (m : Memory) (b v : Nat) : Memory := writeLE m 4 (u32 (b + 16)) v

def setPrevOf (m : Memory) (next b : Nat) : Memory := if next ≠ 0 then setPrev m next b else m

structure HeapState where
  mem : Memory
  heapHead : Nat
  heapStart : Nat
  heapSz : Nat
  usedBytes : Nat

def writeHeader (m : Memory) (b : Nat) (h : Header) : Memory :=
  setMagic (setPrev (setNext (setFree (setSize m b h.size) b h.free) b h.next) b h.prev) b h.magic

def heapInit (h : HeapState) (start size : Nat) : HeapState :=
  { mem := writeHeader h.mem start
      { size := sub32 size sizeofBlock, free := true, next := 0, prev := 0, magic := heapMagic }
    heapHead := start
    heapStart := start
    heapSz := size
    usedBytes := 0 }

def fits (m : Memory) (size b : Nat) : Bool :=
  (header m b).free && decide (size ≤ (header m b).size) && (header m b).magic == heapMagic

-- some 0 is the nullptr; none when the list is longer than the links allowed.
def findFree (m : Memory) (size : Nat) : Nat → Nat → Option Nat
  | _, 0 => some 0
  | 0, _ + 1 => none
  | links + 1, b + 1 =>
    if fits m size (b + 1) then some (b + 1)
    else findFree m size links (header m (b + 1)).next

def trySplit (m : Memory) (b size : Nat) : Memory :=
  if (header m b).size < u32 (size + sizeofBlock + minSplit) then m
  else
    let nb := u32 (b + sizeofBlock + size)
    let m := writeHeader m nb
      { size := sub32 (sub32 (header m b).size size) sizeofBlock
        free := true
        next := (header m b).next
        prev := b
        magic := heapMagic }
    let m := setPrevOf m (header m b).next nb
    setSize (setNext m b nb) b size

-- The two branches of try_merge: a takes in its next block nb.
def absorb (m : Memory) (a nb : Nat) : Memory :=
  let m := setSize m a (u32 ((header m a).size + sizeofBlock + (header m nb).size))
  let m := setNext m a (header m nb).next
  setPrevOf m (header m a).next a

def freeBlock (m : Memory) (b : Nat) : Bool :=
  b != 0 && (header m b).free && (header m b).magic == heapMagic

def mergeNext (m : Memory) (b : Nat) : Memory :=
  if freeBlock m (header m b).next then absorb m b (header m b).next else m

def mergePrev (m : Memory) (b : Nat) : Memory :=
  if freeBlock m (header m b).prev then absorb m (header m b).prev b else m

def tryMerge (m : Memory) (b : Nat) : Memory := mergePrev (mergeNext m b) b

def links (h : HeapState) : Nat := h.heapSz + 1

def roundUp (size : Nat) : Nat := u32 (size + 7) / 8 * 8

def kmalloc (h : HeapState) (size : Nat) : Option (Nat × HeapState) :=
  if size = 0 then some (0, h)
  else
    let size := roundUp size
    (findFree h.mem size (links h) h.heapHead).map fun b =>
      if b = 0 then (0, h)
      else
        let m := setFree (trySplit h.mem b size) b false
        (u32 (b + sizeofBlock),
          { h with mem := m, usedBytes := u32 (h.usedBytes + (header m b).size) })

def kfree (h : HeapState) (ptr : Nat) : HeapState :=
  if ptr = 0 then h
  else
    let b := sub32 ptr sizeofBlock
    if (header h.mem b).magic ≠ heapMagic ∨ (header h.mem b).free then h
    else
      let m := setFree h.mem b true
      { h with
        mem := tryMerge m b
        usedBytes := if (header m b).size ≤ h.usedBytes then sub32 h.usedBytes (header m b).size
          else h.usedBytes }

def krealloc (h : HeapState) (ptr newSize : Nat) : Option (Nat × HeapState) :=
  if ptr = 0 then kmalloc h newSize
  else if newSize = 0 then some (0, kfree h ptr)
  else
    let b := sub32 ptr sizeofBlock
    if (header h.mem b).magic ≠ heapMagic then some (0, h)
    else
      let newSize := roundUp newSize
      if newSize ≤ (header h.mem b).size then some (ptr, h)
      else
        (kmalloc h newSize).map fun r =>
          if r.1 = 0 then r
          else
            let m := copy r.2.mem r.1 ptr (header r.2.mem b).size
            (r.1, kfree { r.2 with mem := m } ptr)

def heapUsed (h : HeapState) : Nat := h.usedBytes

def heapTotal (h : HeapState) : Nat := h.heapSz

def heapFreeFrom (m : Memory) : Nat → Nat → Option Nat
  | _, 0 => some 0
  | 0, _ + 1 => none
  | links + 1, b + 1 => (heapFreeFrom m links (header m (b + 1)).next).map fun f =>
      u32 ((if (header m (b + 1)).free then (header m (b + 1)).size else 0) + f)

def heapFree (h : HeapState) : Option Nat := heapFreeFrom h.mem (links h) h.heapHead

-- The addresses met from heap_head on, up to the null next link.
inductive ListFrom (m : Memory) : Nat → List Nat → Prop where
  | nil : ListFrom m 0 []
  | cons {b : Nat} {bs : List Nat} : b ≠ 0 → ListFrom m (header m b).next bs →
      ListFrom m b (b :: bs)

def Live (h : HeapState) (ptr : Nat) : Prop :=
  ∃ bs, ListFrom h.mem h.heapHead bs ∧ ∃ b ∈ bs, (header h.mem b).free = false ∧
    ptr = u32 (b + sizeofBlock)

-- store is the owner of a live block writing into its payload.
inductive Act where
  | kmalloc (size : Nat)
  | krealloc (ptr newSize : Nat)
  | kfree (ptr : Nat)
  | store (ptr off : Nat) (v : UInt8)

def exec (h : HeapState) : Act → Option HeapState
  | .kmalloc size => (kmalloc h size).map (·.2)
  | .krealloc ptr newSize => (krealloc h ptr newSize).map (·.2)
  | .kfree ptr => some (kfree h ptr)
  | .store ptr off v => some { h with mem := Function.update h.mem (ptr + off) v }

def allowed (h : HeapState) : Act → Prop
  | .kmalloc size => size < 2 ^ 32
  | .krealloc ptr newSize => newSize < 2 ^ 32 ∧ (ptr = 0 ∨ Live h ptr)
  | .kfree ptr => ptr = 0 ∨ Live h ptr
  | .store ptr off _ => Live h ptr ∧ off < (header h.mem (sub32 ptr sizeofBlock)).size

def system (start size : Nat) : System HeapState Act where
  init h := ∃ h0 : HeapState, h = heapInit h0 start size
  step h a h' := allowed h a ∧ exec h a = some h'

end Heap
