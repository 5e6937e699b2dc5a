import SabakaOS.Library.ByteMemory
import SabakaOS.Memory.AddressSpace

namespace Elf

open Word ByteMemory Prog Paging

def elfMagic : Nat := 0x464C457F

def etExec : Nat := 2

def em386 : Nat := 3

def ptLoad : Nat := 1

def pfW : Nat := 0x2

-- sizeof(Elf32Header) and sizeof(Elf32Phdr)
def headerSize : Nat := 52

def phdrSize : Nat := 32

-- magic is the first word of e_ident.
structure Elf32Header where
  magic : Nat
  eType : Nat
  eMachine : Nat
  eEntry : Nat
  ePhoff : Nat
  ePhentsize : Nat
  ePhnum : Nat

structure Elf32Phdr where
  pType : Nat
  pOffset : Nat
  pVaddr : Nat
  pFilesz : Nat
  pMemsz : Nat
  pFlags : Nat
  deriving DecidableEq

structure ElfLoadResult where
  ok : Bool
  entry : Nat
  loadBase : Nat
  loadEnd : Nat
  deriving DecidableEq

def alignDown (v a : Nat) : Nat := v &&& (0xFFFFFFFF - (a - 1))

def alignUp (v a : Nat) : Nat := u32 (v + a - 1) &&& (0xFFFFFFFF - (a - 1))

-- data gives the bytes from the data pointer on, those of the file first.
def header (data : Nat → UInt8) : Elf32Header where
  magic := readLE data 4 0
  eType := readLE data 2 16
  eMachine := readLE data 2 18
  eEntry := readLE data 4 24
  ePhoff := readLE data 4 28
  ePhentsize := readLE data 2 42
  ePhnum := readLE data 2 44

def phdrAt (data : Nat → UInt8) (i : Nat) : Elf32Phdr :=
  let ph := u32 ((header data).ePhoff + i * (header data).ePhentsize)
  { pType := readLE data 4 ph
    pOffset := readLE data 4 (ph + 4)
    pVaddr := readLE data 4 (ph + 8)
    pFilesz := readLE data 4 (ph + 16)
    pMemsz := readLE data 4 (ph + 20)
    pFlags := readLE data 4 (ph + 24) }

def phdrs (data : Nat → UInt8) : List Elf32Phdr :=
  (List.range (header data).ePhnum).map (phdrAt data)

-- The tests before the first loop, each of which returns the same result.
def Accepted (data : Nat → UInt8) (size : Nat) : Prop :=
  headerSize ≤ size ∧ (header data).magic = elfMagic ∧ (header data).eType = etExec ∧
    (header data).eMachine = em386 ∧ (header data).ePhnum ≠ 0 ∧
    u32 ((header data).ePhoff + (header data).ePhnum * phdrSize) ≤ size

instance (data : Nat → UInt8) (size : Nat) : Decidable (Accepted data size) :=
  inferInstanceAs (Decidable (_ ∧ _))

-- The segments that neither loop passes over.
def Loadable (ph : Elf32Phdr) : Prop := ph.pType = ptLoad ∧ ph.pMemsz ≠ 0

instance (ph : Elf32Phdr) : Decidable (Loadable ph) := inferInstanceAs (Decidable (_ ∧ _))

def noResult : ElfLoadResult where
  ok := false
  entry := 0
  loadBase := 0xFFFFFFFF
  loadEnd := 0

def Elf32Phdr.pageBase (ph : Elf32Phdr) : Nat := alignDown ph.pVaddr 4096

def Elf32Phdr.pageEnd (ph : Elf32Phdr) : Nat := alignUp (u32 (ph.pVaddr + ph.pMemsz)) 4096

def Elf32Phdr.mapSize (ph : Elf32Phdr) : Nat := sub32 ph.pageEnd ph.pageBase

-- The first loop.
def measure : List Elf32Phdr → ElfLoadResult → ElfLoadResult
  | [], res => res
  | ph :: rest, res =>
    if ¬Loadable ph then measure rest res
    else measure rest { res with
      loadBase := if ph.pageBase < res.loadBase then ph.pageBase else res.loadBase
      loadEnd := if res.loadEnd < ph.pageEnd then ph.pageEnd else res.loadEnd }

def Elf32Phdr.flags (ph : Elf32Phdr) : Nat :=
  if ph.pFlags &&& pfW ≠ 0 then pagePresent ||| pageUser ||| pageWrite
  else pagePresent ||| pageUser

-- The bytes of the segment lie in the file.
def Elf32Phdr.Fits (ph : Elf32Phdr) (size : Nat) : Prop :=
  ph.pFilesz = 0 ∨ u32 (ph.pOffset + ph.pFilesz) ≤ size

instance (ph : Elf32Phdr) (size : Nat) : Decidable (ph.Fits size) :=
  inferInstanceAs (Decidable (_ ∨ _))

-- The body of the second loop; false where elf_load returns from it.
def loadSegment (data : Nat → UInt8) (size : Nat) (ph : Elf32Phdr) : Prog AddressSpace Bool := do
  let ok ← allocRegion ph.pageBase ph.mapSize ph.flags
  if !ok then pure false
  else if ¬ph.Fits size then pure false
  else do
    kmemcpy ph.pVaddr (fun i => data (u32 (ph.pOffset + i))) ph.pFilesz
    if ph.pFilesz < ph.pMemsz then
      kmemset (u32 (ph.pVaddr + ph.pFilesz)) 0 (ph.pMemsz - ph.pFilesz)
    pure true

def loadSegments (data : Nat → UInt8) (size : Nat) : List Elf32Phdr → Prog AddressSpace Bool
  | [] => pure true
  | ph :: rest =>
    if ¬Loadable ph then loadSegments data size rest
    else do
      let ok ← loadSegment data size ph
      if !ok then pure false else loadSegments data size rest

def elfLoad (data : Nat → UInt8) (size : Nat) : Prog AddressSpace ElfLoadResult :=
  if ¬Accepted data size then pure noResult
  else
    let res := measure (phdrs data) noResult
    if res.loadBase = 0xFFFFFFFF then pure res
    else do
      let ok ← loadSegments data size (phdrs data)
      if !ok then pure res
      else pure { res with ok := true, entry := (header data).eEntry }

section Pages

def Elf32Phdr.pages (ph : Elf32Phdr) : List (Nat × Nat) :=
  regionPages ph.pageBase ph.mapSize ph.flags

-- The second loop writes to the pages it has mapped for the segment and to no other.
def Elf32Phdr.Confined (ph : Elf32Phdr) : Prop :=
  ph.pVaddr % 4096 + max ph.pFilesz ph.pMemsz ≤ ph.mapSize

instance (ph : Elf32Phdr) : Decidable ph.Confined := inferInstanceAs (Decidable (_ ≤ _))

-- The pages asked for up to the segment that ends the second loop.
def askedPages (size : Nat) : List Elf32Phdr → List (Nat × Nat)
  | [] => []
  | ph :: rest =>
    if ¬Loadable ph then askedPages size rest
    else if ph.Fits size then ph.pages ++ askedPages size rest
    else ph.pages

-- The pages that a load of the file asks for.
def filePages (data : Nat → UInt8) (size : Nat) : List (Nat × Nat) :=
  if Accepted data size then askedPages size (phdrs data) else []

end Pages

end Elf
