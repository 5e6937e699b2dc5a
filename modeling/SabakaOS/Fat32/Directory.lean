import SabakaOS.Fat32.Table
import SabakaOS.Fat32.Names

namespace Fat32

open Word ByteMemory Prog

def fat32Ok : Int := 0

def fat32ErrIo : Int := -1

def fat32ErrNoent : Int := -2

def fat32ErrNotdir : Int := -3

def fat32ErrIsdir : Int := -4

def fat32ErrNospace : Int := -5

def fat32ErrExist : Int := -6

def fat32ErrInval : Int := -7

def attrVolumeId : UInt8 := 0x08

def attrDirectory : UInt8 := 0x10

def attrArchive : UInt8 := 0x20

def attrLfn : UInt8 := 0x0F

structure Fat32Entry where
  name : List UInt8
  attr : UInt8
  cluster : Nat
  size : Nat
  dirCluster : Nat
  dirIndex : Nat
  deriving DecidableEq

def slotOf (buf : Buffer) (i : Nat) : Slot := fun j => if j < 32 then buf (32 * i + j) else 0

def slotAttr (s : Slot) : UInt8 := s 11

def slotCluster (s : Slot) : Nat := readLE s 2 20 * 65536 + readLE s 2 26

def slotSize (s : Slot) : Nat := readLE s 4 28

def slotName (lfns : List Slot) (s : Slot) : List UInt8 :=
  if lfns ≠ [] then lfnCollect lfns else parse83Name s

def hasAttr (attr mask : UInt8) : Bool := attr &&& mask != 0

structure Scan where
  rawIdx : Nat
  entryIdx : Nat
  lfns : List Slot

def scanStart : Scan := { rawIdx := 0, entryIdx := 0, lfns := [] }

inductive Scanned where
  | next (st : Scan)
  | noent
  | found (e : Fat32Entry)

-- The for loop of fat32_readdir over the n slots from slot i of one cluster on.
def readdirSlots (dirCluster index : Nat) (buf : Buffer) : Nat → Nat → Scan → Scanned
  | 0, _, st => .next st
  | n + 1, i, st =>
    let de := slotOf buf i
    if de 0 = 0x00 then .noent
    else if de 0 = 0xE5 then
      readdirSlots dirCluster index buf n (i + 1) { st with rawIdx := st.rawIdx + 1, lfns := [] }
    else if slotAttr de = attrLfn then
      readdirSlots dirCluster index buf n (i + 1) { st with
        rawIdx := st.rawIdx + 1
        lfns := if st.lfns.length < 20 then de :: st.lfns else st.lfns }
    else if hasAttr (slotAttr de) attrVolumeId then
      readdirSlots dirCluster index buf n (i + 1) { st with rawIdx := st.rawIdx + 1, lfns := [] }
    else if st.entryIdx = index then
      .found
        { name := slotName st.lfns de
          attr := slotAttr de
          cluster := slotCluster de
          size := slotSize de
          dirCluster := dirCluster
          dirIndex := st.rawIdx }
    else
      readdirSlots dirCluster index buf n (i + 1)
        { rawIdx := st.rawIdx + 1, entryIdx := st.entryIdx + 1, lfns := [] }

def entriesPerClust (m : Mount) : Nat := m.bytesPerClust / 32

def readdirFrom (dirCluster index : Nat) : Nat → Nat → Scan → Drv (Except Int Fat32Entry)
  | 0, _, _ => stopped
  | fuel + 1, cur, st =>
    if cur < fat32Eof ∧ 2 ≤ cur then do
      let r ← clusterRead .readdir cur
      match r with
      | none => pure (.error fat32ErrIo)
      | some buf => do
        let w ← get
        match readdirSlots dirCluster index buf (entriesPerClust w.mount) 0 st with
        | .noent => pure (.error fat32ErrNoent)
        | .found e => pure (.ok e)
        | .next st => do
          let cur ← fatGet .readdir cur
          readdirFrom dirCluster index fuel cur st
    else pure (.error fat32ErrNoent)

def dirHead (m : Mount) (dirCluster : Nat) : Nat :=
  if dirCluster ≠ 0 then dirCluster else m.rootCluster

def fat32Readdir (fuel dirCluster index : Nat) : Drv (Except Int Fat32Entry) := do
  let w ← get
  if !w.mount.mounted then pure (.error fat32ErrInval)
  else do
    let ok ← kmalloc .readdir
    if !ok then pure (.error fat32ErrIo)
    else readdirFrom dirCluster index fuel (dirHead w.mount dirCluster) scanStart

def findFrom (fuel dirCluster : Nat) (name : List UInt8) : Nat → Nat → Drv (Except Int Fat32Entry)
  | 0, _ => stopped
  | n + 1, i => do
    let r ← fat32Readdir fuel dirCluster i
    match r with
    | .error e => pure (.error e)
    | .ok e =>
      if isDots e.name then findFrom fuel dirCluster name n (i + 1)
      else if kstricmp e.name name = 0 then pure (.ok e)
      else findFrom fuel dirCluster name n (i + 1)

def fat32Find (fuel dirCluster : Nat) (name : List UInt8) : Drv (Except Int Fat32Entry) :=
  findFrom fuel dirCluster name fuel 0

-- The walk to the cluster of a slot, as update_dir_entry and mark_deleted both contain it.
def walkTo (s : Site) : Nat → Nat → Drv (Option Nat)
  | 0, cur => pure (some cur)
  | n + 1, cur => do
    let cur ← fatGet s cur
    if cur < 2 ∨ fat32Eof ≤ cur then pure none else walkTo s n cur

def editSlot (s : Site) (dirCluster rawIdx : Nat) (edit : Buffer → Nat → Buffer) : Drv Int := do
  let w ← get
  let r ← walkTo s (rawIdx / entriesPerClust w.mount) (dirHead w.mount dirCluster)
  match r with
  | none => pure fat32ErrNoent
  | some cur => do
    let ok ← kmalloc s
    if !ok then pure fat32ErrIo
    else do
      let r ← clusterRead s cur
      match r with
      | none => pure fat32ErrIo
      | some buf => do
        let ok ← clusterWrite s cur (edit buf (rawIdx % entriesPerClust w.mount))
        pure (if ok then fat32Ok else fat32ErrIo)

def updateSlot (cluster size : Nat) (buf : Buffer) (i : Nat) : Buffer :=
  writeLE (writeLE (writeLE buf 2 (32 * i + 20) (cluster / 65536)) 2 (32 * i + 26) cluster) 4
    (32 * i + 28) size

def updateDirEntry (dirCluster rawIdx cluster size : Nat) : Drv Int :=
  editSlot .updateDirEntry dirCluster rawIdx (updateSlot cluster size)

def deleteSlot (buf : Buffer) (i : Nat) : Buffer := Function.update buf (32 * i) 0xE5

def markDeleted (dirCluster rawIdx : Nat) : Drv Int :=
  editSlot .markDeleted dirCluster rawIdx deleteSlot

def le (n v : Nat) : List UInt8 := readBytes (writeLE (fun _ => 0) n 0 v) n 0

def dateStamp : Nat := 0x5821

-- The slot write_dir_entry stores, all 32 bytes of it.
def newSlot (name : List UInt8) (attr : UInt8) (cluster size : Nat) : List UInt8 :=
  make83 name ++ [attr, 0, 0] ++ le 2 0 ++ le 2 dateStamp ++ le 2 dateStamp ++
    le 2 (cluster / 65536) ++ le 2 0 ++ le 2 dateStamp ++ le 2 cluster ++ le 4 size

def freeSlot (buf : Buffer) : Nat → Nat → Option Nat
  | 0, _ => none
  | n + 1, i =>
    if slotOf buf i 0 = 0x00 ∨ slotOf buf i 0 = 0xE5 then some i else freeSlot buf n (i + 1)

def writeDirEntryFrom (slot : List UInt8) : Nat → Nat → Nat → Drv (Except Int Nat)
  | 0, _, _ => stopped
  | fuel + 1, cur, rawIdx =>
    if 2 ≤ cur ∧ cur < fat32Eof then do
      let r ← clusterRead .writeDirEntry cur
      match r with
      | none => pure (.error fat32ErrIo)
      | some buf => do
        let w ← get
        match freeSlot buf (entriesPerClust w.mount) 0 with
        | some i => do
          let ok ← clusterWrite .writeDirEntry cur (writeBytes buf (32 * i) slot)
          pure (if ok then .ok (rawIdx + i) else .error fat32ErrIo)
        | none => do
          let next ← fatGet .writeDirEntry cur
          if fat32Eof ≤ next ∨ next < 2 then do
            let newC ← fatAllocCluster
            if newC = 0 then pure (.error fat32ErrNospace)
            else do
              let _ ← clusterWrite .extendDir newC (fun _ => 0)
              let _ ← fatSet .writeDirEntry cur newC
              writeDirEntryFrom slot fuel newC (rawIdx + entriesPerClust w.mount)
          else writeDirEntryFrom slot fuel next (rawIdx + entriesPerClust w.mount)
    else pure (.error fat32ErrNospace)

def writeDirEntry (fuel dirCluster : Nat) (name : List UInt8) (attr : UInt8) (cluster size : Nat) :
    Drv (Except Int Nat) := do
  let w ← get
  let ok ← kmalloc .writeDirEntry
  if !ok then pure (.error fat32ErrIo)
  else writeDirEntryFrom (newSlot name attr cluster size) fuel (dirHead w.mount dirCluster) 0

end Fat32
