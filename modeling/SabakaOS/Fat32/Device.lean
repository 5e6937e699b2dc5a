import SabakaOS.Library.Word
import SabakaOS.Library.ByteMemory
import SabakaOS.Library.Prog

namespace Fat32

open Word ByteMemory

abbrev Buffer := Nat → UInt8

-- The driver function on whose behalf a sector is moved or a buffer is taken from the heap.
inductive Site where
  | init
  | alloc
  | freeChain
  | readdir
  | read
  | write
  | updateDirEntry
  | writeDirEntry
  | extendDir
  | mkdir
  | markDeleted
  deriving DecidableEq

inductive Xfer where
  | fatRead
  | fatWrite
  | clusterRead
  | clusterWrite
  deriving DecidableEq

inductive Event where
  | fatGet (s : Site) (cluster : Nat)
  | fatSet (s : Site) (cluster value : Nat)
  | clusterRead (s : Site) (cluster : Nat)
  | clusterWrite (s : Site) (cluster : Nat)
  | alloc (cluster entry : Nat)
  | sectorWrite (x : Xfer) (lba : Nat)
  deriving DecidableEq

structure Mount where
  mounted : Bool
  fatStartLba : Nat
  fatSizeSectors : Nat
  dataStartLba : Nat
  rootCluster : Nat
  sectorsPerClust : Nat
  bytesPerClust : Nat
  deriving DecidableEq

-- ata and heap answer the n-th sector transfer and the n-th kmalloc; trace is a record of what
-- was done, latest first, that no function reads.
structure World where
  disk : Nat → UInt8
  present : Bool
  sectorCount : Nat
  mount : Mount
  fatCache : Buffer
  fatCacheLba : Nat
  fatCacheDirty : Bool
  ata : Site → Xfer → Nat → Bool
  ataCalls : Nat
  heap : Site → Nat → Bool
  heapCalls : Nat
  trace : List Event

abbrev Drv (α : Type) := Prog World α

def noLba : Nat := 0xFFFFFFFF

def sectorAt (disk : Nat → UInt8) (lba : Nat) : Buffer := fun i => disk (512 * lba + i)

def storeSector (m : Nat → UInt8) (n : Nat) (buf : Buffer) : Nat → UInt8 :=
  fun a => if 512 * n ≤ a ∧ a < 512 * n + 512 then buf (a - 512 * n) else m a

-- The disk with the pending FAT sector written back, and a FAT entry as fat_get would read it.
def view (w : World) : Nat → UInt8 :=
  if w.fatCacheDirty then storeSector w.disk w.fatCacheLba w.fatCache else w.disk

def viewEntry (w : World) (cluster : Nat) : Nat :=
  readLE (view w) 4 (512 * w.mount.fatStartLba + 4 * cluster) % 0x10000000

def log (e : Event) : Drv Unit := Prog.modify fun w => { w with trace := e :: w.trace }

def ataReadSectors (s : Site) (x : Xfer) (lba : Nat) : Drv (Option Buffer) := fun w =>
  let w' := { w with ataCalls := w.ataCalls + 1 }
  if w.present && w.ata s x w.ataCalls then (some (some (sectorAt w.disk lba)), w')
  else (some none, w')

def ataWriteSectors (s : Site) (x : Xfer) (lba : Nat) (buf : Buffer) : Drv Bool := fun w =>
  let w' := { w with ataCalls := w.ataCalls + 1 }
  if w.present && w.ata s x w.ataCalls then
    (some true, { w' with
      disk := storeSector w.disk lba buf
      trace := .sectorWrite x lba :: w.trace })
  else (some false, w')

def kmalloc (s : Site) : Drv Bool := fun w =>
  (some (w.heap s w.heapCalls), { w with heapCalls := w.heapCalls + 1 })

end Fat32
