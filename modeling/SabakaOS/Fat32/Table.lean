import SabakaOS.Fat32.Device

namespace Fat32

open Word ByteMemory Prog

def fat32Eof : Nat := 0x0FFFFFFF

def clusterToLba (m : Mount) (cluster : Nat) : Nat :=
  u32 (m.dataStartLba + u32 (sub32 cluster 2 * m.sectorsPerClust))

def fatFlushCache (s : Site) : Drv Bool := do
  let w ← get
  if !w.fatCacheDirty then pure true
  else do
    let ok ← ataWriteSectors s .fatWrite w.fatCacheLba w.fatCache
    if !ok then pure false
    else do
      modify fun w => { w with fatCacheDirty := false }
      pure true

def fatReadSector (s : Site) (lba : Nat) : Drv Bool := do
  let w ← get
  if w.fatCacheLba = lba then pure true
  else do
    let ok ← fatFlushCache s
    if !ok then pure false
    else do
      let r ← ataReadSectors s .fatRead lba
      match r with
      | none => pure false
      | some sector => do
        modify fun w => { w with fatCache := sector, fatCacheLba := lba }
        pure true

def fatLba (m : Mount) (fatNum cluster : Nat) : Nat :=
  u32 (m.fatStartLba + u32 (fatNum * m.fatSizeSectors) + u32 (cluster * 4) / 512)

def fatOff (cluster : Nat) : Nat := u32 (cluster * 4) % 512

-- Masking with 0x0FFFFFFF is taking the remainder mod 2^28.
def fatGet (s : Site) (cluster : Nat) : Drv Nat := do
  log (.fatGet s cluster)
  let w ← get
  let ok ← fatReadSector s (fatLba w.mount 0 cluster)
  if !ok then pure 0
  else do
    let w ← get
    pure (readLE w.fatCache 4 (fatOff cluster) % 0x10000000)

-- The four byte stores, keeping the high nibble of the old entry.
def putEntry (cache : Buffer) (off value : Nat) : Buffer :=
  writeLE cache 4 off (value + (cache (off + 3)).toNat / 16 * 16 * 0x1000000)

def fatSetCopy (s : Site) (cluster value fatNum : Nat) : Drv Bool := do
  let w ← get
  let ok ← fatReadSector s (fatLba w.mount fatNum cluster)
  if !ok then pure false
  else do
    modify fun w => { w with
      fatCache := putEntry w.fatCache (fatOff cluster) value
      fatCacheDirty := true }
    fatFlushCache s

def fatSet (s : Site) (cluster value : Nat) : Drv Bool := do
  log (.fatSet s cluster (value % 0x10000000))
  let ok ← fatSetCopy s cluster (value % 0x10000000) 0
  if !ok then pure false
  else fatSetCopy s cluster (value % 0x10000000) 1

def fatAllocFrom : Nat → Nat → Drv Nat
  | 0, _ => pure 0
  | n + 1, c => do
    let v ← fatGet .alloc c
    if v = 0 then do
      modify fun w => { w with trace := .alloc c (viewEntry w c) :: w.trace }
      let _ ← fatSet .alloc c fat32Eof
      pure c
    else fatAllocFrom n (c + 1)

def fatAllocCluster : Drv Nat := do
  let w ← get
  fatAllocFrom (w.sectorCount / w.mount.sectorsPerClust - 2) 2

def fatFreeChain : Nat → Nat → Drv Unit
  | 0, _ => stopped
  | fuel + 1, start =>
    if 2 ≤ start ∧ start < fat32Eof then do
      let next ← fatGet .freeChain start
      let _ ← fatSet .freeChain start 0
      fatFreeChain fuel next
    else pure ()

def clusterReadFrom (s : Site) (lba : Nat) : Nat → Nat → Buffer → Drv (Option Buffer)
  | 0, _, buf => pure (some buf)
  | n + 1, i, buf => do
    let r ← ataReadSectors s .clusterRead (u32 (lba + i))
    match r with
    | none => pure none
    | some sector => clusterReadFrom s lba n (i + 1) (storeSector buf i sector)

def clusterRead (s : Site) (cluster : Nat) : Drv (Option Buffer) := do
  log (.clusterRead s cluster)
  let w ← get
  clusterReadFrom s (clusterToLba w.mount cluster) w.mount.sectorsPerClust 0 (fun _ => 0)

def clusterWriteFrom (s : Site) (lba : Nat) (buf : Buffer) : Nat → Nat → Drv Bool
  | 0, _ => pure true
  | n + 1, i => do
    let ok ← ataWriteSectors s .clusterWrite (u32 (lba + i)) (sectorAt buf i)
    if !ok then pure false
    else clusterWriteFrom s lba buf n (i + 1)

def clusterWrite (s : Site) (cluster : Nat) (buf : Buffer) : Drv Bool := do
  log (.clusterWrite s cluster)
  let w ← get
  clusterWriteFrom s (clusterToLba w.mount cluster) buf w.mount.sectorsPerClust 0

end Fat32
