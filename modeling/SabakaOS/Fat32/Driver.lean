import SabakaOS.Fat32.Directory

namespace Fat32

open Word ByteMemory Prog

structure Bpb where
  bytesPerSector : Nat
  sectorsPerCluster : Nat
  reservedSectors : Nat
  numFats : Nat
  totalSectors16 : Nat
  totalSectors32 : Nat
  fatSize32 : Nat
  rootCluster : Nat

def bpbOf (sector : Buffer) : Bpb :=
  { bytesPerSector := readLE sector 2 11
    sectorsPerCluster := (sector 13).toNat
    reservedSectors := readLE sector 2 14
    numFats := (sector 16).toNat
    totalSectors16 := readLE sector 2 19
    totalSectors32 := readLE sector 4 32
    fatSize32 := readLE sector 4 36
    rootCluster := readLE sector 4 44 }

def isFat32Type (t : UInt8) : Bool := t = 0x0B || t = 0x0C || t = 0x1B || t = 0x1C

def mountOf (partitionLba : Nat) (bpb : Bpb) : Mount :=
  let fatStart := u32 (partitionLba + bpb.reservedSectors)
  { mounted := true
    fatStartLba := fatStart
    fatSizeSectors := bpb.fatSize32
    dataStartLba := u32 (fatStart + u32 (bpb.numFats * bpb.fatSize32))
    rootCluster := bpb.rootCluster
    sectorsPerClust := bpb.sectorsPerCluster
    bytesPerClust := 512 * bpb.sectorsPerCluster }

def fat32Mount (partitionLba : Nat) (sector : Buffer) : Drv Bool := do
  let bpb := bpbOf sector
  if bpb.bytesPerSector ≠ 512 ∨ bpb.numFats = 0 ∨ bpb.fatSize32 = 0 then pure false
  else do
    modify fun w => { w with
      mount := mountOf partitionLba bpb
      fatCacheLba := noLba
      fatCacheDirty := false }
    pure true

def fat32Init : Drv Bool := do
  modify fun w => { w with mount := { w.mount with mounted := false } }
  let w ← get
  if !w.present then pure false
  else do
    let r ← ataReadSectors .init .clusterRead 0
    match r with
    | none => pure false
    | some sector =>
      if sector 510 ≠ 0x55 ∨ sector 511 ≠ 0xAA then pure false
      else if isFat32Type (sector 450) then do
        let partitionLba := readLE sector 4 454
        let r ← ataReadSectors .init .clusterRead partitionLba
        match r with
        | none => pure false
        | some sector => fat32Mount partitionLba sector
      else fat32Mount 0 sector

def skipClusters : Nat → Nat → Drv Nat
  | 0, cluster => pure cluster
  | n + 1, cluster =>
    if cluster < fat32Eof then do
      let cluster ← fatGet .read cluster
      skipClusters n cluster
    else pure cluster

-- The bytes copied into the caller's buffer so far are got.
def readLoop : Nat → Nat → Nat → Nat → List UInt8 → Drv (Except Int (List UInt8))
  | 0, _, _, _, _ => stopped
  | fuel + 1, cluster, clustOff, size, got =>
    if 0 < size ∧ 2 ≤ cluster ∧ cluster < fat32Eof then do
      let r ← clusterRead .read cluster
      match r with
      | none => pure (.error fat32ErrIo)
      | some buf => do
        let w ← get
        let avail := sub32 w.mount.bytesPerClust clustOff
        let toCopy := if size < avail then size else avail
        let cluster ← fatGet .read cluster
        readLoop fuel cluster 0 (size - toCopy) (got ++ readBytes buf toCopy clustOff)
    else pure (.ok got)

-- The bytes read, in place of their number and the caller's buffer.
def fat32Read (fuel : Nat) (entry : Fat32Entry) (offset size : Nat) :
    Drv (Except Int (List UInt8)) := do
  let w ← get
  if !w.mount.mounted then pure (.error fat32ErrInval)
  else if hasAttr entry.attr attrDirectory then pure (.error fat32ErrIsdir)
  else if entry.size ≤ offset then pure (.ok [])
  else do
    let size := if entry.size < u32 (offset + size) then entry.size - offset else size
    if size = 0 then pure (.ok [])
    else do
      let ok ← kmalloc .read
      if !ok then pure (.error fat32ErrIo)
      else do
        let cluster ← skipClusters (offset / w.mount.bytesPerClust) entry.cluster
        readLoop fuel cluster (offset % w.mount.bytesPerClust) size []

-- The next cluster of a chain that is being written, allocated where the chain ends.
def nextOrNew (cur : Nat) : Drv (Option Nat) := do
  let next ← fatGet .write cur
  if fat32Eof ≤ next ∨ next < 2 then do
    let newC ← fatAllocCluster
    if newC = 0 then pure none
    else do
      let _ ← fatSet .write cur newC
      pure (some newC)
  else pure (some next)

def seekOrGrow : Nat → Nat → Drv (Option Nat)
  | 0, cur => pure (some cur)
  | n + 1, cur => do
    let r ← nextOrNew cur
    match r with
    | none => pure none
    | some next => seekOrGrow n next

def writeLoop : Nat → Nat → Nat → List UInt8 → Nat → Drv (Except Int Nat)
  | 0, _, _, _, _ => stopped
  | fuel + 1, cluster, clustOff, data, written =>
    if data = [] then pure (.ok written)
    else do
      let r ← clusterRead .write cluster
      match r with
      | none => pure (.error fat32ErrIo)
      | some buf => do
        let w ← get
        let avail := sub32 w.mount.bytesPerClust clustOff
        let toWrite := if data.length < avail then data.length else avail
        let ok ← clusterWrite .write cluster (writeBytes buf clustOff (data.take toWrite))
        if !ok then pure (.error fat32ErrIo)
        else if data.drop toWrite = [] then pure (.ok (written + toWrite))
        else do
          let r ← nextOrNew cluster
          match r with
          | none => pure (.ok (written + toWrite))
          | some next => writeLoop fuel next 0 (data.drop toWrite) (written + toWrite)

def firstCluster (entry : Fat32Entry) : Drv (Option Fat32Entry) :=
  if entry.cluster = 0 then do
    let c ← fatAllocCluster
    if c = 0 then pure none
    else do
      let _ ← updateDirEntry entry.dirCluster entry.dirIndex c entry.size
      pure (some { entry with cluster := c })
  else pure (some entry)

-- The returned number and the caller's entry after the call.
def fat32Write (fuel : Nat) (entry : Fat32Entry) (data : List UInt8) (offset : Nat) :
    Drv (Int × Fat32Entry) := do
  let w ← get
  if !w.mount.mounted then pure (fat32ErrInval, entry)
  else if hasAttr entry.attr attrDirectory then pure (fat32ErrIsdir, entry)
  else do
    let ok ← kmalloc .write
    if !ok then pure (fat32ErrIo, entry)
    else do
      let r ← firstCluster entry
      match r with
      | none => pure (fat32ErrNospace, entry)
      | some entry => do
        let r ← seekOrGrow (offset / w.mount.bytesPerClust) entry.cluster
        match r with
        | none => pure (fat32ErrNospace, entry)
        | some cluster => do
          let r ← writeLoop fuel cluster (offset % w.mount.bytesPerClust) data 0
          match r with
          | .error e => pure (e, entry)
          | .ok written => do
            let newEnd := u32 (offset + written)
            let entry := { entry with size := if entry.size < newEnd then newEnd else entry.size }
            let _ ← updateDirEntry entry.dirCluster entry.dirIndex entry.cluster entry.size
            pure ((written : Int), entry)

def fat32Create (fuel dirCluster : Nat) (name : List UInt8) : Drv (Except Int Fat32Entry) := do
  let w ← get
  if !w.mount.mounted then pure (.error fat32ErrInval)
  else do
    let existing ← fat32Find fuel dirCluster name
    match existing with
    | .ok _ => pure (.error fat32ErrExist)
    | .error _ => do
      let r ← writeDirEntry fuel dirCluster name attrArchive 0 0
      match r with
      | .error e => pure (.error e)
      | .ok rawIdx => pure (.ok
        { name := name
          attr := attrArchive
          cluster := 0
          size := 0
          dirCluster := dirCluster
          dirIndex := rawIdx })

-- A slot for '.' or '..': blank-padded name, directory attribute and cluster, the rest zero.
def dotSlot (name : List UInt8) (cluster : Nat) : List UInt8 :=
  padTo 11 name ++ [attrDirectory] ++ List.replicate 8 0 ++ le 2 (cluster / 65536) ++
    List.replicate 4 0 ++ le 2 cluster ++ List.replicate 4 0

def newDirBuffer (newC parentC : Nat) : Buffer :=
  writeBytes (writeBytes (fun _ => 0) 0 (dotSlot dotName newC)) 32 (dotSlot dotdotName parentC)

def fat32Mkdir (fuel dirCluster : Nat) (name : List UInt8) : Drv (Except Int Fat32Entry) := do
  let w ← get
  if !w.mount.mounted then pure (.error fat32ErrInval)
  else do
    let existing ← fat32Find fuel dirCluster name
    match existing with
    | .ok _ => pure (.error fat32ErrExist)
    | .error _ => do
      let newC ← fatAllocCluster
      if newC = 0 then pure (.error fat32ErrNospace)
      else do
        let ok ← kmalloc .mkdir
        if !ok then do
          let _ ← fatSet .mkdir newC 0
          pure (.error fat32ErrIo)
        else do
          let _ ← clusterWrite .mkdir newC (newDirBuffer newC (dirHead w.mount dirCluster))
          let r ← writeDirEntry fuel dirCluster name attrDirectory newC 0
          match r with
          | .error e => do
            fatFreeChain fuel newC
            pure (.error e)
          | .ok rawIdx => pure (.ok
            { name := name
              attr := attrDirectory
              cluster := newC
              size := 0
              dirCluster := dirCluster
              dirIndex := rawIdx })

def fat32Unlink (fuel : Nat) (entry : Fat32Entry) : Drv Int := do
  let w ← get
  if !w.mount.mounted then pure fat32ErrInval
  else if hasAttr entry.attr attrDirectory then pure fat32ErrIsdir
  else do
    fatFreeChain fuel entry.cluster
    markDeleted entry.dirCluster entry.dirIndex

-- some r ends fat32_rmdir with r, none lets it go on to free the chain.
def rmdirScan (fuel cluster : Nat) : Nat → Nat → Drv (Option Int)
  | 0, _ => stopped
  | n + 1, i => do
    let r ← fat32Readdir fuel cluster i
    match r with
    | .error e => pure (if e = fat32ErrNoent then none else some e)
    | .ok child =>
      if isDots child.name then rmdirScan fuel cluster n (i + 1) else pure (some fat32ErrExist)

def fat32Rmdir (fuel : Nat) (entry : Fat32Entry) : Drv Int := do
  let w ← get
  if !w.mount.mounted then pure fat32ErrInval
  else if !hasAttr entry.attr attrDirectory then pure fat32ErrNotdir
  else do
    let r ← rmdirScan fuel entry.cluster fuel 0
    match r with
    | some e => pure e
    | none => do
      fatFreeChain fuel entry.cluster
      markDeleted entry.dirCluster entry.dirIndex

-- The returned code and the caller's entry after the call.
def fat32Rename (fuel : Nat) (entry : Fat32Entry) (newDirCluster : Nat) (newName : List UInt8) :
    Drv (Int × Fat32Entry) := do
  let w ← get
  if !w.mount.mounted then pure (fat32ErrInval, entry)
  else do
    let r ← writeDirEntry fuel newDirCluster newName entry.attr entry.cluster entry.size
    match r with
    | .error e => pure (e, entry)
    | .ok newRawIdx => do
      let r ← markDeleted entry.dirCluster entry.dirIndex
      if r ≠ fat32Ok then pure (r, entry)
      else pure (fat32Ok, { entry with
        name := newName
        dirCluster := newDirCluster
        dirIndex := newRawIdx })

end Fat32
