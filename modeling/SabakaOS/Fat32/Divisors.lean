import SabakaOS.Fat32.Regions
import SabakaOS.Fat32.Onward

namespace Fat32

open Word ByteMemory Prog

-- The numbers that something other than a constant has been divided by, latest first.
structure Divided where
  world : World
  divisors : List Nat

abbrev Counted (α : Type) := Prog Divided α

namespace Divided

def plain {α : Type} (p : Drv α) : Counted α := fun s =>
  ((p s.world).1, { s with world := (p s.world).2 })

def getWorld : Counted World := plain get

def quotient (a b : Nat) : Counted Nat := fun s =>
  (some (a / b), { s with divisors := b :: s.divisors })

def remainder (a b : Nat) : Counted Nat := fun s =>
  (some (a % b), { s with divisors := b :: s.divisors })

def fatAllocCluster : Counted Nat := do
  let w ← getWorld
  let max ← quotient w.sectorCount w.mount.sectorsPerClust
  plain (fatAllocFrom (max - 2) 2)

def fat32Read (fuel : Nat) (entry : Fat32Entry) (offset size : Nat) :
    Counted (Except Int (List UInt8)) := do
  let w ← getWorld
  if !w.mount.mounted then pure (.error fat32ErrInval)
  else if hasAttr entry.attr attrDirectory then pure (.error fat32ErrIsdir)
  else if entry.size ≤ offset then pure (.ok [])
  else do
    let size := if entry.size < u32 (offset + size) then entry.size - offset else size
    if size = 0 then pure (.ok [])
    else do
      let ok ← plain (kmalloc .read)
      if !ok then pure (.error fat32ErrIo)
      else do
        let clustIdxStart ← quotient offset w.mount.bytesPerClust
        let clustOff ← remainder offset w.mount.bytesPerClust
        let cluster ← plain (skipClusters clustIdxStart entry.cluster)
        plain (readLoop fuel cluster clustOff size [])

def nextOrNew (cur : Nat) : Counted (Option Nat) := do
  let next ← plain (fatGet .write cur)
  if fat32Eof ≤ next ∨ next < 2 then do
    let newC ← fatAllocCluster
    if newC = 0 then pure none
    else do
      let _ ← plain (fatSet .write cur newC)
      pure (some newC)
  else pure (some next)

def seekOrGrow : Nat → Nat → Counted (Option Nat)
  | 0, cur => pure (some cur)
  | n + 1, cur => do
    let r ← nextOrNew cur
    match r with
    | none => pure none
    | some next => seekOrGrow n next

def writeLoop : Nat → Nat → Nat → List UInt8 → Nat → Counted (Except Int Nat)
  | 0, _, _, _, _ => stopped
  | fuel + 1, cluster, clustOff, data, written =>
    if data = [] then pure (.ok written)
    else do
      let r ← plain (clusterRead .write cluster)
      match r with
      | none => pure (.error fat32ErrIo)
      | some buf => do
        let w ← getWorld
        let avail := sub32 w.mount.bytesPerClust clustOff
        let toWrite := if data.length < avail then data.length else avail
        let ok ← plain (clusterWrite .write cluster (writeBytes buf clustOff (data.take toWrite)))
        if !ok then pure (.error fat32ErrIo)
        else if data.drop toWrite = [] then pure (.ok (written + toWrite))
        else do
          let r ← nextOrNew cluster
          match r with
          | none => pure (.ok (written + toWrite))
          | some next => writeLoop fuel next 0 (data.drop toWrite) (written + toWrite)

def editSlotFrom (s : Site) (w : World) (dirCluster rawIdx : Nat) (edit : Buffer → Nat → Buffer)
    (clustN : Nat) : Counted Int := do
  let localI ← remainder rawIdx (entriesPerClust w.mount)
  let r ← plain (walkTo s clustN (dirHead w.mount dirCluster))
  match r with
  | none => pure fat32ErrNoent
  | some cur => do
    let ok ← plain (kmalloc s)
    if !ok then pure fat32ErrIo
    else do
      let r ← plain (clusterRead s cur)
      match r with
      | none => pure fat32ErrIo
      | some buf => do
        let ok ← plain (clusterWrite s cur (edit buf localI))
        pure (if ok then fat32Ok else fat32ErrIo)

def editSlot (s : Site) (dirCluster rawIdx : Nat) (edit : Buffer → Nat → Buffer) : Counted Int := do
  let w ← getWorld
  let clustN ← quotient rawIdx (entriesPerClust w.mount)
  editSlotFrom s w dirCluster rawIdx edit clustN

def updateDirEntry (dirCluster rawIdx cluster size : Nat) : Counted Int :=
  editSlot .updateDirEntry dirCluster rawIdx (updateSlot cluster size)

def markDeleted (dirCluster rawIdx : Nat) : Counted Int :=
  editSlot .markDeleted dirCluster rawIdx deleteSlot

def firstCluster (entry : Fat32Entry) : Counted (Option Fat32Entry) :=
  if entry.cluster = 0 then do
    let c ← fatAllocCluster
    if c = 0 then pure none
    else do
      let _ ← updateDirEntry entry.dirCluster entry.dirIndex c entry.size
      pure (some { entry with cluster := c })
  else pure (some entry)

def fat32Write (fuel : Nat) (entry : Fat32Entry) (data : List UInt8) (offset : Nat) :
    Counted (Int × Fat32Entry) := do
  let w ← getWorld
  if !w.mount.mounted then pure (fat32ErrInval, entry)
  else if hasAttr entry.attr attrDirectory then pure (fat32ErrIsdir, entry)
  else do
    let ok ← plain (kmalloc .write)
    if !ok then pure (fat32ErrIo, entry)
    else do
      let r ← firstCluster entry
      match r with
      | none => pure (fat32ErrNospace, entry)
      | some entry => do
        let clustIdxStart ← quotient offset w.mount.bytesPerClust
        let clustOff ← remainder offset w.mount.bytesPerClust
        let r ← seekOrGrow clustIdxStart entry.cluster
        match r with
        | none => pure (fat32ErrNospace, entry)
        | some cluster => do
          let r ← writeLoop fuel cluster clustOff data 0
          match r with
          | .error e => pure (e, entry)
          | .ok written => do
            let newEnd := u32 (offset + written)
            let entry := { entry with size := if entry.size < newEnd then newEnd else entry.size }
            let _ ← updateDirEntry entry.dirCluster entry.dirIndex entry.cluster entry.size
            pure ((written : Int), entry)

def writeDirEntryFrom (slot : List UInt8) : Nat → Nat → Nat → Counted (Except Int Nat)
  | 0, _, _ => stopped
  | fuel + 1, cur, rawIdx =>
    if 2 ≤ cur ∧ cur < fat32Eof then do
      let r ← plain (clusterRead .writeDirEntry cur)
      match r with
      | none => pure (.error fat32ErrIo)
      | some buf => do
        let w ← getWorld
        match freeSlot buf (entriesPerClust w.mount) 0 with
        | some i => do
          let ok ← plain (clusterWrite .writeDirEntry cur (writeBytes buf (32 * i) slot))
          pure (if ok then .ok (rawIdx + i) else .error fat32ErrIo)
        | none => do
          let next ← plain (fatGet .writeDirEntry cur)
          if fat32Eof ≤ next ∨ next < 2 then do
            let newC ← fatAllocCluster
            if newC = 0 then pure (.error fat32ErrNospace)
            else do
              let _ ← plain (clusterWrite .extendDir newC (fun _ => 0))
              let _ ← plain (fatSet .writeDirEntry cur newC)
              writeDirEntryFrom slot fuel newC (rawIdx + entriesPerClust w.mount)
          else writeDirEntryFrom slot fuel next (rawIdx + entriesPerClust w.mount)
    else pure (.error fat32ErrNospace)

def writeDirEntry (fuel dirCluster : Nat) (name : List UInt8) (attr : UInt8) (cluster size : Nat) :
    Counted (Except Int Nat) := do
  let w ← getWorld
  let ok ← plain (kmalloc .writeDirEntry)
  if !ok then pure (.error fat32ErrIo)
  else writeDirEntryFrom (newSlot name attr cluster size) fuel (dirHead w.mount dirCluster) 0

def fat32Create (fuel dirCluster : Nat) (name : List UInt8) :
    Counted (Except Int Fat32Entry) := do
  let w ← getWorld
  if !w.mount.mounted then pure (.error fat32ErrInval)
  else do
    let existing ← plain (fat32Find fuel dirCluster name)
    match existing with
    | .ok _ => pure (.error fat32ErrExist)
    | .error _ => do
      let r ← writeDirEntry fuel dirCluster name attrArchive 0 0
      match r with
      | .error e => pure (.error e)
      | .ok rawIdx => pure (.ok
        { name := name
          attr := attrArchive
          cluster := 0
          size := 0
          dirCluster := dirCluster
          dirIndex := rawIdx })

def fat32Mkdir (fuel dirCluster : Nat) (name : List UInt8) : Counted (Except Int Fat32Entry) := do
  let w ← getWorld
  if !w.mount.mounted then pure (.error fat32ErrInval)
  else do
    let existing ← plain (fat32Find fuel dirCluster name)
    match existing with
    | .ok _ => pure (.error fat32ErrExist)
    | .error _ => do
      let newC ← fatAllocCluster
      if newC = 0 then pure (.error fat32ErrNospace)
      else do
        let ok ← plain (kmalloc .mkdir)
        if !ok then do
          let _ ← plain (fatSet .mkdir newC 0)
          pure (.error fat32ErrIo)
        else do
          let _ ← plain (clusterWrite .mkdir newC
            (newDirBuffer newC (dirHead w.mount dirCluster)))
          let r ← writeDirEntry fuel dirCluster name attrDirectory newC 0
          match r with
          | .error e => do
            plain (fatFreeChain fuel newC)
            pure (.error e)
          | .ok rawIdx => pure (.ok
            { name := name
              attr := attrDirectory
              cluster := newC
              size := 0
              dirCluster := dirCluster
              dirIndex := rawIdx })

def fat32Unlink (fuel : Nat) (entry : Fat32Entry) : Counted Int := do
  let w ← getWorld
  if !w.mount.mounted then pure fat32ErrInval
  else if hasAttr entry.attr attrDirectory then pure fat32ErrIsdir
  else do
    plain (fatFreeChain fuel entry.cluster)
    markDeleted entry.dirCluster entry.dirIndex

def fat32Rmdir (fuel : Nat) (entry : Fat32Entry) : Counted Int := do
  let w ← getWorld
  if !w.mount.mounted then pure fat32ErrInval
  else if !hasAttr entry.attr attrDirectory then pure fat32ErrNotdir
  else do
    let r ← plain (rmdirScan fuel entry.cluster fuel 0)
    match r with
    | some e => pure e
    | none => do
      plain (fatFreeChain fuel entry.cluster)
      markDeleted entry.dirCluster entry.dirIndex

def fat32Rename (fuel : Nat) (entry : Fat32Entry) (newDirCluster : Nat) (newName : List UInt8) :
    Counted (Int × Fat32Entry) := do
  let w ← getWorld
  if !w.mount.mounted then pure (fat32ErrInval, entry)
  else do
    let r ← writeDirEntry fuel newDirCluster newName entry.attr entry.cluster entry.size
    match r with
    | .error e => pure (e, entry)
    | .ok newRawIdx => do
      let r ← markDeleted entry.dirCluster entry.dirIndex
      if r ≠ fat32Ok then pure (r, entry)
      else pure (fat32Ok, { entry with
        name := newName
        dirCluster := newDirCluster
        dirIndex := newRawIdx })

end Divided

def Keeps {α : Type} (p : Drv α) : Prop := ∀ w, (p w).2.mount = w.mount

theorem Onward.keeps {α : Type} {p : Drv α} (h : Onward p) : Keeps p := fun w => (h w).mount

def divisorsOf (m : Mount) : List Nat := [m.sectorsPerClust, m.bytesPerClust, entriesPerClust m]

-- On a volume with mount m the instrumented function does what the driver's does and divides by
-- numbers derived from m only.
def Follows {α : Type} (m : Mount) (p : Counted α) (q : Drv α) : Prop :=
  ∀ s, s.world.mount = m → (p s).1 = (q s.world).1 ∧ (p s).2.world = (q s.world).2 ∧
    (p s).2.world.mount = m ∧
    ∃ new, (p s).2.divisors = new ++ s.divisors ∧ ∀ d ∈ new, d ∈ divisorsOf m

section Follows

variable {α β : Type} {m : Mount} {p : Counted α} {q : Drv α} {f : α → Counted β} {g : α → Drv β}

theorem Follows.plain (h : Keeps q) : Follows m (Divided.plain q) q :=
  fun s hs => ⟨rfl, rfl, (h s.world).trans hs, [], rfl, fun _ hd => absurd hd List.not_mem_nil⟩

theorem Onward.follows (h : Onward q) : Follows m (Divided.plain q) q := .plain h.keeps

theorem Follows.pure (a : α) : Follows m (pure a : Counted α) (pure a) :=
  fun _ hs => ⟨rfl, rfl, hs, [], rfl, fun _ hd => absurd hd List.not_mem_nil⟩

theorem Follows.stopped : Follows m (stopped : Counted α) stopped :=
  fun _ hs => ⟨rfl, rfl, hs, [], rfl, fun _ hd => absurd hd List.not_mem_nil⟩

theorem Follows.bind (h : Follows m p q) (hf : ∀ a, Follows m (f a) (g a)) :
    Follows m (p >>= f) (q >>= g) := by
  intro s hs
  obtain ⟨hres, hworld, hmount, new, hnew, hall⟩ := h s hs
  rcases hp : p s with ⟨r, s'⟩
  rw [hp] at hres hworld hmount hnew
  have hq : q s.world = (r, s'.world) := Prod.ext hres.symm hworld.symm
  cases r with
  | none =>
    rw [bind_stopped hp, bind_stopped hq]
    exact ⟨rfl, rfl, hmount, new, hnew, hall⟩
  | some a =>
    rw [bind_ended hp, bind_ended hq]
    obtain ⟨hres', hworld', hmount', new', hnew', hall'⟩ := hf a s' hmount
    refine ⟨hres', hworld', hmount', new' ++ new, ?_, fun d hd => ?_⟩
    · rw [hnew', hnew, List.append_assoc]
    · exact (List.mem_append.mp hd).elim (hall' d) (hall d)

theorem Follows.get {f : World → Counted β} {g : World → Drv β}
    (hf : ∀ w, w.mount = m → Follows m (f w) (g w)) :
    Follows m (Divided.getWorld >>= f) (Prog.get >>= g) :=
  fun s hs => hf s.world hs s hs

theorem Follows.divided {b : Nat} {f : Nat → Counted β} {g : Drv β} {op : Nat → Nat → Counted Nat}
    {a r : Nat} (hop : ∀ s, op a b s = (some r, { s with divisors := b :: s.divisors }))
    (hb : b ∈ divisorsOf m) (hf : Follows m (f r) g) : Follows m (op a b >>= f) g := by
  intro s hs
  rw [bind_ended (hop s)]
  obtain ⟨hres, hworld, hmount, new, hnew, hall⟩ := hf { s with divisors := b :: s.divisors } hs
  refine ⟨hres, hworld, hmount, new ++ [b], ?_, fun d hd => ?_⟩
  · rw [hnew, List.append_assoc]
    rfl
  · rcases List.mem_append.mp hd with hd | hd
    · exact hall d hd
    · rwa [List.mem_singleton.mp hd]

theorem Follows.quotient {a b : Nat} {f : Nat → Counted β} {g : Drv β} (hb : b ∈ divisorsOf m)
    (hf : Follows m (f (a / b)) g) : Follows m (Divided.quotient a b >>= f) g :=
  .divided (fun _ => rfl) hb hf

theorem Follows.remainder {a b : Nat} {f : Nat → Counted β} {g : Drv β} (hb : b ∈ divisorsOf m)
    (hf : Follows m (f (a % b)) g) : Follows m (Divided.remainder a b >>= f) g :=
  .divided (fun _ => rfl) hb hf

theorem Follows.ite {c : Prop} [Decidable c] {p' : Counted α} {q' : Drv α} (h : Follows m p q)
    (h' : Follows m p' q') : Follows m (if c then p else p') (if c then q else q') := by
  split
  · exact h
  · exact h'

theorem spc_mem : m.sectorsPerClust ∈ divisorsOf m := List.mem_cons_self

theorem bpc_mem : m.bytesPerClust ∈ divisorsOf m := List.mem_cons_of_mem _ List.mem_cons_self

theorem epc_mem : entriesPerClust m ∈ divisorsOf m :=
  List.mem_cons_of_mem _ (List.mem_cons_of_mem _ List.mem_cons_self)

theorem follows_alloc : Follows m Divided.fatAllocCluster fatAllocCluster :=
  .get fun _ hw => .quotient (hw ▸ spc_mem) (onward_fatAllocFrom _ _).follows

theorem follows_read (fuel : Nat) (entry : Fat32Entry) (offset size : Nat) :
    Follows m (Divided.fat32Read fuel entry offset size) (fat32Read fuel entry offset size) := by
  refine .get fun _ hw => .ite (.pure _) (.ite (.pure _) (.ite (.pure _) ?_))
  exact .ite (.pure _) (onward_kmalloc.follows.bind fun ok => .ite (.pure _)
    (.quotient (hw ▸ bpc_mem) (.remainder (hw ▸ bpc_mem)
      ((onward_skipClusters _ _).follows.bind fun _ => (onward_readLoop _ _ _ _ _).follows))))

theorem follows_nextOrNew (cur : Nat) : Follows m (Divided.nextOrNew cur) (nextOrNew cur) :=
  (onward_fatGet _).follows.bind fun _ => .ite (follows_alloc.bind fun _ => .ite (.pure _)
    ((onward_fatSet _ _).follows.bind fun _ => .pure _)) (.pure _)

theorem follows_seekOrGrow (n cur : Nat) :
    Follows m (Divided.seekOrGrow n cur) (seekOrGrow n cur) := by
  induction n generalizing cur with
  | zero => exact .pure _
  | succ n ih =>
    refine (follows_nextOrNew _).bind fun r => ?_
    cases r with
    | none => exact .pure _
    | some next => exact ih _

theorem follows_writeLoop (fuel cluster clustOff : Nat) (data : List UInt8) (written : Nat) :
    Follows m (Divided.writeLoop fuel cluster clustOff data written)
      (writeLoop fuel cluster clustOff data written) := by
  induction fuel generalizing cluster clustOff data written with
  | zero => exact .stopped
  | succ fuel ih =>
    refine .ite (.pure _) ((onward_clusterRead _).follows.bind fun r => ?_)
    cases r with
    | none => exact .pure _
    | some buf =>
      refine .get fun w _ => (onward_clusterWrite _ _).follows.bind fun ok => .ite (.pure _)
        (.ite (.pure _) ((follows_nextOrNew _).bind fun r => ?_))
      cases r with
      | none => exact .pure _
      | some next => exact ih _ _ _ _

theorem follows_editSlotFrom (s : Site) (dirCluster rawIdx : Nat) (edit : Buffer → Nat → Buffer) :
    ∃ g, editSlot s dirCluster rawIdx edit = (get >>= g) ∧ ∀ w, w.mount = m →
      Follows m (Divided.editSlotFrom s w dirCluster rawIdx edit
        (rawIdx / entriesPerClust w.mount)) (g w) := by
  refine ⟨_, rfl, fun w hw => .remainder (hw ▸ epc_mem)
    ((onward_walkTo _ _).follows.bind fun r => ?_)⟩
  cases r with
  | none => exact .pure _
  | some cur =>
    refine onward_kmalloc.follows.bind fun ok => .ite (.pure _)
      ((onward_clusterRead _).follows.bind fun r => ?_)
    cases r with
    | none => exact .pure _
    | some buf => exact (onward_clusterWrite _ _).follows.bind fun ok => .pure _

theorem follows_editSlot (s : Site) (dirCluster rawIdx : Nat) (edit : Buffer → Nat → Buffer) :
    Follows m (Divided.editSlot s dirCluster rawIdx edit) (editSlot s dirCluster rawIdx edit) := by
  obtain ⟨g, hg, hrest⟩ := follows_editSlotFrom s dirCluster rawIdx edit
  rw [hg]
  exact .get fun w hw => .quotient (hw ▸ epc_mem) (hrest w hw)

theorem editSlot_divisor (s : Site) (dirCluster rawIdx : Nat) (edit : Buffer → Nat → Buffer)
    {c : Divided} (hc : c.world.mount = m) :
    entriesPerClust m ∈ (Divided.editSlot s dirCluster rawIdx edit c).2.divisors := by
  subst hc
  obtain ⟨g, -, hrest⟩ := follows_editSlotFrom s dirCluster rawIdx edit
  obtain ⟨-, -, -, new, hnew, -⟩ := hrest c.world rfl
    { c with divisors := entriesPerClust c.world.mount :: c.divisors } rfl
  have hlast : (Divided.editSlot s dirCluster rawIdx edit c).2.divisors =
      new ++ entriesPerClust c.world.mount :: c.divisors := hnew
  rw [hlast]
  exact List.mem_append_right _ List.mem_cons_self

theorem follows_firstCluster (entry : Fat32Entry) :
    Follows m (Divided.firstCluster entry) (firstCluster entry) :=
  .ite (follows_alloc.bind fun _ => .ite (.pure _)
    ((follows_editSlot _ _ _ _).bind fun _ => .pure _)) (.pure _)

theorem follows_write (fuel : Nat) (entry : Fat32Entry) (data : List UInt8) (offset : Nat) :
    Follows m (Divided.fat32Write fuel entry data offset) (fat32Write fuel entry data offset) := by
  refine .get fun w hw => .ite (.pure _) (.ite (.pure _) (onward_kmalloc.follows.bind
    fun ok => .ite (.pure _) ((follows_firstCluster _).bind fun r => ?_)))
  cases r with
  | none => exact .pure _
  | some entry =>
    refine .quotient (hw ▸ bpc_mem) (.remainder (hw ▸ bpc_mem)
      ((follows_seekOrGrow _ _).bind fun r => ?_))
    cases r with
    | none => exact .pure _
    | some cluster =>
      refine (follows_writeLoop _ _ _ _ _).bind fun r => ?_
      cases r with
      | error e => exact .pure _
      | ok written => exact (follows_editSlot _ _ _ _).bind fun _ => .pure _

theorem follows_writeDirEntryFrom (slot : List UInt8) (fuel cur rawIdx : Nat) :
    Follows m (Divided.writeDirEntryFrom slot fuel cur rawIdx)
      (writeDirEntryFrom slot fuel cur rawIdx) := by
  induction fuel generalizing cur rawIdx with
  | zero => exact .stopped
  | succ fuel ih =>
    refine .ite ((onward_clusterRead _).follows.bind fun r => ?_) (.pure _)
    cases r with
    | none => exact .pure _
    | some buf =>
      refine .get fun w _ => ?_
      cases freeSlot buf (entriesPerClust w.mount) 0 with
      | some i => exact (onward_clusterWrite _ _).follows.bind fun ok => .pure _
      | none =>
        exact (onward_fatGet _).follows.bind fun next => .ite
          (follows_alloc.bind fun _ => .ite (.pure _)
            ((onward_clusterWrite _ _).follows.bind fun _ =>
              (onward_fatSet _ _).follows.bind fun _ => ih _ _)) (ih _ _)

theorem follows_writeDirEntry (fuel dirCluster : Nat) (name : List UInt8) (attr : UInt8)
    (cluster size : Nat) : Follows m (Divided.writeDirEntry fuel dirCluster name attr cluster size)
      (writeDirEntry fuel dirCluster name attr cluster size) :=
  .get fun _ _ => onward_kmalloc.follows.bind fun _ =>
    .ite (.pure _) (follows_writeDirEntryFrom _ _ _ _)

theorem follows_create (fuel dirCluster : Nat) (name : List UInt8) :
    Follows m (Divided.fat32Create fuel dirCluster name) (fat32Create fuel dirCluster name) := by
  refine .get fun w _ => .ite (.pure _) ((onward_find _ _ _).follows.bind fun r => ?_)
  cases r with
  | ok e => exact .pure _
  | error e =>
    refine (follows_writeDirEntry _ _ _ _ _ _).bind fun r => ?_
    cases r with
    | error e => exact .pure _
    | ok rawIdx => exact .pure _

theorem follows_mkdir (fuel dirCluster : Nat) (name : List UInt8) :
    Follows m (Divided.fat32Mkdir fuel dirCluster name) (fat32Mkdir fuel dirCluster name) := by
  refine .get fun w _ => .ite (.pure _) ((onward_find _ _ _).follows.bind fun r => ?_)
  cases r with
  | ok e => exact .pure _
  | error e =>
    refine follows_alloc.bind fun newC => .ite (.pure _) (onward_kmalloc.follows.bind
      fun ok => .ite ((onward_fatSet _ _).follows.bind fun _ => .pure _)
        ((onward_clusterWrite _ _).follows.bind fun _ =>
          (follows_writeDirEntry _ _ _ _ _ _).bind fun r => ?_))
    cases r with
    | error e => exact (onward_fatFreeChain _ _).follows.bind fun _ => .pure _
    | ok rawIdx => exact .pure _

theorem follows_unlink (fuel : Nat) (entry : Fat32Entry) :
    Follows m (Divided.fat32Unlink fuel entry) (fat32Unlink fuel entry) :=
  .get fun _ _ => .ite (.pure _) (.ite (.pure _)
    ((onward_fatFreeChain _ _).follows.bind fun _ => follows_editSlot _ _ _ _))

theorem follows_rmdir (fuel : Nat) (entry : Fat32Entry) :
    Follows m (Divided.fat32Rmdir fuel entry) (fat32Rmdir fuel entry) := by
  refine .get fun w _ => .ite (.pure _) (.ite (.pure _)
    ((onward_rmdirScan _ _ _ _).follows.bind fun r => ?_))
  cases r with
  | some e => exact .pure _
  | none => exact (onward_fatFreeChain _ _).follows.bind fun _ => follows_editSlot _ _ _ _

theorem follows_rename (fuel : Nat) (entry : Fat32Entry) (newDirCluster : Nat)
    (newName : List UInt8) : Follows m (Divided.fat32Rename fuel entry newDirCluster newName)
      (fat32Rename fuel entry newDirCluster newName) := by
  refine .get fun w _ => .ite (.pure _) ((follows_writeDirEntry _ _ _ _ _ _).bind fun r => ?_)
  cases r with
  | error e => exact .pure _
  | ok rawIdx => exact (follows_editSlot _ _ _ _).bind fun _ => .ite (.pure _) (.pure _)

end Follows

inductive DriverCall where
  | readdir (dirCluster index : Nat)
  | read (entry : Fat32Entry) (offset size : Nat)
  | write (entry : Fat32Entry) (data : List UInt8) (offset : Nat)
  | create (dirCluster : Nat) (name : List UInt8)
  | mkdir (dirCluster : Nat) (name : List UInt8)
  | unlink (entry : Fat32Entry)
  | rmdir (entry : Fat32Entry)
  | rename (entry : Fat32Entry) (newDirCluster : Nat) (newName : List UInt8)

def DriverCall.run (fuel : Nat) : DriverCall → Drv Unit
  | .readdir d i => fat32Readdir fuel d i >>= fun _ => pure ()
  | .read e offset size => fat32Read fuel e offset size >>= fun _ => pure ()
  | .write e data offset => fat32Write fuel e data offset >>= fun _ => pure ()
  | .create d name => fat32Create fuel d name >>= fun _ => pure ()
  | .mkdir d name => fat32Mkdir fuel d name >>= fun _ => pure ()
  | .unlink e => fat32Unlink fuel e >>= fun _ => pure ()
  | .rmdir e => fat32Rmdir fuel e >>= fun _ => pure ()
  | .rename e d name => fat32Rename fuel e d name >>= fun _ => pure ()

def DriverCall.counted (fuel : Nat) : DriverCall → Counted Unit
  | .readdir d i => Divided.plain (fat32Readdir fuel d i) >>= fun _ => pure ()
  | .read e offset size => Divided.fat32Read fuel e offset size >>= fun _ => pure ()
  | .write e data offset => Divided.fat32Write fuel e data offset >>= fun _ => pure ()
  | .create d name => Divided.fat32Create fuel d name >>= fun _ => pure ()
  | .mkdir d name => Divided.fat32Mkdir fuel d name >>= fun _ => pure ()
  | .unlink e => Divided.fat32Unlink fuel e >>= fun _ => pure ()
  | .rmdir e => Divided.fat32Rmdir fuel e >>= fun _ => pure ()
  | .rename e d name => Divided.fat32Rename fuel e d name >>= fun _ => pure ()

def runCalls (fuel : Nat) : List DriverCall → Drv Unit
  | [] => pure ()
  | c :: rest => c.run fuel >>= fun _ => runCalls fuel rest

def countCalls (fuel : Nat) : List DriverCall → Counted Unit
  | [] => pure ()
  | c :: rest => c.counted fuel >>= fun _ => countCalls fuel rest

section Calls

variable {m : Mount} {w w' : World}

theorem DriverCall.follows (fuel : Nat) (c : DriverCall) :
    Follows m (c.counted fuel) (c.run fuel) := by
  cases c with
  | readdir d i => exact (onward_readdir _ _ _).follows.bind fun _ => .pure _
  | read e offset size => exact (follows_read _ _ _ _).bind fun _ => .pure _
  | write e data offset => exact (follows_write _ _ _ _).bind fun _ => .pure _
  | create d name => exact (follows_create _ _ _).bind fun _ => .pure _
  | mkdir d name => exact (follows_mkdir _ _ _).bind fun _ => .pure _
  | unlink e => exact (follows_unlink _ _).bind fun _ => .pure _
  | rmdir e => exact (follows_rmdir _ _).bind fun _ => .pure _
  | rename e d name => exact (follows_rename _ _ _ _).bind fun _ => .pure _

theorem follows_calls (fuel : Nat) (calls : List DriverCall) :
    Follows m (countCalls fuel calls) (runCalls fuel calls) := by
  induction calls with
  | nil => exact .pure _
  | cons c rest ih => exact (c.follows fuel).bind fun _ => ih

theorem divisorsOf_mountOf {lba d : Nat} {b : Bpb} (hb : b.sectorsPerCluster ≠ 0)
    (hd : d ∈ divisorsOf (mountOf lba b)) : d ≠ 0 := by
  have hentries : entriesPerClust (mountOf lba b) = 512 * b.sectorsPerCluster / 32 := rfl
  rcases List.mem_cons.mp hd with rfl | hd
  · exact hb
  · rcases List.mem_cons.mp hd with rfl | hd
    · exact Nat.mul_ne_zero (by decide) hb
    · rw [List.mem_singleton.mp hd, hentries]
      omega

theorem entriesPerClust_mountOf {lba : Nat} {b : Bpb} (hb : b.sectorsPerCluster = 0) :
    entriesPerClust (mountOf lba b) = 0 := by
  change 512 * b.sectorsPerCluster / 32 = 0
  rw [hb]

-- rm of an empty file reaches mark_deleted and with it the entries per cluster.
def emptyFile : Fat32Entry where
  name := []
  attr := 0
  cluster := 0
  size := 0
  dirCluster := 0
  dirIndex := 0

theorem unlink_divisor {c : Divided} (hmounted : c.world.mount.mounted = true) :
    entriesPerClust c.world.mount ∈ (countCalls 1 [.unlink emptyFile] c).2.divisors := by
  have hcall : (countCalls 1 [.unlink emptyFile] c).2 = (Divided.fat32Unlink 1 emptyFile c).2 :=
    (bind_pure_state _ c).trans (bind_pure_state _ c)
  have hunlink : Divided.fat32Unlink 1 emptyFile c =
      Divided.editSlot .markDeleted 0 0 deleteSlot c := by
    change (if !c.world.mount.mounted then _ else _ : Counted Int) c = _
    rw [hmounted]
    rfl
  rw [hcall, hunlink]
  exact editSlot_divisor _ _ _ _ rfl

end Calls

theorem no_division_by_zero_iff {w w' : World} (hinit : fat32Init w = (some true, w')) :
    (∀ fuel calls, ∀ d ∈ (countCalls fuel calls ⟨w', []⟩).2.divisors, d ≠ 0) ↔
      (diskBpb w.disk).sectorsPerCluster ≠ 0 := by
  have hmount : w'.mount = diskMount w.disk := (fat32Init_runs.result hinit rfl).mount
  constructor
  · intro h hzero
    refine h 1 [.unlink emptyFile] _ (unlink_divisor (by rw [hmount]; rfl)) ?_
    change entriesPerClust w'.mount = 0
    rw [hmount]
    exact entriesPerClust_mountOf hzero
  · intro hspc fuel calls d hd
    obtain ⟨-, -, -, new, hnew, hall⟩ := follows_calls fuel calls ⟨w', []⟩ hmount
    rw [hnew, List.append_nil] at hd
    exact divisorsOf_mountOf hspc (hall d hd)

-- A disk whose boot sector has been cleared of its sectors per cluster.
def unclusteredDisk : Nat → UInt8 := writeLE (bootDisk 2) 1 13 0

theorem no_division_by_zero_boot :
    0 ∉ (countCalls 100 [.create 0 [0x41], .unlink emptyFile] ⟨bootMounted 2, []⟩).2.divisors := by
  have hinit : fat32Init (diskWorld (bootDisk 2) (fun _ _ _ => true)) =
      (some true, bootMounted 2) := by
    have hok : (fat32Init (diskWorld (bootDisk 2) (fun _ _ _ => true))).1 = some true := by
      decide +kernel
    rw [bootMounted, ← hok]
  exact fun h => (no_division_by_zero_iff hinit).mpr (by decide +kernel) _ _ 0 h rfl

theorem unclustered_divides : ¬∀ w w', fat32Init w = (some true, w') →
    ∀ fuel calls, ∀ d ∈ (countCalls fuel calls ⟨w', []⟩).2.divisors, d ≠ 0 := by
  intro h
  have hok : (fat32Init (diskWorld unclusteredDisk (fun _ _ _ => true))).1 = some true := by
    decide +kernel
  refine h _ _ (Prod.ext hok rfl) 1 [.unlink emptyFile] 0 ?_ rfl
  decide +kernel

end Fat32
