import SabakaOS.Fat32.SharedEntry
import SabakaOS.Vfs.Lookup

namespace Vfs

open Prog
open Fat32 (Fat32Entry Env Good Vol Link IsDir EntryAt Sound Consistent Known CopyOf Grew ReadFits
  WriteFits MountedAt Calm Room RoomFor InSlot volume worldEnv anyRule slotAt slotCluster slotSize
  dirHead entriesPerClust fileByte writeSteps fat32Eof hasAttr attrDirectory isCString)

-- The entry in slot s of a volume, where e₀ was found there once.
def entryIn (e₀ : Fat32Entry) (s : Nat × Nat) (V : Vol) : Fat32Entry :=
  { e₀ with cluster := slotCluster (slotAt V s), size := slotSize (slotAt V s) }

-- A file of the mounted disk, found in the slot with the entry, and its clusters. A are the nodes
-- of the RAM tree and the mount points on it.
structure DiskFile (N : Nat) (A : Set Ptr) where
  kernel : Kernel
  entry : Fat32Entry
  slot : Nat × Nat
  clusters : List Nat
  mounted : MountedAt N kernel.disk
  calm : Calm kernel.disk
  heap : ∀ n, kernel.heap n = true
  grounded : Grounded A kernel
  consistent : Consistent kernel.disk.mount N (volume N kernel.disk)
  dir : IsDir kernel.disk.mount N (volume N kernel.disk)
    (dirHead kernel.disk.mount entry.dirCluster)
  found : ∃ ld, EntryAt kernel.disk.mount N (volume N kernel.disk) entry ld slot.1
  index : entry.dirIndex % entriesPerClust kernel.disk.mount = slot.2
  file : hasAttr entry.attr attrDirectory = false
  chain : (worldEnv N kernel.disk anyRule).Clusters (volume N kernel.disk) fat32Eof entry clusters
  room : entry.size ≤ clusters.length * kernel.disk.mount.bytesPerClust

def DiskFile.bytes {N : Nat} {A : Set Ptr} (F : DiskFile N A) : Known := fun i =>
  if i < F.entry.size then
    some (fileByte F.kernel.disk.mount.bytesPerClust (volume N F.kernel.disk) F.clusters i)
  else none

-- The nodes looked up for one file so far, and what is known of the bytes of the file.
structure Sharing where
  kernel : Kernel
  nodes : List Ptr
  known : Known

inductive SharedCall where
  | lookup (path : List UInt8)
  | read (node : Ptr) (offset size : Nat)
  | write (node : Ptr) (data : List UInt8) (offset : Nat)

section Sharing

variable {N : Nat} {A : Set Ptr}

def sharing (fuel : Nat) (F : DiskFile N A) : System Sharing SharedCall where
  init t := t = ⟨F.kernel, [], F.bytes⟩
  step t call t' := match call with
    | .lookup path => ∃ n c,
        (∀ cur, startOf path t.kernel = some cur → Through t.kernel.disk.mount N
          (volume N t.kernel.disk) fuel (componentsOf path) cur t.kernel) ∧
        vfsResolvePath fuel path t.kernel = (some (some n), t'.kernel) ∧
        getEntry (t'.kernel.vfs.nodes n) = some c ∧ hasAttr c.attr attrDirectory = false ∧
        c.dirCluster = F.entry.dirCluster ∧ c.dirIndex = F.entry.dirIndex ∧
        t'.nodes = n :: t.nodes ∧ t'.known = t.known
    | .read n offset size => n ∈ t.nodes ∧ t'.nodes = t.nodes ∧ t'.known = t.known ∧
        ∃ r, vfsRead fuel (some n) offset size t.kernel = (some r, t'.kernel)
    | .write n data offset => n ∈ t.nodes ∧ t'.nodes = t.nodes ∧
        ∃ r, vfsWrite fuel (some n) data offset t.kernel = (some r, t'.kernel) ∧
          t'.known = t.known.put offset (data.take r.toNat)

-- The copy of the entry that a call goes through is recent enough for it, and a write does not
-- make fat_alloc_cluster leave the volume.
def SharedCall.Recent (F : DiskFile N A) (t : Sharing) : SharedCall → Prop
  | .lookup _ => True
  | .read n offset size => ∀ c, getEntry (t.kernel.vfs.nodes n) = some c →
      ReadFits (entryIn F.entry F.slot (volume N t.kernel.disk)) c offset size
  | .write n data offset => ∀ c, getEntry (t.kernel.vfs.nodes n) = some c →
      WriteFits (entryIn F.entry F.slot (volume N t.kernel.disk)) c offset data.length ∧
      ∀ l, (worldEnv N t.kernel.disk anyRule).Clusters (volume N t.kernel.disk) fat32Eof
          (entryIn F.entry F.slot (volume N t.kernel.disk)) l →
        Room (worldEnv N t.kernel.disk anyRule).limit N (volume N t.kernel.disk)
          (writeSteps t.kernel.disk.mount.bytesPerClust offset data.length + 1 - l.length)

-- The calls that go no further than an offset can.
def SharedCall.InRange (F : DiskFile N A) (t : Sharing) : SharedCall → Prop
  | .lookup _ => True
  | .read _ offset size => offset + size < 2 ^ 32
  | .write _ data offset => offset + data.length < 2 ^ 32 ∧
      RoomFor N t.kernel.disk (entryIn F.entry F.slot (volume N t.kernel.disk)) offset data.length

-- The entry in the slot leads to every cluster the file has had and to every byte that is known of
-- it, and the calls that are allowed do what they should.
structure Coherent (fuel : Nat) (F : DiskFile N A) (ok : Sharing → SharedCall → Prop)
    (t : Sharing) : Prop where
  consistent : Consistent t.kernel.disk.mount N (volume N t.kernel.disk)
  slot : ∃ ld, Link N (volume N t.kernel.disk) fat32Eof
      (dirHead t.kernel.disk.mount F.entry.dirCluster) ld ∧
    ld[F.entry.dirIndex / entriesPerClust t.kernel.disk.mount]? = some F.slot.1
  clusters : ∃ l new, (worldEnv N t.kernel.disk anyRule).Clusters (volume N t.kernel.disk) fat32Eof
      (entryIn F.entry F.slot (volume N t.kernel.disk)) l ∧
    l = F.clusters ++ new ∧ (∀ y ∈ new, (volume N F.kernel.disk).fat y = 0) ∧
    (∀ i b, t.known i = some b →
      i < (entryIn F.entry F.slot (volume N t.kernel.disk)).size ∧
      fileByte t.kernel.disk.mount.bytesPerClust (volume N t.kernel.disk) l i = b) ∧
    ∀ y, y ∉ l → (volume N t.kernel.disk).fat y = (volume N F.kernel.disk).fat y ∧
      ∀ j, ¬(y = F.slot.1 ∧ InSlot F.slot.2 j) →
        (volume N t.kernel.disk).data y j = (volume N F.kernel.disk).data y j
  reads : ∀ n ∈ t.nodes, ∀ offset size, ok t (.read n offset size) →
    ∃ bytes k', vfsRead fuel (some n) offset size t.kernel = (some (.ok bytes), k') ∧
      bytes.length =
        min size ((entryIn F.entry F.slot (volume N t.kernel.disk)).size - offset) ∧
      ∀ i b, t.known i = some b → offset ≤ i → i < offset + size → bytes[i - offset]? = some b
  writes : ∀ n ∈ t.nodes, ∀ data offset, ok t (.write n data offset) →
    ∃ r k', vfsWrite fuel (some n) data offset t.kernel = (some r, k') ∧
      (RoomFor N t.kernel.disk (entryIn F.entry F.slot (volume N t.kernel.disk)) offset
        data.length → r = data.length)

end Sharing

section Node

variable {k k' : Kernel} {n : Ptr} {c : Fat32Entry} {fuel off size : Nat} {data : List UInt8}
  {r : Int}

theorem vfsRead_node (hops : (k.vfs.nodes n).ops = some .disk)
    (hc : getEntry (k.vfs.nodes n) = some c) :
    vfsRead fuel (some n) off size k = onDisk (Fat32.fat32Read fuel c off size) k := by
  rw [vfsRead, get_bind, show opsOf k (some n) = some (n, .disk) by simp [opsOf, hops]]
  dsimp only
  rw [diskRead, get_bind, hc]

def noted (n : Ptr) (r : Int × Fat32Entry) (w : Fat32.World) (k : Kernel) : Kernel :=
  { k with
    disk := w
    vfs := setNode k.vfs n fun n => { n with
      data := some (.entry r.2)
      size := if 0 < r.1 then r.2.size else n.size } }

theorem vfsWrite_node (hops : (k.vfs.nodes n).ops = some .disk)
    (hc : getEntry (k.vfs.nodes n) = some c) {x : Int × Fat32Entry} {w : Fat32.World}
    (h : Fat32.fat32Write fuel c data off k.disk = (some x, w)) :
    vfsWrite fuel (some n) data off k = (some x.1, noted n x w k) := by
  rw [vfsWrite, get_bind, show opsOf k (some n) = some (n, .disk) by simp [opsOf, hops]]
  dsimp only
  rw [diskWrite, get_bind, hc]
  dsimp only
  have hrun : onDisk (Fat32.fat32Write fuel c data off) k = (some x, { k with disk := w }) := by
    rw [onDisk, h]
  rw [bind_ended hrun]
  rfl

theorem vfsWrite_ended (hops : (k.vfs.nodes n).ops = some .disk)
    (hc : getEntry (k.vfs.nodes n) = some c)
    (h : vfsWrite fuel (some n) data off k = (some r, k')) :
    ∃ x w, Fat32.fat32Write fuel c data off k.disk = (some x, w) ∧ r = x.1 ∧
      k' = noted n x w k := by
  rcases hw : Fat32.fat32Write fuel c data off k.disk with ⟨_ | x, w⟩
  · rw [vfsWrite, get_bind, show opsOf k (some n) = some (n, .disk) by simp [opsOf, hops]] at h
    dsimp only at h
    rw [diskWrite, get_bind, hc] at h
    dsimp only at h
    have hrun : onDisk (Fat32.fat32Write fuel c data off) k = (none, { k with disk := w }) := by
      rw [onDisk, hw]
    rw [bind_stopped hrun] at h
    cases h
  · rw [vfsWrite_node hops hc hw] at h
    obtain ⟨hr, rfl⟩ := Prod.mk.inj h
    exact ⟨x, w, rfl, (Option.some.inj hr).symm, rfl⟩

end Node

section FileKept

variable {N : Nat} {A : Set Ptr} {F : DiskFile N A} {t t' : Sharing} {e : Fat32Entry} {l : List Nat}
  {fuel : Nat}

abbrev DiskFile.env (F : DiskFile N A) : Env := worldEnv N F.kernel.disk anyRule

-- A node for the file, with a copy of its entry.
def Copied (k : Kernel) (e : Fat32Entry) (n : Ptr) : Prop :=
  ∃ j c, n = .heap j ∧ j < k.heapCalls ∧ (k.vfs.nodes n).ops = some .disk ∧
    getEntry (k.vfs.nodes n) = some c ∧ CopyOf e c

structure FileKept (F : DiskFile N A) (t : Sharing) (e : Fat32Entry) (l : List Nat) : Prop where
  good : Good F.env t.kernel.disk
  heap : ∀ n, t.kernel.heap n = true
  grounded : Grounded A t.kernel
  on : F.env.FileOn (volume N F.kernel.disk) F.clusters F.slot (F.env.vol t.kernel.disk) e l t.known
  same : e = { F.entry with cluster := e.cluster, size := e.size }
  nodes : ∀ n ∈ t.nodes, Copied t.kernel e n

theorem DiskFile.kept (F : DiskFile N A) :
    FileKept F ⟨F.kernel, [], F.bytes⟩ F.entry F.clusters := by
  have hg := F.mounted.good (Fat32.legal_any F.kernel.disk.trace)
  obtain ⟨D, H, hs⟩ := F.consistent
  obtain ⟨ld, he⟩ := F.found
  have hd := hs.isDir F.mounted.fits.small F.dir
  have hvol : F.env.vol F.kernel.disk = volume N F.kernel.disk := rfl
  refine ⟨hg, F.heap, F.grounded, ?_, rfl, fun n hn => by cases hn⟩
  have hpair : F.slot = (F.slot.1, F.entry.dirIndex % entriesPerClust F.kernel.disk.mount) := by
    rw [F.index]
  have hcluster := he.start
  have hsize := he.size
  rw [F.index] at hcluster hsize
  refine ⟨F.index, ⟨D, H, ld, hs, ?_, fun h0 => ?_⟩, hcluster, hsize, F.chain, F.room,
    fun i b hb => ?_, ⟨[], (List.append_nil _).symm, fun y hy => by cases hy⟩,
    fun y _ => ⟨rfl, fun _ _ => rfl⟩⟩
  · exact @Fat32.Sound.fileSlot F.env F.kernel.disk D H F.entry ld F.slot.1 hs F.mounted.fits hd he
      F.file
  · rw [hpair]
    exact @Fat32.Sound.owned F.env F.kernel.disk D H F.entry ld F.slot.1 hs F.mounted.fits hd he
      F.file h0
  · change DiskFile.bytes F i = some b at hb
    unfold DiskFile.bytes at hb
    split at hb
    · rename_i hi
      exact ⟨hi, Option.some.inj hb⟩
    · cases hb

theorem FileKept.entry (h : FileKept F t e l) :
    entryIn F.entry F.slot (volume N t.kernel.disk) = e := by
  rw [entryIn, ← h.good.volume_eq, h.on.cluster, h.on.size, ← h.same]

theorem Copied.later {k k' : Kernel} {e' : Fat32Entry} {n : Ptr} (h : Copied k e n)
    (hcalls : k.heapCalls ≤ k'.heapCalls) (hnode : k'.vfs.nodes n = k.vfs.nodes n)
    (he : ∀ c, CopyOf e c → CopyOf e' c) : Copied k' e' n := by
  obtain ⟨j, c, rfl, hj, hops, hc, hcopy⟩ := h
  rw [← hnode] at hops hc
  exact ⟨j, c, rfl, hj.trans_le hcalls, hops, hc, he c hcopy⟩

theorem FileKept.lookup (h : FileKept F t e l) {path : List UInt8}
    (hstep : (sharing fuel F).step t (.lookup path) t') : FileKept F t' e l := by
  obtain ⟨n, c, hthrough, hrun, hc, hattr, hdir, hidx, hnodes, hknown⟩ := hstep
  have hmount : t.kernel.disk.mount = F.kernel.disk.mount := h.good.mount
  rw [hmount, ← h.good.volume_eq] at hthrough
  obtain ⟨D, H, ld, hs, -⟩ := h.on.owned
  obtain ⟨hpass, hnode⟩ := vfsResolvePath_passed F.mounted.lawful Fat32.loose_any ⟨D, H, hs⟩ h.good
    rfl h.heap h.grounded hthrough hrun
  refine ⟨hpass.good, fun i => ?_, hpass.grounded h.grounded, ?_, h.same, ?_⟩
  · rw [hpass.heap]
    exact h.heap i
  · rw [hknown, hpass.vol]
    exact h.on
  · rw [hnodes]
    intro n' hn'
    rcases List.mem_cons.mp hn' with rfl | hn'
    · rcases hnode n' rfl with hA | ⟨j, d, ld, f, rfl, -, hj, hl, hm, hnode⟩
      · cases hattr.symm.trans ((hpass.grounded h.grounded).dirs n' hA c hc)
      · rw [hnode] at hc
        obtain rfl : f = c := Option.some.inj hc
        have hd := congrArg Fat32Entry.dirCluster h.same
        have hi := congrArg Fat32Entry.dirIndex h.same
        obtain ⟨hcopy, -⟩ := h.on.listed F.mounted.fits hl hm (hdir.trans hd.symm)
          (hidx.trans hi.symm)
        exact ⟨j, f, rfl, hj, by rw [hnode]; rfl, by rw [hnode]; rfl, hcopy⟩
    · have hold := h.nodes n' hn'
      obtain ⟨j, c', rfl, hj, -⟩ := id hold
      exact hold.later hpass.calls (hpass.nodes j hj) fun _ hc => hc

theorem FileKept.read_runs (h : FileKept F t e l) (fuel : Nat) {c : Fat32Entry} (hc : CopyOf e c)
    {off size : Nat} (hfit : ReadFits e c off size) :
    Runs (Fat32.fat32Read fuel c off size) t.kernel.disk
      (fun r w => Fat32.Step F.env t.kernel.disk w ∧ Fat32.view w = Fat32.view t.kernel.disk ∧
        r = .ok (ByteMemory.readBytes (fileByte F.kernel.disk.mount.bytesPerClust
          (F.env.vol t.kernel.disk) l) (min size (e.size - off)) off))
      (fun _ => fuel ≤ size ∧ size < 2 ^ 32) :=
  h.on.read F.mounted.lawful F.calm.quiet h.good Fat32.loose_any hc hfit

theorem FileKept.limit (h : FileKept F t e l) :
    (worldEnv N t.kernel.disk anyRule).limit = F.env.limit := by
  have hmount : t.kernel.disk.mount = F.kernel.disk.mount := h.good.mount
  have hcount : t.kernel.disk.sectorCount = F.kernel.disk.sectorCount := h.good.sectorCount
  change t.kernel.disk.sectorCount / t.kernel.disk.mount.sectorsPerClust =
    F.kernel.disk.sectorCount / F.kernel.disk.mount.sectorsPerClust
  rw [hmount, hcount]

theorem FileKept.write_room (h : FileKept F t e l) {n : Ptr} {data : List UInt8} {off : Nat}
    {c : Fat32Entry} (hc : getEntry (t.kernel.vfs.nodes n) = some c)
    (hrecent : (SharedCall.write n data off).Recent F t) :
    WriteFits e c off data.length ∧ Room F.env.limit F.env.clusters (F.env.vol t.kernel.disk)
      (writeSteps F.env.mount.bytesPerClust off data.length + 1 - l.length) := by
  obtain ⟨hfit, hroom⟩ := hrecent c hc
  rw [h.entry] at hfit hroom
  have hmount : t.kernel.disk.mount = F.kernel.disk.mount := h.good.mount
  rw [h.limit, ← h.good.volume_eq, hmount] at hroom
  exact ⟨hfit, hroom l h.on.chain⟩

theorem FileKept.write_runs (h : FileKept F t e l) (fuel : Nat) {n : Ptr} {data : List UInt8}
    {off : Nat} {c : Fat32Entry} (hc : getEntry (t.kernel.vfs.nodes n) = some c) (hcopy : CopyOf e c)
    (hrecent : (SharedCall.write n data off).Recent F t) :
    Runs (Fat32.fat32Write fuel c data off) t.kernel.disk
      (fun r w => Fat32.Step F.env t.kernel.disk w ∧ ∃ e' l' k,
        F.env.FileOn (volume N F.kernel.disk) F.clusters F.slot (F.env.vol w) e' l'
          (t.known.put off (data.take k)) ∧ Grew e e' ∧ CopyOf e' r.2 ∧ k ≤ data.length ∧
        (r.1 = k ∨ r.1 = Fat32.fat32ErrNospace ∧ k = 0) ∧
        (writeSteps F.env.mount.bytesPerClust off data.length <
          l.length + Fat32.spare F.env.limit F.env.clusters (F.env.vol t.kernel.disk) →
            r.1 = data.length)) (fun _ => fuel ≤ data.length) := by
  obtain ⟨hfit, hroom⟩ := h.write_room hc hrecent
  exact h.on.write F.mounted.lawful F.calm.quiet h.good Fat32.loose_any hcopy hfit hroom

theorem FileKept.read (h : FileKept F t e l) {n : Ptr} {off size : Nat}
    (hrecent : (SharedCall.read n off size).Recent F t)
    (hstep : (sharing fuel F).step t (.read n off size) t') : FileKept F t' e l := by
  obtain ⟨hn, hnodes, hknown, r, hrun⟩ := hstep
  obtain ⟨j, c, rfl, hj, hops, hc, hcopy⟩ := h.nodes n hn
  have hfit := hrecent c hc
  rw [h.entry] at hfit
  rw [vfsRead_node hops hc, onDisk] at hrun
  obtain ⟨hr, hk⟩ := Prod.mk.inj hrun
  obtain ⟨hs, hv, -⟩ := (h.read_runs fuel hcopy hfit).result (Prod.ext hr rfl)
  have hvol : F.env.vol t'.kernel.disk = F.env.vol t.kernel.disk := by
    rw [← hk, Env.vol, Env.vol, hv]
  refine ⟨hk ▸ hs.good, hk ▸ h.heap, hk ▸ ⟨h.grounded.root, h.grounded.cwd, h.grounded.parent,
    h.grounded.children, h.grounded.made, h.grounded.dirs⟩, ?_, h.same, ?_⟩
  · rw [hknown, hvol]
    exact h.on
  · rw [hnodes, ← hk]
    exact fun n' hn' => (h.nodes n' hn').later le_rfl rfl fun _ hc => hc

theorem noted_self {k : Kernel} {n : Ptr} {x : Int × Fat32Entry} {w : Fat32.World} :
    getEntry ((noted n x w k).vfs.nodes n) = some x.2 ∧
      ((noted n x w k).vfs.nodes n).ops = (k.vfs.nodes n).ops := by
  rw [noted, setNode_self]
  exact ⟨rfl, rfl⟩

theorem noted_other {k : Kernel} {n p : Ptr} {x : Int × Fat32Entry} {w : Fat32.World}
    (h : p ≠ n) : (noted n x w k).vfs.nodes p = k.vfs.nodes p := by
  rw [noted, setNode_other _ h]

theorem Grounded.noted {k : Kernel} {n : Ptr} {x : Int × Fat32Entry} {w : Fat32.World}
    (h : Grounded A k) (hn : n ∉ A) : Grounded A (noted n x w k) := by
  have hsame : ∀ p ∈ A, (Vfs.noted n x w k).vfs.nodes p = k.vfs.nodes p :=
    fun p hp => noted_other (ne_of_mem_of_not_mem hp hn)
  refine ⟨h.root, h.cwd, fun p hp => ?_, fun p hp => ?_, h.made, fun p hp => ?_⟩
  · rw [hsame p hp]
    exact h.parent p hp
  · rw [hsame p hp]
    exact h.children p hp
  · rw [hsame p hp]
    exact h.dirs p hp

theorem FileKept.write (h : FileKept F t e l) {n : Ptr} {data : List UInt8} {off : Nat}
    (hrecent : (SharedCall.write n data off).Recent F t)
    (hstep : (sharing fuel F).step t (.write n data off) t') : ∃ e' l', FileKept F t' e' l' := by
  obtain ⟨hn, hnodes, r, hrun, hknown⟩ := hstep
  obtain ⟨j, c, rfl, hj, hops, hc, hcopy⟩ := h.nodes n hn
  obtain ⟨x, w, hw, rfl, hk⟩ := vfsWrite_ended hops hc hrun
  obtain ⟨hs, e', l', m, hon, hgrew, hcopy', -, hr, -⟩ :=
    (h.write_runs fuel hc hcopy hrecent).result hw
  have hm : x.1.toNat = m := by
    rcases hr with hr | ⟨hr, rfl⟩
    · rw [hr, Int.toNat_natCast]
    · rw [hr]
      rfl
  rw [hm] at hknown
  refine ⟨e', l', hk ▸ hs.good, hk ▸ h.heap, hk ▸ h.grounded.noted fun hA => ?_, ?_, ?_, ?_⟩
  · cases hcopy.attr.symm.trans (h.grounded.dirs _ hA c hc)
  · rw [hknown, hk]
    exact hon
  · rw [hgrew.same, h.same]
  · rw [hnodes, hk]
    intro n' hn'
    by_cases he : n' = .heap j
    · rw [he]
      exact ⟨j, x.2, rfl, hj, noted_self.2.trans hops, noted_self.1, hcopy'⟩
    · exact (h.nodes n' hn').later le_rfl (noted_other he)
        fun _ hc => hc.later hgrew h.on.empty

def sharingInvariant (fuel : Nat) (F : DiskFile N A) :
    ((sharing fuel F).restrict fun t call => call.Recent F t).Invariant where
  holds t := ∃ e l, FileKept F t e l
  start := by
    rintro t rfl
    exact ⟨F.entry, F.clusters, F.kept⟩
  step {t call t'} h hstep := by
    obtain ⟨e, l, h⟩ := h
    cases call with
    | lookup path => exact ⟨e, l, h.lookup hstep.2⟩
    | read n off size => exact ⟨e, l, h.read hstep.1 hstep.2⟩
    | write n data off => exact h.write hstep.1 hstep.2

theorem readBytes_getElem? (m : Nat → UInt8) {n a i : Nat} (ha : a ≤ i) (hi : i < a + n) :
    (ByteMemory.readBytes m n a)[i - a]? = some (m i) := by
  simp [ByteMemory.readBytes, show i - a < n by omega, show a + (i - a) = i by omega]

theorem FileKept.reads (h : FileKept F t e l) (hfuel : 2 ^ 32 ≤ fuel) {n : Ptr} (hn : n ∈ t.nodes)
    {off size : Nat} (hrecent : (SharedCall.read n off size).Recent F t) :
    ∃ bytes k', vfsRead fuel (some n) off size t.kernel = (some (.ok bytes), k') ∧
      bytes.length = min size (e.size - off) ∧
      ∀ i b, t.known i = some b → off ≤ i → i < off + size → bytes[i - off]? = some b := by
  obtain ⟨j, c, rfl, -, hops, hc, hcopy⟩ := h.nodes n hn
  have hfit := hrecent c hc
  rw [h.entry] at hfit
  obtain ⟨r, w, hrun, -, -, rfl⟩ := ((h.read_runs fuel hcopy hfit).mono (fun _ _ h => h)
    (fun _ h => absurd (h.2.trans_le hfuel) (Nat.not_lt.mpr h.1))).ends
  refine ⟨_, _, (vfsRead_node hops hc).trans (by rw [onDisk, hrun]), by simp,
    fun i b hb hlo hhi => ?_⟩
  obtain ⟨hlt, hbyte⟩ := h.on.known i b hb
  rw [readBytes_getElem? _ hlo (by omega)]
  exact congrArg some hbyte

theorem FileKept.writes (h : FileKept F t e l) (hfuel : 2 ^ 32 ≤ fuel) {n : Ptr} (hn : n ∈ t.nodes)
    {off : Nat} {data : List UInt8} (hrecent : (SharedCall.write n data off).Recent F t) :
    ∃ r k', vfsWrite fuel (some n) data off t.kernel = (some r, k') ∧
      (RoomFor N t.kernel.disk e off data.length → r = data.length) := by
  obtain ⟨j, c, rfl, -, hops, hc, hcopy⟩ := h.nodes n hn
  have hlt := (h.write_room hc hrecent).1.1
  obtain ⟨x, w, hrun, -, e', l', m, -, -, -, -, -, hall⟩ := ((h.write_runs fuel hc hcopy
    hrecent).mono (fun _ _ h => h) (fun _ h => absurd (hfuel.trans h) (by omega))).ends
  exact ⟨_, _, vfsWrite_node hops hc hrun, fun hroom => hall (hroom.steps h.good h.on.chain)⟩

theorem shared_file_coherent (F : DiskFile N A) (hfuel : 2 ^ 32 ≤ fuel)
    (h : ((sharing fuel F).restrict fun t call => call.Recent F t).Reach t) :
    Coherent fuel F (fun t call => call.Recent F t) t := by
  obtain ⟨e, l, h⟩ := (sharingInvariant fuel F).reach h
  have hmount : t.kernel.disk.mount = F.kernel.disk.mount := h.good.mount
  have hdir := congrArg Fat32Entry.dirCluster h.same
  have hidx := congrArg Fat32Entry.dirIndex h.same
  obtain ⟨D, H, ld, hs, hslot, -⟩ := h.on.owned
  obtain ⟨new, hl, hnew⟩ := h.on.grown
  refine ⟨?_, ⟨ld, ?_, ?_⟩, ⟨l, new, ?_, hl, hnew, ?_, ?_⟩, fun n hn off size hrecent => ?_,
    fun n hn data off hrecent => ?_⟩
  · rw [hmount, ← h.good.volume_eq]
    exact ⟨D, H, hs⟩
  · rw [hmount, ← h.good.volume_eq, ← hdir]
    exact hslot.chain
  · rw [hmount, ← hidx]
    exact hslot.cluster
  · rw [h.entry, ← h.good.volume_eq]
    exact h.on.chain
  · rw [h.entry, hmount, ← h.good.volume_eq]
    exact h.on.known
  · rw [← h.good.volume_eq]
    exact h.on.others
  · rw [h.entry]
    exact h.reads hfuel hn hrecent
  · rw [h.entry]
    exact h.writes hfuel hn hrecent

end FileKept

section Shared

-- The fresh volume on /disk, and an empty file "A" in its root directory.
def sharedKernel : Kernel :=
  { (vfsMountFat32 (slash :: diskName) (twinStart Fat32.freshWorld)).2 with
    disk := Fat32.freshCreated nameA
    heap := fun _ => true }

def sharedPath : List UInt8 := slash :: diskName ++ slash :: nameA

def sharedNodes : Set Ptr := {.pool 0, .heap 1}

theorem shared_neat : Fat32.Neat 5 (Fat32.freshCreated nameA) :=
  (Fat32.neatInvariant 5).reach (.next (.start Fat32.fresh_start)
    (Fat32.fresh_step (by simp [nameA, isCString]) (by decide +kernel)))

theorem shared_grounded : Grounded sharedNodes sharedKernel where
  root p hp := by
    have h : sharedKernel.vfs.rootNode = some (.pool 0) := by decide +kernel
    exact .inl (Option.some.inj (hp.symm.trans h))
  cwd p hp := by
    have h : sharedKernel.vfs.cwdNode = some (.pool 0) := by decide +kernel
    exact .inl (Option.some.inj (hp.symm.trans h))
  parent p hp q hq := by
    have h0 : (sharedKernel.vfs.nodes (.pool 0)).parent = some (.pool 0) := by decide +kernel
    have h1 : (sharedKernel.vfs.nodes (.heap 1)).parent = some (.pool 0) := by decide +kernel
    rcases hp with rfl | rfl
    · exact .inl (Option.some.inj (hq.symm.trans h0))
    · exact .inl (Option.some.inj (hq.symm.trans h1))
  children p hp q hq := by
    have h0 : (sharedKernel.vfs.nodes (.pool 0)).children = [.heap 1] := by decide +kernel
    have h1 : (sharedKernel.vfs.nodes (.heap 1)).children = [] := by decide +kernel
    rcases hp with rfl | rfl
    · exact .inr (List.mem_singleton.mp (h0 ▸ hq))
    · cases h1 ▸ hq
  made j hj := by
    rcases hj with hj | hj
    · cases hj
    · obtain rfl := Ptr.heap.inj hj
      decide +kernel
  dirs p hp e he := by
    have h0 : getEntry (sharedKernel.vfs.nodes (.pool 0)) = none := by decide +kernel
    have h1 : (getEntry (sharedKernel.vfs.nodes (.heap 1))).map (fun e => e.attr) =
        some attrDirectory := by decide +kernel
    rcases hp with rfl | rfl
    · cases h0.symm.trans he
    · rw [he] at h1
      have hattr : e.attr = attrDirectory := Option.some.inj h1
      rw [hattr]
      decide

theorem sharedKernel_disk : sharedKernel.disk = Fat32.freshCreated nameA := by rw [sharedKernel]

theorem shared_mount : (Fat32.freshCreated nameA).mount = Fat32.freshMount := by decide +kernel

def sharedEntry : Fat32Entry := { Fat32.freshEntry nameA with dirCluster := 2 }

def sharedFile : DiskFile 5 sharedNodes where
  kernel := sharedKernel
  entry := sharedEntry
  slot := (2, 0)
  clusters := []
  mounted := by
    rw [sharedKernel_disk]
    exact shared_neat.mounted
  calm := by
    rw [sharedKernel_disk]
    exact shared_neat.calm
  heap _ := rfl
  grounded := shared_grounded
  consistent := by
    rw [sharedKernel_disk]
    obtain ⟨D, H, hs, -⟩ := shared_neat.tidy
    exact ⟨D, H, hs⟩
  dir := by
    rw [sharedKernel_disk, shared_mount]
    exact .root
  found := by
    have hend : (volume 5 (Fat32.freshCreated nameA)).fat 2 = fat32Eof := by decide +kernel
    have hnames : Fat32.Names (slotAt (volume 5 (Fat32.freshCreated nameA)) (2, 0)) := by
      decide +kernel
    have hslot : Fat32.slotAttr (slotAt (volume 5 (Fat32.freshCreated nameA)) (2, 0)) =
        sharedEntry.attr ∧ slotCluster (slotAt (volume 5 (Fat32.freshCreated nameA)) (2, 0)) = 0 ∧
        slotSize (slotAt (volume 5 (Fat32.freshCreated nameA)) (2, 0)) = 0 := by decide +kernel
    rw [sharedKernel_disk, shared_mount]
    generalize volume 5 (Fat32.freshCreated nameA) = V at hend hnames hslot
    exact ⟨[2], ⟨rfl, by decide, hend⟩, rfl, hnames, fun _ h => absurd rfl h, hslot.1, hslot.2.1,
      hslot.2.2⟩
  index := by
    rw [sharedKernel_disk, shared_mount]
    rfl
  file := by decide
  chain := ⟨rfl, rfl⟩
  room := Nat.zero_le _

-- The path is looked up, and the node is from the j-th kmalloc.
def Sharing.lookedUp (t : Sharing) (j : Nat) : Sharing where
  kernel := (vfsResolvePath (2 ^ 32) sharedPath t.kernel).2
  nodes := .heap j :: t.nodes
  known := t.known

def Sharing.written (t : Sharing) (n : Ptr) (data : List UInt8) : Sharing where
  kernel := (vfsWrite (2 ^ 32) (some n) data 0 t.kernel).2
  nodes := t.nodes
  known := t.known.put 0 data

-- What a lookup of the path needs of a kernel.
structure LeadsToDisk (k : Kernel) : Prop where
  root : k.vfs.rootNode = some (.pool 0)
  ops : (k.vfs.nodes (.pool 0)).ops = some .ramfs
  finds : ramfsFinddir k.vfs (Ptr.pool 0) diskName = some (.heap 1)
  cluster : dirCluster k (.heap 1) = 2
  mount : k.disk.mount = Fat32.freshMount

theorem LeadsToDisk.through {k : Kernel} (h : LeadsToDisk k) (cur : Ptr)
    (hcur : startOf sharedPath k = some cur) :
    Through k.disk.mount 5 (volume 5 k.disk) (2 ^ 32) (componentsOf sharedPath) cur k := by
  have hcs : componentsOf sharedPath = [diskName, nameA] := rfl
  have hstart : startOf sharedPath k = some (.pool 0) := h.root
  obtain rfl := Option.some.inj (hstart.symm.trans hcur)
  rw [hcs, Through]
  refine ⟨fun _ hops => (by cases hops.symm.trans h.ops), fun next k' hone => ?_⟩
  rw [Through]
  refine ⟨fun _ _ => ?_, fun _ _ _ => trivial⟩
  have hdown : moveOf diskName = .down diskName := rfl
  rw [resolveOne_down hdown, vfsFinddir, get_bind,
    show opsOf k (some (.pool 0)) = some (.pool 0, .ramfs) by simp [opsOf, h.ops]] at hone
  obtain ⟨hnext, rfl⟩ := Prod.mk.inj hone
  obtain rfl := Option.some.inj ((Option.some.inj hnext).symm.trans h.finds)
  rw [h.cluster, h.mount]
  exact .root

theorem LeadsToDisk.lookup {t : Sharing} (h : LeadsToDisk t.kernel) {j : Nat}
    (hrun : (vfsResolvePath (2 ^ 32) sharedPath t.kernel).1 = some (some (.heap j)))
    (hentry : getEntry ((t.lookedUp j).kernel.vfs.nodes (.heap j)) = some sharedEntry) :
    (sharing (2 ^ 32) sharedFile).step t (.lookup sharedPath) (t.lookedUp j) :=
  ⟨.heap j, sharedEntry, h.through, Prod.ext hrun rfl, hentry, by decide, rfl, rfl, rfl, rfl⟩

theorem written_step {t : Sharing} {n : Ptr} {data : List UInt8} (hn : n ∈ t.nodes)
    (h : (vfsWrite (2 ^ 32) (some n) data 0 t.kernel).1 = some (data.length : Int)) :
    (sharing (2 ^ 32) sharedFile).step t (.write n data 0) (t.written n data) :=
  ⟨hn, rfl, data.length, Prod.ext h rfl, by rw [Int.toNat_natCast, List.take_length]; rfl⟩

def sharedStart : Sharing := ⟨sharedKernel, [], sharedFile.bytes⟩

def sharedOnce : Sharing := sharedStart.lookedUp 3

def sharedTwice : Sharing := sharedOnce.lookedUp 5

theorem shared_lookups : (sharing (2 ^ 32) sharedFile).step sharedStart (.lookup sharedPath)
    sharedOnce ∧ (sharing (2 ^ 32) sharedFile).step sharedOnce (.lookup sharedPath)
    sharedTwice := by
  have hstart : LeadsToDisk sharedStart.kernel :=
    ⟨by decide +kernel, by decide +kernel, by decide +kernel, by decide +kernel, by decide +kernel⟩
  have honce : LeadsToDisk sharedOnce.kernel :=
    ⟨by decide +kernel, by decide +kernel, by decide +kernel, by decide +kernel, by decide +kernel⟩
  rw [sharedTwice]
  refine ⟨?_, honce.lookup (by decide +kernel) (by decide +kernel)⟩
  rw [sharedOnce]
  exact hstart.lookup (by decide +kernel) (by decide +kernel)

-- "hi" is written through the node of the first lookup.
def hiBytes : List UInt8 := [0x68, 0x69]

theorem once_written : (SharedCall.write (.heap 3) hiBytes 0).Recent sharedFile sharedOnce ∧
    (sharing (2 ^ 32) sharedFile).step sharedOnce (.write (.heap 3) hiBytes 0)
      (sharedOnce.written (.heap 3) hiBytes) := by
  have hentry : getEntry (sharedOnce.kernel.vfs.nodes (.heap 3)) = some sharedEntry := by
    decide +kernel
  have hslot : entryIn sharedFile.entry sharedFile.slot (volume 5 sharedOnce.kernel.disk) =
      sharedEntry := by decide +kernel
  have hspare : writeSteps sharedOnce.kernel.disk.mount.bytesPerClust 0 hiBytes.length + 1 ≤
      Fat32.spare (worldEnv 5 sharedOnce.kernel.disk anyRule).limit 5
        (volume 5 sharedOnce.kernel.disk) := by decide +kernel
  refine ⟨?_, written_step (.head _) (by decide +kernel)⟩
  rw [SharedCall.Recent, hslot, hentry]
  rintro c hc
  obtain rfl := Option.some.inj hc
  refine ⟨⟨by decide, rfl, .inl rfl⟩, fun l hl => ?_⟩
  obtain rfl : l = [] := hl.1
  rw [List.length_nil, Nat.sub_zero]
  exact .inr hspare

theorem twice_written : (SharedCall.write (.heap 3) hiBytes 0).InRange sharedFile sharedTwice ∧
    (sharing (2 ^ 32) sharedFile).step sharedTwice (.write (.heap 3) hiBytes 0)
      (sharedTwice.written (.heap 3) hiBytes) := by
  have hslot : entryIn sharedFile.entry sharedFile.slot (volume 5 sharedTwice.kernel.disk) =
      sharedEntry := by decide +kernel
  have hspare : writeSteps sharedTwice.kernel.disk.mount.bytesPerClust 0 hiBytes.length <
      Fat32.spare (worldEnv 5 sharedTwice.kernel.disk anyRule).limit 5
        (volume 5 sharedTwice.kernel.disk) := by decide +kernel
  refine ⟨?_, written_step (.tail _ (.head _)) (by decide +kernel)⟩
  rw [SharedCall.InRange, hslot]
  refine ⟨by decide, fun l hl => ?_⟩
  obtain rfl : l = [] := hl.1
  rw [List.length_nil, Nat.zero_add]
  exact hspare

theorem once_reach {ok : Sharing → SharedCall → Prop} (h : ok sharedStart (.lookup sharedPath)) :
    ((sharing (2 ^ 32) sharedFile).restrict ok).Reach sharedOnce := by
  have hstart : ((sharing (2 ^ 32) sharedFile).restrict ok).Reach sharedStart := .start rfl
  exact hstart.next ⟨h, shared_lookups.1⟩

-- The node is looked up and written through.
theorem shared_file_coherent_hi : Coherent (2 ^ 32) sharedFile
    (fun t call => call.Recent sharedFile t) (sharedOnce.written (.heap 3) hiBytes) :=
  shared_file_coherent sharedFile le_rfl
    ((once_reach trivial).next once_written)

-- The second of two nodes for an empty file still finds it empty after a write through the first.
theorem shared_file_coherent_fails : ¬∀ (N fuel : Nat) (A : Set Ptr) (F : DiskFile N A)
    (t : Sharing), 2 ^ 32 ≤ fuel →
    ((sharing fuel F).restrict fun t call => call.InRange F t).Reach t →
    Coherent fuel F (fun t call => call.InRange F t) t := by
  intro h
  have hreach : ((sharing (2 ^ 32) sharedFile).restrict
      fun t call => call.InRange sharedFile t).Reach sharedTwice :=
    (once_reach trivial).next ⟨by trivial, shared_lookups.2⟩
  have hc := h 5 (2 ^ 32) sharedNodes sharedFile (sharedTwice.written (.heap 3) hiBytes) le_rfl
    (hreach.next twice_written)
  obtain ⟨bytes, k', hrun, hlen, -⟩ := hc.reads (.heap 5) (.head _) 0 2
    (show 0 + 2 < 2 ^ 32 by decide)
  have hsize : (entryIn sharedFile.entry sharedFile.slot
      (volume 5 (sharedTwice.written (.heap 3) hiBytes).kernel.disk)).size = 2 := by decide +kernel
  have hread : ((vfsRead (2 ^ 32) (some (.heap 5)) 0 2
      (sharedTwice.written (.heap 3) hiBytes).kernel).1.map fun r => r.toOption.map List.length) =
      some (some 0) := by decide +kernel
  rw [hsize] at hlen
  rw [hrun] at hread
  have h0 : bytes.length = 0 := Option.some.inj (Option.some.inj hread)
  cases hlen.symm.trans h0

end Shared

end Vfs
