import SabakaOS.Fat32.System

namespace Fat32

open Word ByteMemory Prog Chain

-- A mounted volume with clusters 2, ..., N - 1.
structure MountedAt (N : Nat) (w : World) : Prop where
  fits : Fits w.mount N
  present : w.present = true
  cache : CacheOk w.mount w

def volume (N : Nat) (w : World) : Vol := volOf w.mount N (view w)

def worldEnv (N : Nat) (w : World) (rule : List Event → Event → Prop) : Env where
  mount := w.mount
  clusters := N
  sectorCount := w.sectorCount
  ata := w.ata
  heap := w.heap
  rule := rule

def anyRule : List Event → Event → Prop := fun _ _ => True

section

variable {N : Nat} {w w' : World} {V : Vol} {op : Op} {rule rule' : List Event → Event → Prop}

theorem roomy_rule (h : op.Roomy (worldEnv N w rule) V) : op.Roomy (worldEnv N w rule') V := by
  cases op with
  | _ => exact h

theorem safe_rule (h : op.Safe (worldEnv N w rule) V) : op.Safe (worldEnv N w rule') V := by
  cases op with
  | mkdir d name => exact fun l hl => (h l hl).imp_right (fun h => ⟨h.1, h.2, h.3, h.4⟩)
  | _ => exact h

theorem legal_any (t : List Event) : Legal anyRule t := by
  induction t with
  | nil => trivial
  | cons e t ih => exact ⟨trivial, ih⟩

theorem MountedAt.good (h : MountedAt N w) (hl : Legal rule w.trace) :
    Good (worldEnv N w rule) w :=
  ⟨rfl, h.present, rfl, rfl, rfl, h.cache, hl⟩

theorem MountedAt.lawful (h : MountedAt N w) : (worldEnv N w anyRule).Lawful :=
  ⟨h.fits, fun _ _ _ _ => trivial, fun _ _ _ _ _ => trivial,
    fun _ _ _ => ⟨trivial, trivial, trivial⟩⟩

theorem loose_any : (worldEnv N w anyRule).Loose := fun _ _ _ => trivial

theorem Good.mountedAt (h : Good (worldEnv N w rule) w') (hm : MountedAt N w) : MountedAt N w' := by
  have hmount : w'.mount = w.mount := h.mount
  refine ⟨hmount ▸ hm.fits, h.present, ?_⟩
  rw [hmount]
  exact h.cache

theorem Good.volume_eq (h : Good (worldEnv N w rule) w') :
    (worldEnv N w rule).vol w' = volume N w' := by
  rw [volume, h.mount]
  rfl

end

-- Every sector transfer and every kmalloc succeeds.
structure Calm (w : World) : Prop where
  ata : ∀ s x n, w.ata s x n = true
  heap : ∀ s n, w.heap s n = true

section Calm

variable {N : Nat} {w w' : World} {rule : List Event → Event → Prop} {s : Site} {x : Xfer}

theorem no_ataFails (h : ∀ s x n, w.ata s x n = true) : ¬(worldEnv N w rule).ataFails s x := by
  rintro ⟨n, hn⟩
  exact absurd (hn.symm.trans (h s x n)) (by decide)

theorem no_fatFails (h : ∀ s x n, w.ata s x n = true) : ¬(worldEnv N w rule).fatFails s :=
  fun hf => hf.elim (no_ataFails h) (no_ataFails h)

theorem Calm.no_ataFails (h : Calm w) : ¬(worldEnv N w rule).ataFails s x := Fat32.no_ataFails h.ata

theorem Calm.no_fatFails (h : Calm w) : ¬(worldEnv N w rule).fatFails s := Fat32.no_fatFails h.ata

theorem Calm.no_heapFails (h : Calm w) : ¬(worldEnv N w rule).heapFails s := by
  rintro ⟨n, hn⟩
  exact absurd (hn.symm.trans (h.heap s n)) (by decide)

theorem Calm.no_listFails (h : Calm w) : ¬(worldEnv N w rule).listFails :=
  fun hf => hf.elim h.no_fatFails (fun hf => hf.elim h.no_ataFails h.no_heapFails)

end Calm

theorem blank_slot {m : Mount} {N : Nat} {img : Nat → UInt8}
    (h : ∀ a, 512 * m.dataStartLba ≤ a → img a = 0) (x i : Nat) :
    slotAt (volOf m N img) (x, i) 0 = 0 := by
  have hle := le_clusterLba m x
  simp only [slotAt, slotOf, volOf]
  split
  · split
    · exact h _ (by omega)
    · rfl
  · rfl

theorem consistent_of_empty {m : Mount} {N : Nat} {V : Vol} (hN : N ≤ 0x0FFFFFF8)
    (hroot : Valid N m.rootCluster) (hl : Link N V fat32Eof m.rootCluster [m.rootCluster])
    (hempty : ∀ i, ¬Names (slotAt V (m.rootCluster, i))) : Consistent m N V := by
  have hnone : ∀ p, ¬Live m N V {m.rootCluster} p := by
    rintro ⟨x, i⟩ ⟨⟨d, rfl, l, hl', hm⟩, -, hn, -⟩
    obtain rfl := hl'.unique (eof_stops hN) hl
    obtain rfl := List.mem_singleton.mp hm
    exact hempty i hn
  refine ⟨{m.rootCluster}, {m.rootCluster}, rfl, subset_rfl, ⟨?_, ?_⟩, ?_,
    fun p hp => absurd hp (hnone p), fun p _ hp => absurd hp (hnone p)⟩
  · rintro h rfl
    exact ⟨hroot, _, hl⟩
  · rintro h rfl h' rfl hne
    exact absurd rfl hne
  · rintro d rfl hne
    exact absurd rfl hne

-- A formatted disk of six sectors: two FATs of one sector each and clusters 2, 3 and 4, the first
-- of them the empty root directory.
def freshMount : Mount where
  mounted := true
  fatStartLba := 1
  fatSizeSectors := 1
  dataStartLba := 3
  rootCluster := 2
  sectorsPerClust := 1
  bytesPerClust := 512

def freshDisk : Nat → UInt8 := writeLE (writeLE (fun _ => 0) 4 520 fat32Eof) 4 1032 fat32Eof

def diskWorld (disk : Nat → UInt8) (ata : Site → Xfer → Nat → Bool) : World where
  disk := disk
  present := true
  sectorCount := 6
  mount := freshMount
  fatCache := fun _ => 0
  fatCacheLba := noLba
  fatCacheDirty := false
  ata := ata
  ataCalls := 0
  heap := fun _ _ => true
  heapCalls := 0
  trace := []

def freshWorld : World := diskWorld freshDisk (fun _ _ _ => true)

section Fresh

theorem freshMount_fits : Fits freshMount 5 := by
  constructor <;> decide

theorem disk_mounted (disk : Nat → UInt8) (ata : Site → Xfer → Nat → Bool) :
    MountedAt 5 (diskWorld disk ata) :=
  ⟨freshMount_fits, rfl, .inl ⟨rfl, rfl⟩⟩

theorem fresh_calm : Calm freshWorld := ⟨fun _ _ _ => rfl, fun _ _ => rfl⟩

theorem fresh_link : Link 5 (volume 5 freshWorld) fat32Eof 2 [2] := by
  have hend : (volume 5 freshWorld).fat 2 = fat32Eof := by decide +kernel
  exact ⟨rfl, by decide, hend⟩

theorem root_dir {N : Nat} (w : World) :
    IsDir w.mount N (volume N w) (dirHead w.mount 0) := .root

theorem root_link {w : World} (hmount : w.mount = freshMount)
    (hend : (volume 5 w).fat 2 = fat32Eof) :
    Link 5 (volume 5 w) fat32Eof (dirHead w.mount 0) [2] := by
  rw [hmount]
  exact ⟨rfl, by decide, hend⟩

theorem create_roomy {w : World} {k : Nat} (hcalm : Calm w) (hmount : w.mount = freshMount)
    (hend : (volume 5 w).fat 2 = fat32Eof)
    (hidx : freeIndex (volume 5 w) (entriesPerClust w.mount) [2] = some k) (name : List UInt8) :
    (Op.create 0 name).Roomy (worldEnv 5 w anyRule) (volume 5 w) := by
  intro l hl
  obtain rfl := hl.unique (eof_stops (show 5 ≤ 0x0FFFFFF8 by decide)) (root_link hmount hend)
  exact .inr (.inl ⟨fun hn => (by cases hidx.symm.trans hn), hcalm.no_fatFails⟩)

theorem fresh_zero (i : Nat) : slotAt (volume 5 freshWorld) (2, i) 0 = 0 := by
  refine blank_slot (fun a ha => ?_) 2 i
  change 512 * 3 ≤ a at ha
  change freshDisk a = 0
  rw [freshDisk, writeLE_of_not_mem _ _ _ _ (.inr (by omega)),
    writeLE_of_not_mem _ _ _ _ (.inr (by omega))]

theorem fresh_root (i : Nat) : ¬Names (slotAt (volume 5 freshWorld) (2, i)) :=
  fun hn => hn.1 (fresh_zero i)

theorem fresh_consistent : Consistent freshMount 5 (volume 5 freshWorld) :=
  consistent_of_empty (by decide) (by decide) fresh_link fresh_root

end Fresh

end Fat32
