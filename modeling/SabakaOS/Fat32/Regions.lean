import SabakaOS.Library.Run
import SabakaOS.Fat32.Mounted

namespace Fat32

open Word ByteMemory Prog Chain

def partitionLba (disk : Nat → UInt8) : Nat :=
  if isFat32Type (disk 450) then readLE disk 4 454 else 0

def diskBpb (disk : Nat → UInt8) : Bpb := bpbOf (sectorAt disk (partitionLba disk))

def diskMount (disk : Nat → UInt8) : Mount := mountOf (partitionLba disk) (diskBpb disk)

def Bpb.totalSectors (b : Bpb) : Nat :=
  if b.totalSectors16 ≠ 0 then b.totalSectors16 else b.totalSectors32

def fatStart (disk : Nat → UInt8) : Nat := partitionLba disk + (diskBpb disk).reservedSectors

def dataStart (disk : Nat → UInt8) : Nat :=
  fatStart disk + (diskBpb disk).numFats * (diskBpb disk).fatSize32

def volumeEnd (disk : Nat → UInt8) : Nat := partitionLba disk + (diskBpb disk).totalSectors

-- The volume has the clusters 2, ..., clusterEnd - 1.
def clusterEnd (disk : Nat → UInt8) : Nat :=
  2 + (volumeEnd disk - dataStart disk) / (diskBpb disk).sectorsPerCluster

-- A volume whose FATs cover its clusters, and whose root directory and files are in order.
structure Formatted (disk : Nat → UInt8) : Prop where
  spc : 0 < (diskBpb disk).sectorsPerCluster
  ends : volumeEnd disk ≤ 2 ^ 32
  table : clusterEnd disk ≤ 128 * (diskBpb disk).fatSize32
  small : clusterEnd disk ≤ 0x0FFFFFF7
  root : Valid (clusterEnd disk) (diskBpb disk).rootCluster
  consistent : Consistent (diskMount disk) (clusterEnd disk)
    (volOf (diskMount disk) (clusterEnd disk) disk)

-- FAT sectors are written within the FATs, clusters within the data region, and only clusters of
-- the volume are handed out.
def InRegion (disk : Nat → UInt8) : Event → Prop
  | .sectorWrite .fatWrite lba => fatStart disk ≤ lba ∧ lba < dataStart disk
  | .sectorWrite .clusterWrite lba => dataStart disk ≤ lba ∧ lba < volumeEnd disk
  | .sectorWrite .fatRead _ => False
  | .sectorWrite .clusterRead _ => False
  | .alloc c _ => 2 ≤ c ∧ dataStart disk ≤ clusterToLba (diskMount disk) c ∧
      clusterToLba (diskMount disk) c + (diskBpb disk).sectorsPerCluster ≤ volumeEnd disk
  | _ => True

structure Untouched (w0 w : World) : Prop where
  present : w.present = w0.present
  disk : w.disk = w0.disk
  ata : w.ata = w0.ata
  trace : w.trace = w0.trace

-- The world that fat32_init makes of w0.
structure Mounts (w0 w : World) : Prop where
  mount : w.mount = diskMount w0.disk
  present : w.present = true
  same : Untouched w0 w
  cacheLba : w.fatCacheLba = noLba
  clean : w.fatCacheDirty = false

section Init

variable {w0 w : World} {disk : Nat → UInt8}

theorem readAny_runs (h : Untouched w0 w) (s : Site) (x : Xfer) (lba : Nat) :
    Runs (ataReadSectors s x lba) w (fun r w' => Untouched w0 w' ∧
      (r = some (sectorAt w0.disk lba) ∨ r = none)) (fun _ => False) := by
  have hcalled : Untouched w0 { w with ataCalls := w.ataCalls + 1 } :=
    ⟨h.present, h.disk, h.ata, h.trace⟩
  unfold ataReadSectors Runs
  simp only
  cases w.present && w.ata s x w.ataCalls with
  | true => exact ⟨hcalled, .inl (by rw [h.disk])⟩
  | false => exact ⟨hcalled, .inr rfl⟩

theorem fat32Mount_runs (h : Untouched w0 w) (hpresent : w0.present = true) :
    Runs (fat32Mount (partitionLba w0.disk) (sectorAt w0.disk (partitionLba w0.disk))) w
      (fun r w' => r = true → Mounts w0 w') (fun _ => False) := by
  unfold fat32Mount
  simp only
  split
  · exact Runs.pure (fun h => by cases h)
  · exact Runs.modify_bind (Runs.pure (fun _ => ⟨rfl, h.present.trans hpresent,
      ⟨h.present, h.disk, h.ata, h.trace⟩, rfl, rfl⟩))

theorem fat32Init_runs :
    Runs fat32Init w0 (fun r w => r = true → Mounts w0 w) (fun _ => False) := by
  unfold fat32Init
  refine Runs.modify_bind (Runs.get_bind ?_)
  simp only
  have hstart : Untouched w0 { w0 with mount := { w0.mount with mounted := false } } :=
    ⟨rfl, rfl, rfl, rfl⟩
  by_cases hpresent : w0.present = true
  · rw [if_neg (by simpa using hpresent)]
    refine (readAny_runs hstart ..).bind ?_
    rintro r w1 ⟨h1, rfl | rfl⟩
    · simp only
      have htype : sectorAt w0.disk 0 450 = w0.disk 450 := rfl
      split
      · exact Runs.pure (fun h => by cases h)
      · split
        · rename_i hfat
          have hp : partitionLba w0.disk = readLE (sectorAt w0.disk 0) 4 454 := by
            rw [partitionLba, ← htype, if_pos hfat]
            exact readLE_congr (fun k _ _ => congrArg w0.disk (Nat.zero_add k).symm)
          rw [← hp]
          refine (readAny_runs h1 ..).bind ?_
          rintro r w2 ⟨h2, rfl | rfl⟩
          · exact fat32Mount_runs h2 hpresent
          · exact Runs.pure (fun h => by cases h)
        · rename_i hfat
          have hp : partitionLba w0.disk = 0 := by
            rw [partitionLba, ← htype, if_neg hfat]
          have hmount := fat32Mount_runs h1 hpresent
          rwa [hp] at hmount
    · exact Runs.pure (fun h => by cases h)
  · rw [if_pos (by simpa using hpresent)]
    exact Runs.pure (fun h => by cases h)

end Init

section Geometry

variable {disk : Nat → UInt8} {N : Nat} {w w' : World}

theorem Formatted.lbas (hf : Formatted disk) : dataStart disk < volumeEnd disk ∧
    (diskMount disk).fatStartLba = fatStart disk ∧
    (diskMount disk).dataStartLba = dataStart disk := by
  have hroot := hf.root
  have hends := hf.ends
  have hlt : dataStart disk < volumeEnd disk := by
    by_contra hle
    unfold Valid clusterEnd at hroot
    rw [Nat.sub_eq_zero_of_le (Nat.le_of_not_lt hle), Nat.zero_div] at hroot
    omega
  have hstart : dataStart disk =
    fatStart disk + (diskBpb disk).numFats * (diskBpb disk).fatSize32 := rfl
  have hfat : (diskMount disk).fatStartLba = fatStart disk := u32_of_lt (by
    rw [fatStart] at hstart
    omega)
  refine ⟨hlt, hfat, ?_⟩
  change u32 ((diskMount disk).fatStartLba +
    u32 ((diskBpb disk).numFats * (diskBpb disk).fatSize32)) = _
  rw [hfat, u32_of_lt (n := (diskBpb disk).numFats * (diskBpb disk).fatSize32) (by omega),
    u32_of_lt (by omega), ← hstart]

theorem Formatted.room (hf : Formatted disk) :
    dataStart disk + (clusterEnd disk - 2) * (diskBpb disk).sectorsPerCluster ≤ volumeEnd disk := by
  have hlt := hf.lbas.1
  have hle := Nat.div_mul_le_self (volumeEnd disk - dataStart disk)
    (diskBpb disk).sectorsPerCluster
  rw [clusterEnd, Nat.add_sub_cancel_left]
  omega

theorem Formatted.fits (hf : Formatted disk) (h2 : 2 ≤ (diskBpb disk).numFats) :
    Fits (diskMount disk) (clusterEnd disk) := by
  obtain ⟨hlt, hfat, hdata⟩ := hf.lbas
  have hroom := hf.room
  have hmul := Nat.mul_le_mul_right (diskBpb disk).fatSize32 h2
  refine ⟨rfl, hf.spc, UInt8.toNat_lt _, rfl, ?_, hf.table, ?_, hf.small.trans (by decide),
    hf.root⟩
  · rw [hfat, hdata, dataStart]
    exact Nat.add_le_add_left hmul _
  · rw [hdata]
    exact hroom.trans hf.ends

theorem Formatted.lawful (hf : Formatted disk) (h2 : 2 ≤ (diskBpb disk).numFats)
    (hm : w.mount = diskMount disk) :
    (worldEnv (clusterEnd disk) w (fun _ e => InRegion disk e)).Lawful := by
  have hfits := hf.fits h2
  obtain ⟨hlt, hfat, hdata⟩ := hf.lbas
  have hroom := hf.room
  have hfats := hfits.fats
  rw [hfat, hdata] at hfats
  have hcluster : ∀ c, Valid (clusterEnd disk) c → dataStart disk ≤ clusterLba (diskMount disk) c ∧
      clusterLba (diskMount disk) c + (diskBpb disk).sectorsPerCluster ≤ volumeEnd disk := by
    intro c hc
    have hle := le_clusterLba (diskMount disk) c
    have hin := cluster_room (m := diskMount disk) hc
    rw [hdata] at hle hin
    exact ⟨hle, hin.trans hroom⟩
  refine ⟨?_, fun t lba h1 h3 => ?_, fun t c i hc hi => ?_, fun t c hc => ⟨trivial, ?_, trivial⟩⟩
  · change Fits w.mount (clusterEnd disk)
    rwa [hm]
  · change w.mount.fatStartLba ≤ lba at h1
    change lba < w.mount.fatStartLba + 2 * w.mount.fatSizeSectors at h3
    rw [hm, hfat] at h1 h3
    exact ⟨h1, h3.trans_le hfats⟩
  · have hi' : i < w.mount.sectorsPerClust := hi
    change dataStart disk ≤ clusterLba w.mount c + i ∧ clusterLba w.mount c + i < volumeEnd disk
    rw [hm] at hi' ⊢
    have hspc : (diskMount disk).sectorsPerClust = (diskBpb disk).sectorsPerCluster := rfl
    obtain ⟨hle, hin⟩ := hcluster c hc
    omega
  · change 2 ≤ c ∧ dataStart disk ≤ clusterToLba (diskMount disk) c ∧
      clusterToLba (diskMount disk) c + (diskBpb disk).sectorsPerCluster ≤ volumeEnd disk
    rw [hfits.clusterToLba_eq hc]
    exact ⟨hc.1, hcluster c hc⟩

end Geometry

-- The runs of the driver on a disk, from the mounting on, on which every transfer succeeds.
def mountedDisk (disk : Nat → UInt8) : System World Op where
  init w := ∃ w0, w0.disk = disk ∧ w0.trace = [] ∧ (∀ s x n, w0.ata s x n = true) ∧
    fat32Init w0 = (some true, w)
  step w op w' := op.Valid w.mount (clusterEnd disk) (volume (clusterEnd disk) w) ∧
    ∃ fuel r, op.run fuel w = (some r, w')

def KeepsRegions (disk : Nat → UInt8) (w : World) : Prop := ∀ e ∈ w.trace, InRegion disk e

-- fat_alloc_cluster hands out a free cluster of the volume, and nothing if there is none.
def AllocsInside (disk : Nat → UInt8) (w : World) : Prop :=
  ∃ c w', fatAllocCluster w = (some c, w') ∧
    ((c = 0 ∧ ∀ x, Valid (clusterEnd disk) x → x < w.sectorCount / w.mount.sectorsPerClust →
      (volume (clusterEnd disk) w).fat x ≠ 0) ∨
    (Valid (clusterEnd disk) c ∧ (volume (clusterEnd disk) w).fat c = 0))

-- The steps for which the volume has room, and at which no failure leaves a freed entry behind.
def roomyDisk (disk : Nat → UInt8) : System World Op :=
  (mountedDisk disk).restrict (fun w op =>
    op.Roomy (worldEnv (clusterEnd disk) w anyRule) (volume (clusterEnd disk) w) ∧
      op.Safe (worldEnv (clusterEnd disk) w anyRule) (volume (clusterEnd disk) w))

structure Orderly (disk : Nat → UInt8) (w : World) : Prop where
  mount : w.mount = diskMount disk
  mounted : MountedAt (clusterEnd disk) w
  consistent : Consistent w.mount (clusterEnd disk) (volume (clusterEnd disk) w)
  ata : ∀ s x n, w.ata s x n = true
  legal : Legal (fun _ e => InRegion disk e) w.trace

section Runs

variable {disk : Nat → UInt8} {w w' : World} {op : Op}

theorem legal_mem {P : Event → Prop} {t : List Event} (h : Legal (fun _ e => P e) t) :
    ∀ e ∈ t, P e := by
  induction t with
  | nil => exact fun e he => by cases he
  | cons e t ih =>
    rintro x (_ | ⟨_, hx⟩)
    · exact h.1
    · exact ih h.2 x hx

theorem orderly_start (hf : Formatted disk) (h2 : 2 ≤ (diskBpb disk).numFats)
    (h : (mountedDisk disk).init w) : Orderly disk w := by
  obtain ⟨w0, rfl, htrace, hata, hinit⟩ := h
  obtain ⟨hmount, hpresent, ⟨-, hdisk, hata', htrace'⟩, hlba, hclean⟩ :=
    fat32Init_runs.result hinit rfl
  have hview : view w = w0.disk := by
    rw [view, hclean, ← hdisk]
    rfl
  refine ⟨hmount, ⟨hmount ▸ hf.fits h2, hpresent, .inl ⟨hlba, hclean⟩⟩, ?_, ?_, ?_⟩
  · rw [volume, hview, hmount]
    exact hf.consistent
  · rw [hata']
    exact hata
  · rw [htrace', htrace]
    trivial

theorem Orderly.step (h : Orderly disk w) (hf : Formatted disk)
    (h2 : 2 ≤ (diskBpb disk).numFats) (hstep : (roomyDisk disk).step w op w') :
    Orderly disk w' := by
  obtain ⟨hmount, hm, hc, hata, hlegal⟩ := h
  obtain ⟨⟨hroom, hsafe⟩, hv, fuel, r, hrun⟩ := hstep
  have hloose : (worldEnv (clusterEnd disk) w (fun _ e => InRegion disk e)).Loose := by
    intro t e he
    cases e with
    | alloc c v => exact absurd rfl he
    | sectorWrite x lba => exact absurd rfl he
    | _ => trivial
  obtain ⟨hs, hc'⟩ := (Op.run_sound (hf.lawful h2 hmount) (hm.good hlegal) hloose op hc hv
    (roomy_rule hroom) (safe_rule hsafe)).result hrun
  have hm' := hs.good.mountedAt hm
  have hmount' : w'.mount = w.mount := hs.good.mount
  refine ⟨hmount'.trans hmount, hm', ?_, ?_, hs.good.legal⟩
  · rw [hmount', ← hs.good.volume_eq]
    exact hc'
  · rw [hs.good.ata]
    exact hata

def orderlyInvariant (hf : Formatted disk) (h2 : 2 ≤ (diskBpb disk).numFats) :
    (roomyDisk disk).Invariant where
  holds := Orderly disk
  start := orderly_start hf h2
  step h ht := h.step hf h2 ht

theorem Orderly.allocs (h : Orderly disk w)
    (hroom : Room (w.sectorCount / w.mount.sectorsPerClust) (clusterEnd disk)
      (volume (clusterEnd disk) w) 1) : AllocsInside disk w := by
  obtain ⟨c, w', hrun, -, hres⟩ := (fatAllocCluster_runs h.mounted.lawful
    (h.mounted.good (legal_any w.trace)) (no_fatFails h.ata) hroom).ends
  refine ⟨c, w', hrun, ?_⟩
  rcases hres with ⟨rfl, -, hspare⟩ | ⟨-, hok, -, hfree, -⟩
  · refine .inl ⟨rfl, fun x hx hlim hfree => ?_⟩
    have hmore := spare_alloc hx hlim hfree (show 1 ≠ 0 by decide)
    exact absurd (hmore.trans hspare) (by omega)
  · exact .inr ⟨hok, hfree⟩

end Runs

-- A disk of six sectors with its boot sector, FATs of one sector each and an empty root directory
-- in cluster 2.
def bootDisk (numFats : Nat) : Nat → UInt8 :=
  [(2, 11, 512), (1, 13, 1), (2, 14, 1), (1, 16, numFats), (4, 32, 6), (4, 36, 1), (4, 44, 2),
    (2, 510, 0xAA55), (4, 520, fat32Eof)].foldl (fun m f => writeLE m f.1 f.2.1 f.2.2)
    (fun _ => 0)

def bootMounted (numFats : Nat) : World :=
  (fat32Init (diskWorld (bootDisk numFats) (fun _ _ _ => true))).2

-- The directory "D".
def bootMade (numFats : Nat) : World :=
  ((Op.mkdir 0 [0x44]).run 100 (bootMounted numFats)).2

section Boot

variable {n : Nat}

theorem boot_zero {a : Nat} (ha : 524 ≤ a) : bootDisk n a = 0 := by
  simp only [bootDisk, List.foldl_cons, List.foldl_nil]
  iterate 9 rw [writeLE_of_not_mem _ _ _ _ (.inr (by omega))]

theorem boot_formatted (h : n = 1 ∨ n = 2) : Formatted (bootDisk n) := by
  have hnums : 0 < (diskBpb (bootDisk n)).sectorsPerCluster ∧ volumeEnd (bootDisk n) ≤ 2 ^ 32 ∧
      clusterEnd (bootDisk n) ≤ 128 * (diskBpb (bootDisk n)).fatSize32 ∧
      clusterEnd (bootDisk n) ≤ 0x0FFFFFF7 ∧ Valid (clusterEnd (bootDisk n)) 2 ∧
      (diskBpb (bootDisk n)).rootCluster = 2 ∧ 2 ≤ (diskMount (bootDisk n)).dataStartLba ∧
      (volOf (diskMount (bootDisk n)) (clusterEnd (bootDisk n)) (bootDisk n)).fat 2 =
        fat32Eof := by
    rcases h with rfl | rfl
    · decide +kernel
    · decide +kernel
  obtain ⟨hspc, hends, htable, hsmall, hvalid, hroot, hdata, hend⟩ := hnums
  have hcluster : (diskMount (bootDisk n)).rootCluster = 2 := hroot
  refine ⟨hspc, hends, htable, hsmall, hroot.symm ▸ hvalid,
    consistent_of_empty (hsmall.trans (by decide)) ?_ ?_ (fun i hn => hn.1 ?_)⟩
  · rw [hcluster]
    exact hvalid
  · rw [hcluster]
    exact ⟨rfl, hvalid, hend⟩
  · exact blank_slot (fun a ha => boot_zero (by omega)) _ i

theorem boot_start (h : n = 1 ∨ n = 2) : (mountedDisk (bootDisk n)).init (bootMounted n) := by
  have hinit : (fat32Init (diskWorld (bootDisk n) (fun _ _ _ => true))).1 = some true := by
    rcases h with rfl | rfl
    · decide +kernel
    · decide +kernel
  refine ⟨diskWorld (bootDisk n) (fun _ _ _ => true), rfl, rfl, fun _ _ _ => rfl, ?_⟩
  rw [bootMounted, ← hinit]

theorem boot_step (h : n = 1 ∨ n = 2) :
    (mountedDisk (bootDisk n)).step (bootMounted n) (.mkdir 0 [0x44]) (bootMade n) := by
  have hrun : ((Op.mkdir 0 [0x44]).run 100 (bootMounted n)).1 = some fat32Ok := by
    rcases h with rfl | rfl
    · decide +kernel
    · decide +kernel
  refine ⟨root_dir _, 100, fat32Ok, ?_⟩
  rw [bootMade, ← hrun]

end Boot

theorem regions_kept {disk : Nat → UInt8} {w : World} (hf : Formatted disk)
    (h2 : 2 ≤ (diskBpb disk).numFats) (h : (roomyDisk disk).Reach w) : KeepsRegions disk w ∧
      (Room (w.sectorCount / w.mount.sectorsPerClust) (clusterEnd disk)
        (volume (clusterEnd disk) w) 1 → AllocsInside disk w) := by
  have horder := (orderlyInvariant hf h2).reach h
  exact ⟨legal_mem horder.legal, horder.allocs⟩

theorem regions_kept_made : KeepsRegions (bootDisk 2) (bootMade 2) := by
  have hinit := boot_start (.inr rfl)
  have hfats : 2 ≤ (diskBpb (bootDisk 2)).numFats := by decide +kernel
  have hspare : 2 ≤ spare ((bootMounted 2).sectorCount / (bootMounted 2).mount.sectorsPerClust)
      (clusterEnd (bootDisk 2)) (volume (clusterEnd (bootDisk 2)) (bootMounted 2)) := by
    decide +kernel
  have hata := (orderly_start (boot_formatted (.inr rfl)) hfats hinit).ata
  have hroom : (Op.mkdir 0 [0x44]).Roomy (worldEnv (clusterEnd (bootDisk 2)) (bootMounted 2) anyRule)
      (volume (clusterEnd (bootDisk 2)) (bootMounted 2)) :=
    fun l _ => .inr (.inr (.inr hspare))
  have hsafe : (Op.mkdir 0 [0x44]).Safe (worldEnv (clusterEnd (bootDisk 2)) (bootMounted 2) anyRule)
      (volume (clusterEnd (bootDisk 2)) (bootMounted 2)) :=
    fun l _ => .inr ⟨no_fatFails hata, no_ataFails hata, no_ataFails hata, .inr (no_ataFails hata)⟩
  exact (regions_kept (boot_formatted (.inr rfl)) hfats
    (.next (.start hinit) ⟨⟨hroom, hsafe⟩, boot_step (.inr rfl)⟩)).1

-- With one FAT the entry of the new cluster is also written to the root directory's sector.
theorem regions_kept_fails : ¬∀ (disk : Nat → UInt8) (w : World), Formatted disk →
    (mountedDisk disk).Reach w → KeepsRegions disk w := by
  intro h
  have hin := h (bootDisk 1) (bootMade 1) (boot_formatted (.inl rfl))
    (.next (.start (boot_start (.inl rfl))) (boot_step (.inl rfl)))
    (.sectorWrite .fatWrite 2) (by decide +kernel)
  have hstart : ¬2 < dataStart (bootDisk 1) := by decide +kernel
  exact hstart hin.2

end Fat32
