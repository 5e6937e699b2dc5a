import Mathlib.Tactic.Ring
import SabakaOS.Fat32.Table

namespace Fat32

open Word ByteMemory Prog

-- The FAT entries and the cluster contents of a volume with clusters 2, ..., N - 1.
@[ext] structure Vol where
  fat : Nat → Nat
  data : Nat → Nat → UInt8

def Vol.setFat (V : Vol) (c v : Nat) : Vol := { V with fat := Function.update V.fat c v }

def Vol.setData (V : Vol) (c : Nat) (f : Nat → UInt8) : Vol :=
  { V with data := Function.update V.data c f }

def Valid (N c : Nat) : Prop := 2 ≤ c ∧ c < N

instance (N c : Nat) : Decidable (Valid N c) := inferInstanceAs (Decidable (_ ∧ _))

structure Fits (m : Mount) (N : Nat) : Prop where
  mounted : m.mounted = true
  spc : 0 < m.sectorsPerClust
  byte : m.sectorsPerClust < 256
  bpc : m.bytesPerClust = 512 * m.sectorsPerClust
  fats : m.fatStartLba + 2 * m.fatSizeSectors ≤ m.dataStartLba
  table : N ≤ 128 * m.fatSizeSectors
  room : m.dataStartLba + (N - 2) * m.sectorsPerClust ≤ 2 ^ 32
  small : N ≤ 0x0FFFFFF8
  root : Valid N m.rootCluster

def entryAddr (m : Mount) (c : Nat) : Nat := 512 * m.fatStartLba + 4 * c

def clusterLba (m : Mount) (c : Nat) : Nat := m.dataStartLba + (c - 2) * m.sectorsPerClust

def volOf (m : Mount) (N : Nat) (img : Nat → UInt8) : Vol where
  fat c := if Valid N c then readLE img 4 (entryAddr m c) % 0x10000000 else 0
  data c j :=
    if Valid N c ∧ j < m.bytesPerClust then img (512 * clusterLba m c + j) else 0

theorem entryAddr_eq (m : Mount) (c : Nat) : entryAddr m c = 512 * m.fatStartLba + 4 * c := rfl

theorem clusterLba_eq (m : Mount) (c : Nat) :
    clusterLba m c = m.dataStartLba + (c - 2) * m.sectorsPerClust := rfl

theorem le_clusterLba (m : Mount) (c : Nat) : m.dataStartLba ≤ clusterLba m c :=
  Nat.le_add_right ..

attribute [irreducible] entryAddr clusterLba

section Layout

variable {m : Mount} {N c c' : Nat} {img img' : Nat → UInt8}

theorem cluster_room (hc : Valid N c) :
    clusterLba m c + m.sectorsPerClust ≤ m.dataStartLba + (N - 2) * m.sectorsPerClust := by
  have h := Nat.mul_le_mul_right m.sectorsPerClust (show c - 2 + 1 ≤ N - 2 by
    unfold Valid at hc
    omega)
  rw [Nat.add_mul, Nat.one_mul] at h
  rw [clusterLba_eq]
  omega

theorem Fits.cluster_lt (hf : Fits m N) (hc : Valid N c) :
    clusterLba m c + m.sectorsPerClust ≤ 2 ^ 32 :=
  (cluster_room hc).trans hf.room

theorem cluster_apart (h : c < c') (h2 : 2 ≤ c) :
    clusterLba m c + m.sectorsPerClust ≤ clusterLba m c' := by
  have h := Nat.mul_le_mul_right m.sectorsPerClust (show c - 2 + 1 ≤ c' - 2 by omega)
  rw [Nat.add_mul, Nat.one_mul] at h
  rw [clusterLba_eq, clusterLba_eq]
  omega

theorem Fits.clusterToLba_eq (hf : Fits m N) (hc : Valid N c) :
    clusterToLba m c = clusterLba m c := by
  have h := hf.cluster_lt hc
  have hspc := hf.spc
  have hsmall := hf.small
  have hc2 : sub32 c 2 = c - 2 := sub32_of_le (by unfold Valid at hc; omega) hc.1
  rw [clusterLba_eq] at h ⊢
  rw [clusterToLba, hc2, u32_of_lt (n := (c - 2) * m.sectorsPerClust) (by omega),
    u32_of_lt (by omega)]

theorem Fits.entry_room (hf : Fits m N) (hc : Valid N c) :
    entryAddr m c + 4 ≤ 512 * (m.fatStartLba + m.fatSizeSectors) := by
  have := hf.table
  unfold Valid at hc
  rw [entryAddr_eq]
  omega

theorem Fits.fatLba_eq (hf : Fits m N) (hc : Valid N c) {k : Nat} (hk : k < 2) :
    512 * fatLba m k c + fatOff c = entryAddr m c + 512 * (k * m.fatSizeSectors) ∧
      m.fatStartLba ≤ fatLba m k c ∧ fatLba m k c < m.fatStartLba + 2 * m.fatSizeSectors ∧
      fatOff c + 4 ≤ 512 := by
  have htable := hf.table
  have hroom := hf.room
  have hfats := hf.fats
  have hsmall := hf.small
  unfold Valid at hc
  have hc4 : u32 (c * 4) = c * 4 := u32_of_lt (by omega)
  have hkf : k * m.fatSizeSectors ≤ m.fatSizeSectors := by
    rcases (show k = 0 ∨ k = 1 by omega) with rfl | rfl
    · omega
    · omega
  have hk32 : u32 (k * m.fatSizeSectors) = k * m.fatSizeSectors := u32_of_lt (by omega)
  rw [fatLba, fatOff, entryAddr_eq, hc4, hk32, u32_of_lt (by omega)]
  omega

theorem volOf_congr (hf : Fits m N)
    (hfat : ∀ a, 512 * m.fatStartLba ≤ a → a < 512 * (m.fatStartLba + m.fatSizeSectors) →
      img' a = img a)
    (hdata : ∀ a, 512 * m.dataStartLba ≤ a → img' a = img a) :
    volOf m N img' = volOf m N img := by
  refine Vol.ext (funext fun c => ?_) (funext fun c => funext fun j => ?_)
  · simp only [volOf]
    split
    · rename_i hc
      have hroom := hf.entry_room hc
      have hread : readLE img' 4 (entryAddr m c) = readLE img 4 (entryAddr m c) :=
        readLE_congr (fun k h1 h2 => hfat k (le_trans (by rw [entryAddr_eq]; omega) h1)
          (lt_of_lt_of_le h2 hroom))
      rw [hread]
    · rfl
  · simp only [volOf]
    split
    · have hle := le_clusterLba m c
      exact hdata _ (by omega)
    · rfl

theorem readLE_writeLE_entry (img : Nat → UInt8) (v : Nat) (hne : c ≠ c') :
    readLE (writeLE img 4 (entryAddr m c) v) 4 (entryAddr m c') =
      readLE img 4 (entryAddr m c') := by
  refine read_write_disjoint img v ?_
  rw [entryAddr_eq, entryAddr_eq]
  omega

theorem volOf_writeEntry (hf : Fits m N) (hc : Valid N c) (v : Nat) :
    volOf m N (writeLE img 4 (entryAddr m c) v) =
      (volOf m N img).setFat c (v % 0x10000000) := by
  refine Vol.ext (funext fun x => ?_) (funext fun x => funext fun j => ?_)
  · simp only [volOf, Vol.setFat]
    by_cases hx : x = c
    · subst hx
      rw [if_pos hc, Function.update_self, read_write_same, Nat.mod_mod_of_dvd]
      decide
    · rw [Function.update_of_ne hx, readLE_writeLE_entry img v (Ne.symm hx)]
  · simp only [volOf, Vol.setFat]
    split
    · have h1 := hf.entry_room hc
      have h2 := hf.fats
      have h3 := le_clusterLba m x
      exact writeLE_of_not_mem _ _ _ _ (.inr (by omega))
    · rfl

theorem volOf_storeSector (hf : Fits m N) (hc : Valid N c) {i : Nat} (hi : i < m.sectorsPerClust)
    (buf : Buffer) :
    volOf m N (storeSector img (clusterLba m c + i) (sectorAt buf i)) =
      (volOf m N img).setData c (fun j =>
        if 512 * i ≤ j ∧ j < 512 * i + 512 then buf j else (volOf m N img).data c j) := by
  have hbpc := hf.bpc
  have hlba := le_clusterLba m c
  have hi' : 512 * i + 512 ≤ 512 * m.sectorsPerClust := by
    omega
  refine Vol.ext (funext fun x => ?_) (funext fun x => funext fun j => ?_)
  · simp only [volOf, Vol.setData]
    split
    · rename_i hx
      have h1 := hf.entry_room hx
      have h2 := hf.fats
      have hread : readLE (storeSector img (clusterLba m c + i) (sectorAt buf i)) 4
          (entryAddr m x) = readLE img 4 (entryAddr m x) := by
        refine readLE_congr (fun k h3 h4 => ?_)
        unfold storeSector
        rw [if_neg (by omega)]
      rw [hread]
    · rfl
  · simp only [volOf, Vol.setData]
    by_cases hx : x = c
    · subst hx
      rw [Function.update_self]
      simp only [hc, true_and]
      unfold storeSector sectorAt
      by_cases hj : 512 * i ≤ j ∧ j < 512 * i + 512
      · have hjb : j < m.bytesPerClust := by omega
        have hin : 512 * (clusterLba m x + i) ≤ 512 * clusterLba m x + j ∧
            512 * clusterLba m x + j < 512 * (clusterLba m x + i) + 512 := by omega
        rw [if_pos hj, if_pos hjb, if_pos hin]
        congr 1
        omega
      · have hout : ¬(512 * (clusterLba m x + i) ≤ 512 * clusterLba m x + j ∧
            512 * clusterLba m x + j < 512 * (clusterLba m x + i) + 512) := by omega
        rw [if_neg hj, if_neg hout]
    · rw [Function.update_of_ne hx]
      split
      · rename_i hxj
        unfold storeSector
        rw [if_neg]
        rcases Nat.lt_or_gt_of_ne hx with h | h
        · have := cluster_apart (m := m) h hxj.1.1
          rw [hbpc] at hxj
          omega
        · have := cluster_apart (m := m) h hc.1
          omega
      · rfl

end Layout

-- What the functions may rely on and never change: the mount, its size, the failures to come,
-- and the rule every recorded event keeps, given the events before it.
structure Env where
  mount : Mount
  clusters : Nat
  sectorCount : Nat
  ata : Site → Xfer → Nat → Bool
  heap : Site → Nat → Bool
  rule : List Event → Event → Prop

def Legal (rule : List Event → Event → Prop) : List Event → Prop
  | [] => True
  | e :: t => rule t e ∧ Legal rule t

def Env.ok (E : Env) : Nat → Prop := Valid E.clusters

def Env.vol (E : Env) (w : World) : Vol := volOf E.mount E.clusters (view w)

theorem Env.vol_congr (E : Env) {w w' : World} (h : view w' = view w) : E.vol w' = E.vol w :=
  congrArg (volOf E.mount E.clusters) h

def Env.ataFails (E : Env) (s : Site) (x : Xfer) : Prop := ∃ n, E.ata s x n = false

def Env.fatFails (E : Env) (s : Site) : Prop := E.ataFails s .fatRead ∨ E.ataFails s .fatWrite

def Env.heapFails (E : Env) (s : Site) : Prop := ∃ n, E.heap s n = false

-- Nothing fails.
structure Env.Quiet (E : Env) : Prop where
  ata : ∀ s x, ¬E.ataFails s x
  heap : ∀ s, ¬E.heapFails s

theorem Env.Quiet.fat {E : Env} (h : E.Quiet) (s : Site) : ¬E.fatFails s :=
  fun hf => hf.elim (h.ata s _) (h.ata s _)

structure Env.Lawful (E : Env) : Prop where
  fits : Fits E.mount E.clusters
  fatSectors : ∀ t lba, E.mount.fatStartLba ≤ lba →
    lba < E.mount.fatStartLba + 2 * E.mount.fatSizeSectors → E.rule t (.sectorWrite .fatWrite lba)
  dataSectors : ∀ t c i, E.ok c → i < E.mount.sectorsPerClust →
    E.rule t (.sectorWrite .clusterWrite (clusterLba E.mount c + i))
  allocs : ∀ t c, E.ok c → E.rule t (.fatGet .alloc c) ∧ E.rule t (.alloc c 0) ∧
    E.rule t (.fatSet .alloc c fat32Eof)

def CacheOk (m : Mount) (w : World) : Prop :=
  (w.fatCacheLba = noLba ∧ w.fatCacheDirty = false) ∨
    (m.fatStartLba ≤ w.fatCacheLba ∧ w.fatCacheLba < m.fatStartLba + 2 * m.fatSizeSectors ∧
      ∀ i < 512, w.fatCache i = view w (512 * w.fatCacheLba + i))

structure Good (E : Env) (w : World) : Prop where
  mount : w.mount = E.mount
  present : w.present = true
  sectorCount : w.sectorCount = E.sectorCount
  ata : w.ata = E.ata
  heap : w.heap = E.heap
  cache : CacheOk E.mount w
  legal : Legal E.rule w.trace

end Fat32
