import SabakaOS.Fat32.Regions

namespace Fat32

open Word ByteMemory Prog

-- The first byte of a cluster's entry in copy k of the FAT.
def copyAddr (m : Mount) (k c : Nat) : Nat := 512 * (m.fatStartLba + k * m.fatSizeSectors) + 4 * c

def InFat (m : Mount) (c : Nat) : Prop := 4 * c < 2 ^ 32 ∧ 4 * c / 512 < m.fatSizeSectors

-- Both copies lie within the sector numbers that the drive takes.
def FatsFit (m : Mount) : Prop := m.fatStartLba + 2 * m.fatSizeSectors ≤ 2 ^ 28

def Synced (w : World) : Prop :=
  w.fatCacheDirty = false ∧ ∀ i < 512, w.fatCache i = w.disk (512 * w.fatCacheLba + i)

structure Fresh (w : World) : Prop where
  present : w.present = true
  ata : ∀ s x n, w.ata s x n = true
  clean : w.fatCacheDirty = false
  empty : w.fatCacheLba = noLba

-- What fat_set(c, v) does to the disk.
structure SetsEntry (m : Mount) (c v : Nat) (d d' : Nat → UInt8) : Prop where
  frame : ∀ a, (∀ k < 2, a < copyAddr m k c ∨ copyAddr m k c + 4 ≤ a) → d' a = d a
  copies : ∀ k < 2, readLE d' 4 (copyAddr m k c) =
    readLE d 4 (copyAddr m k c) / 0x10000000 * 0x10000000 + v % 0x10000000

-- The calls of fat_set made, latest first.
inductive FatRun (w0 : World) : List (Nat × Nat) → World → Prop
  | start : FatRun w0 [] w0
  | get {sets : List (Nat × Nat)} {w : World} (s : Site) (c : Nat) : FatRun w0 sets w →
      InFat w0.mount c → FatRun w0 sets (fatGet s c w).2
  | set {sets : List (Nat × Nat)} {w : World} (s : Site) (c v : Nat) : FatRun w0 sets w →
      InFat w0.mount c → FatRun w0 ((c, v) :: sets) (fatSet s c v w).2

def latest (c stored : Nat) : List (Nat × Nat) → Nat
  | [] => stored % 0x10000000
  | (x, v) :: sets => if x = c then v % 0x10000000 else latest c stored sets

section Entries

variable {m : Mount} {d d' : Nat → UInt8} {c x v k a : Nat}

theorem InFat.room (hc : InFat m c) : 4 * c + 4 ≤ 512 * m.fatSizeSectors := by
  have hsector := hc.2
  omega

theorem InFat.fatLba (hfit : FatsFit m) (hc : InFat m c) (hk : k < 2) :
    512 * fatLba m k c + fatOff c = copyAddr m k c ∧ fatOff c + 4 ≤ 512 ∧ fatLba m k c < noLba := by
  have hroom := hc.room
  have hword : u32 (c * 4) = 4 * c := by rw [u32_of_lt (by have := hc.1; omega), Nat.mul_comm]
  have hskip : k * m.fatSizeSectors ≤ m.fatSizeSectors := by
    obtain rfl | rfl : k = 0 ∨ k = 1 := by omega
    · omega
    · omega
  unfold FatsFit at hfit
  have hlba : Fat32.fatLba m k c = m.fatStartLba + k * m.fatSizeSectors + 4 * c / 512 := by
    rw [Fat32.fatLba, hword, u32_of_lt (show k * m.fatSizeSectors < 2 ^ 32 by omega),
      u32_of_lt (by omega)]
  rw [hlba, fatOff, hword, copyAddr, noLba]
  omega

theorem copyAddr_apart (hc : InFat m c) (hx : InFat m x) (h : x ≠ c) {j : Nat} (hk : k < 2)
    (hj : j < 2) : copyAddr m k x + 4 ≤ copyAddr m j c ∨ copyAddr m j c + 4 ≤ copyAddr m k x := by
  have h1 := hc.room
  have h2 := hx.room
  obtain rfl | rfl : k = 0 ∨ k = 1 := by omega
  all_goals
    obtain rfl | rfl : j = 0 ∨ j = 1 := by omega
    all_goals
      unfold copyAddr
      omega

def withEntry (d : Nat → UInt8) (a v : Nat) : Nat → UInt8 :=
  writeLE d 4 a (v + (d (a + 3)).toNat / 16 * 16 * 0x1000000)

theorem topNibble (d : Nat → UInt8) (a : Nat) :
    (d (a + 3)).toNat / 16 * 16 * 0x1000000 = readLE d 4 a / 0x10000000 * 0x10000000 := by
  have h0 := (d a).toNat_lt
  have h1 := (d (a + 1)).toNat_lt
  have h2 := (d (a + 2)).toNat_lt
  have hread : readLE d 4 a = (d a).toNat + 256 * ((d (a + 1)).toNat +
      256 * ((d (a + 2)).toNat + 256 * (d (a + 3)).toNat)) := rfl
  rw [hread]
  omega

theorem withEntry_same (hv : v < 0x10000000) :
    readLE (withEntry d a v) 4 a = readLE d 4 a / 0x10000000 * 0x10000000 + v := by
  have hlt := readLE_lt d 4 a
  rw [withEntry, read_write_same, topNibble]
  omega

theorem withEntry_apart {b : Nat} (h : b + 4 ≤ a ∨ a + 4 ≤ b) :
    readLE (withEntry d a v) 4 b = readLE d 4 b :=
  read_write_disjoint _ _ h

theorem sets_both (hc : InFat m c) : SetsEntry m c v d
    (withEntry (withEntry d (copyAddr m 0 c) (v % 0x10000000)) (copyAddr m 1 c) (v % 0x10000000)) := by
  have hv : v % 0x10000000 < 0x10000000 := Nat.mod_lt _ (by decide)
  have hroom := hc.room
  have hapart : copyAddr m 0 c + 4 ≤ copyAddr m 1 c := by
    unfold copyAddr
    omega
  refine ⟨fun a ha => ?_, fun k hk => ?_⟩
  · rw [withEntry, writeLE_of_not_mem _ _ _ _ (ha 1 (by decide)), withEntry,
      writeLE_of_not_mem _ _ _ _ (ha 0 (by decide))]
  · obtain rfl | rfl : k = 0 ∨ k = 1 := by omega
    · rw [withEntry_apart (.inl hapart), withEntry_same hv]
    · rw [withEntry_same hv, withEntry_apart (.inr hapart)]

theorem SetsEntry.other (h : SetsEntry m c v d d') (hc : InFat m c) (hx : InFat m x) (hne : x ≠ c) :
    readLE d' 4 (copyAddr m 0 x) = readLE d 4 (copyAddr m 0 x) := by
  refine readLE_congr (fun a h1 h2 => h.frame a (fun k hk => ?_))
  have := copyAddr_apart (k := 0) hc hx hne (by decide) hk
  omega

end Entries

-- No transfer fails, and a sector held is held as the disk has it.
structure Settled (w : World) : Prop where
  present : w.present = true
  ata : ∀ s x n, w.ata s x n = true
  clean : w.fatCacheDirty = false
  held : w.fatCacheLba ≠ noLba → ∀ i < 512, w.fatCache i = w.disk (512 * w.fatCacheLba + i)

section Calls

variable {w w' : World} {s : Site} {c v k : Nat}

theorem Fresh.settled (h : Fresh w) : Settled w :=
  ⟨h.present, h.ata, h.clean, fun hne => absurd h.empty hne⟩

theorem Settled.logged (h : Settled w) (e : Event) : Settled { w with trace := e :: w.trace } :=
  ⟨h.present, h.ata, h.clean, h.held⟩

theorem ataRead_answers (hp : w.present = true) (hata : ∀ s x n, w.ata s x n = true) {x : Xfer}
    {lba : Nat} : ataReadSectors s x lba w =
      (some (some (sectorAt w.disk lba)), { w with ataCalls := w.ataCalls + 1 }) := by
  simp [ataReadSectors, hp, hata]

theorem ataWrite_answers (hp : w.present = true) (hata : ∀ s x n, w.ata s x n = true) {x : Xfer}
    {lba : Nat} {buf : Buffer} : ataWriteSectors s x lba buf w = (some true, { w with
      ataCalls := w.ataCalls + 1
      disk := storeSector w.disk lba buf
      trace := .sectorWrite x lba :: w.trace }) := by
  simp [ataWriteSectors, hp, hata]

theorem fatFlushCache_clean (h : w.fatCacheDirty = false) : fatFlushCache s w = (some true, w) := by
  unfold fatFlushCache
  rw [get_bind, h]
  rfl

theorem fatFlushCache_dirty (hp : w.present = true) (hata : ∀ s x n, w.ata s x n = true)
    (h : w.fatCacheDirty = true) : fatFlushCache s w = (some true, { w with
      ataCalls := w.ataCalls + 1
      disk := storeSector w.disk w.fatCacheLba w.fatCache
      trace := .sectorWrite .fatWrite w.fatCacheLba :: w.trace
      fatCacheDirty := false }) := by
  unfold fatFlushCache
  rw [get_bind, h]
  simp only [Bool.not_true, Bool.false_eq_true, if_false]
  rw [bind_ended (ataWrite_answers hp hata)]
  rfl

-- What the cache holds once sector lba has been asked for.
def cached (w : World) (lba : Nat) : Buffer :=
  if w.fatCacheLba = lba then w.fatCache else sectorAt w.disk lba

-- A hit leaves everything as it is, a miss has nothing to write back.
theorem fatReadSector_eq (hp : w.present = true) (hata : ∀ s x n, w.ata s x n = true)
    (hclean : w.fatCacheDirty = false) (lba : Nat) : ∃ n, fatReadSector s lba w =
      (some true, { w with ataCalls := n, fatCache := cached w lba, fatCacheLba := lba }) := by
  unfold fatReadSector
  rw [get_bind]
  by_cases hhit : w.fatCacheLba = lba
  · have hsame : cached w lba = w.fatCache := if_pos hhit
    rw [if_pos hhit, hsame, ← hhit]
    exact ⟨w.ataCalls, rfl⟩
  · have hloaded : cached w lba = sectorAt w.disk lba := if_neg hhit
    rw [if_neg hhit, hloaded, bind_ended (fatFlushCache_clean hclean)]
    simp only [Bool.not_true, Bool.false_eq_true, if_false]
    rw [bind_ended (ataRead_answers hp hata)]
    exact ⟨w.ataCalls + 1, rfl⟩

theorem Settled.cached (h : Settled w) {lba : Nat} (hne : lba ≠ noLba) :
    ∀ i < 512, Fat32.cached w lba i = w.disk (512 * lba + i) := by
  intro i hi
  unfold Fat32.cached
  split
  · rename_i hhit
    subst hhit
    exact h.held hne i hi
  · rfl

theorem fatSetCopy_eq (hp : w.present = true) (hata : ∀ s x n, w.ata s x n = true)
    (hclean : w.fatCacheDirty = false) (c v k : Nat) : ∃ n t, fatSetCopy s c v k w =
      (some true, { w with
        ataCalls := n
        trace := t
        disk := storeSector w.disk (fatLba w.mount k c)
          (putEntry (cached w (fatLba w.mount k c)) (fatOff c) v)
        fatCache := putEntry (cached w (fatLba w.mount k c)) (fatOff c) v
        fatCacheLba := fatLba w.mount k c }) := by
  obtain ⟨n, hread⟩ := fatReadSector_eq (s := s) hp hata hclean (fatLba w.mount k c)
  unfold fatSetCopy
  rw [get_bind, bind_ended hread]
  have hflush := fatFlushCache_dirty (s := s) (w := { w with
    ataCalls := n
    fatCache := putEntry (cached w (fatLba w.mount k c)) (fatOff c) v
    fatCacheLba := fatLba w.mount k c
    fatCacheDirty := true }) hp hata rfl
  refine ⟨n + 1, .sectorWrite .fatWrite (fatLba w.mount k c) :: w.trace, ?_⟩
  refine Eq.trans hflush ?_
  rw [← hclean]

-- The sector just flushed is on the disk as it is in the cache.
theorem settled_stored (hp : w.present = true) (hata : ∀ s x n, w.ata s x n = true)
    (hclean : w.fatCacheDirty = false) (lba n : Nat) (buf : Buffer) (t : List Event) :
    Settled { w with
      ataCalls := n
      trace := t
      disk := storeSector w.disk lba buf
      fatCache := buf
      fatCacheLba := lba } := by
  refine ⟨hp, hata, hclean, fun _ i hi => ?_⟩
  change buf i = storeSector w.disk lba buf (512 * lba + i)
  rw [storeSector, if_pos (by omega), Nat.add_sub_cancel_left]

-- What is left of w by calls that only read the disk, n of them of kmalloc.
structure Reads (w w' : World) (n : Nat) : Prop where
  settled : Settled w'
  disk : w'.disk = w.disk
  mount : w'.mount = w.mount
  heap : w'.heap = w.heap
  heapCalls : w'.heapCalls = w.heapCalls + n

theorem Reads.trans {w₁ w₂ w₃ : World} {n m : Nat} (h : Reads w₁ w₂ n) (h' : Reads w₂ w₃ m) :
    Reads w₁ w₃ (n + m) :=
  ⟨h'.settled, h'.disk.trans h.disk, h'.mount.trans h.mount, h'.heap.trans h.heap, by
    rw [h'.heapCalls, h.heapCalls, Nat.add_assoc]⟩

def tableAddr (m : Mount) (k c : Nat) : Nat := 512 * fatLba m k c + fatOff c

theorem fatOff_le (c : Nat) : fatOff c + 4 ≤ 512 := by
  unfold fatOff u32
  omega

theorem fatGet_reads (h : Settled w) (s : Site) (c : Nat) : ∃ r w', fatGet s c w = (some r, w') ∧
    Reads w w' 0 ∧ w'.fatCacheLba = fatLba w.mount 0 c ∧ (fatLba w.mount 0 c ≠ noLba →
      r = readLE w.disk 4 (tableAddr w.mount 0 c) % 0x10000000) := by
  obtain ⟨n, hread⟩ := fatReadSector_eq (s := s) (w := { w with trace := .fatGet s c :: w.trace })
    h.present h.ata h.clean (fatLba w.mount 0 c)
  unfold fatGet log
  refine ⟨_, _, (bind_ended rfl).trans ((get_bind _ _).trans (bind_ended hread)), ?_, rfl,
    fun hne => ?_⟩
  · exact ⟨⟨h.present, h.ata, h.clean, fun hne => h.cached hne⟩, rfl, rfl, rfl, rfl⟩
  · rw [tableAddr, ← readLE_cache (h.cached hne) rfl (fatOff_le c)]
    rfl

theorem fatGet_settled (h : Settled w) (hfit : FatsFit w.mount) (hc : InFat w.mount c) :
    Runs (fatGet s c) w (fun r w' => r = readLE w.disk 4 (copyAddr w.mount 0 c) % 0x10000000 ∧
      Settled w' ∧ w'.disk = w.disk ∧ w'.mount = w.mount ∧ w'.fatCacheLba ≠ noLba)
      (fun _ => False) := by
  obtain ⟨haddr, -, hlt⟩ := hc.fatLba (k := 0) hfit (by decide)
  obtain ⟨r, w', hget, hreads, htag, hr⟩ := fatGet_reads h s c
  unfold Runs
  rw [hget]
  refine ⟨?_, hreads.settled, hreads.disk, hreads.mount, htag ▸ Nat.ne_of_lt hlt⟩
  rw [hr (Nat.ne_of_lt hlt), tableAddr, haddr]

theorem fatSetCopy_settled (h : Settled w) (hfit : FatsFit w.mount) (hc : InFat w.mount c)
    (hk : k < 2) : Runs (fatSetCopy s c v k) w (fun r w' => r = true ∧ Settled w' ∧
      w'.disk = withEntry w.disk (copyAddr w.mount k c) v ∧ w'.mount = w.mount ∧
      w'.fatCacheLba ≠ noLba) (fun _ => False) := by
  obtain ⟨haddr, hoff, hlt⟩ := hc.fatLba hfit hk
  obtain ⟨n, t, hset⟩ := fatSetCopy_eq (s := s) h.present h.ata h.clean c v k
  unfold Runs
  rw [hset]
  refine ⟨rfl, settled_stored h.present h.ata h.clean _ n _ t, ?_, rfl, Nat.ne_of_lt hlt⟩
  exact putEntry_eq (h.cached (Nat.ne_of_lt hlt)) haddr hoff

theorem fatSet_settled (h : Settled w) (hfit : FatsFit w.mount) (hc : InFat w.mount c) :
    Runs (fatSet s c v) w (fun r w' => r = true ∧ Settled w' ∧
      SetsEntry w.mount c v w.disk w'.disk ∧ w'.mount = w.mount ∧ w'.fatCacheLba ≠ noLba)
      (fun _ => False) := by
  unfold fatSet log
  refine Runs.modify_bind ?_
  refine (fatSetCopy_settled (h.logged _) hfit hc (show 0 < 2 by decide)).then ?_
  rintro r w1 ⟨rfl, hs1, hdisk1, hmount1, -⟩
  have hm1 : w1.mount = w.mount := hmount1
  refine (fatSetCopy_settled hs1 (hm1 ▸ hfit) (hm1 ▸ hc) (show 1 < 2 by decide)).mono ?_ (fun _ he => he)
  rintro r w2 ⟨rfl, hs2, hdisk2, hmount2, htag⟩
  refine ⟨rfl, hs2, ?_, hmount2.trans hm1, htag⟩
  rw [hdisk2, hdisk1, hm1]
  exact sets_both hc

end Calls

theorem init_fresh {v : World} (hata : ∀ s x n, v.ata s x n = true)
    (h : fat32Init v = (some true, w)) : Fresh w := by
  obtain ⟨-, hpresent, ⟨-, -, hata', -⟩, hempty, hclean⟩ := fat32Init_runs.result h rfl
  exact ⟨hpresent, by rw [hata']; exact hata, hclean, hempty⟩

-- What the run so far has left: the entries hold the latest values set.
structure TableAs (w0 : World) (sets : List (Nat × Nat)) (w : World) : Prop where
  settled : Settled w
  mount : w.mount = w0.mount
  entries : ∀ c, InFat w0.mount c → readLE w.disk 4 (copyAddr w0.mount 0 c) % 0x10000000 =
    latest c (readLE w0.disk 4 (copyAddr w0.mount 0 c)) sets

section Runs

variable {w0 w : World} {sets : List (Nat × Nat)}

theorem FatRun.tableAs (h0 : Fresh w0) (hfit : FatsFit w0.mount) (h : FatRun w0 sets w) :
    TableAs w0 sets w := by
  induction h with
  | start => exact ⟨h0.settled, rfl, fun c _ => rfl⟩
  | get s c _ hc ih =>
    obtain ⟨hs, hm, hent⟩ := ih
    obtain ⟨r, w', hrun, -, hs', hdisk, hmount, -⟩ :=
      (fatGet_settled (s := s) hs (hm ▸ hfit) (hm ▸ hc)).ends
    rw [hrun]
    exact ⟨hs', hmount.trans hm, fun x hx => by rw [hdisk]; exact hent x hx⟩
  | set s c v _ hc ih =>
    obtain ⟨hs, hm, hent⟩ := ih
    obtain ⟨r, w', hrun, -, hs', hsets, hmount, -⟩ :=
      (fatSet_settled (s := s) (v := v) hs (hm ▸ hfit) (hm ▸ hc)).ends
    rw [hrun]
    rw [hm] at hsets
    refine ⟨hs', hmount.trans hm, fun x hx => ?_⟩
    by_cases hxc : x = c
    · subst hxc
      rw [hsets.copies 0 (by decide), latest, if_pos rfl]
      omega
    · rw [hsets.other hc hx hxc, hent x hx, latest, if_neg (Ne.symm hxc)]

end Runs

-- The table is read as it was last written, whatever the one cached sector is, and every call
-- leaves that sector as the disk has it.
theorem fat_table {w0 w : World} {sets : List (Nat × Nat)} (h0 : Fresh w0) (hfit : FatsFit w0.mount)
    (h : FatRun w0 sets w) (s : Site) (c : Nat) (hc : InFat w0.mount c) :
    (∃ w', fatGet s c w = (some (latest c (readLE w0.disk 4 (copyAddr w0.mount 0 c)) sets), w') ∧
      w'.disk = w.disk ∧ Synced w' ∧ w'.fatCacheLba ≠ noLba) ∧
    ∀ v, ∃ w', fatSet s c v w = (some true, w') ∧ SetsEntry w0.mount c v w.disk w'.disk ∧ Synced w' ∧
      w'.fatCacheLba ≠ noLba := by
  obtain ⟨hs, hm, hent⟩ := h.tableAs h0 hfit
  constructor
  · obtain ⟨r, w', hrun, rfl, hs', hdisk, -, htag⟩ :=
      (fatGet_settled (s := s) hs (hm ▸ hfit) (hm ▸ hc)).ends
    rw [hm, hent c hc] at hrun
    exact ⟨w', hrun, hdisk, ⟨hs'.clean, hs'.held htag⟩, htag⟩
  · intro v
    obtain ⟨r, w', hrun, rfl, hs', hsets, -, htag⟩ :=
      (fatSet_settled (s := s) (v := v) hs (hm ▸ hfit) (hm ▸ hc)).ends
    rw [hm] at hsets
    exact ⟨w', hrun, hsets, ⟨hs'.clean, hs'.held htag⟩, htag⟩

theorem fat_table_boot :
    let w1 := (fatSet .alloc 3 5 (bootMounted 2)).2
    Fresh (bootMounted 2) ∧ FatsFit (bootMounted 2).mount ∧ (fatGet .alloc 3 w1).1 = some 5 := by
  intro w1
  have hinit : (fat32Init (diskWorld (bootDisk 2) (fun _ _ _ => true))).1 = some true := by
    decide +kernel
  have hfresh : Fresh (bootMounted 2) := by
    refine init_fresh (v := diskWorld (bootDisk 2) (fun _ _ _ => true)) (fun _ _ _ => rfl) ?_
    rw [bootMounted, ← hinit]
  have hmount : (bootMounted 2).mount.fatStartLba = 1 ∧ (bootMounted 2).mount.fatSizeSectors = 1 := by
    decide +kernel
  have hfit : FatsFit (bootMounted 2).mount := by
    rw [FatsFit, hmount.1, hmount.2]
    decide
  have hc : InFat (bootMounted 2).mount 3 := by
    rw [InFat, hmount.2]
    decide
  have hrun : FatRun (bootMounted 2) [(3, 5)] w1 := .set .alloc 3 5 .start hc
  obtain ⟨w', hget, -⟩ := (fat_table hfresh hfit hrun .alloc 3 hc).1
  exact ⟨hfresh, hfit, by rw [hget]; rfl⟩

-- A boot sector that claims FATs of 2^32 - 1 sectors each: copy 2 of one entry is copy 1 of another.
def wrapDisk : Nat → UInt8 := writeLE (bootDisk 2) 4 36 0xFFFFFFFF

theorem fat_table_fails :
    ∃ w0 w, fat32Init (diskWorld wrapDisk (fun _ _ _ => true)) = (some true, w0) ∧
      FatRun w0 [(128, 7)] w ∧ InFat w0.mount 0 ∧ (fatGet .alloc 0 w).1 ≠
        some (latest 0 (readLE w0.disk 4 (copyAddr w0.mount 0 0)) [(128, 7)]) := by
  have hinit : (fat32Init (diskWorld wrapDisk (fun _ _ _ => true))).1 = some true := by
    decide +kernel
  have hsize : (fat32Init (diskWorld wrapDisk (fun _ _ _ => true))).2.mount.fatSizeSectors =
      0xFFFFFFFF := by decide +kernel
  refine ⟨(fat32Init (diskWorld wrapDisk (fun _ _ _ => true))).2, _, ?_, .set .alloc 128 7 .start ?_,
    ?_, ?_⟩
  · rw [← hinit]
  · rw [InFat, hsize]
    decide
  · rw [InFat, hsize]
    decide
  · decide +kernel

end Fat32
