import SabakaOS.Fat32.Mounted

namespace Fat32

open Word ByteMemory Prog Chain

-- The events from the n-th on keep to P.
def fromEvent (n : Nat) (P : Event → Prop) : List Event → Event → Prop :=
  fun t e => t.length < n ∨ P e

-- A cluster is handed out only while its table entry is free.
def FreshAlloc : Event → Prop
  | .alloc _ v => v = 0
  | _ => True

-- The operation returns, and leaves a consistent volume in which it took none but free clusters.
def KeepsVolume (N fuel : Nat) (op : Op) (w : World) : Prop :=
  ∃ r w', op.run fuel w = (some r, w') ∧ MountedAt N w' ∧
    Consistent w'.mount N (volume N w') ∧ ∃ t, w'.trace = t ++ w.trace ∧ ∀ e ∈ t, FreshAlloc e

section Rule

variable {n N : Nat} {P : Event → Prop} {t old : List Event} {w : World}

theorem legal_old (h : t.length ≤ n) : Legal (fromEvent n P) t := by
  induction t with
  | nil => trivial
  | cons e t ih =>
    rw [List.length_cons] at h
    exact ⟨.inl (by omega), ih (by omega)⟩

theorem legal_new (h : Legal (fromEvent old.length P) (t ++ old)) : ∀ e ∈ t, P e := by
  induction t with
  | nil => exact fun e he => by cases he
  | cons e t ih =>
    obtain ⟨he, ht⟩ := h
    rintro x (_ | ⟨_, hx⟩)
    · refine he.resolve_left ?_
      change ¬(t ++ old).length < old.length
      rw [List.length_append]
      omega
    · exact ih ht x hx

theorem fresh_lawful (hm : MountedAt N w) :
    (worldEnv N w (fromEvent n FreshAlloc)).Lawful :=
  ⟨hm.fits, fun _ _ _ _ => .inr trivial, fun _ _ _ _ _ => .inr trivial,
    fun _ _ _ => ⟨.inr trivial, .inr rfl, .inr trivial⟩⟩

theorem fresh_loose : (worldEnv N w (fromEvent n FreshAlloc)).Loose := by
  intro t e he
  cases e with
  | alloc c v => exact absurd rfl he
  | _ => exact .inr trivial

end Rule

section

variable {N fuel : Nat} {w : World} {op : Op}

theorem volume_kept (hm : MountedAt N w) (hc : Consistent w.mount N (volume N w))
    (hv : op.Valid w.mount N (volume N w))
    (hroom : op.Roomy (worldEnv N w anyRule) (volume N w))
    (hsafe : op.Safe (worldEnv N w anyRule) (volume N w))
    (hfuel : N * entriesPerClust w.mount + op.bytes < fuel) : KeepsVolume N fuel op w := by
  have hg := hm.good (legal_old (P := FreshAlloc) (Nat.le_refl w.trace.length))
  have hruns := @Op.run_sound _ w fuel (fresh_lawful hm) hg fresh_loose op hc hv
    (roomy_rule hroom) (safe_rule hsafe)
  obtain ⟨r, w', hrun, hs, hc'⟩ := (hruns.mono (fun _ _ h => h)
    (fun _ h => absurd h.2 (Nat.not_le.mpr hfuel))).ends
  have hm' := hs.good.mountedAt hm
  refine ⟨r, w', hrun, hm', ?_, ?_⟩
  · rw [← hs.good.volume_eq, hs.good.mount]
    exact hc'
  · obtain ⟨t, ht⟩ := hs.ext
    have hlegal := hs.good.legal
    rw [← ht] at hlegal
    exact ⟨t, ht.symm, legal_new hlegal⟩

end

-- The formatted disk with a file "A.TXT" of one byte in cluster 3.
def fileEntry : Fat32Entry where
  name := [0x41, 0x2E, 0x54, 0x58, 0x54]
  attr := attrArchive
  cluster := 3
  size := 1
  dirCluster := 0
  dirIndex := 0

def fileDisk : Nat → UInt8 :=
  writeBytes (writeLE (writeLE freshDisk 4 524 fat32Eof) 4 1036 fat32Eof) 1536
    (newSlot fileEntry.name attrArchive 3 1)

section File

variable {ata : Site → Xfer → Nat → Bool}

def fileVolume : Vol := volume 5 (diskWorld fileDisk (fun _ _ _ => true))

theorem file_state : (fileVolume.fat 2 = fat32Eof ∧ fileVolume.fat 3 = fat32Eof) ∧
    Names (slotAt fileVolume (2, 0)) ∧ slotAttr (slotAt fileVolume (2, 0)) = attrArchive ∧
    slotCluster (slotAt fileVolume (2, 0)) = 3 ∧ slotSize (slotAt fileVolume (2, 0)) = 1 := by
  decide +kernel

theorem file_root : Link 5 fileVolume fat32Eof 2 [2] := ⟨rfl, by decide, file_state.1.1⟩

theorem file_chain : Link 5 fileVolume fat32Eof 3 [3] := ⟨rfl, by decide, file_state.1.2⟩

theorem file_others {i : Nat} (hi : 0 < i) : ¬Names (slotAt fileVolume (2, i)) := by
  intro hn
  refine hn.1 ?_
  have hzero : ∀ a, 1568 ≤ a → fileDisk a = 0 := fun a ha => by
    rw [fileDisk, writeBytes_of_not_mem _ _ _ (.inr (by rw [newSlot_length]; exact ha)),
      writeLE_of_not_mem _ _ _ _ (.inr (by omega)), writeLE_of_not_mem _ _ _ _ (.inr (by omega)),
      freshDisk, writeLE_of_not_mem _ _ _ _ (.inr (by omega)),
      writeLE_of_not_mem _ _ _ _ (.inr (by omega))]
  simp only [slotAt, slotOf, fileVolume, volume, volOf]
  split
  · split
    · exact hzero _ (by rw [clusterLba_eq]; change 1568 ≤ 512 * (3 + 0 * 1) + _; omega)
    · rfl
  · rfl

theorem file_consistent : Consistent freshMount 5 fileVolume := by
  have hlive : ∀ p, Live freshMount 5 fileVolume {2} p → p = (2, 0) := by
    rintro ⟨x, i⟩ ⟨⟨d, rfl, l, hl, hm⟩, -, hn, -⟩
    obtain rfl := hl.unique (eof_stops (by decide)) file_root
    obtain rfl := List.mem_singleton.mp hm
    rcases Nat.eq_zero_or_pos i with rfl | hi
    · rfl
    · exact absurd hn (file_others hi)
  refine ⟨{2}, {2, 3}, rfl, by simp, ⟨?_, ?_⟩, ?_, fun p hp _ => ?_, fun p q hp hq _ _ hne => ?_⟩
  · rintro h (rfl | rfl)
    · exact ⟨by decide, [2], file_root⟩
    · exact ⟨by decide, [3], file_chain⟩
  · rintro h hh h' hh' hne l l' hl hl' x hx
    rcases hh with rfl | rfl
    · obtain rfl := hl.unique (eof_stops (by decide)) file_root
      obtain rfl := hh'.resolve_left (fun h => hne h.symm)
      obtain rfl := hl'.unique (eof_stops (by decide)) file_chain
      obtain rfl := List.mem_singleton.mp hx
      decide
    · obtain rfl := hl.unique (eof_stops (by decide)) file_chain
      obtain rfl := hh'.resolve_right (fun h => hne h.symm)
      obtain rfl := hl'.unique (eof_stops (by decide)) file_root
      obtain rfl := List.mem_singleton.mp hx
      decide
  · rintro d rfl hne
    exact absurd rfl hne
  · obtain rfl := hlive p hp
    unfold Holds
    rw [file_state.2.2.1, file_state.2.2.2.1, if_neg (by decide)]
    exact .inr ⟨by simp, by simp⟩
  · exact absurd ((hlive p hp).trans (hlive q hq).symm) hne

theorem file_current : Current freshMount 5 fileVolume fileEntry :=
  ⟨.root, [2], 2, file_root, rfl, file_state.2.1, fun _ h => absurd rfl h, file_state.2.2.1,
    file_state.2.2.2.1, file_state.2.2.2.2⟩

end File

theorem volume_kept_unlink :
    KeepsVolume 5 100 (.unlink fileEntry) (diskWorld fileDisk (fun s _ _ => s ≠ .freeChain)) := by
  refine volume_kept (disk_mounted ..) file_consistent file_current trivial (.inr ?_) (by decide)
  rintro (⟨-, ⟨n, hf⟩ | ⟨n, hf⟩⟩ | ⟨n, hf⟩ | ⟨n, hf⟩ | ⟨n, hf⟩)
  · cases hf
  · cases hf
  · cases hf
  · cases hf
  · cases hf

-- The write that is to mark the slot deleted fails, after the chain has been freed.
def stuckWorld : World :=
  diskWorld fileDisk (fun s x _ => !(decide (s = .markDeleted) && decide (x = .clusterWrite)))

def stuckUnlink : World := ((Op.unlink fileEntry).run 100 stuckWorld).2

theorem Sound.entry_used {m : Mount} {N : Nat} {V : Vol} {D H : Set Nat} {p : Nat × Nat}
    (hs : Sound m N V D H ∅) (hN : N ≤ 0x0FFFFFF8) (hp : Live m N V D p)
    (h0 : slotCluster (slotAt V p) ≠ 0) : V.fat (slotCluster (slotAt V p)) ≠ 0 := by
  have hH := ((hs.holds p hp (by simp)).cases hs.dirs).resolve_left h0
  obtain ⟨l, hl⟩ := hs.chain hH
  exact fun hfree => free_not_mem hl hfree (hl.head_mem (hs.valid hH) (eof_stops hN))

theorem stuck_state : stuckUnlink.mount = freshMount ∧ (volume 5 stuckUnlink).fat 2 = fat32Eof ∧
    (volume 5 stuckUnlink).fat 3 = 0 ∧ Names (slotAt (volume 5 stuckUnlink) (2, 0)) ∧
    slotCluster (slotAt (volume 5 stuckUnlink) (2, 0)) = 3 := by
  decide +kernel

theorem volume_kept_fails : ¬∀ (N fuel : Nat) (w : World) (op : Op), MountedAt N w →
    Consistent w.mount N (volume N w) → op.Valid w.mount N (volume N w) →
    op.Roomy (worldEnv N w anyRule) (volume N w) →
    N * entriesPerClust w.mount + op.bytes < fuel → KeepsVolume N fuel op w := by
  intro h
  obtain ⟨r, w', hrun, -, hc, -⟩ := h 5 100 stuckWorld (.unlink fileEntry) (disk_mounted ..)
    file_consistent file_current trivial (by decide)
  obtain rfl : stuckUnlink = w' := congrArg Prod.snd hrun
  obtain ⟨hmount, hend, hfree, hnames, hcluster⟩ := stuck_state
  rw [hmount] at hc
  obtain ⟨D, H, hs⟩ := hc
  have hlink : Link 5 (volume 5 stuckUnlink) fat32Eof 2 [2] := ⟨rfl, by decide, hend⟩
  have hlive : Live freshMount 5 (volume 5 stuckUnlink) D (2, 0) :=
    ⟨⟨2, hs.root, [2], hlink, by simp⟩, by decide, hnames, fun _ hne => absurd rfl hne⟩
  have hused := hs.entry_used (by decide) hlive (by rw [hcluster]; decide)
  rw [hcluster] at hused
  exact hused hfree

end Fat32
