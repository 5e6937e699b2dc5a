import SabakaOS.Library.OpenFiles
import SabakaOS.Fat32.FileRead
import SabakaOS.Fat32.UniqueNames

namespace Fat32

open Word ByteMemory Prog Chain
open OpenFiles (overwrite)

-- A file made with the entry e₁ on the volume V₁ has the entry e now, in slot p, and the clusters
-- l, which hold the bytes. Nothing else has changed.
structure Env.Holding (E : Env) (V₁ : Vol) (e₁ : Fat32Entry) (V : Vol) (e : Fat32Entry)
    (p : Nat × Nat) (l : List Nat) (bytes : List UInt8) : Prop where
  same : e = { e₁ with cluster := e.cluster, size := bytes.length }
  index : p.2 = e.dirIndex % entriesPerClust E.mount
  owned : ∃ D H ld, Sound E.mount E.clusters V D H ∅ ∧
    FileSlot E.mount E.clusters V D e ld p.1 ∧
    (e.cluster ≠ 0 → Owned E.mount E.clusters V D H {p} e.cluster)
  cluster : slotCluster (slotAt V p) = e.cluster
  size : slotSize (slotAt V p) = bytes.length
  small : bytes.length < 2 ^ 31
  chain : E.Clusters V fat32Eof e l
  new : ∀ y ∈ l, V₁.fat y = 0
  room : bytes.length ≤ l.length * E.mount.bytesPerClust
  bytes : readBytes (fileByte E.mount.bytesPerClust V l) bytes.length 0 = bytes
  others : ∀ y, V₁.fat y ≠ 0 → V.fat y = V₁.fat y ∧
    ∀ j, ¬(y = p.1 ∧ InSlot p.2 j) → V.data y j = V₁.data y j

section Holding

variable {E : Env} {w : World} {V₁ V V' : Vol} {e₁ e : Fat32Entry} {p : Nat × Nat}
  {l l' : List Nat} {bytes data : List UInt8} {D H : Set Nat} {dirCluster fuel off size : Nat}
  {name : List UInt8}

theorem Env.Holding.entry_size (h : E.Holding V₁ e₁ V e p l bytes) : e.size = bytes.length := by
  rw [h.same]

theorem Env.Created.holding (h : E.Created V dirCluster name l (.ok e) V') (hf : Fits E.mount E.clusters)
    (hq : E.Quiet) (hs : Sound E.mount E.clusters V D H ∅) (hd : dirHead E.mount dirCluster ∈ D)
    (hl : Link E.clusters V fat32Eof (dirHead E.mount dirCluster) l) :
    ∃ p, hasAttr e.attr attrDirectory = false ∧ e.dirCluster = dirCluster ∧
      E.Holding V' e V' e p [] [] := by
  generalize hr : (Except.ok e : Except Int Fat32Entry) = r at h
  cases h with
  | refused => cases hr
  | @stored rp _ habsent hp =>
    cases rp with
    | error c => cases hr
    | ok k =>
      cases hr
      obtain ⟨V2, l2, x, hs2, hl2, hx, hfree, rfl⟩ := hp.put hf hs hd hl (hq.fat _)
      have hslot := slotAt_fill (V := V2) (x := x) (i := k % entriesPerClust E.mount)
        (newSlot_length name attrArchive 0 0)
      have hcluster := @slotCluster_newSlot name attrArchive 0 0 (by decide)
      refine ⟨(x, k % entriesPerClust E.mount),
        show hasAttr attrArchive attrDirectory = false by decide, rfl, rfl, rfl,
        ⟨D, H, l2, ?_, ⟨hd, hl2, hx, ?_, hs2.notDots hfree⟩, fun h => absurd rfl h⟩, ?_, ?_,
        by decide, ⟨rfl, rfl⟩, fun y hy => (by cases hy), Nat.zero_le _, rfl,
        fun y _ => ⟨rfl, fun _ _ => rfl⟩⟩
      · exact hs2.fill hfree (newSlot_length ..) (holds_newFile (by decide)) (.inl hcluster)
      · change hasAttr (slotAttr (slotAt _ (x, k % entriesPerClust E.mount))) attrDirectory = false
        rw [hslot, slotAttr_newSlot]
        decide
      · rw [hslot]
        exact hcluster
      · rw [hslot]
        exact slotSize_newSlot (by decide)

theorem overwrite_length (hoff : off ≤ bytes.length) :
    (overwrite bytes off data).length = max bytes.length (off + data.length) := by
  simp only [overwrite, List.length_append, List.length_take, List.length_drop]
  omega

theorem Env.Holding.write_room (h : E.Holding V₁ e₁ V e p l bytes) (hf : Fits E.mount E.clusters)
    (hq : E.Quiet) (hfree : writeSteps E.mount.bytesPerClust off data.length <
      l.length + spare E.limit E.clusters V) :
    E.WriteSteady V e off data.length ∧ E.WriteRoom V e off data.length := by
  have hchain := h.chain
  unfold Env.Clusters at hchain
  unfold Env.WriteSteady Env.WriteRoom
  by_cases h0 : e.cluster = 0
  · rw [if_pos h0] at hchain
    rw [if_pos h0, if_pos h0]
    rw [hchain.1, List.length_nil, Nat.zero_add] at hfree
    exact ⟨hq.fat _, .inr hfree⟩
  · rw [if_neg h0] at hchain
    rw [if_neg h0, if_neg h0]
    refine ⟨fun _ _ => .inl (hq.fat _), fun l' hl' => ?_⟩
    obtain rfl := hl'.unique (eof_stops hf.small) hchain.2
    exact .inl ⟨hq.fat _, .inr (by omega)⟩

-- A file has none of the clusters of its directory.
theorem FileSlot.apart {V : Vol} {D H : Set Nat} {X : Set (Nat × Nat)} {ld : List Nat} {x : Nat}
    (hf : FileSlot E.mount E.clusters V D e ld x) (hs : Sound E.mount E.clusters V D H ∅)
    (hown : e.cluster ≠ 0 → Owned E.mount E.clusters V D H X e.cluster)
    (hchain : E.Clusters V fat32Eof e l) : ∀ y ∈ ld, y ∉ l := by
  intro y hy hyl
  unfold Env.Clusters at hchain
  by_cases h0 : e.cluster = 0
  · rw [if_pos h0] at hchain
    rw [hchain.1] at hyl
    cases hyl
  · rw [if_neg h0] at hchain
    have ho := hown h0
    exact hs.chains.apart _ (hs.dirs hf.dir) _ ho.head (fun he => ho.notDir (he ▸ hf.dir)) _ _
      hf.chain hchain.2 y hy hyl

theorem Env.Holding.write (hE : E.Lawful) (hq : E.Quiet) (hg : Good E w) (hloose : E.Loose)
    (h : E.Holding V₁ e₁ (E.vol w) e p l bytes) (ha : hasAttr e₁.attr attrDirectory = false)
    (hoff : off ≤ bytes.length) (hsize : off + data.length < 2 ^ 31)
    (hfree : writeSteps E.mount.bytesPerClust off data.length <
      l.length + spare E.limit E.clusters (E.vol w)) :
    Runs (fat32Write fuel e data off) w (fun r w' => Step E w w' ∧ r.1 = data.length ∧
      ∃ l', E.Holding V₁ e₁ (E.vol w') r.2 p l' (overwrite bytes off data))
      (fun _ => fuel ≤ data.length) := by
  obtain ⟨x, i⟩ := p
  obtain ⟨D, H, ld, hs, hf, hown⟩ := h.owned
  have hidx : i = e.dirIndex % entriesPerClust E.mount := h.index
  have hattr : hasAttr e.attr attrDirectory = false := by
    rw [h.same]
    exact ha
  have hapart := hf.apart hs hown h.chain
  obtain ⟨hsteady, hroom⟩ := h.write_room hE.fits hq hfree
  have hlen : (overwrite bytes off data).length = _ := overwrite_length hoff
  have hsmall := h.small
  have hold := h.room
  rw [hidx] at hown
  refine ((fat32Write_owned hE hg hloose hs hf hown hattr hsteady hroom).and
    (fat32Write_stored hE hq hg hloose.opens hloose.opens hattr (hs.valid (hs.dirs hf.dir))
      marker_eof marker_eof hf.chain hf.cluster hidx.symm h.chain (fun _ hy => hy) hapart
      (by omega) rfl (.inl rfl) (.inr (by omega)))).mono ?_ (fun _ h => h.2)
  rintro ⟨n, e'⟩ w' ⟨⟨hstep, H', hs', hf', hown'⟩, -, l', k, hst, hall⟩
  replace hall := hall hfree
  obtain ⟨rfl, hc0, hsz', hcl, hsz, hin⟩ := hst.all hall
  have hupd := hst.updated
  rw [List.take_length] at hupd
  have hchain := hst.chain
  obtain ⟨c, s, rfl⟩ : ∃ c s, e' = { e with cluster := c, size := s } := ⟨_, _, hst.same⟩
  obtain rfl : s = _ := hsz'
  obtain rfl : n = _ := hall
  rw [Env.Clusters, if_neg hc0] at hchain
  obtain ⟨hcok, hlink⟩ := hchain
  change slotSize (slotAt (E.vol w') (x, i)) = max e.size (off + data.length) % 2 ^ 32 at hsz
  obtain ⟨new, rfl, hnew⟩ := hupd.grown
  have hused : ∀ y, V₁.fat y ≠ 0 → (E.vol w).fat y ≠ 0 := fun y hy =>
    (h.others y hy).1.symm ▸ hy
  refine ⟨hstep, rfl, l ++ new, ?_, hidx, ⟨D, H', ld, hs',
    ⟨hf'.dir, hf'.chain, hf'.cluster, hf'.file, hf'.notDots⟩, hidx ▸ hown'⟩, hcl, ?_, ?_, ?_,
    fun y hy => ?_, ?_, ?_, fun y hy => ?_⟩
  · rw [hlen]
    conv_lhs => rw [h.same]
  · rw [hsz, h.entry_size, hlen, Nat.mod_eq_of_lt (by omega)]
  · omega
  · rw [Env.Clusters, if_neg hc0]
    exact ⟨hcok, hlink⟩
  · rcases List.mem_append.mp hy with hy | hy
    · exact h.new y hy
    · by_contra h1
      exact hused y h1 (hnew y hy)
  · rw [hlen]
    rw [List.length_append, Nat.add_mul] at hin ⊢
    omega
  · rw [hlen, readBytes_overwritten hoff, h.bytes]
    · rfl
    · intro k hk
      rw [List.length_append, Nat.add_mul] at hin
      rw [writeBytes_eq, hupd.bytes k (by rw [List.length_append, Nat.add_mul]; omega)]
      by_cases hk' : off ≤ k ∧ k < off + data.length
      · rw [if_pos hk', if_pos hk']
      · rw [if_neg hk', if_neg hk', fileByte_append (bpc_bounds hE.fits).1 (by omega)]
  · have hnot : y ∉ l ++ new := by
      rw [List.mem_append, not_or]
      exact ⟨fun hm => hy (h.new y hm), fun hm => hused y hy (hnew y hm)⟩
    obtain ⟨hfat, hdata⟩ := hupd.outside y hnot
    obtain ⟨hfat0, hdata0⟩ := h.others y hy
    exact ⟨hfat.trans hfat0, fun j hj => (hdata j hj).trans (hdata0 j hj)⟩

theorem Env.Holding.read (hE : E.Lawful) (hq : E.Quiet) (hg : Good E w) (hloose : E.Loose)
    (h : E.Holding V₁ e₁ (E.vol w) e p l bytes) (ha : hasAttr e₁.attr attrDirectory = false)
    (hsize : off + size < 2 ^ 31) :
    Runs (fat32Read fuel e off size) w (fun r w' => Step E w w' ∧ view w' = view w ∧
      r = .ok ((bytes.drop off).take size)) (fun _ => fuel ≤ size) := by
  have hattr : hasAttr e.attr attrDirectory = false := by
    rw [h.same]
    exact ha
  refine (fat32Read_exact hE hq hg hloose.opens h.chain hattr (h.entry_size ▸ h.room)
    (by omega)).mono ?_ (fun _ h => h)
  rintro r w' ⟨hs, hv, rfl⟩
  refine ⟨hs, hv, congrArg _ ?_⟩
  rw [h.entry_size]
  by_cases hoff : off ≤ bytes.length
  · conv_rhs => rw [← h.bytes]
    rw [readBytes_drop _ 0 hoff, readBytes_take, Nat.zero_add]
  · rw [List.drop_eq_nil_of_le (by omega), List.take_nil, Nat.sub_eq_zero_of_le (by omega),
      Nat.min_zero]
    rfl

end Holding

-- As many clusters as the file's chain lacks are free, where fat_alloc_cluster searches.
def RoomFor (N : Nat) (w : World) (e : Fat32Entry) (offset len : Nat) : Prop :=
  ∀ l, (worldEnv N w anyRule).Clusters (volume N w) fat32Eof e l →
    writeSteps w.mount.bytesPerClust offset len <
      l.length + spare (worldEnv N w anyRule).limit N (volume N w)

-- Writes and reads through the one entry that e₁ has become, and the bytes that an array has then.
inductive FileRun (N fuel : Nat) (w₁ : World) (e₁ : Fat32Entry) :
    World → Fat32Entry → List UInt8 → Prop
  | made : FileRun N fuel w₁ e₁ w₁ e₁ []
  | write {w w' : World} {e e' : Fat32Entry} {bytes data : List UInt8} {offset : Nat} {n : Int} :
      FileRun N fuel w₁ e₁ w e bytes → offset ≤ e.size → offset + data.length < 2 ^ 31 →
      RoomFor N w e offset data.length → fat32Write fuel e data offset w = (some (n, e'), w') →
      FileRun N fuel w₁ e₁ w' e' (overwrite bytes offset data)
  | read {w w' : World} {e : Fat32Entry} {bytes : List UInt8} {offset size : Nat}
      {r : Except Int (List UInt8)} :
      FileRun N fuel w₁ e₁ w e bytes → offset + size < 2 ^ 31 →
      fat32Read fuel e offset size w = (some r, w') → FileRun N fuel w₁ e₁ w' e bytes

-- The file in slot p of directory d holds the bytes, and every other chain and its contents are as
-- in w₁.
structure FileHeld (N fuel dirCluster : Nat) (p : Nat × Nat) (w₁ w : World) (e : Fat32Entry)
    (bytes : List UInt8) : Prop where
  consistent : Consistent w.mount N (volume N w)
  slot : ∃ l, Link N (volume N w) fat32Eof (dirHead w.mount dirCluster) l ∧
    l[e.dirIndex / entriesPerClust w.mount]? = some p.1 ∧
    e.dirIndex % entriesPerClust w.mount = p.2
  length : slotSize (slotAt (volume N w) p) = bytes.length
  cluster : slotCluster (slotAt (volume N w) p) = e.cluster
  others : ∀ h l, Link N (volume N w₁) fat32Eof h l → Link N (volume N w) fat32Eof h l ∧
    ∀ x ∈ l, ∀ j, ¬(x = p.1 ∧ InSlot p.2 j) → (volume N w).data x j = (volume N w₁).data x j
  reads : ∀ offset size, offset + size < 2 ^ 31 →
    ∃ w', fat32Read fuel e offset size w = (some (.ok ((bytes.drop offset).take size)), w')
  writes : ∀ offset data, offset ≤ e.size → offset + data.length < 2 ^ 31 →
    RoomFor N w e offset data.length →
    ∃ e' w', fat32Write fuel e data offset w = (some ((data.length : Int), e'), w')

section Run

variable {N fuel fuel₀ dirCluster offset len : Nat} {w₀ w₁ w : World} {e₁ e : Fat32Entry}
  {bytes name : List UInt8} {l : List Nat} {p : Nat × Nat}

theorem RoomFor.steps (h : RoomFor N w e offset len) (hg : Good (worldEnv N w₀ anyRule) w)
    (hl : (worldEnv N w₀ anyRule).Clusters ((worldEnv N w₀ anyRule).vol w) fat32Eof e l) :
    writeSteps w₀.mount.bytesPerClust offset len <
      l.length + spare (worldEnv N w₀ anyRule).limit N ((worldEnv N w₀ anyRule).vol w) := by
  rw [hg.volume_eq] at hl ⊢
  have hmount : w.mount = w₀.mount := hg.mount
  have hcount : w.sectorCount = w₀.sectorCount := hg.sectorCount
  have hlimit : (worldEnv N w anyRule).limit = (worldEnv N w₀ anyRule).limit := by
    change w.sectorCount / w.mount.sectorsPerClust = w₀.sectorCount / w₀.mount.sectorsPerClust
    rw [hmount, hcount]
  rw [← hmount, ← hlimit]
  exact h l hl

theorem FileRun.holding (hm : MountedAt N w₀) (hcalm : Calm w₀)
    (hg : Good (worldEnv N w₀ anyRule) w₁) (ha : hasAttr e₁.attr attrDirectory = false)
    (hmade : (worldEnv N w₀ anyRule).Holding ((worldEnv N w₀ anyRule).vol w₁) e₁
      ((worldEnv N w₀ anyRule).vol w₁) e₁ p [] [])
    (hrun : FileRun N fuel w₁ e₁ w e bytes) :
    Good (worldEnv N w₀ anyRule) w ∧ ∃ l, (worldEnv N w₀ anyRule).Holding
      ((worldEnv N w₀ anyRule).vol w₁) e₁ ((worldEnv N w₀ anyRule).vol w) e p l bytes := by
  induction hrun with
  | made => exact ⟨hg, [], hmade⟩
  | write _ hoff hsize hroom hwrite ih =>
    obtain ⟨hg, l, hold⟩ := ih
    obtain ⟨hs, -, hold'⟩ := (hold.write hm.lawful hcalm.quiet hg loose_any ha
      (hold.entry_size ▸ hoff) hsize (hroom.steps hg hold.chain)).result hwrite
    exact ⟨hs.good, hold'⟩
  | read _ hsize hread ih =>
    obtain ⟨hg, l, hold⟩ := ih
    obtain ⟨hs, hv, -⟩ := (hold.read hm.lawful hcalm.quiet hg loose_any ha hsize).result hread
    refine ⟨hs.good, l, ?_⟩
    unfold Env.vol at hold ⊢
    rw [hv]
    exact hold

theorem file_contents (hm : MountedAt N w₀) (hcalm : Calm w₀)
    (hc : Consistent w₀.mount N (volume N w₀))
    (hd : IsDir w₀.mount N (volume N w₀) (dirHead w₀.mount dirCluster))
    (hroom : (Op.create dirCluster name).Roomy (worldEnv N w₀ anyRule) (volume N w₀))
    (hcreate : fat32Create fuel₀ dirCluster name w₀ = (some (.ok e₁), w₁))
    (hfuel : 2 ^ 31 ≤ fuel) :
    ∃ p, ∀ w e bytes, FileRun N fuel w₁ e₁ w e bytes →
      FileHeld N fuel dirCluster p w₁ w e bytes := by
  obtain ⟨D, H, hs⟩ := hc
  have hdD := hs.isDir hm.fits.small hd
  obtain ⟨l, hl⟩ := hs.chain (hs.dirs hdD)
  obtain ⟨hs₁, hmade⟩ := (fat32Create_runs hm.lawful (hm.good (legal_any w₀.trace)) loose_any
    (hs.valid (hs.dirs hdD)) hl ((hroom l hl).imp_right (Or.imp_right
      (fun h => ⟨h, hcalm.no_fatFails, hcalm.no_ataFails⟩)))).result hcreate
  obtain ⟨p, ha, hdir, hmade⟩ := hmade.holding hm.fits hcalm.quiet hs hdD hl
  refine ⟨p, fun w e bytes hrun => ?_⟩
  obtain ⟨hg, lf, hold⟩ := hrun.holding hm hcalm hs₁.good ha hmade
  have hvol := hg.volume_eq
  have hmount : w.mount = w₀.mount := hg.mount
  obtain ⟨D', H', ld, hs', hf, -⟩ := hold.owned
  have hdir : e.dirCluster = dirCluster := by
    rw [hold.same]
    exact hdir
  refine ⟨?_, ?_, hvol ▸ hold.size, hvol ▸ hold.cluster, fun h l hl => ?_,
    fun offset size hsize => ?_, fun offset data hoff hsize hroom => ?_⟩
  · rw [hmount, ← hvol]
    exact ⟨D', H', hs'⟩
  · rw [hmount, ← hvol, ← hdir]
    exact ⟨ld, hf.chain, hf.cluster, hold.index.symm⟩
  · rw [← hvol]
    rw [← hs₁.good.volume_eq] at hl ⊢
    have hused := link_used hl marker_eof
    exact ⟨hl.congr fun y hy => (hold.others y (hused y hy)).1,
      fun y hy j hj => (hold.others y (hused y hy)).2 j hj⟩
  · have hlt : size < fuel := by omega
    obtain ⟨r, w', hrun', -, -, rfl⟩ := ((hold.read hm.lawful hcalm.quiet hg loose_any ha
      hsize).mono (fun _ _ h => h) (fun _ h => absurd h (Nat.not_le.mpr hlt))).ends
    exact ⟨w', hrun'⟩
  · have hlt : data.length < fuel := by omega
    obtain ⟨⟨n, e'⟩, w', hrun', -, hn, -⟩ := ((hold.write hm.lawful hcalm.quiet hg loose_any ha
      (hold.entry_size ▸ hoff) hsize (hroom.steps hg hold.chain)).mono (fun _ _ h => h)
      (fun _ h => absurd h (Nat.not_le.mpr hlt))).ends
    obtain rfl : n = data.length := hn
    exact ⟨e', w', hrun'⟩

-- "hi" is put into "A".
theorem file_contents_hi : ∃ p w e, FileHeld 5 (2 ^ 31) 0 p (freshCreated [0x41]) w e
    [0x68, 0x69] := by
  have hcreated : (fat32Create 100 0 [0x41] freshWorld).1 = some (.ok (freshEntry [0x41])) := by
    decide +kernel
  have hspare : 0 < spare (worldEnv 5 (freshCreated [0x41]) anyRule).limit 5
      (volume 5 (freshCreated [0x41])) := by decide +kernel
  have hroom : RoomFor 5 (freshCreated [0x41]) (freshEntry [0x41]) 0 2 := by
    intro l hl
    obtain rfl : l = [] := hl.1
    exact Nat.lt_of_lt_of_eq hspare (Nat.zero_add _).symm
  obtain ⟨p, h⟩ := file_contents (disk_mounted ..) fresh_calm fresh_consistent .root
    (fresh_roomy [0x41]) (fresh_created hcreated) le_rfl
  obtain ⟨e, w, hwrite⟩ := (h _ _ _ .made).writes 0 [0x68, 0x69] (Nat.zero_le _) (by decide) hroom
  exact ⟨p, w, e, h _ _ _ (.write .made (Nat.zero_le _) (by decide) hroom hwrite)⟩

end Run

end Fat32
