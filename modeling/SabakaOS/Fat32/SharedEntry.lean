import SabakaOS.Fat32.FileContents

namespace Fat32

open Word ByteMemory Prog Chain

-- The bytes of a file, where it is known what the latest write there has put.
abbrev Known := Nat → Option UInt8

def Known.put (known : Known) (off : Nat) (data : List UInt8) : Known :=
  fun i => if off ≤ i ∧ i < off + data.length then data[i - off]? else known i

-- A copy of a file's entry e that some caller has had since an earlier time.
structure CopyOf (e c : Fat32Entry) : Prop where
  dir : c.dirCluster = e.dirCluster
  index : c.dirIndex = e.dirIndex
  attr : hasAttr c.attr attrDirectory = false
  cluster : c.cluster = e.cluster ∨ c.cluster = 0 ∧ c.size = 0
  size : c.size ≤ e.size

-- On the volume V the file in slot s has the entry e and the clusters l, the clusters l₀ it had on
-- V₀ and others that were free there; what is known of its bytes is so.
structure Env.FileOn (E : Env) (V₀ : Vol) (l₀ : List Nat) (s : Nat × Nat) (V : Vol)
    (e : Fat32Entry) (l : List Nat) (known : Known) : Prop where
  index : e.dirIndex % entriesPerClust E.mount = s.2
  owned : ∃ D H ld, Sound E.mount E.clusters V D H ∅ ∧
    FileSlot E.mount E.clusters V D e ld s.1 ∧
    (e.cluster ≠ 0 → Owned E.mount E.clusters V D H {s} e.cluster)
  cluster : slotCluster (slotAt V s) = e.cluster
  size : slotSize (slotAt V s) = e.size
  chain : E.Clusters V fat32Eof e l
  room : e.size ≤ l.length * E.mount.bytesPerClust
  known : ∀ i b, known i = some b → i < e.size ∧ fileByte E.mount.bytesPerClust V l i = b
  grown : ∃ new, l = l₀ ++ new ∧ ∀ y ∈ new, V₀.fat y = 0
  others : ∀ y, y ∉ l → V.fat y = V₀.fat y ∧
    ∀ j, ¬(y = s.1 ∧ InSlot s.2 j) → V.data y j = V₀.data y j

-- A read through a copy meets the file's end where the entry has it.
def ReadFits (e c : Fat32Entry) (off size : Nat) : Prop :=
  min size (e.size - off) = 0 ∨ off + size < 2 ^ 32 ∧ (c.size = e.size ∨ off + size ≤ c.size)

-- A write through a copy goes to the file's clusters and takes nothing off its end.
def WriteFits (e c : Fat32Entry) (off len : Nat) : Prop :=
  off + len < 2 ^ 32 ∧ c.cluster = e.cluster ∧ (c.size = e.size ∨ e.size ≤ off + len)

section Entries

variable {dirCluster : Nat} {f : Fat32Entry}

theorem slot_of_listing {V : Vol} {epc : Nat} {l : List Nat} (hepc : 0 < epc)
    (h : f ∈ listing V epc dirCluster l) : ∃ x, l[f.dirIndex / epc]? = some x ∧
      f.dirCluster = dirCluster ∧ f.attr = slotAttr (slotAt V (x, f.dirIndex % epc)) ∧
      f.cluster = slotCluster (slotAt V (x, f.dirIndex % epc)) ∧
      f.size = slotSize (slotAt V (x, f.dirIndex % epc)) := by
  obtain ⟨s, hs, -, -, hdir, hattr, hcluster, hsize⟩ := slot_of_mem h
  rw [Nat.sub_zero, dirSlots_getElem? hepc] at hs
  obtain ⟨x, hx, rfl⟩ := Option.map_eq_some_iff.mp hs
  exact ⟨x, hx, hdir, hattr, hcluster, hsize⟩

end Entries

section FileOn

variable {E : Env} {w : World} {V₀ V : Vol} {l₀ l : List Nat} {s : Nat × Nat} {e c f : Fat32Entry}
  {known : Known} {off size fuel : Nat} {data : List UInt8}

theorem CopyOf.refl (h : hasAttr e.attr attrDirectory = false) : CopyOf e e :=
  ⟨rfl, rfl, h, .inl rfl, le_rfl⟩

-- A fresh lookup gives the entry as it is.
theorem Env.FileOn.listed (h : E.FileOn V₀ l₀ s V e l known) (hf : Fits E.mount E.clusters)
    {ld : List Nat} {d : Nat} (hl : Link E.clusters V fat32Eof (dirHead E.mount d) ld)
    (hm : f ∈ listing V (entriesPerClust E.mount) d ld) (hdir : f.dirCluster = e.dirCluster)
    (hidx : f.dirIndex = e.dirIndex) :
    CopyOf e f ∧ f.cluster = e.cluster ∧ f.size = e.size := by
  obtain ⟨D, H, ld', -, hslot, -⟩ := h.owned
  obtain ⟨x, hx, hd, hattr, hcluster, hsize⟩ := slot_of_listing hf.epc_pos hm
  rw [← hd, hdir] at hl
  obtain rfl := hl.unique (eof_stops hf.small) hslot.chain
  rw [hidx] at hx hattr hcluster hsize
  obtain rfl := Option.some.inj (hx.symm.trans hslot.cluster)
  rw [h.index] at hattr hcluster hsize
  have hfile := hslot.file
  rw [h.index] at hfile
  have hc : f.cluster = e.cluster := hcluster.trans h.cluster
  have hs : f.size = e.size := hsize.trans h.size
  exact ⟨⟨hdir, hidx, hattr ▸ hfile, .inl hc, hs.le⟩, hc, hs⟩

theorem FileSlot.copy {m : Mount} {N : Nat} {D : Set Nat} {ld : List Nat} {x : Nat}
    (h : FileSlot m N V D e ld x) (hdir : c.dirCluster = e.dirCluster)
    (hidx : c.dirIndex = e.dirIndex) : FileSlot m N V D c ld x := by
  refine ⟨?_, ?_, ?_, ?_, ?_⟩
  · rw [hdir]
    exact h.dir
  · rw [hdir]
    exact h.chain
  · rw [hidx]
    exact h.cluster
  · rw [hidx]
    exact h.file
  · rw [hidx]
    exact h.notDots

theorem Env.FileOn.empty (h : E.FileOn V₀ l₀ s V e l known) (h0 : e.cluster = 0) : e.size = 0 := by
  have hchain := h.chain
  rw [Env.Clusters, if_pos h0] at hchain
  have hroom := h.room
  rw [hchain.1, List.length_nil, Nat.zero_mul] at hroom
  omega

theorem Env.FileOn.size_lt (h : E.FileOn V₀ l₀ s V e l known) : e.size < 2 ^ 32 := by
  rw [← h.size, slotSize]
  exact readLE_lt _ 4 _

theorem fat32Read_nothing (hE : E.Lawful) (hg : Good E w) (ha : hasAttr c.attr attrDirectory = false)
    (h : c.size ≤ off ∨ size = 0 ∧ off < 2 ^ 32) :
    Runs (fat32Read fuel c off size) w (fun r w' => w' = w ∧ r = .ok []) (fun _ => False) := by
  unfold fat32Read
  refine Runs.get_bind ?_
  rw [hg.mount, hE.fits.mounted, ha]
  simp only [Bool.not_true, Bool.false_eq_true, if_false]
  split
  · exact Runs.pure ⟨rfl, rfl⟩
  · rename_i hlt
    obtain ⟨rfl, hoff⟩ := h.resolve_left hlt
    have hend : ¬c.size < u32 (off + 0) := by
      rw [Nat.add_zero, u32_of_lt hoff]
      omega
    rw [if_neg hend, if_pos rfl]
    exact Runs.pure ⟨rfl, rfl⟩

theorem Env.FileOn.read (hE : E.Lawful) (hq : E.Quiet) (hg : Good E w) (hloose : E.Loose)
    (h : E.FileOn V₀ l₀ s (E.vol w) e l known) (hc : CopyOf e c) (hfit : ReadFits e c off size) :
    Runs (fat32Read fuel c off size) w (fun r w' => Step E w w' ∧ view w' = view w ∧
      r = .ok (readBytes (fileByte E.mount.bytesPerClust (E.vol w) l) (min size (e.size - off)) off))
      (fun _ => fuel ≤ size ∧ size < 2 ^ 32) := by
  rcases hfit with hnone | ⟨hlt, hend⟩
  · refine (fat32Read_nothing hE hg hc.attr ?_).mono ?_ (fun _ h => h.elim)
    · have := hc.size
      have := h.size_lt
      omega
    · rintro r _ ⟨rfl, rfl⟩
      exact ⟨hg.step, rfl, by rw [hnone]; rfl⟩
  have hcount : min size (c.size - off) = min size (e.size - off) := by
    have := hc.size
    omega
  rcases hc.cluster with hcl | ⟨hcl, hcs⟩
  · have hchain : E.Clusters (E.vol w) fat32Eof c l := by
      have hchain := h.chain
      unfold Env.Clusters at hchain ⊢
      rwa [hcl]
    rw [← hcount]
    exact (fat32Read_exact hE hq hg hloose.opens hchain hc.attr (hc.size.trans h.room)
      hlt).mono (fun _ _ h => h) (fun _ h => ⟨h, by omega⟩)
  · have hchain : E.Clusters (E.vol w) fat32Eof c [] := by
      rw [Env.Clusters, if_pos hcl]
      exact ⟨rfl, rfl⟩
    have hzero : min size (e.size - off) = 0 := by
      rw [← hcount, hcs, Nat.zero_sub, Nat.min_zero]
    refine (fat32Read_exact hE hq hg hloose.opens hchain hc.attr (by rw [hcs]; exact Nat.zero_le _)
      hlt).mono ?_ (fun _ h => ⟨h, by omega⟩)
    rintro r w' ⟨hs, hv, rfl⟩
    exact ⟨hs, hv, by rw [hcount, hzero]; rfl⟩

-- The entry of a file after a write.
structure Grew (e e' : Fat32Entry) : Prop where
  same : e' = { e with cluster := e'.cluster, size := e'.size }
  size : e.size ≤ e'.size
  cluster : e'.cluster = e.cluster ∨ e.cluster = 0

theorem CopyOf.later {e' : Fat32Entry} (hc : CopyOf e c) (hg : Grew e e')
    (hempty : e.cluster = 0 → e.size = 0) : CopyOf e' c := by
  refine ⟨?_, ?_, hc.attr, ?_, hc.size.trans hg.size⟩
  · rw [hg.same]
    exact hc.dir
  · rw [hg.same]
    exact hc.index
  · rcases hc.cluster with hcl | hcl
    · rcases hg.cluster with he | he
      · exact .inl (hcl.trans he.symm)
      · have := hc.size
        have := hempty he
        exact .inr ⟨hcl.trans he, by omega⟩
    · exact .inr hcl

theorem Env.FileOn.write_room (h : E.FileOn V₀ l₀ s V e l known) (hf : Fits E.mount E.clusters)
    (hq : E.Quiet) (hcl : c.cluster = e.cluster) {len : Nat}
    (hroom : Room E.limit E.clusters V (writeSteps E.mount.bytesPerClust off len + 1 - l.length)) :
    E.WriteSteady V c off len ∧ E.WriteRoom V c off len := by
  have hchain := h.chain
  unfold Env.Clusters at hchain
  unfold Env.WriteSteady Env.WriteRoom
  rw [hcl]
  by_cases h0 : e.cluster = 0
  · rw [if_pos h0] at hchain
    rw [if_pos h0, if_pos h0]
    rw [hchain.1] at hroom
    exact ⟨hq.fat _, hroom⟩
  · rw [if_neg h0] at hchain
    rw [if_neg h0, if_neg h0]
    refine ⟨fun _ _ => .inl (hq.fat _), fun l' hl' => ?_⟩
    obtain rfl := hl'.unique (eof_stops hf.small) hchain.2
    exact .inl ⟨hq.fat _, hroom.mono (by omega)⟩

theorem Env.FileOn.put {V' : Vol} {e' c' : Fat32Entry} {l' : List Nat} {r : Int} {k : Nat}
    (h : E.FileOn V₀ l₀ s V e l known) (hf : Fits E.mount E.clusters)
    (hst : E.Stored fat32Eof s.1 s.2 V l c off data r c' V' l' k)
    (he : e' = { e with cluster := c'.cluster, size := slotSize (slotAt V' s) })
    (hcl : slotCluster (slotAt V' s) = c'.cluster) (hle : e.size ≤ e'.size)
    (hroom : e'.size ≤ l'.length * E.mount.bytesPerClust) (hin : k ≠ 0 → off + k ≤ e'.size)
    (howned : ∃ D H ld, Sound E.mount E.clusters V' D H ∅ ∧
      FileSlot E.mount E.clusters V' D e' ld s.1 ∧
      (e'.cluster ≠ 0 → Owned E.mount E.clusters V' D H {s} e'.cluster)) :
    E.FileOn V₀ l₀ s V' e' l' (known.put off (data.take k)) := by
  have hbpc := bpc_bounds hf
  have hused : ∀ y ∈ l, V.fat y ≠ 0 := by
    have hchain := h.chain
    unfold Env.Clusters at hchain
    split at hchain
    · rw [hchain.1]
      exact fun y hy => by cases hy
    · exact link_used hchain.2 marker_eof
  have htake : (data.take k).length = k := by
    rw [List.length_take, min_eq_left hst.le]
  obtain ⟨new₀, hl₀, hnew₀⟩ := h.grown
  obtain ⟨new, rfl, hnew⟩ := hst.updated.grown
  subst he
  refine ⟨h.index, howned, hcl, rfl, ?_, hroom, fun i b hb => ?_, ?_, fun y hy => ?_⟩
  · have hchain := hst.chain
    unfold Env.Clusters at hchain ⊢
    exact hchain
  · unfold Known.put at hb
    rw [htake] at hb
    have hupd := hst.updated.bytes i
    rw [htake] at hupd
    split at hb
    · rename_i hi
      have hend := hin (by omega)
      refine ⟨by omega, ?_⟩
      rw [hupd (by omega), if_pos hi, List.getD_eq_getElem?_getD, hb]
      rfl
    · rename_i hi
      obtain ⟨hlt, hbyte⟩ := h.known i b hb
      have hlen := h.room
      refine ⟨hlt.trans_le hle, ?_⟩
      rw [hupd (by omega), if_neg hi, fileByte_append hbpc.1 (by omega), hbyte]
  · refine ⟨new₀ ++ new, by rw [hl₀, List.append_assoc], fun y hy => ?_⟩
    rcases List.mem_append.mp hy with hy | hy
    · exact hnew₀ y hy
    · rw [← (h.others y fun hm => hused y hm (hnew y hy)).1]
      exact hnew y hy
  · obtain ⟨hfat, hdata⟩ := hst.updated.outside y hy
    obtain ⟨hfat₀, hdata₀⟩ := h.others y fun hm => hy (List.mem_append_left _ hm)
    exact ⟨hfat.trans hfat₀, fun j hj => (hdata j hj).trans (hdata₀ j hj)⟩

theorem Env.Clusters.head (h : E.Clusters V fat32Eof e l) (hN : E.clusters ≤ 0x0FFFFFF8) :
    if e.cluster = 0 then l = [] else l.head? = some e.cluster := by
  unfold Env.Clusters at h
  split
  · rename_i h0
    rw [if_pos h0] at h
    exact h.1
  · rename_i h0
    rw [if_neg h0] at h
    cases l with
    | nil => exact absurd h.1 (eof_stops hN _ h.2)
    | cons y l => rw [h.2.1]; rfl

theorem Env.Stored.cluster {V' : Vol} {e' : Fat32Entry} {x i k : Nat} {l' : List Nat} {r : Int}
    (h : E.Stored fat32Eof x i V l e off data r e' V' l' k) (hN : E.clusters ≤ 0x0FFFFFF8)
    (hc : E.Clusters V fat32Eof e l) : e'.cluster = e.cluster ∨ e.cluster = 0 := by
  by_contra hne
  rw [not_or] at hne
  obtain ⟨new, rfl, -⟩ := h.updated.grown
  have hold := hc.head hN
  have hnew := h.chain.head hN
  rw [if_neg hne.2] at hold
  rw [List.head?_append, hold] at hnew
  split at hnew
  · rw [(List.append_eq_nil_iff.mp hnew).1] at hold
    cases hold
  · exact hne.1 (Option.some.inj hnew).symm

theorem Env.FileOn.write (hE : E.Lawful) (hq : E.Quiet) (hg : Good E w) (hloose : E.Loose)
    (h : E.FileOn V₀ l₀ s (E.vol w) e l known) (hc : CopyOf e c)
    (hfit : WriteFits e c off data.length)
    (hroom : Room E.limit E.clusters (E.vol w)
      (writeSteps E.mount.bytesPerClust off data.length + 1 - l.length)) :
    Runs (fat32Write fuel c data off) w (fun r w' => Step E w w' ∧ ∃ e' l' k,
      E.FileOn V₀ l₀ s (E.vol w') e' l' (known.put off (data.take k)) ∧ Grew e e' ∧
      CopyOf e' r.2 ∧ k ≤ data.length ∧ (r.1 = k ∨ r.1 = fat32ErrNospace ∧ k = 0) ∧
      (writeSteps E.mount.bytesPerClust off data.length <
        l.length + spare E.limit E.clusters (E.vol w) → r.1 = data.length))
      (fun _ => fuel ≤ data.length) := by
  obtain ⟨hlt, hcl, hend⟩ := hfit
  obtain ⟨D, H, ld, hs, hf, hown⟩ := h.owned
  obtain ⟨hsteady, hwroom⟩ := h.write_room hE.fits hq hcl hroom
  have hfc := hf.copy hc.dir hc.index
  have hidx : c.dirIndex % entriesPerClust E.mount = s.2 := by rw [hc.index, h.index]
  have hchain : E.Clusters (E.vol w) fat32Eof c l := by
    have hchain := h.chain
    unfold Env.Clusters at hchain ⊢
    rwa [hcl]
  refine ((fat32Write_owned hE hg hloose hs hfc (by rwa [hidx, hcl]) hc.attr hsteady hwroom).and
    (fat32Write_stored hE hq hg hloose.opens hloose.opens hc.attr (hs.valid (hs.dirs hfc.dir))
      marker_eof marker_eof hfc.chain hfc.cluster hidx hchain (fun _ hy => hy)
      (hf.apart hs hown h.chain) hlt rfl (.inl rfl) hroom)).mono ?_ (fun _ h => h.2)
  rintro ⟨r, c'⟩ w' ⟨⟨hstep, H', hs', hf', hown'⟩, -, l', k, hst, hall⟩
  have hsz := h.size_lt
  have hcsz := hc.size
  have holdroom := h.room
  have hlen : l.length * E.mount.bytesPerClust ≤ l'.length * E.mount.bytesPerClust := by
    obtain ⟨new, rfl, -⟩ := hst.updated.grown
    rw [List.length_append, Nat.add_mul]
    omega
  have hk := hst.le
  have hcluster : c'.cluster = e.cluster ∨ e.cluster = 0 := by
    rw [← hcl]
    exact hst.cluster hE.fits.small hchain
  have hempty : e.cluster = 0 → e.size = 0 := h.empty
  have hnoted : slotCluster (slotAt (E.vol w') s) = c'.cluster ∧
      e.size ≤ slotSize (slotAt (E.vol w') s) ∧ c'.size ≤ slotSize (slotAt (E.vol w') s) ∧
      slotSize (slotAt (E.vol w') s) ≤ l'.length * E.mount.bytesPerClust ∧
      (k ≠ 0 → off + k ≤ slotSize (slotAt (E.vol w') s)) ∧
      (r = k ∨ r = fat32ErrNospace ∧ k = 0) := by
    rcases hst.noted with ⟨hr, -, hsize, hcs, hss, hin, hpart⟩ |
      ⟨hr, rfl, hsize, ⟨hcs, hslot⟩ | ⟨h0, hcs, hss⟩⟩
    · rw [hsize, Nat.mod_eq_of_lt (by omega)] at hss
      rw [hss, hsize]
      have hgrow : e.size ≤ max c.size (off + k) := by
        by_cases hfull : k = data.length
        · omega
        · have := hpart (by omega)
          omega
      exact ⟨hcs, hgrow, le_rfl, by omega, fun _ => by omega, .inl hr⟩
    · change c'.size = c.size at hsize
      have hss : slotSize (slotAt (E.vol w') s) = e.size := (congrArg slotSize hslot).trans h.size
      rw [hss]
      refine ⟨?_, le_rfl, by omega, by omega, fun hk0 => absurd rfl hk0, .inr ⟨hr, rfl⟩⟩
      exact (congrArg slotCluster hslot).trans (h.cluster.trans (hcl.symm.trans hcs.symm))
    · change c'.size = c.size at hsize
      have hz := hempty (hcl.symm.trans h0)
      have hss : slotSize (slotAt (E.vol w') s) = c.size := by
        rw [hss, Nat.mod_eq_of_lt (by omega)]
      rw [hss]
      exact ⟨hcs, by omega, by omega, by omega, fun hk0 => absurd rfl hk0, .inr ⟨hr, rfl⟩⟩
  obtain ⟨hcs, hsize, hcopy, hin, hput, hr⟩ := hnoted
  have hsame : c' = { c with cluster := c'.cluster, size := c'.size } := hst.same
  refine ⟨hstep, { e with cluster := c'.cluster, size := slotSize (slotAt (E.vol w') s) }, l', k,
    h.put hE.fits hst rfl hcs hsize hin hput ?_, ⟨rfl, hsize, hcluster⟩, ?_, hk, hr, hall⟩
  · refine ⟨D, H', ld, hs', hf'.copy hc.dir.symm hc.index.symm, ?_⟩
    rwa [hidx] at hown'
  · refine ⟨?_, ?_, ?_, .inl rfl, hcopy⟩
    · rw [hsame]
      exact hc.dir
    · rw [hsame]
      exact hc.index
    · rw [hsame]
      exact hc.attr

end FileOn

end Fat32
