import SabakaOS.Fat32.UniqueNames
import SabakaOS.Fat32.FileWrite

namespace Fat32

open Word ByteMemory Prog Chain

-- The slots of a directory with the clusters l, in the order of its chain.
def places (epc : Nat) (l : List Nat) : List (Nat × Nat) :=
  l.flatMap fun x => (List.range epc).map fun i => (x, i)

def firstFree (V : Vol) (epc : Nat) (l : List Nat) : Option Nat :=
  (places epc l).findIdx? fun p => decide (SlotFree (slotAt V p))

-- Of the volume nothing has changed but those bytes of slot p that f names.
structure Edited (V V' : Vol) (p : Nat × Nat) (f : Nat → Prop) : Prop where
  fat : V'.fat = V.fat
  other : ∀ y j, ¬(y = p.1 ∧ ∃ k, f k ∧ j = 32 * p.2 + k) → V'.data y j = V.data y j

def clusterOrSize (k : Nat) : Prop := k = 20 ∨ k = 21 ∨ k = 26 ∨ k = 27 ∨ 28 ≤ k ∧ k < 32

-- The cleared cluster n follows y.
def Vol.appended (V : Vol) (y n : Nat) : Vol := (V.grow n).setFat y n

-- A cluster of the volume is free, where fat_alloc_cluster searches.
def HasFree (N : Nat) (w : World) : Prop :=
  ∃ c, Valid N c ∧ c < w.sectorCount / w.mount.sectorsPerClust ∧ (volume N w).fat c = 0

-- The new slot has number r of the directory with head d and clusters l, where the first free one
-- was, or it is the first one of a cluster more. The directory's clusters are then l'.
structure Stored (N epc : Nat) (V : Vol) (d : Nat) (l : List Nat) (slot : List UInt8) (r : Nat)
    (V' : Vol) (l' : List Nat) (p : Nat × Nat) : Prop where
  chain : Link N V' fat32Eof d l'
  place : (places epc l')[r]? = some p
  slot : slotAt V' p = slotBytes slot
  first : (firstFree V epc l = some r ∧ l' = l ∧ Edited V V' p (· < 32)) ∨
    (firstFree V epc l = none ∧ r = (places epc l).length ∧ ∃ y n, l.getLast? = some y ∧
      l' = l ++ [n] ∧ Valid N n ∧ V.fat n = 0 ∧ Edited (V.appended y n) V' p (· < 32))

-- Any further entries have been put into directory d, and between them anything has been done
-- that leaves its chain as it is.
inductive Later (N d : Nat) : World → World → Prop
  | refl (w : World) : Later N d w w
  | extended {w w' w'' : World} {fuel cluster size : Nat} {name : List UInt8} {attr : UInt8}
      {r : Except Int Nat} : Later N d w w' → HasFree N w' →
      writeDirEntry fuel d name attr cluster size w' = (some r, w'') → Later N d w w''
  | other {w w' w'' : World} : Later N d w w' → MountedAt N w'' → Calm w'' →
      w''.mount = w'.mount → (∀ l, Link N (volume N w') fat32Eof (dirHead w'.mount d) l →
        Link N (volume N w'') fat32Eof (dirHead w'.mount d) l) → Later N d w w''

section Places

variable {epc r x y i n : Nat} {l l' : List Nat} {V : Vol} {p : Nat × Nat}

theorem dirSlots_places : dirSlots V epc l = (places epc l).map (slotAt V) := by
  simp only [dirSlots, places, List.map_flatMap, List.map_map, List.range_eq_range']
  rfl

theorem firstFree_eq : firstFree V epc l = freeIndex V epc l := by
  rw [freeIndex, dirSlots_places, List.findIdx?_map]
  rfl

theorem places_append : places epc (l ++ l') = places epc l ++ places epc l' :=
  List.flatMap_append

theorem places_length : (places epc l).length = l.length * epc := by
  simp [places, List.length_flatMap]

-- The division that update_dir_entry and mark_deleted go by finds the slot.
theorem places_getElem? (hepc : 0 < epc) (r : Nat) :
    (places epc l)[r]? = l[r / epc]?.map fun x => (x, r % epc) := by
  induction l generalizing r with
  | nil => simp [places]
  | cons x l ih =>
    have hsplit : places epc (x :: l) =
        (List.range epc).map (fun i => (x, i)) ++ places epc l := rfl
    rw [hsplit]
    rcases Nat.lt_or_ge r epc with hr | hr
    · rw [List.getElem?_append_left (by simpa using hr), Nat.div_eq_of_lt hr, Nat.mod_eq_of_lt hr]
      simp [hr]
    · obtain ⟨k, rfl⟩ := Nat.exists_eq_add_of_le' hr
      rw [List.getElem?_append_right (by simp), Nat.add_div_right k hepc, Nat.add_mod_right]
      simpa using ih k

theorem place_kept (h : (places epc l)[r]? = some p) (hl : l <+: l') :
    (places epc l')[r]? = some p := by
  obtain ⟨l2, rfl⟩ := hl
  rw [places_append, List.getElem?_append_left (List.getElem?_eq_some_iff.mp h).1, h]

end Places

section Edit

variable {V : Vol} {x i cluster size : Nat} {f : Nat → Prop} {g : Buffer}

theorem edited_setData (h : ∀ j, ¬(∃ k, f k ∧ j = 32 * i + k) → g j = V.data x j) :
    Edited V (V.setData x g) (x, i) f := by
  refine ⟨rfl, fun y j hj => ?_⟩
  by_cases hy : y = x
  · subst hy
    refine (congrFun (Function.update_self ..) j).trans (h j fun hk => hj ⟨rfl, hk⟩)
  · exact congrFun (Function.update_of_ne hy _ _) j

theorem edited_fill {slot : List UInt8} (hlen : slot.length = 32) :
    Edited V (V.fill x i slot) (x, i) (· < 32) := by
  refine edited_setData fun j hj => (slotEdit_fill i hlen).outside _ j fun hin => hj ?_
  exact ⟨j - 32 * i, by omega, by omega⟩

theorem edited_update :
    Edited V (V.setData x (updateSlot cluster size (V.data x) i)) (x, i) clusterOrSize := by
  refine edited_setData fun j hj => ?_
  have hout : ∀ k, clusterOrSize k → j ≠ 32 * i + k := fun k hk he => hj ⟨k, hk, he⟩
  have h20 := hout 20 (by simp [clusterOrSize])
  have h21 := hout 21 (by simp [clusterOrSize])
  have h26 := hout 26 (by simp [clusterOrSize])
  have h27 := hout 27 (by simp [clusterOrSize])
  have h28 : j < 32 * i + 28 ∨ 32 * i + 28 + 4 ≤ j := by
    by_contra hin
    refine hout (j - 32 * i) ?_ (by omega)
    unfold clusterOrSize
    omega
  rw [updateSlot, writeLE_of_not_mem _ _ _ _ h28, writeLE_of_not_mem _ _ _ _ (by omega),
    writeLE_of_not_mem _ _ _ _ (by omega)]

theorem edited_delete :
    Edited V (V.setData x (deleteSlot (V.data x) i)) (x, i) (· = 0) :=
  edited_setData fun _ hj => Function.update_of_ne (fun he => hj ⟨0, rfl, he⟩) _ _

end Edit

section Append

variable {N c d y n epc : Nat} {V : Vol} {l l1 : List Nat}

theorem appended_link (hN : N ≤ 0x0FFFFFF8) (hn : Valid N n) (hfree : V.fat n = 0)
    (hl : Link N V fat32Eof d (l1 ++ [y])) :
    Link N (V.appended y n) fat32Eof d (l1 ++ [y] ++ [n]) := by
  have hmem := free_not_mem hl hfree
  have hkept : Link N (V.grow n) fat32Eof d (l1 ++ [y]) := hl.congr fun x hx =>
    Function.update_of_ne (fun he : x = n => hmem (he ▸ hx)) _ _
  have hnew : Link N (V.grow n) fat32Eof n [n] := ⟨rfl, hn, Function.update_self ..⟩
  have hne : y ∉ [n] := fun hy => hmem (by simp [List.mem_singleton.mp hy])
  have hlinked : Link N (V.appended y n) fat32Eof d (l1 ++ y :: [n]) :=
    hkept.retarget (eof_stops hN) hnew hne
  rwa [List.append_assoc]

theorem Edited.link {V' : Vol} {p : Nat × Nat} {f : Nat → Prop} (h : Edited V V' p f)
    (hl : Link N V fat32Eof d l) : Link N V' fat32Eof d l :=
  hl.congr fun x _ => congrFun h.fat x

end Append

section Store

variable {E : Env} {V V' : Vol} {w w' : World} {N d r fuel cluster size : Nat} {l : List Nat}
  {slot name : List UInt8} {attr : UInt8} {p : Nat × Nat}

theorem Placed.stored {res : Except Int Nat} (hp : Placed E V slot 0 l res V')
    (hf : Fits E.mount E.clusters) (hq : E.Quiet) (hl : Link E.clusters V fat32Eof d l)
    (hlen : slot.length = 32) (hspare : 0 < spare E.limit E.clusters V) :
    ∃ r l' p, res = .ok r ∧ l <+: l' ∧
      Stored E.clusters (entriesPerClust E.mount) V d l slot r V' l' p := by
  cases hp with
  | nospace _ h0 => omega
  | failed hfail => exact absurd hfail hq.slot
  | @filled k x res hidx hx hres =>
    obtain rfl := hres.resolve_right fun h => hq.ata _ _ h.2
    rw [Nat.zero_add]
    have hedit := edited_fill (V := V) (x := x) (i := k % entriesPerClust E.mount) hlen
    refine ⟨k, l, (x, k % entriesPerClust E.mount), rfl, List.prefix_rfl, hedit.link hl, ?_,
      slotAt_fill hlen, .inl ⟨firstFree_eq.trans hidx, rfl, hedit⟩⟩
    rw [places_getElem? hf.epc_pos, hx]
    rfl
  | @extended l1 l2 y n res V' hsplit hl2 hnone hex =>
    obtain rfl := hl2.resolve_right (hq.fat _)
    subst hsplit
    obtain ⟨hok, -, hfree, V2, hV2, hres⟩ := hex
    obtain rfl : V2 = V.appended y n := hV2.resolve_right fun h => hq.fat _ h.2
    obtain ⟨hvol, hsaved⟩ := hres.resolve_right fun h => hq.slot h.2.2
    obtain rfl := hsaved.resolve_right fun h => hq.ata _ _ h.2
    rw [hvol, Nat.zero_add]
    have hedit := edited_fill (V := V.appended y n) (x := n) (i := 0) hlen
    have hlength : (l1.length + 1) * entriesPerClust E.mount =
        (places (entriesPerClust E.mount) (l1 ++ [y])).length := by
      rw [places_length, List.length_append, List.length_singleton]
    refine ⟨_, l1 ++ [y] ++ [n], (n, 0), rfl, List.prefix_append .., ?_, ?_, slotAt_fill hlen,
      .inr ⟨firstFree_eq.trans hnone, hlength, y, n, by simp, rfl, hok, hfree, hedit⟩⟩
    · exact hedit.link (appended_link hf.small hok hfree hl)
    · rw [places_getElem? hf.epc_pos, Nat.mul_div_cancel _ hf.epc_pos, Nat.mul_mod_left]
      simp

theorem HasFree.spare (h : HasFree N w) :
    0 < spare (worldEnv N w anyRule).limit N (volume N w) := by
  obtain ⟨c, hc, hlt, hfree⟩ := h
  refine Finset.card_pos.mpr ⟨c, ?_⟩
  rw [Finset.mem_filter, Finset.mem_Ico]
  exact ⟨⟨hc.1, lt_min hlt hc.2⟩, hfree⟩

theorem writeDirEntry_stores (hm : MountedAt N w) (hcalm : Calm w)
    (hd : Valid N (dirHead w.mount d))
    (hl : Link N (volume N w) fat32Eof (dirHead w.mount d) l) (hfree : HasFree N w) :
    Runs (writeDirEntry fuel d name attr cluster size) w (fun res w' =>
      (w'.mount = w.mount ∧ MountedAt N w' ∧ Calm w') ∧ ∃ r l' p, res = .ok r ∧ l <+: l' ∧
        Stored N (entriesPerClust w.mount) (volume N w) (dirHead w.mount d) l
          (newSlot name attr cluster size) r (volume N w') l' p) (fun _ => fuel ≤ l.length) := by
  have hq : (worldEnv N w anyRule).Quiet := hcalm.quiet
  have hg := hm.good (legal_any w.trace)
  refine (writeDirEntry_runs hm.lawful hg loose_any.opens loose_any.opens hd hl
    (eof_stops hm.fits.small _ rfl) (.inl rfl)
    (.inr ⟨.inr hfree.spare, hq.fat _, hq.ata _ _⟩) name attr cluster size).mono ?_
    (fun _ h => h.2)
  rintro res w' ⟨hs, hp⟩
  rw [hs.good.volume_eq] at hp
  exact ⟨⟨hs.good.mount, hs.good.mountedAt hm, hs.good.calm hcalm⟩,
    hp.stored hm.fits hq hl (newSlot_length ..) hfree.spare⟩

theorem Later.chain (h : Later N d w w') (hm : MountedAt N w) (hcalm : Calm w)
    (hd : Valid N (dirHead w.mount d))
    (hl : Link N (volume N w) fat32Eof (dirHead w.mount d) l) :
    (w'.mount = w.mount ∧ MountedAt N w' ∧ Calm w') ∧
      ∃ l', l <+: l' ∧ Link N (volume N w') fat32Eof (dirHead w.mount d) l' := by
  induction h with
  | refl => exact ⟨⟨rfl, hm, hcalm⟩, l, List.prefix_rfl, hl⟩
  | extended _ hfree hrun ih =>
    obtain ⟨⟨hmount, hm', hcalm'⟩, l', hpre, hl'⟩ := ih
    rw [← hmount] at hd hl'
    obtain ⟨⟨hmount2, hm2, hcalm2⟩, r, l2, p, -, hpre2, hstored⟩ :=
      (writeDirEntry_stores hm' hcalm' hd hl' hfree).result hrun
    rw [← hmount]
    exact ⟨⟨hmount2, hm2, hcalm2⟩, l2, hpre.trans hpre2, hstored.chain⟩
  | other _ hm2 hcalm2 hmount2 hkeep ih =>
    obtain ⟨⟨hmount, -, -⟩, l', hpre, hl'⟩ := ih
    rw [hmount] at hkeep
    exact ⟨⟨hmount2.trans hmount, hm2, hcalm2⟩, l', hpre, hkeep l' hl'⟩

-- The slot with number r of the directory is read, changed and written back.
theorem editSlot_ends {s : Site} {edit : Buffer → Nat → Buffer} (hm : MountedAt N w)
    (hcalm : Calm w) (hd : Valid N (dirHead w.mount d))
    (hl : Link N (volume N w) fat32Eof (dirHead w.mount d) l)
    (hp : (places (entriesPerClust w.mount) l)[r]? = some p)
    (hg : ∀ i, SlotEdit i (fun b => edit b i)) :
    ∃ w', editSlot s d r edit w = (some fat32Ok, w') ∧
      volume N w' = (volume N w).setData p.1 (edit ((volume N w).data p.1) p.2) := by
  have hq : (worldEnv N w anyRule).Quiet := hcalm.quiet
  rw [places_getElem? hm.fits.epc_pos] at hp
  obtain ⟨x, hx, rfl⟩ := Option.map_eq_some_iff.mp hp
  have hlt := (List.getElem?_eq_some_iff.mp hx).1
  obtain ⟨res, w', hrun, hs, hres⟩ := (editSlot_runs hm.lawful (hm.good (legal_any w.trace))
    loose_any.opens hd hl (eof_stops hm.fits.small _ rfl) (.inl hlt) (hg _) (s := s)).ends
  rw [hs.good.volume_eq] at hres
  refine ⟨w', ?_⟩
  rcases hres with ⟨y, hy, hvol, hok⟩ | ⟨-, -, hnone | ⟨-, hfail⟩ | hfail | hfail | hfail⟩
  · obtain rfl := Option.some.inj (hy.symm.trans hx)
    obtain rfl := hok.resolve_right (hq.ata _ _)
    exact ⟨hrun, hvol⟩
  · cases hnone.symm.trans hx
  · exact absurd hfail (hq.fat _)
  · exact absurd hfail (hq.heap _)
  · exact absurd hfail (hq.ata _ _)
  · exact absurd hfail (hq.ata _ _)

end Store

-- The running number of a slot is never more than a uint32_t holds, on a disk whose sectors have
-- numbers of 28 bits.
theorem place_number_lt {N d r : Nat} {m : Mount} {V : Vol} {l : List Nat} {p : Nat × Nat}
    (hf : Fits m N) (hl : Link N V fat32Eof d l) (hp : (places (entriesPerClust m) l)[r]? = some p)
    (hdisk : m.dataStartLba + (N - 2) * m.sectorsPerClust ≤ 2 ^ 28) : r < 2 ^ 32 := by
  have hlt := (List.getElem?_eq_some_iff.mp hp).1
  have hsub : l ⊆ List.range' 2 (N - 2) := fun x hx => by
    have hok : Valid N x := hl.ok_of_mem x hx
    unfold Valid at hok
    rw [List.mem_range'_1]
    omega
  have hlen := ((hl.nodup (eof_stops hf.small)).subperm hsub).length_le
  rw [List.length_range'] at hlen
  have hepc : entriesPerClust m = 16 * m.sectorsPerClust := by
    rw [entriesPerClust, hf.bpc]
    omega
  rw [places_length, hepc, Nat.mul_left_comm] at hlt
  have hmul := Nat.mul_le_mul_right m.sectorsPerClust hlen
  omega

def Updates (N d r : Nat) (p : Nat × Nat) (w : World) (cluster size : Nat) : Prop :=
  ∃ w', updateDirEntry d r cluster size w = (some fat32Ok, w') ∧
    Edited (volume N w) (volume N w') p clusterOrSize ∧
    slotCluster (slotAt (volume N w') p) = cluster ∧ slotSize (slotAt (volume N w') p) = size

def Deletes (N d r : Nat) (p : Nat × Nat) (w : World) : Prop :=
  ∃ w', markDeleted d r w = (some fat32Ok, w') ∧
    Edited (volume N w) (volume N w') p (· = 0) ∧ slotAt (volume N w') p 0 = 0xE5

section Number

variable {N d r fuel cluster size : Nat} {w : World} {l : List Nat} {p : Nat × Nat}

theorem updateDirEntry_updates (hm : MountedAt N w) (hcalm : Calm w)
    (hd : Valid N (dirHead w.mount d))
    (hl : Link N (volume N w) fat32Eof (dirHead w.mount d) l)
    (hp : (places (entriesPerClust w.mount) l)[r]? = some p) (hc : cluster < 2 ^ 32)
    (hs : size < 2 ^ 32) : Updates N d r p w cluster size := by
  obtain ⟨w', hrun, hvol⟩ := editSlot_ends (s := .updateDirEntry) hm hcalm hd hl hp
    fun i => slotEdit_update i cluster size
  refine ⟨w', hrun, ?_, ?_, ?_⟩
  · rw [hvol]
    exact edited_update
  · rw [hvol, slotAt_setData_self]
    exact slotCluster_update hc
  · rw [hvol, slotAt_setData_self]
    exact slotSize_update.trans (Nat.mod_eq_of_lt hs)

theorem markDeleted_deletes (hm : MountedAt N w) (hcalm : Calm w)
    (hd : Valid N (dirHead w.mount d))
    (hl : Link N (volume N w) fat32Eof (dirHead w.mount d) l)
    (hp : (places (entriesPerClust w.mount) l)[r]? = some p) : Deletes N d r p w := by
  obtain ⟨w', hrun, hvol⟩ := editSlot_ends (s := .markDeleted) hm hcalm hd hl hp slotEdit_delete
  refine ⟨w', hrun, ?_, ?_⟩
  · rw [hvol]
    exact edited_delete
  · rw [hvol]
    exact (congrFun (slotAt_setData_self _ _ _ _) 0).trans (drop_first _ _ _)

theorem slot_number_kept {name : List UInt8} {attr : UInt8} (hm : MountedAt N w)
    (hcalm : Calm w) (hd : Valid N (dirHead w.mount d))
    (hl : Link N (volume N w) fat32Eof (dirHead w.mount d) l) (hfree : HasFree N w)
    (hfuel : l.length < fuel) :
    ∃ r w' l' p, writeDirEntry fuel d name attr cluster size w = (some (.ok r), w') ∧
      Stored N (entriesPerClust w.mount) (volume N w) (dirHead w.mount d) l
        (newSlot name attr cluster size) r (volume N w') l' p ∧
      (w.mount.dataStartLba + (N - 2) * w.mount.sectorsPerClust ≤ 2 ^ 28 → r < 2 ^ 32) ∧
      ∀ w'', Later N d w' w'' →
        (∀ c s, c < 2 ^ 32 → s < 2 ^ 32 → Updates N d r p w'' c s) ∧ Deletes N d r p w'' := by
  obtain ⟨res, w', hrun, ⟨hmount, hm', hcalm'⟩, r, l', p, rfl, -, hstored⟩ :=
    ((writeDirEntry_stores hm hcalm hd hl hfree :
      Runs (writeDirEntry fuel d name attr cluster size) w _ _).mono (fun _ _ h => h)
      (fun _ h => absurd h (Nat.not_le.mpr hfuel))).ends
  refine ⟨r, w', l', p, hrun, hstored,
    place_number_lt hm.fits hstored.chain hstored.place, fun w'' hlater => ?_⟩
  rw [← hmount] at hd
  obtain ⟨⟨hmount2, hm2, hcalm2⟩, l2, hpre, hl2⟩ :=
    hlater.chain hm' hcalm' hd (hmount.symm ▸ hstored.chain)
  have hp : (places (entriesPerClust w''.mount) l2)[r]? = some p := by
    rw [hmount2, hmount]
    exact place_kept hstored.place hpre
  rw [← hmount2] at hd hl2
  exact ⟨fun c s hc hs => updateDirEntry_updates hm2 hcalm2 hd hl2 hp hc hs,
    markDeleted_deletes hm2 hcalm2 hd hl2 hp⟩

end Number

theorem fresh_hasFree : HasFree 5 freshWorld := by
  have hfree : (volume 5 freshWorld).fat 3 = 0 := by decide +kernel
  exact ⟨3, by decide, by decide, hfree⟩

theorem slot_number_kept_fresh : ∃ r w', writeDirEntry 100 0 [0x41] attrArchive 0 0 freshWorld =
      (some (.ok r), w') ∧ ∃ p, Updates 5 0 r p w' 3 7 ∧ Deletes 5 0 r p w' := by
  obtain ⟨r, w', l', p, hrun, -, -, hlater⟩ := @slot_number_kept 5 0 100 0 0 freshWorld _ [0x41]
    attrArchive (disk_mounted _ _) fresh_calm (by decide) fresh_link fresh_hasFree (by decide)
  obtain ⟨hupdate, hdelete⟩ := hlater w' (.refl w')
  exact ⟨r, w', hrun, p, hupdate 3 7 (by decide) (by decide), hdelete⟩

end Fat32
