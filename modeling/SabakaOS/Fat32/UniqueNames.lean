import SabakaOS.Library.Run
import SabakaOS.Fat32.CreateFind

namespace Fat32

open Word ByteMemory Prog Chain

-- The slots of the directory with head d.
def SlotsAt (N epc : Nat) (V : Vol) (d : Nat) (slots : List Slot) : Prop :=
  ∃ l, Link N V fat32Eof d l ∧ dirSlots V epc l = slots

def listedNames (slots : List Slot) : List (List UInt8) :=
  (entries 0 slots 0 []).map (fun e => e.name.map upper)

-- The name under which a slot filled for name is listed behind the long-name slots lfns.
def listedAs (lfns : List Slot) (name : List UInt8) : List UInt8 :=
  if lfns ≠ [] then lfnCollect lfns else shortName name

-- No entry listed in the directory, but for exempt ones, has the name a new entry will get.
def Unlisted (V : Vol) (epc dirCluster : Nat) (l : List Nat) (name : List UInt8)
    (exempt : Fat32Entry → Prop) : Prop :=
  name.head? = some 0xE5 ∨ ∀ e ∈ listing V epc dirCluster l, exempt e ∨
    e.name.map upper ≠ (listedAs ((lead V epc l).foldl pending []) name).map upper

structure Tidy (slots : List Slot) : Prop where
  ended : Ended slots
  unique : (listedNames slots).Nodup

def TidyDirs (N epc : Nat) (V : Vol) (D : Set Nat) : Prop :=
  ∀ d ∈ D, ∀ slots, SlotsAt N epc V d slots → Tidy slots

section Tidy

variable {N epc d k j : Nat} {V V' : Vol} {D : Set Nat} {slots slots' l : List Slot}
  {lc : List Nat} {s t : Slot} {name : List UInt8} {attr : UInt8} {cluster size : Nat}
  {lfns : List Slot}

theorem SlotsAt.of_link (hN : N ≤ 0x0FFFFFF8) (h : SlotsAt N epc V d slots)
    (hl : Link N V fat32Eof d lc) : slots = dirSlots V epc lc := by
  obtain ⟨l, hl', rfl⟩ := h
  rw [hl'.unique (eof_stops hN) hl]

theorem SlotsAt.kept (h : SlotsAt N epc V' d slots) (hk : Kept N D V V') (hd : d ∈ D) :
    SlotsAt N epc V d slots := by
  obtain ⟨l, hl, rfl⟩ := h
  have hl0 := (hk.link d hd l).mp hl
  exact ⟨l, hl0, (dirSlots_congr (fun x hx => hk.data x ⟨d, hd, l, hl0, hx⟩)).symm⟩

theorem TidyDirs.kept (h : TidyDirs N epc V D) (hk : Kept N D V V') : TidyDirs N epc V' D :=
  fun d hd _ hs => h d hd _ (hs.kept hk hd)

theorem slotName_newSlot (h : isCString name) :
    slotName lfns (slotBytes (newSlot name attr cluster size)) = listedAs lfns name := by
  unfold slotName listedAs
  rw [parse83Name_newSlot h]

-- With the entries that are exempt taken out, a new one may come in under a name of its own.
theorem Inserted.unique (h : Inserted slots s k slots')
    (hend : Ended slots) (hs : Names s ∨ s 0 = 0xE5)
    (huniq : (listedNames slots).Nodup) (keep : Fat32Entry → Bool)
    (hnew : Names s → ∀ e ∈ entries 0 slots 0 [], keep e = true →
      (slotName ((slots.takeWhile (fun s => !decide (SlotFree s))).foldl pending []) s).map upper ≠
        e.name.map upper) :
    (((entries 0 slots' 0 []).filter keep).map (fun e => e.name.map upper)).Nodup := by
  obtain ⟨before, after, hold, hafter⟩ := @Inserted.lists 0 _ _ _ _ h hend hs
  have hrest : (((before ++ after).filter keep).map (fun e => e.name.map upper)).Nodup := by
    rw [← hold]
    exact huniq.sublist (List.filter_sublist.map _)
  rw [List.filter_append, List.map_append] at hrest
  rw [hafter, List.filter_append, List.filter_append, List.map_append, List.map_append]
  split
  · rename_i hn
    cases hkeep : keep (entryOf 0 k
      ((slots.takeWhile (fun s => !decide (SlotFree s))).foldl pending []) s) with
    | false =>
      rw [List.filter_cons_of_neg (by simp [hkeep])]
      exact hrest
    | true =>
      rw [List.filter_cons_of_pos hkeep, List.filter_nil]
      refine List.nodup_middle.mpr (List.nodup_cons.mpr ⟨fun hm => ?_, hrest⟩)
      have hmem : (slotName ((slots.takeWhile (fun s => !decide (SlotFree s))).foldl pending [])
          s).map upper ∈ ((before ++ after).filter keep).map (fun e => e.name.map upper) := by
        rw [List.filter_append, List.map_append]
        exact hm
      obtain ⟨e, he, heq⟩ := List.mem_map.mp hmem
      rw [← hold, List.mem_filter] at he
      exact hnew hn e he.1 he.2 heq.symm
  · exact hrest

theorem Tidy.delete (h : Tidy slots) (hj : slots[j]? = some s) (hs : Names s) (ht : t 0 = 0xE5) :
    Tidy (slots.set j t) := by
  refine ⟨h.ended.delete hj hs.1 (by rw [ht]; decide), ?_⟩
  have hnames : ∀ s', slots[j]? = some s' → Names s' := fun s' hs' => by
    obtain rfl := Option.some.inj (hj.symm.trans hs')
    exact hs
  rw [listedNames, entries_delete hnames ht]
  exact h.unique.sublist (List.filter_sublist.map _)

end Tidy

section Volume

variable {E : Env} {V V' : Vol} {D H : Set Nat} {d d' x y k j base : Nat} {l l1 : List Nat}
  {slots : List Slot} {slot name : List UInt8} {e : Fat32Entry} {dirCluster : Nat}

theorem Placed.error_eq {c : Int} (hp : Placed E V slot base l (.error c) V')
    (hslot : ¬E.slotFails) : V' = V ∨ E.fatFails .writeDirEntry := by
  generalize hr : (Except.error c : Except Int Nat) = r at hp
  cases hp with
  | nospace => exact .inl rfl
  | failed => exact .inl rfl
  | filled _ _ hres =>
    rcases hres with h | ⟨-, hfail⟩
    · cases hr.trans h
    · exact absurd (.inr (.inl hfail)) hslot
  | extended _ _ _ hex =>
    obtain ⟨-, -, -, V2, -, ⟨-, hres⟩ | ⟨-, -, hfail⟩⟩ := hex
    · rcases hres with h | ⟨-, hfail⟩
      · cases hr.trans h
      · exact absurd (.inr (.inl hfail)) hslot
    · exact absurd hfail hslot

theorem Placed.inserted (hp : Placed E V slot 0 l (.ok k) V') (hf : Fits E.mount E.clusters)
    (hs : Sound E.mount E.clusters V D H ∅) (hd : d ∈ D) (hl : Link E.clusters V fat32Eof d l)
    (hno : ¬E.fatFails .writeDirEntry) (hlen : slot.length = 32)
    (h : SlotsAt E.clusters (entriesPerClust E.mount) V' d slots) :
    Inserted (dirSlots V (entriesPerClust E.mount) l) (slotBytes slot) k slots := by
  obtain ⟨hk, l', more, hl', hslots, hmore⟩ := hp.listed hf hs hd hl hno hlen
  rw [h.of_link hf.small hl']
  exact ⟨hk, more, hslots, hmore⟩

theorem Placed.forest (hp : Placed E V slot base l (.ok k) V') (hf : Fits E.mount E.clusters)
    (hs : Sound E.mount E.clusters V D H ∅) (hd : d ∈ D) (hl : Link E.clusters V fat32Eof d l) :
    ∃ H', H ⊆ H' ∧ Forest V'.fat (Valid E.clusters) (· = fat32Eof) H' := by
  obtain ⟨V2, H2, hs2, hH2, -, ⟨-, c, hc⟩ | ⟨y, i, -, -, rfl, -⟩⟩ := hp.ready hf hs hd hl
  · cases hc
  · exact ⟨H2, hH2, hs2.chains⟩

theorem drop_first (V : Vol) (y i : Nat) : slotOf (deleteSlot (V.data y) i) i 0 = 0xE5 := by
  unfold slotOf
  rw [if_pos (by decide)]
  exact Function.update_self ..

theorem drop_kept (hch : Forest V.fat (Valid E.clusters) (· = fat32Eof) H) (hd : d ∈ H)
    (hl : Link E.clusters V fat32Eof d l) (hy : y ∈ l) (i : Nat) :
    Kept E.clusters (H \ {d}) V (V.drop y i) := by
  refine Kept.write ?_ _
  rintro ⟨g, hg, lg, hlg, hm⟩
  exact hch.apart g hg.1 d hd hg.2 _ _ hlg hl y hm hy

theorem drop_slots (hf : Fits E.mount E.clusters) (hl : Link E.clusters V fat32Eof d l)
    (hy : l[j / entriesPerClust E.mount]? = some y)
    (h : SlotsAt E.clusters (entriesPerClust E.mount)
      (V.drop y (j % entriesPerClust E.mount)) d slots) :
    ∃ t : Slot, t 0 = 0xE5 ∧ slots = (dirSlots V (entriesPerClust E.mount) l).set j t := by
  refine ⟨_, drop_first V y (j % entriesPerClust E.mount), ?_⟩
  rw [h.of_link hf.small (show Link E.clusters (V.drop y _) fat32Eof d l from hl), Vol.drop,
    dirSlots_edit hf.epc_pos (slotEdit_delete _) (hl.nodup (eof_stops hf.small)) hy]

theorem newSlot_used {attr : UInt8} {cluster size : Nat} (h : isCString name)
    (ha : hasAttr attr attrVolumeId = false) :
    Names (slotBytes (newSlot name attr cluster size)) ∨
      slotBytes (newSlot name attr cluster size) 0 = 0xE5 := by
  by_cases h5 : name.head? = some 0xE5
  · exact .inr ((newSlot_first h).2.mpr h5)
  · exact .inl ((names_newSlot h ha).mpr h5)

theorem Unlisted.fresh {attr : UInt8} {cluster size : Nat} {keep : Fat32Entry → Bool}
    {exempt : Fat32Entry → Prop} {epc : Nat} (h : Unlisted V epc dirCluster l name exempt)
    (hname : isCString name) (ha : hasAttr attr attrVolumeId = false)
    (hkeep : ∀ e : Fat32Entry, keep e = true → ¬exempt { e with dirCluster := dirCluster }) :
    Names (slotBytes (newSlot name attr cluster size)) →
      ∀ e ∈ entries 0 (dirSlots V epc l) 0 [], keep e = true →
        (slotName ((lead V epc l).foldl pending [])
          (slotBytes (newSlot name attr cluster size))).map upper ≠ e.name.map upper := by
  intro hn e he hk heq
  have hall := h.resolve_left ((names_newSlot hname ha).mp hn)
  have hmem : { e with dirCluster := dirCluster } ∈ listing V epc dirCluster l := by
    rw [listing, entries_dir dirCluster 0]
    exact List.mem_map_of_mem he
  rw [slotName_newSlot hname] at heq
  exact (hall _ hmem).elim (hkeep e hk) (fun hne => hne heq.symm)

theorem Placed.tidy {attr : UInt8} {cluster size : Nat}
    (hp : Placed E V (newSlot name attr cluster size) 0 l (.ok k) V')
    (hf : Fits E.mount E.clusters) (hs : Sound E.mount E.clusters V D H ∅)
    (hd : dirHead E.mount dirCluster ∈ D)
    (hl : Link E.clusters V fat32Eof (dirHead E.mount dirCluster) l)
    (hno : ¬E.fatFails .writeDirEntry) (hname : isCString name)
    (ha : hasAttr attr attrVolumeId = false)
    (hfresh : Unlisted V (entriesPerClust E.mount) dirCluster l name (fun _ => False))
    (htidy : TidyDirs E.clusters (entriesPerClust E.mount) V D) :
    TidyDirs E.clusters (entriesPerClust E.mount) V' D := by
  intro g hg slots hslots
  by_cases hgd : g = dirHead E.mount dirCluster
  · subst hgd
    have hins := hp.inserted hf hs hd hl hno (newSlot_length ..) hslots
    have hold := htidy _ hd _ ⟨l, hl, rfl⟩
    refine ⟨hins.ended hold.ended (newSlot_first hname).1, ?_⟩
    have huniq := hins.unique hold.ended (newSlot_used hname ha) hold.unique (fun _ => true)
      (hfresh.fresh hname ha (fun _ _ h => h))
    rwa [List.filter_true] at huniq
  · exact htidy g hg _ (hslots.kept (hp.kept hf hs hd hl) ⟨hs.dirs hg, hgd⟩)

theorem newDir_slot {m : Mount} {N n parent i : Nat} {f : Nat → UInt8} (hf : Fits m N)
    (hbuf : ∀ j < m.bytesPerClust, f j = newDirBuffer n parent j)
    (hi : i < entriesPerClust m) :
    slotAt (V.setData n f) (n, i) = slotOf (newDirBuffer n parent) i := by
  have hbpc := hf.bpc
  have hepc := hf.epc_eq
  rw [slotAt]
  simp only [Vol.setData, Function.update_self]
  exact slotOf_congr (n := entriesPerClust m) (fun j hj => hbuf j (by omega)) hi

theorem newDir_tidy {f : Nat → UInt8} {n parent : Nat} (hf : Fits E.mount E.clusters)
    (hbuf : ∀ j < E.mount.bytesPerClust, f j = newDirBuffer n parent j) :
    Tidy (dirSlots (V.setData n f) (entriesPerClust E.mount) [n]) := by
  have hepc := hf.epc_eq
  have hspc := hf.spc
  obtain ⟨m, hm⟩ := Nat.exists_eq_add_of_le (show 2 ≤ entriesPerClust E.mount by omega)
  have hslot : ∀ i < entriesPerClust E.mount,
      slotAt (V.setData n f) (n, i) = slotOf (newDirBuffer n parent) i :=
    fun i hi => newDir_slot hf hbuf hi
  have hsplit : dirSlots (V.setData n f) (entriesPerClust E.mount) [n] =
      slotOf (newDirBuffer n parent) 0 :: slotOf (newDirBuffer n parent) 1 ::
        (List.range' 2 m).map (slotOf (newDirBuffer n parent)) := by
    rw [dirSlots, List.flatMap_singleton, List.map_congr_left (fun i hi => hslot i (by
      simpa using (List.mem_range'_1.mp hi).2)), hm, Nat.add_comm 2 m]
    rfl
  have hrest : ∀ z ∈ (List.range' 2 m).map (slotOf (newDirBuffer n parent)), z 0 = 0x00 := by
    intro z hz
    obtain ⟨i, hi, rfl⟩ := List.mem_map.mp hz
    have h2 := (List.mem_range'_1.mp hi).1
    rw [slotOf, if_pos (by decide)]
    exact newDirBuffer_rest n parent (by omega)
  have h0 : slotOf (newDirBuffer n parent) 0 0 = 0x2E := rfl
  have h1 : slotOf (newDirBuffer n parent) 1 0 = 0x2E := rfl
  have ha0 : slotAttr (slotOf (newDirBuffer n parent) 0) = attrDirectory := rfl
  have ha1 : slotAttr (slotOf (newDirBuffer n parent) 1) = attrDirectory := rfl
  have hn0 : Names (slotOf (newDirBuffer n parent) 0) :=
    ⟨by rw [h0]; decide, by rw [h0]; decide, by rw [ha0]; decide⟩
  have hn1 : Names (slotOf (newDirBuffer n parent) 1) :=
    ⟨by rw [h1]; decide, by rw [h1]; decide, by rw [ha1]; decide⟩
  rw [hsplit]
  refine ⟨?_, ?_⟩
  · refine List.pairwise_cons.mpr ⟨fun _ _ h => absurd h hn0.1, List.pairwise_cons.mpr
      ⟨fun _ _ h => absurd h hn1.1, ?_⟩⟩
    exact List.Pairwise.imp_of_mem (fun _ hb _ _ => hrest _ hb) (List.pairwise_of_forall
      (R := fun _ _ => True) (fun _ _ => trivial))
  · have hlist : listedNames (slotOf (newDirBuffer n parent) 0 ::
        slotOf (newDirBuffer n parent) 1 ::
          (List.range' 2 m).map (slotOf (newDirBuffer n parent))) = [dotName, dotdotName] := by
      rw [listedNames, entries_names hn0, entries_names hn1,
        entries_ended hrest]
      rfl
    rw [hlist]
    decide

end Volume

theorem Env.Quiet.slot {E : Env} (h : E.Quiet) : ¬E.slotFails :=
  fun hf => hf.elim (h.ata _ _) (fun hf => hf.elim (h.ata _ _) (h.heap _))

theorem Env.Quiet.delete {E : Env} (h : E.Quiet) (i : Nat) : ¬E.deleteFails i :=
  fun hf => hf.elim (fun hf => h.fat _ hf.2)
    (fun hf => hf.elim (h.heap _) (fun hf => hf.elim (h.ata _ _) (h.ata _ _)))

section Operations

variable {E : Env} {V V' : Vol} {D H : Set Nat} {x dirCluster : Nat} {l l' : List Nat}
  {name : List UInt8} {e : Fat32Entry} {r : Except Int Fat32Entry}

theorem Env.Created.tidy (h : E.Created V dirCluster name l r V') (hq : E.Quiet)
    (hf : Fits E.mount E.clusters) (hs : Sound E.mount E.clusters V D H ∅)
    (hd : dirHead E.mount dirCluster ∈ D)
    (hl : Link E.clusters V fat32Eof (dirHead E.mount dirCluster) l) (hname : isCString name)
    (hfresh : E.Absent V dirCluster name l →
      Unlisted V (entriesPerClust E.mount) dirCluster l name (fun _ => False))
    (htidy : TidyDirs E.clusters (entriesPerClust E.mount) V D) :
    TidyDirs E.clusters (entriesPerClust E.mount) V' D := by
  cases h with
  | refused => exact htidy
  | @stored rp _ habsent hp =>
    cases rp with
    | error c => rwa [(hp.error_eq hq.slot).resolve_right (hq.fat _)]
    | ok k => exact hp.tidy hf hs hd hl (hq.fat _) hname (by decide) (hfresh habsent) htidy

theorem Sound.kept_free {m : Mount} {N n : Nat} (hs : Sound m N V D H ∅) (hN : N ≤ 0x0FFFFFF8)
    (hfree : V.fat n = 0) (hfat : ∀ y, y ≠ n → V'.fat y = V.fat y)
    (hdata : ∀ y, y ≠ n → V'.data y = V.data y) : Kept N D V V' := by
  have hne : ∀ {c l}, Link N V fat32Eof c l → ∀ y ∈ l, y ≠ n := fun hl y hy =>
    ne_of_mem_of_not_mem hy (free_not_mem hl hfree)
  refine ⟨fun d hd l => ?_, fun y hy => ?_⟩
  · obtain ⟨l0, hl0⟩ := hs.chain (hs.dirs hd)
    exact hl0.congr_iff (eof_stops hN) (fun y hy => hfat y (hne hl0 y hy))
  · obtain ⟨d, -, l, hl, hm⟩ := hy
    exact hdata y (hne hl y hm)

theorem Env.Made.tidy (h : E.Made V dirCluster name l r V') (hq : E.Quiet)
    (hf : Fits E.mount E.clusters) (hs : Sound E.mount E.clusters V D H ∅)
    (hd : dirHead E.mount dirCluster ∈ D)
    (hl : Link E.clusters V fat32Eof (dirHead E.mount dirCluster) l) (hname : isCString name)
    (hfresh : E.Absent V dirCluster name l →
      Unlisted V (entriesPerClust E.mount) dirCluster l name (fun _ => False))
    (htidy : TidyDirs E.clusters (entriesPerClust E.mount) V D) :
    TidyDirs E.clusters (entriesPerClust E.mount) V'
      {g | g ∈ D ∨ ∃ e, r = .ok e ∧ e.cluster = g} := by
  have hold : ∀ {W c}, Kept E.clusters D V W → TidyDirs E.clusters (entriesPerClust E.mount) W
      {g | g ∈ D ∨ ∃ e : Fat32Entry, (.error c : Except Int Fat32Entry) = .ok e ∧
        e.cluster = g} := by
    rintro W c hk g (hg | ⟨e, he, -⟩)
    · exact htidy.kept hk g hg
    · cases he
  cases h with
  | refused => exact hold Kept.refl
  | unbuilt _ _ hheap => exact absurd hheap (hq.heap _)
  | @stored n k f V' habsent hok hfree hbuf hp =>
    obtain ⟨hB, -, hlink, -, hothers⟩ := newDir_sound hs hf hok hfree _ hbuf
    have hkept : Kept E.clusters D V ((V.setFat n fat32Eof).setData n f) :=
      hs.kept_free hf.small hfree (fun y hy => Function.update_of_ne hy _ _)
        (fun y hy => Function.update_of_ne hy _ _)
    have hslots : dirSlots ((V.setFat n fat32Eof).setData n f) (entriesPerClust E.mount) l =
        dirSlots V (entriesPerClust E.mount) l :=
      dirSlots_congr (fun y hy => hkept.data y ⟨_, hd, l, hl, hy⟩)
    have htidyB : TidyDirs E.clusters (entriesPerClust E.mount)
        ((V.setFat n fat32Eof).setData n f) (insert n D) := by
      rintro g (rfl | hg) slots hss
      · rw [hss.of_link hf.small hlink]
        exact newDir_tidy hf hbuf
      · exact htidy.kept hkept g hg slots hss
    have hfreshB : Unlisted ((V.setFat n fat32Eof).setData n f) (entriesPerClust E.mount)
        dirCluster l name (fun _ => False) := by
      rw [Unlisted, listing, lead, hslots]
      exact hfresh habsent
    have htidy' := hp.tidy hf hB (Set.mem_insert_of_mem _ hd)
      ((hothers _ (hs.dirs hd) l).mpr hl) (hq.fat _) hname (by decide) hfreshB htidyB
    rintro g (hg | ⟨e, he, rfl⟩)
    · exact htidy' g (Set.mem_insert_of_mem _ hg)
    · cases he
      exact htidy' n (Set.mem_insert ..)
  | @undone n f c V2 V' _ hok hfree hbuf hp hdata hout =>
    obtain rfl := (hp.error_eq hq.slot).resolve_right (hq.fat _)
    exact hold (hs.kept_free hf.small hfree
      (fun y hy => (hout y hy).trans (Function.update_of_ne hy _ _))
      (fun y hy => hdata ▸ Function.update_of_ne hy _ _))

theorem EntryAt.slot (he : EntryAt E.mount E.clusters V e l x) (hf : Fits E.mount E.clusters) :
    (dirSlots V (entriesPerClust E.mount) l)[e.dirIndex]? =
      some (slotAt V (x, e.dirIndex % entriesPerClust E.mount)) := by
  rw [dirSlots_getElem? hf.epc_pos, he.cluster]
  rfl

theorem Env.Removed.tidy (h : E.Removed V e x V') (hq : E.Quiet)
    (hf : Fits E.mount E.clusters) (hs : Sound E.mount E.clusters V D H ∅)
    (hd : dirHead E.mount e.dirCluster ∈ D) (he : EntryAt E.mount E.clusters V e l x)
    (hself : e.cluster ≠ dirHead E.mount e.dirCluster)
    (htidy : TidyDirs E.clusters (entriesPerClust E.mount) V D) :
    TidyDirs E.clusters (entriesPerClust E.mount) V' (D \ {e.cluster}) := by
  cases h with
  | @dropped lc V1 hlc hfree =>
    have hsX := hfree.sound hlc hf hs hd he
    have hH := (hs.holds _ (hs.live_entry hf hd he) (by simp)).cases hs.dirs
    rw [he.start] at hH
    have hkept : Kept E.clusters (D \ {e.cluster}) V V1 :=
      ⟨fun g hg lg => hs.link_freed hf.small hH hlc hfree (hs.dirs hg.1) hg.2,
        fun y _ => by rw [hfree.data]⟩
    have hdD : dirHead E.mount e.dirCluster ∈ D \ {e.cluster} := ⟨hd, Ne.symm hself⟩
    have hl1 := (hkept.link _ hdD l).mpr he.chain
    have hslots : dirSlots V1 (entriesPerClust E.mount) l =
        dirSlots V (entriesPerClust E.mount) l :=
      dirSlots_congr (fun y _ => by rw [hfree.data])
    intro g hg slots hss
    by_cases hgd : g = dirHead E.mount e.dirCluster
    · subst hgd
      obtain ⟨t, ht, rfl⟩ := drop_slots hf hl1 he.cluster hss
      rw [hslots]
      exact (htidy _ hd _ ⟨l, he.chain, rfl⟩).delete (he.slot hf) he.names ht
    · have hdrop := drop_kept hsX.chains (hsX.dirs hdD) hl1 he.mem
        (e.dirIndex % entriesPerClust E.mount)
      exact htidy g hg.1 slots ((hss.kept hdrop ⟨hsX.dirs hg, hgd⟩).kept hkept hg)
  | left _ _ hfail => exact absurd hfail (hq.delete _)

theorem Env.Renamed.tidy (h : E.Renamed V e name l' V') (hq : E.Quiet)
    (hf : Fits E.mount E.clusters) (hs : Sound E.mount E.clusters V D H ∅)
    (hd : dirHead E.mount e.dirCluster ∈ D) (he : EntryAt E.mount E.clusters V e l x)
    (hd' : dirHead E.mount dirCluster ∈ D)
    (hl' : Link E.clusters V fat32Eof (dirHead E.mount dirCluster) l') (hname : isCString name)
    (hfresh : Unlisted V (entriesPerClust E.mount) dirCluster l' name
      (fun e' => dirHead E.mount e.dirCluster = dirHead E.mount dirCluster ∧
        e'.dirIndex = e.dirIndex))
    (htidy : TidyDirs E.clusters (entriesPerClust E.mount) V D) :
    TidyDirs E.clusters (entriesPerClust E.mount) V' D := by
  have hN := hf.small
  have ha : hasAttr e.attr attrVolumeId = false := he.attr ▸ he.names.2.2
  have hslot := he.slot hf
  have hstored : ∀ {k V1 l1}, Placed E V (newSlot name e.attr e.cluster e.size) 0 l' (.ok k) V1 →
      Link E.clusters V1 fat32Eof (dirHead E.mount e.dirCluster) l1 →
      (dirSlots V1 (entriesPerClust E.mount) l1)[e.dirIndex]? =
        some (slotAt V (x, e.dirIndex % entriesPerClust E.mount)) := by
    intro k V1 l1 hp hl1
    by_cases hsame : dirHead E.mount e.dirCluster = dirHead E.mount dirCluster
    · rw [hsame] at hl1
      have hins := hp.inserted hf hs hd' hl' (hq.fat _) (newSlot_length ..) ⟨l1, hl1, rfl⟩
      obtain rfl := hl'.unique (eof_stops hN) (hsame ▸ he.chain)
      rw [hins.getElem? (List.getElem?_eq_some_iff.mp hslot).1, hslot]
      rintro rfl
      rcases hins.free hslot with h0 | h5
      · exact he.names.1 h0
      · exact he.names.2.1 h5
    · have hss1 : SlotsAt E.clusters (entriesPerClust E.mount) V1 (dirHead E.mount e.dirCluster)
          (dirSlots V1 (entriesPerClust E.mount) l1) := ⟨l1, hl1, rfl⟩
      have hold := hss1.kept (hp.kept hf hs hd' hl') ⟨hs.dirs hd, hsame⟩
      rw [hold.of_link hN he.chain]
      exact hslot
  cases h with
  | refused hp => rwa [(hp.error_eq hq.slot).resolve_right (hq.fat _)]
  | kept hp hl1 hnone =>
    have hget := hstored hp hl1
    rw [dirSlots_getElem? hf.epc_pos, hnone.resolve_right (hq.delete _)] at hget
    cases hget
  | @moved k y l1 V1 hp hl1 hy =>
    have hget := hstored hp hl1
    obtain ⟨H1, hH1, hforest⟩ := hp.forest hf hs hd' hl'
    have hdrop := drop_kept hforest (hH1 (hs.dirs hd)) hl1 (List.mem_of_getElem? hy)
      (e.dirIndex % entriesPerClust E.mount)
    have hkept := hp.kept hf hs hd' hl'
    intro g hg slots hss
    by_cases hgd : g = dirHead E.mount e.dirCluster
    · subst hgd
      obtain ⟨t, ht, rfl⟩ := drop_slots hf hl1 hy hss
      by_cases hsame : dirHead E.mount e.dirCluster = dirHead E.mount dirCluster
      · have hins := hp.inserted hf hs hd' hl' (hq.fat _) (newSlot_length ..)
          ⟨l1, hsame ▸ hl1, rfl⟩
        have hold := htidy _ hd' _ ⟨l', hl', rfl⟩
        refine ⟨(hins.ended hold.ended (newSlot_first hname).1).delete hget he.names.1
          (by rw [ht]; decide), ?_⟩
        have hnames : ∀ s', (dirSlots V1 (entriesPerClust E.mount) l1)[e.dirIndex]? = some s' →
            Names s' := fun s' hs' => Option.some.inj (hget.symm.trans hs') ▸ he.names
        rw [listedNames, entries_delete hnames ht, Nat.zero_add]
        refine hins.unique hold.ended (newSlot_used hname ha) hold.unique _
          (hfresh.fresh hname ha (fun e' hk hex => ?_))
        exact (of_decide_eq_true hk) hex.2
      · have hss1 : SlotsAt E.clusters (entriesPerClust E.mount) V1 (dirHead E.mount e.dirCluster)
            (dirSlots V1 (entriesPerClust E.mount) l1) := ⟨l1, hl1, rfl⟩
        have hold := htidy _ hg _ (hss1.kept hkept ⟨hs.dirs hg, hsame⟩)
        exact hold.delete hget he.names ht
    · have hss1 := hss.kept hdrop ⟨hH1 (hs.dirs hg), hgd⟩
      by_cases hgd' : g = dirHead E.mount dirCluster
      · subst hgd'
        refine hp.tidy hf hs hd' hl' (hq.fat _) hname ha ?_ htidy _ hg _ hss1
        exact hfresh.imp_right (fun h e' he' => (h e' he').imp_left
          (fun hex => hgd hex.1.symm))
      · exact htidy g hg _ (hss1.kept hkept ⟨hs.dirs hg, hgd'⟩)

end Operations

-- The operations that store and drop names.
def Op.Naming : Op → Prop
  | .write .. => False
  | _ => True

-- A name the operation stores is none that another entry of its directory is listed under.
def Op.Fresh (E : Env) (V : Vol) : Op → Prop
  | .create d name => isCString name ∧ ∀ l, Link E.clusters V fat32Eof (dirHead E.mount d) l →
      E.Taken V d name l ∨ Unlisted V (entriesPerClust E.mount) d l name (fun _ => False)
  | .mkdir d name => isCString name ∧ ∀ l, Link E.clusters V fat32Eof (dirHead E.mount d) l →
      E.Taken V d name l ∨ Unlisted V (entriesPerClust E.mount) d l name (fun _ => False)
  | .write .. => True
  | .unlink _ => True
  | .rmdir _ => True
  | .rename e d name => isCString name ∧
      ∀ l, Link E.clusters V fat32Eof (dirHead E.mount d) l →
        Unlisted V (entriesPerClust E.mount) d l name (fun e' =>
          dirHead E.mount e.dirCluster = dirHead E.mount d ∧ e'.dirIndex = e.dirIndex)

-- Nothing stands in a directory behind the slot that ends it.
def EndMarked (N : Nat) (w : World) : Prop :=
  ∀ dirCluster l, IsDir w.mount N (volume N w) (dirHead w.mount dirCluster) →
    Link N (volume N w) fat32Eof (dirHead w.mount dirCluster) l →
    Ended (dirSlots (volume N w) (entriesPerClust w.mount) l)

-- No directory lists two entries whose names agree but for their case.
def UniqueNames (N : Nat) (w : World) : Prop :=
  ∀ dirCluster l, IsDir w.mount N (volume N w) (dirHead w.mount dirCluster) →
    Link N (volume N w) fat32Eof (dirHead w.mount dirCluster) l →
    ((listing (volume N w) (entriesPerClust w.mount) dirCluster l).map
      (fun e => e.name.map upper)).Nodup

def namer (N : Nat) : System World Op where
  init w := MountedAt N w ∧ Calm w ∧ Consistent w.mount N (volume N w) ∧ EndMarked N w ∧
    UniqueNames N w
  step w op w' := op.Naming ∧ op.Valid w.mount N (volume N w) ∧
    op.Roomy (worldEnv N w anyRule) (volume N w) ∧ ∃ fuel r, op.run fuel w = (some r, w')

section Runs

variable {N fuel : Nat} {w w' : World} {D H : Set Nat} {op : Op}

theorem listing_names (V : Vol) (epc dirCluster : Nat) (l : List Nat) :
    (listing V epc dirCluster l).map (fun e => e.name.map upper) =
      listedNames (dirSlots V epc l) := by
  rw [listing, entries_dir dirCluster 0, List.map_map, listedNames]
  rfl

theorem tidyDirs_iff (hm : MountedAt N w) (hs : Sound w.mount N (volume N w) D H ∅) :
    TidyDirs N (entriesPerClust w.mount) (volume N w) {d | IsDir w.mount N (volume N w) d} ↔
      EndMarked N w ∧ UniqueNames N w := by
  constructor
  · intro h
    refine ⟨fun d l hd hl => (h _ hd _ ⟨l, hl, rfl⟩).ended, fun d l hd hl => ?_⟩
    rw [listing_names]
    exact (h _ hd _ ⟨l, hl, rfl⟩).unique
  · rintro ⟨hend, huniq⟩ d hd slots ⟨l, hl, rfl⟩
    have hhead : dirHead w.mount d = d := by
      rw [dirHead, if_pos]
      rintro rfl
      exact absurd (hs.valid (hs.dirs (hs.isDir hm.fits.small hd))).1 (by decide)
    have hd' : IsDir w.mount N (volume N w) (dirHead w.mount d) := hhead.symm ▸ hd
    rw [← hhead] at hl
    refine ⟨hend d l hd' hl, ?_⟩
    rw [← listing_names _ _ d]
    exact huniq d l hd' hl

theorem Calm.quiet (h : Calm w) : (worldEnv N w anyRule).Quiet :=
  ⟨fun _ _ => h.no_ataFails, fun _ => h.no_heapFails⟩

theorem Good.calm (h : Good (worldEnv N w anyRule) w') (hcalm : Calm w) : Calm w' :=
  ⟨fun s x n => (congrFun (congrFun (congrFun h.ata s) x) n).trans (hcalm.ata s x n),
    fun s n => (congrFun (congrFun h.heap s) n).trans (hcalm.heap s n)⟩

theorem Op.run_tidy (hm : MountedAt N w) (hcalm : Calm w)
    (hs : Sound w.mount N (volume N w) D H ∅)
    (htidy : TidyDirs N (entriesPerClust w.mount) (volume N w) D) (hnaming : op.Naming)
    (hv : op.Valid w.mount N (volume N w)) (hroom : op.Roomy (worldEnv N w anyRule) (volume N w))
    (hfresh : op.Fresh (worldEnv N w anyRule) (volume N w)) :
    Runs (op.run fuel) w (fun _ w' => Step (worldEnv N w anyRule) w w' ∧ ∃ D' H',
      Sound w.mount N ((worldEnv N w anyRule).vol w') D' H' ∅ ∧
        TidyDirs N (entriesPerClust w.mount) ((worldEnv N w anyRule).vol w') D')
      (fun _ => True) := by
  have hN := hm.fits.small
  have hq := hcalm.quiet (N := N)
  have hg := hm.good (legal_any w.trace)
  have habsent : ∀ {d name l}, (worldEnv N w anyRule).Taken (volume N w) d name l ∨
      Unlisted (volume N w) (entriesPerClust w.mount) d l name (fun _ => False) →
      (worldEnv N w anyRule).Absent (volume N w) d name l →
      Unlisted (volume N w) (entriesPerClust w.mount) d l name (fun _ => False) :=
    fun h ha => h.resolve_left ha.not_taken
  cases op with
  | create d name =>
    have hd := hs.isDir hN hv
    obtain ⟨l, hl⟩ := hs.chain (hs.dirs hd)
    refine code_runs ((fat32Create_runs hm.lawful hg loose_any (hs.valid (hs.dirs hd)) hl
      ((hroom l hl).imp_right (Or.imp_right
        (fun h => ⟨h, hcalm.no_fatFails, hcalm.no_ataFails⟩)))).mono ?_ (fun _ _ => trivial))
    rintro r w' ⟨hstep, hmade⟩
    obtain ⟨H', hs'⟩ := hmade.sound hm.fits hs hd hl
    exact ⟨hstep, D, H', hs',
      hmade.tidy hq hm.fits hs hd hl hfresh.1 (habsent (hfresh.2 l hl)) htidy⟩
  | mkdir d name =>
    have hd := hs.isDir hN hv
    obtain ⟨l, hl⟩ := hs.chain (hs.dirs hd)
    refine code_runs ((fat32Mkdir_runs hm.lawful hg loose_any hs hd hl
      ((hroom l hl).imp_right (fun h => ⟨h, hcalm.no_fatFails, hcalm.no_ataFails,
        hcalm.no_ataFails, .inr hcalm.no_ataFails⟩))).mono ?_ (fun _ _ => trivial))
    rintro r w' ⟨hstep, hmade⟩
    obtain ⟨D', H', hs', hD'⟩ := hmade.sound hm.fits hs hd hl (fun _ => hcalm.no_ataFails)
    have htidy' := hmade.tidy hq hm.fits hs hd hl hfresh.1 (habsent (hfresh.2 l hl)) htidy
    exact ⟨hstep, D', H', hs', fun g hg => htidy' g (hD' g hg)⟩
  | write e data offset => exact hnaming.elim
  | unlink e =>
    obtain ⟨hd, l, x, he⟩ := hv
    refine (fat32Unlink_runs hm.lawful hg loose_any hs hd he).mono ?_ (fun _ _ => trivial)
    rintro r w' ⟨hstep, hsame | hrem⟩
    · exact ⟨hstep, D, H, hsame.symm ▸ hs, hsame.symm ▸ htidy⟩
    · exact ⟨hstep, _, _, hrem.sound hm.fits hs (hs.isDir hN hd) he (.inr (hq.delete _)),
        hrem.tidy hq hm.fits hs (hs.isDir hN hd) he (hs.not_own hm.fits hd he) htidy⟩
  | rmdir e =>
    obtain ⟨hd, l, x, he⟩ := hv
    refine (fat32Rmdir_runs hm.lawful hg loose_any hs hd he).mono ?_ (fun _ _ => trivial)
    rintro r w' ⟨hstep, hsame | hrem⟩
    · exact ⟨hstep, D, H, hsame.symm ▸ hs, hsame.symm ▸ htidy⟩
    · exact ⟨hstep, _, _, hrem.sound hm.fits hs (hs.isDir hN hd) he (.inr (hq.delete _)),
        hrem.tidy hq hm.fits hs (hs.isDir hN hd) he (hs.not_own hm.fits hd he) htidy⟩
  | rename e d name =>
    obtain ⟨⟨hd, l, x, he⟩, hd'⟩ := hv
    have hd := hs.isDir hN hd
    have hd' := hs.isDir hN hd'
    obtain ⟨l', hl'⟩ := hs.chain (hs.dirs hd')
    refine code_runs ((fat32Rename_runs hm.lawful hg loose_any hs hd hd' hl'
      ((hroom l' hl').imp_right (fun h => ⟨h, hcalm.no_fatFails, hcalm.no_ataFails⟩))
      name).mono ?_ (fun _ _ => trivial))
    rintro r w' ⟨hstep, hren⟩
    obtain ⟨H', hs'⟩ := hren.sound hm.fits hs hd he hd' hl'
      (.inr ⟨hq.delete _, hcalm.no_ataFails⟩)
    exact ⟨hstep, D, H', hs',
      hren.tidy hq hm.fits hs hd he hd' hl' hfresh.1 (hfresh.2 l' hl') htidy⟩

structure Neat (N : Nat) (w : World) : Prop where
  mounted : MountedAt N w
  calm : Calm w
  tidy : ∃ D H, Sound w.mount N (volume N w) D H ∅ ∧
    TidyDirs N (entriesPerClust w.mount) (volume N w) D

theorem neat_start (h : (namer N).init w) : Neat N w := by
  obtain ⟨hm, hcalm, ⟨D, H, hs⟩, hend, huniq⟩ := h
  exact ⟨hm, hcalm, _, H, hs.reached hm.fits.small, (tidyDirs_iff hm hs).mpr ⟨hend, huniq⟩⟩

theorem Neat.step (h : Neat N w) (hfresh : op.Fresh (worldEnv N w anyRule) (volume N w))
    (hstep : (namer N).step w op w') : Neat N w' := by
  obtain ⟨hm, hcalm, D, H, hs, htidy⟩ := h
  obtain ⟨hnaming, hv, hroom, fuel, r, hrun⟩ := hstep
  obtain ⟨hs', D', H', hsound, htidy'⟩ :=
    (op.run_tidy hm hcalm hs htidy hnaming hv hroom hfresh).result hrun
  have hm' := hs'.good.mountedAt hm
  have hmount : w'.mount = w.mount := hs'.good.mount
  refine ⟨hm', hs'.good.calm hcalm, D', H', ?_, ?_⟩
  · rw [hmount, ← hs'.good.volume_eq]
    exact hsound
  · rw [hmount, ← hs'.good.volume_eq]
    exact htidy'

def freshNames (N : Nat) : System World Op :=
  (namer N).restrict (fun w op => op.Fresh (worldEnv N w anyRule) (volume N w))

def neatInvariant (N : Nat) : (freshNames N).Invariant where
  holds := Neat N
  start := neat_start
  step h ht := h.step ht.1 ht.2

theorem Neat.unique (h : Neat N w) : UniqueNames N w := by
  obtain ⟨hm, -, D, H, hs, htidy⟩ := h
  exact ((tidyDirs_iff hm hs).mp (fun d hd => htidy d (hs.isDir hm.fits.small hd))).2

end Runs

section Fresh

variable {name : List UInt8} {d : Nat}

theorem fresh_slots : ∀ s ∈ dirSlots (volume 5 freshWorld) 16 [2], s 0 = 0 := by
  intro s hs
  rw [dirSlots, List.flatMap_singleton] at hs
  obtain ⟨i, -, rfl⟩ := List.mem_map.mp hs
  exact fresh_zero i

theorem fresh_listing : entries 0 (dirSlots (volume 5 freshWorld) 16 [2]) 0 [] = [] :=
  entries_ended fresh_slots

theorem fresh_dir (h : IsDir freshMount 5 (volume 5 freshWorld) d) : d = 2 := by
  induction h with
  | root => rfl
  | sub _ hl hx _ hn _ _ ih =>
    subst ih
    obtain rfl := hl.unique (eof_stops (by decide)) fresh_link
    obtain rfl := List.mem_singleton.mp hx
    exact absurd hn (fresh_root _)

theorem fresh_tidy : TidyDirs 5 16 (volume 5 freshWorld)
    {d | IsDir freshMount 5 (volume 5 freshWorld) d} := by
  intro d hd slots hslots
  obtain rfl := fresh_dir hd
  obtain rfl := hslots.of_link (by decide) fresh_link
  refine ⟨?_, ?_⟩
  · exact List.Pairwise.imp_of_mem (fun _ hb _ _ => fresh_slots _ hb) (List.pairwise_of_forall
      (R := fun _ _ => True) (fun _ _ => trivial))
  · rw [listedNames, fresh_listing]
    exact List.nodup_nil

theorem fresh_start : (namer 5).init freshWorld := by
  obtain ⟨D, H, hs⟩ := fresh_consistent
  have hm : MountedAt 5 freshWorld := disk_mounted ..
  exact ⟨hm, fresh_calm, ⟨D, H, hs⟩, (tidyDirs_iff hm hs).mp fresh_tidy⟩

theorem created_run {fuel d : Nat} {w : World} {r : Except Int Fat32Entry}
    (h : (fat32Create fuel d name w).1 = some r) :
    (Op.create d name).run fuel w = (some (codeOf r), (fat32Create fuel d name w).2) :=
  bind_ended (Prod.ext h rfl)

theorem fresh_step (hname : isCString name)
    (hrun : (fat32Create 100 0 name freshWorld).1 = some (.ok (freshEntry name))) :
    (freshNames 5).step freshWorld (.create 0 name) (freshCreated name) := by
  refine ⟨⟨hname, fun l hl => .inr (.inr ?_)⟩, trivial, .root, fresh_roomy name, 100, _,
    created_run hrun⟩
  obtain rfl := hl.unique (eof_stops (by decide)) fresh_link
  have hnone : listing (volume 5 freshWorld) 16 0 [2] = [] := fresh_listing
  exact fun e he => by cases hnone ▸ he

end Fresh

-- "A.TXT" in the empty root directory.
def firstCreated : World := freshCreated [0x41, 0x2E, 0x54, 0x58, 0x54]

theorem first_reach : (freshNames 5).Reach firstCreated :=
  .next (.start fresh_start) (fresh_step (by simp [isCString]) (by decide +kernel))

theorem names_unique {N : Nat} {w : World} (h : (freshNames N).Reach w) : UniqueNames N w :=
  ((neatInvariant N).reach h).unique

theorem names_unique_created : UniqueNames 5 firstCreated := names_unique first_reach

def secondCreated : World :=
  (fat32Create 100 0 [0x61, 0x2E, 0x74, 0x78, 0x74, 0x78] firstCreated).2

theorem second_step : (namer 5).step firstCreated
    (.create 0 [0x61, 0x2E, 0x74, 0x78, 0x74, 0x78]) secondCreated := by
  have hrun : (fat32Create 100 0 [0x61, 0x2E, 0x74, 0x78, 0x74, 0x78] firstCreated).1 =
      some (.ok { freshEntry [0x61, 0x2E, 0x74, 0x78, 0x74, 0x78] with dirIndex := 1 }) := by
    decide +kernel
  have hneat := (neatInvariant 5).reach first_reach
  obtain ⟨hmount, hend, hidx⟩ : firstCreated.mount = freshMount ∧
      (volume 5 firstCreated).fat 2 = fat32Eof ∧
      freeIndex (volume 5 firstCreated) (entriesPerClust firstCreated.mount) [2] = some 1 := by
    decide +kernel
  exact ⟨trivial, root_dir _, create_roomy hneat.calm hmount hend hidx _, 100, _,
    created_run hrun⟩

theorem names_unique_fails : ¬∀ (N : Nat) (w : World), (namer N).Reach w → UniqueNames N w := by
  intro h
  have hreach : (namer 5).Reach secondCreated := first_reach.of_restrict.next second_step
  obtain ⟨hmount, hend, htwice⟩ : secondCreated.mount = freshMount ∧
      (volume 5 secondCreated).fat 2 = fat32Eof ∧
      ¬((listing (volume 5 secondCreated) (entriesPerClust secondCreated.mount) 0 [2]).map
        (fun e => e.name.map upper)).Nodup := by
    decide +kernel
  exact htwice (h 5 secondCreated hreach 0 [2] (root_dir _) (root_link hmount hend))

end Fat32
