import SabakaOS.Fat32.UniqueNames

namespace Fat32

open Word ByteMemory Prog Chain

def files (V : Vol) (epc dirCluster : Nat) (l : List Nat) : List Fat32Entry :=
  (listing V epc dirCluster l).filter fun e => !isDots e.name

-- The volume with the clusters of a chain free.
def Vol.without (V : Vol) (lc : List Nat) : Vol :=
  { V with fat := fun y => if y ∈ lc then 0 else V.fat y }

section Entries

variable {dirCluster k : Nat} {lfns slots : List Slot} {g : Fat32Entry} {V V' : Vol} {epc : Nat}
  {l lc : List Nat}

theorem entries_ordered :
    (entries dirCluster slots k lfns).Pairwise fun a b => a.dirIndex < b.dirIndex := by
  induction slots generalizing k lfns with
  | nil => exact .nil
  | cons s slots ih =>
    unfold entries
    split
    · exact .nil
    · split
      · exact .cons (fun b hb => Nat.lt_of_lt_of_le (Nat.lt_succ_self k) (le_dirIndex hb)) ih
      · exact ih

theorem files_distinct : ((files V epc dirCluster l).map Fat32Entry.dirIndex).Nodup :=
  ((entries_ordered.sublist List.filter_sublist).map Fat32Entry.dirIndex
    fun _ _ h => h).imp Nat.ne_of_lt

-- One of the files is left out when the entries with its index are.
theorem length_left_out {fs : List Fat32Entry} (h : (fs.map Fat32Entry.dirIndex).Nodup)
    (hg : g ∈ fs) :
    (fs.filter fun e => decide (e.dirIndex ≠ g.dirIndex)).length + 1 = fs.length := by
  induction fs with
  | nil => exact absurd hg List.not_mem_nil
  | cons e fs ih =>
    obtain ⟨hnot, hfs⟩ := List.nodup_cons.mp h
    rcases List.mem_cons.mp hg with rfl | hg
    · rw [List.filter_cons_of_neg (by simp), List.filter_eq_self.mpr]
      · rfl
      · intro e he
        exact decide_eq_true fun heq => hnot (List.mem_map.mpr ⟨e, he, heq⟩)
    · have hne : e.dirIndex ≠ g.dirIndex := fun heq => hnot (List.mem_map.mpr ⟨g, hg, heq.symm⟩)
      rw [List.filter_cons_of_pos (by simpa using hne), List.length_cons, ih hfs hg,
        List.length_cons]

theorem freed_without (V : Vol) (lc : List Nat) : Freed V lc (V.without lc) :=
  ⟨rfl, fun _ hy => if_neg hy⟩

end Entries

section Remove

variable {E : Env} {w : World} {D H : Set Nat} {e g : Fat32Entry} {l ld : List Nat}
  {x fuel dirCluster cluster : Nat} {lc : List Nat}

theorem freeChain_exact (hE : E.Lawful) (hq : E.Quiet) (hg : Good E w) (hloose : E.Loose)
    (hlc : Chained E.clusters (E.vol w) cluster lc) :
    Runs (fatFreeChain fuel cluster) w
      (fun _ w' => Step E w w' ∧ E.vol w' = (E.vol w).without lc)
      (fun w' => Good E w' ∧ fuel ≤ E.turns) := by
  rcases hlc with ⟨rfl, rfl⟩ | ⟨-, hlc⟩
  · refine (fatFreeChain_stop (show ¬(2 ≤ 0 ∧ 0 < fat32Eof) by decide)).mono ?_ ?_
    · rintro - w1 rfl
      exact ⟨hg.step, (freed_without _ []).eq.symm⟩
    · rintro w1 ⟨rfl, rfl⟩
      exact ⟨hg, Nat.zero_le _⟩
  · refine (fatFreeChain_runs hE hg hloose.opens hlc).mono ?_
      (fun _ h => ⟨h.1, h.2.trans (turns_le hE.fits hlc).1⟩)
    rintro - w1 ⟨hs1, hdata, hout, -, hzero⟩
    refine ⟨hs1, Vol.ext (funext fun y => ?_) hdata⟩
    by_cases hy : y ∈ lc
    · rw [hzero (hq.fat _) y hy]
      exact (if_pos hy).symm
    · rw [hout y hy]
      exact (if_neg hy).symm

theorem remove_exact (hE : E.Lawful) (hq : E.Quiet) (hg : Good E w) (hloose : E.Loose)
    (hs : Sound E.mount E.clusters (E.vol w) D H ∅) (hd : dirHead E.mount e.dirCluster ∈ D)
    (he : EntryAt E.mount E.clusters (E.vol w) e l x)
    (hself : e.cluster ≠ dirHead E.mount e.dirCluster) :
    Runs (do
      fatFreeChain fuel e.cluster
      markDeleted e.dirCluster e.dirIndex) w (fun r w' => Step E w w' ∧ r = fat32Ok ∧
        ∃ lc, Chained E.clusters (E.vol w) e.cluster lc ∧ E.vol w' =
          ((E.vol w).without lc).drop x (e.dirIndex % entriesPerClust E.mount))
      (fun w' => Good E w' ∧ fuel ≤ E.turns) := by
  have hN := hE.fits.small
  have hlive := hs.live_entry hE.fits hd he
  obtain ⟨lc, hlc⟩ := hs.chained hlive
  have hH := (hs.holds _ hlive (by simp)).cases hs.dirs
  rw [he.start] at hlc hH
  refine (freeChain_exact hE hq hg hloose hlc).bind ?_
  rintro - w1 ⟨hs1, hvol1⟩
  have hl' := (hs.link_freed hN hH hlc (freed_without _ lc) (hs.dirs hd) (Ne.symm hself)).mpr
    he.chain
  rw [← hvol1] at hl'
  refine (editSlot_runs hE hs1.good hloose.opens (hs.valid (hs.dirs hd)) hl' (eof_stops hN _ rfl)
    (.inr rfl) (slotEdit_delete _)).mono ?_ (fun _ h => h.elim)
  rintro r w2 ⟨hs2, ⟨y, hy, hvol, hr⟩ | ⟨-, -, hfail⟩⟩
  · obtain rfl : y = x := Option.some.inj (hy.symm.trans he.cluster)
    refine ⟨hs1.trans hs2, hr.resolve_right (hq.ata _ _), lc, hlc, ?_⟩
    rw [hvol, hvol1]
    rfl
  · rcases hfail with h | ⟨-, h⟩ | h | h | h
    · cases h.symm.trans he.cluster
    · exact absurd h (hq.fat _)
    · exact absurd h (hq.heap _)
    · exact absurd h (hq.ata _ _)
    · exact absurd h (hq.ata _ _)

theorem fat32Unlink_exact (hE : E.Lawful) (hq : E.Quiet) (hg : Good E w) (hloose : E.Loose)
    (hs : Sound E.mount E.clusters (E.vol w) D H ∅) (hd : dirHead E.mount e.dirCluster ∈ D)
    (he : EntryAt E.mount E.clusters (E.vol w) e l x)
    (hself : e.cluster ≠ dirHead E.mount e.dirCluster)
    (ha : hasAttr e.attr attrDirectory = false) :
    Runs (fat32Unlink fuel e) w (fun r w' => Step E w w' ∧ r = fat32Ok ∧
        ∃ lc, Chained E.clusters (E.vol w) e.cluster lc ∧ E.vol w' =
          ((E.vol w).without lc).drop x (e.dirIndex % entriesPerClust E.mount))
      (fun w' => Good E w' ∧ fuel ≤ E.turns) := by
  unfold fat32Unlink
  refine Runs.get_bind ?_
  rw [hg.mount, hE.fits.mounted, ha]
  exact remove_exact hE hq hg hloose hs hd he hself

-- A scan over nothing but '.' and '..' lets fat32_rmdir go on.
theorem rmdirScan_empty (hE : E.Lawful) (hq : E.Quiet) (hg : Good E w) (hloose : E.Loose)
    (hl : Link E.clusters (E.vol w) fat32Eof (dirHead E.mount dirCluster) l)
    (hdots : ∀ e ∈ listing (E.vol w) (entriesPerClust E.mount) dirCluster l,
      isDots e.name = true) (n i : Nat) :
    Runs (rmdirScan fuel dirCluster n i) w
      (fun r w' => Step E w w' ∧ view w' = view w ∧ r = none) (fun _ => True) := by
  have hlist := hq.list
  induction n generalizing w i with
  | zero => exact Runs.stopped trivial
  | succ n ih =>
    unfold rmdirScan
    refine ((fat32Readdir_runs hE hg hloose.opens hl (.inl rfl)).mono (fun _ _ h => h)
      (fun _ _ => trivial)).bind ?_
    rintro r w1 ⟨hs1, hv1, hr⟩
    have hvol1 : E.vol w1 = E.vol w := E.vol_congr hv1
    obtain rfl := hr.resolve_right fun h => hlist h.2
    rcases hget : (listing (E.vol w) (entriesPerClust E.mount) dirCluster l)[i]? with _ | f
    · exact Runs.pure ⟨hs1, hv1, rfl⟩
    · have hf := hdots f (List.mem_of_getElem? hget)
      change Runs (if isDots f.name = true then rmdirScan fuel dirCluster n (i + 1)
        else pure (some fat32ErrExist)) w1 _ _
      rw [if_pos hf]
      exact (ih hs1.good (hvol1 ▸ hl) (hvol1 ▸ hdots) (i + 1)).mono
        (fun r w2 h => ⟨hs1.trans h.1, h.2.1.trans hv1, h.2.2⟩) (fun _ h => h)

theorem fat32Rmdir_exact (hE : E.Lawful) (hq : E.Quiet) (hg : Good E w) (hloose : E.Loose)
    (hs : Sound E.mount E.clusters (E.vol w) D H ∅) (hd : dirHead E.mount e.dirCluster ∈ D)
    (he : EntryAt E.mount E.clusters (E.vol w) e l x)
    (hself : e.cluster ≠ dirHead E.mount e.dirCluster)
    (ha : hasAttr e.attr attrDirectory = true)
    (hl : Link E.clusters (E.vol w) fat32Eof (dirHead E.mount e.cluster) ld)
    (hdots : ∀ f ∈ listing (E.vol w) (entriesPerClust E.mount) e.cluster ld,
      isDots f.name = true) :
    Runs (fat32Rmdir fuel e) w (fun r w' => Step E w w' ∧ r = fat32Ok ∧
        ∃ lc, Chained E.clusters (E.vol w) e.cluster lc ∧ E.vol w' =
          ((E.vol w).without lc).drop x (e.dirIndex % entriesPerClust E.mount))
      (fun _ => fuel ≤ E.turns) := by
  unfold fat32Rmdir
  refine Runs.get_bind ?_
  rw [hg.mount, hE.fits.mounted, ha]
  have hturns := turns_le hE.fits hl
  refine (((rmdirScan_empty hE hq hg hloose hl hdots fuel 0).and (rmdirScan_lists hE hg
    hloose.opens hl rfl (Nat.zero_le _) (by simp) le_rfl)).mono (fun _ _ h => h.1)
    (fun _ h => h.2.2.trans hturns.2)).bind ?_
  rintro r w1 ⟨hs1, hv1, rfl⟩
  have hvol1 : E.vol w1 = E.vol w := E.vol_congr hv1
  rw [← hvol1] at hs he ⊢
  exact (remove_exact hE hq hs1.good hloose hs hd he hself).mono
    (fun _ _ h => ⟨hs1.trans h.1, h.2⟩) (fun _ h => h.2)

end Remove

-- A directory whose first two slots, and no others, are its '.' and '..', with files only.
structure PlainDir (m : Mount) (N : Nat) (V : Vol) (c : Nat) (l : List Nat) : Prop where
  link : Link N V fat32Eof (dirHead m c) l
  dots : ∀ e ∈ listing V (entriesPerClust m) c l, isDots e.name = true ↔ e.dirIndex < 2
  plain : ∀ e ∈ files V (entriesPerClust m) c l, hasAttr e.attr attrDirectory = false

section PlainDir

variable {m : Mount} {N : Nat} {V : Vol} {D H : Set Nat} {c k x y : Nat} {l lc lp : List Nat}
  {g e : Fat32Entry} {lfns slots : List Slot}

theorem mem_files : g ∈ files V (entriesPerClust m) c l ↔
    g ∈ listing V (entriesPerClust m) c l ∧ isDots g.name = false := by
  rw [files, List.mem_filter, Bool.not_eq_true']

theorem PlainDir.entryAt (h : PlainDir m N V c l) (hf : Fits m N)
    (hg : g ∈ files V (entriesPerClust m) c l) : ∃ x, EntryAt m N V g l x ∧ g.dirCluster = c := by
  obtain ⟨hg, hdots⟩ := mem_files.mp hg
  obtain ⟨s, hs, -, hn, hc, hattr, hcluster, hsize⟩ := slot_of_mem hg
  rw [Nat.sub_zero, dirSlots_getElem? hf.epc_pos] at hs
  obtain ⟨x, hx, rfl⟩ := Option.map_eq_some_iff.mp hs
  refine ⟨x, ⟨hc ▸ h.link, hx, hn, fun hhead _ => ?_, hattr.symm, hcluster.symm, hsize.symm⟩, hc⟩
  have htwo : 2 ≤ g.dirIndex := by
    by_contra hlt
    have := (h.dots g hg).mpr (by omega)
    cases this.symm.trans hdots
  -- the first cluster of a chain stands in it only once
  have hzero : g.dirIndex / entriesPerClust m = 0 := by
    have hnodup := h.link.nodup (eof_stops hf.small)
    have hlink := h.link
    rw [hhead, hc] at hx
    cases l with
    | nil => cases hx
    | cons z l =>
      have hz : z = dirHead m c := hlink.1
      exact (List.getElem?_inj (Nat.succ_pos _) hnodup).mp (by rw [hx, ← hz]; rfl) |>.symm
  have := Nat.div_add_mod g.dirIndex (entriesPerClust m)
  rw [hzero, Nat.mul_zero, Nat.zero_add] at this
  omega

end PlainDir

section Deleted

variable {E : Env} {V V' : Vol} {D H : Set Nat} {b c x y : Nat}
  {l lc lp lb : List Nat} {g d e : Fat32Entry}

theorem removed_sound (hs : Sound E.mount E.clusters V D H ∅) (hf : Fits E.mount E.clusters)
    (hq : E.Quiet) (hd : dirHead E.mount g.dirCluster ∈ D)
    (he : EntryAt E.mount E.clusters V g l x) (ha : hasAttr g.attr attrDirectory = false)
    (hlc : Chained E.clusters V g.cluster lc) :
    Sound E.mount E.clusters ((V.without lc).drop x (g.dirIndex % entriesPerClust E.mount)) D
      (H \ {g.cluster}) ∅ := by
  have hrem : E.Removed V g x ((V.without lc).drop x (g.dirIndex % entriesPerClust E.mount)) :=
    .dropped hlc (freed_without V lc)
  have hs' := hrem.sound hf hs hd he (.inr (hq.delete _))
  rwa [Set.sdiff_singleton_eq_self (hs.file_cluster hf hd he ha)] at hs'

theorem removed_link (hs : Sound E.mount E.clusters V D H ∅) (hf : Fits E.mount E.clusters)
    (hg : dirHead E.mount g.dirCluster ∈ D) (he : EntryAt E.mount E.clusters V g l x)
    (hlc : Chained E.clusters V g.cluster lc) (hb : b ∈ D) (hne : b ≠ g.cluster) (i : Nat) :
    Link E.clusters ((V.without lc).drop x i) fat32Eof b lb ↔ Link E.clusters V fat32Eof b lb := by
  have hH := (hs.holds _ (hs.live_entry hf hg he) (by simp)).cases hs.dirs
  rw [he.start] at hH
  change Link E.clusters (V.without lc) fat32Eof b lb ↔ _
  exact hs.link_freed hf.small hH hlc (freed_without V lc) (hs.dirs hb) hne

theorem removed_listing (hf : Fits E.mount E.clusters)
    (he : EntryAt E.mount E.clusters V g l x) : listing ((V.without lc).drop x
      (g.dirIndex % entriesPerClust E.mount)) (entriesPerClust E.mount) c l =
      (listing V (entriesPerClust E.mount) c l).filter fun e => e.dirIndex ≠ g.dirIndex := by
  have hslot := he.slot hf
  rw [listing, Vol.drop, dirSlots_edit hf.epc_pos (slotEdit_delete _)
    (he.chain.nodup (eof_stops hf.small)) he.cluster, entries_delete (fun s hs => ?_)
    (drop_first (V.without lc) x _), Nat.zero_add]
  · rfl
  · rw [show dirSlots (V.without lc) (entriesPerClust E.mount) l =
      dirSlots V (entriesPerClust E.mount) l from rfl, hslot] at hs
    exact Option.some.inj hs ▸ he.names

theorem removed_files (hf : Fits E.mount E.clusters)
    (he : EntryAt E.mount E.clusters V g l x) : files ((V.without lc).drop x
      (g.dirIndex % entriesPerClust E.mount)) (entriesPerClust E.mount) c l =
      (files V (entriesPerClust E.mount) c l).filter fun e => e.dirIndex ≠ g.dirIndex := by
  rw [files, removed_listing hf he, files, List.filter_comm]

theorem PlainDir.removed (h : PlainDir E.mount E.clusters V c l) (hf : Fits E.mount E.clusters)
    (he : EntryAt E.mount E.clusters V g l x) (hl : Link E.clusters ((V.without lc).drop x
      (g.dirIndex % entriesPerClust E.mount)) fat32Eof (dirHead E.mount c) l) :
    PlainDir E.mount E.clusters ((V.without lc).drop x
      (g.dirIndex % entriesPerClust E.mount)) c l := by
  refine ⟨hl, fun f hfl => ?_, fun f hff => ?_⟩
  · rw [removed_listing hf he] at hfl
    exact h.dots f (List.mem_of_mem_filter hfl)
  · rw [removed_files hf he] at hff
    exact h.plain f (List.mem_of_mem_filter hff)

-- The entry of a directory stands in another directory, whose clusters a removal leaves alone.
theorem EntryAt.removed (he : EntryAt E.mount E.clusters V e lp y)
    (hl : Link E.clusters ((V.without lc).drop x b) fat32Eof (dirHead E.mount e.dirCluster) lp)
    (hx : x ∉ lp) : EntryAt E.mount E.clusters ((V.without lc).drop x b) e lp y := by
  have hy : y ≠ x := ne_of_mem_of_not_mem he.mem hx
  have hslot : ∀ i, slotAt ((V.without lc).drop x b) (y, i) = slotAt V (y, i) := by
    intro i
    exact congrArg (slotOf · i) (Function.update_of_ne hy _ _)
  refine ⟨hl, he.cluster, ?_, he.notDots, ?_, ?_, ?_⟩
  · rw [hslot]
    exact he.names
  · rw [hslot]
    exact he.attr
  · rw [hslot]
    exact he.start
  · rw [hslot]
    exact he.size

-- Files of the directory have been deleted one after the other.
inductive Env.Deleted (E : Env) (c : Nat) (l : List Nat) : Vol → Vol → Prop
  | none {V : Vol} : E.Deleted c l V V
  | more {V V' : Vol} {g : Fat32Entry} {x : Nat} {lc : List Nat} :
      g ∈ files V (entriesPerClust E.mount) c l → EntryAt E.mount E.clusters V g l x →
      Chained E.clusters V g.cluster lc → E.Deleted c l ((V.without lc).drop x
        (g.dirIndex % entriesPerClust E.mount)) V' → E.Deleted c l V V'

-- Between two deletions: the directory c of the entry d, which stands at y in the chain lp.
structure Env.Emptying (E : Env) (D H : Set Nat) (d : Fat32Entry) (lp l : List Nat) (y : Nat)
    (V : Vol) : Prop where
  sound : Sound E.mount E.clusters V D H ∅
  parent : dirHead E.mount d.dirCluster ∈ D
  entry : EntryAt E.mount E.clusters V d lp y
  isDir : hasAttr d.attr attrDirectory = true
  apart : d.cluster ≠ dirHead E.mount d.dirCluster
  dir : PlainDir E.mount E.clusters V d.cluster l

theorem Env.Emptying.own (h : E.Emptying D H d lp l y V) (hf : Fits E.mount E.clusters) :
    dirHead E.mount d.cluster = d.cluster ∧ d.cluster ∈ D := by
  have hheld := h.sound.holds _ (h.sound.live_entry hf h.parent h.entry) (by simp)
  unfold Holds at hheld
  rw [h.entry.attr, h.isDir, if_pos rfl, h.entry.start] at hheld
  refine ⟨if_pos fun h0 => ?_, hheld.1⟩
  exact absurd (h0 ▸ h.sound.valid (h.sound.dirs hheld.1)).1 (by decide)

-- What fat32_unlink needs of a file of the directory.
structure Env.Unlinks (E : Env) (D : Set Nat) (V : Vol) (g : Fat32Entry) (l : List Nat) (x : Nat) :
    Prop where
  dir : dirHead E.mount g.dirCluster ∈ D
  entry : EntryAt E.mount E.clusters V g l x
  attr : hasAttr g.attr attrDirectory = false
  apart : g.cluster ≠ dirHead E.mount g.dirCluster

theorem Env.Emptying.file (h : E.Emptying D H d lp l y V) (hf : Fits E.mount E.clusters)
    (hg : g ∈ files V (entriesPerClust E.mount) d.cluster l) : ∃ x, E.Unlinks D V g l x := by
  obtain ⟨hhead, hD⟩ := h.own hf
  obtain ⟨x, he, hdir⟩ := h.dir.entryAt hf hg
  have hgD : dirHead E.mount g.dirCluster ∈ D := by
    rw [hdir, hhead]
    exact hD
  have ha := h.dir.plain g hg
  refine ⟨x, hgD, he, ha, fun heq => ?_⟩
  exact h.sound.file_cluster hf hgD he ha (heq ▸ hgD)

theorem Env.Emptying.disjoint (h : E.Emptying D H d lp l y V) (hf : Fits E.mount E.clusters)
    (hx : x ∈ l) : x ∉ lp := by
  obtain ⟨hhead, hD⟩ := h.own hf
  refine h.sound.chains.apart _ (h.sound.dirs (hhead.symm ▸ hD)) _ (h.sound.dirs h.parent) ?_ _ _
    h.dir.link h.entry.chain x hx
  rw [hhead]
  exact h.apart

theorem Env.Emptying.removed (h : E.Emptying D H d lp l y V) (hf : Fits E.mount E.clusters)
    (hq : E.Quiet) (hg : E.Unlinks D V g l x) (hlc : Chained E.clusters V g.cluster lc) :
    E.Emptying D (H \ {g.cluster}) d lp l y
      ((V.without lc).drop x (g.dirIndex % entriesPerClust E.mount)) := by
  obtain ⟨hhead, hD⟩ := h.own hf
  have hnot := h.sound.file_cluster hf hg.dir hg.entry hg.attr
  have hlink : ∀ b ∈ D, ∀ lb, Link E.clusters ((V.without lc).drop x
      (g.dirIndex % entriesPerClust E.mount)) fat32Eof b lb ↔ Link E.clusters V fat32Eof b lb :=
    fun b hb lb => removed_link h.sound hf hg.dir hg.entry hlc hb (ne_of_mem_of_not_mem hb hnot) _
  have hx := h.disjoint hf hg.entry.mem
  exact ⟨removed_sound h.sound hf hq hg.dir hg.entry hg.attr hlc, h.parent,
    h.entry.removed ((hlink _ h.parent lp).mpr h.entry.chain) hx, h.isDir, h.apart,
    h.dir.removed hf hg.entry ((hlink _ (hhead.symm ▸ hD) l).mpr h.dir.link)⟩

-- A directory with one file, and what deletions may make of its volume.
theorem Env.Deleted.single (h : E.Deleted c l V V') (hf : Fits E.mount E.clusters)
    (hfiles : files V (entriesPerClust E.mount) c l = [g]) : V' = V ∨ ∃ x lc,
      EntryAt E.mount E.clusters V g l x ∧ Chained E.clusters V g.cluster lc ∧
      V' = (V.without lc).drop x (g.dirIndex % entriesPerClust E.mount) := by
  cases h with
  | none => exact .inl rfl
  | @more _ _ f x lc hg he hlc hrest =>
    rw [hfiles] at hg
    obtain rfl := List.mem_singleton.mp hg
    have hnone := @removed_files E V c x l lc f hf he
    rw [hfiles, List.filter_cons_of_neg (by simp), List.filter_nil] at hnone
    cases hrest with
    | none => exact .inr ⟨x, lc, he, hlc, rfl⟩
    | more hg' _ _ _ =>
      rw [hnone] at hg'
      exact absurd hg' List.not_mem_nil

end Deleted

end Fat32
