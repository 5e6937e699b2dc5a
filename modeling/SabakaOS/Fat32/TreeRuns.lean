import SabakaOS.Fat32.DirTree

namespace Fat32

open Word ByteMemory Prog Chain

-- The directories behind a call of fat32_mkdir.
def madeDirs (D : Set Nat) : Except Int Fat32Entry → Set Nat
  | .ok e => insert e.cluster D
  | .error _ => D

-- The directories behind a call of fat32_rmdir on e.
def keptDirs (D : Set Nat) (e : Fat32Entry) (r : Int) : Set Nat :=
  if r = fat32Ok then D \ {e.cluster} else D

-- A sound volume whose directories D form a tree.
def Planted (m : Mount) (N : Nat) (V : Vol) (D : Set Nat) : Prop :=
  DirTree m N V D ∧ ∃ H, Sound m N V D H ∅

section Place

variable {E : Env} {V V' : Vol} {D H : Set Nat} {dirCluster k : Nat} {l : List Nat}
  {name : List UInt8} {q : Nat × Nat} {s : Slot}

theorem Slotted.sameTree {m : Mount} {N d : Nat} (h : Slotted m N D d q s V V')
    (hfile : ∀ c, ¬DirSlot s c) : SameTree m N D V V' := by
  refine ⟨fun g hg b => exists_congr fun p => ?_, h.dotdot⟩
  rw [h.sub g hg p b]
  exact or_iff_left (fun hnew => hfile b hnew.2.2)

theorem Env.Created.planted {r : Except Int Fat32Entry} (h : E.Created V dirCluster name l r V')
    (hq : E.Quiet) (hf : Fits E.mount E.clusters) (hs : Sound E.mount E.clusters V D H ∅)
    (hd : dirHead E.mount dirCluster ∈ D)
    (hl : Link E.clusters V fat32Eof (dirHead E.mount dirCluster) l)
    (ht : DirTree E.mount E.clusters V D) : Planted E.mount E.clusters V' D := by
  obtain ⟨H', hs'⟩ := h.sound hf hs hd hl
  refine ⟨?_, H', hs'⟩
  cases h with
  | refused => exact ht
  | @stored rp _ _ hp =>
    cases rp with
    | error c => rwa [(hp.error_eq hq.slot).resolve_right (hq.fat _)]
    | ok k =>
      obtain ⟨q, hslot⟩ := hp.slotted hf hs hd hl (hq.fat _) (newSlot_length ..)
      exact (hslot.sameTree (fun c => not_dirSlot (by decide))).dirTree ht hs' hf.small

theorem Env.Made.planted {r : Except Int Fat32Entry} (h : E.Made V dirCluster name l r V')
    (hq : E.Quiet) (hf : Fits E.mount E.clusters) (hs : Sound E.mount E.clusters V D H ∅)
    (hd : dirHead E.mount dirCluster ∈ D)
    (hl : Link E.clusters V fat32Eof (dirHead E.mount dirCluster) l) (hname : isCString name)
    (hfirst : name.head? ≠ some 0xE5 ∨ E.Taken V dirCluster name l)
    (ht : DirTree E.mount E.clusters V D) : Planted E.mount E.clusters V' (madeDirs D r) := by
  have hN := hf.small
  cases h with
  | refused => exact ⟨ht, H, hs⟩
  | unbuilt _ _ hheap => exact absurd hheap (hq.heap _)
  | @stored n k f V' habsent hok hfree hbuf hp =>
    have hfirst := hfirst.resolve_right habsent.not_taken
    obtain ⟨hB, hnot, hlink, hun, hothers⟩ := newDir_sound hs hf hok hfree _ hbuf
    have hkept : Kept E.clusters D V ((V.setFat n fat32Eof).setData n f) :=
      hs.kept_free hN hfree (fun y hy => Function.update_of_ne hy _ _)
        (fun y hy => Function.update_of_ne hy _ _)
    have hlt := hf.lt_eof hok
    have hnD : n ∉ D := fun hn => hnot (hs.dirs hn)
    have hnroot : n ≠ E.mount.rootCluster := fun he => hnD (he ▸ hs.root)
    have hdB : dirHead E.mount dirCluster ∈ insert n D := Set.mem_insert_of_mem _ hd
    have hlB := (hothers _ (hs.dirs hd) l).mpr hl
    have hnd : n ≠ dirHead E.mount dirCluster := fun he => hnD (he ▸ hd)
    have hnew : ∀ c, DirSlot (slotBytes (newSlot name attrDirectory n 0)) c ↔ c = n := fun c =>
      dirSlot_newSlot hname hfirst (by decide) (by decide) (hlt.2.trans (by decide))
    have hcl : slotCluster (slotBytes (newSlot name attrDirectory n 0)) = n :=
      slotCluster_newSlot (hlt.2.trans (by decide))
    obtain ⟨H', hs'⟩ := hp.sound hf hB hdB hlB (newSlot_length ..)
      (by
        unfold Holds
        rw [slotAttr_newSlot, if_pos (by decide), hcl]
        exact ⟨Set.mem_insert .., hnroot⟩)
      (.inr (hcl.symm ▸ hun))
    obtain ⟨q, hslot⟩ := hp.slotted hf hB hdB hlB (hq.fat _) (newSlot_length ..)
    have habove : ∀ g ∈ D, ∀ b, Above E.mount E.clusters V' g b ↔
        Above E.mount E.clusters V g b ∨ (g = dirHead E.mount dirCluster ∧ b = n) := by
      intro g hg b
      constructor
      · rintro ⟨p, hsub⟩
        rcases (hslot.sub g (.inr hg) p b).mp hsub with hsub | ⟨hgd, -, hb⟩
        · exact .inl ⟨p, (hkept.subDir hg).mp hsub⟩
        · exact .inr ⟨hgd, (hnew b).mp hb⟩
      · rintro (⟨p, hsub⟩ | ⟨hgd, hb⟩)
        · exact ⟨p, (hslot.sub g (.inr hg) p b).mpr (.inl ((hkept.subDir hg).mpr hsub))⟩
        · exact ⟨q, (hslot.sub g (.inr hg) q b).mpr (.inr ⟨hgd, rfl, (hnew b).mpr hb⟩)⟩
    have hleaf : ∀ b, ¬Above E.mount E.clusters V' n b := by
      rintro b ⟨p, hsub⟩
      rcases (hslot.sub n (Set.mem_insert ..) p b).mp hsub with hsub | ⟨hgd, -⟩
      · exact newDir_leaf hf hbuf hlink hnroot hsub
      · exact hnd hgd
    refine ⟨hs'.dirTree hN (ht.rooted.insert hd hnD hleaf habove) ?_, H', hs'⟩
    rintro g (rfl | hg) b hb
    · exact absurd hb (hleaf b)
    · rcases (habove g hg b).mp hb with hb | ⟨rfl, rfl⟩
      · obtain ⟨hbD, hroot⟩ := ht.rooted.closed hg hb
        rw [hslot.dotdot b (.inr hbD) hroot, (hkept.sameTree hs hN).dotdot b hbD hroot]
        exact ht.dotdot g hg b hb
      · have hhead := (hf.lt_eof (hs.valid (hs.dirs hd))).2
        rw [hslot.dotdot b (Set.mem_insert ..) hnroot,
          newDir_dotdot hf hbuf (hhead.trans (by decide)), dirHead_dirHead]
  | @undone n f c V2 V' _ hok hfree hbuf hp hdata hout =>
    obtain rfl := (hp.error_eq hq.slot).resolve_right (hq.fat _)
    obtain ⟨hB, hnot, hlink, hun, -⟩ := newDir_sound hs hf hok hfree _ hbuf
    have hnD : n ∉ D := fun hn => hnot (hs.dirs hn)
    have hnroot : n ≠ E.mount.rootCluster := fun he => hnD (he ▸ hs.root)
    have hs' := hB.free hN (Set.mem_insert ..) hnroot hlink
      (fun y hy => hout y (by simpa using hy)) hdata subset_rfl hun
    rw [Set.insert_sdiff_of_mem _ (Set.mem_singleton n), Set.sdiff_singleton_eq_self hnD] at hs'
    have hkept : Kept E.clusters D V V' := hs.kept_free hN hfree
      (fun y hy => (hout y hy).trans (Function.update_of_ne hy _ _))
      (fun y hy => hdata ▸ Function.update_of_ne hy _ _)
    exact ⟨(hkept.sameTree hs hN).dirTree ht hs' hN, _, hs'⟩

end Place

section Remove

variable {E : Env} {V V' : Vol} {D H : Set Nat} {e : Fat32Entry} {x dirCluster : Nat}
  {l l' : List Nat} {name : List UInt8}

theorem EntryAt.subDir {m : Mount} {N : Nat} (he : EntryAt m N V e l x) (hf : Fits m N)
    (ha : hasAttr e.attr attrDirectory = true) :
    SubDir m N V (dirHead m e.dirCluster) (x, e.dirIndex % entriesPerClust m) e.cluster :=
  ⟨⟨l, he.chain, he.mem⟩, Nat.mod_lt _ hf.epc_pos, he.names, he.notDots, by rwa [he.attr],
    he.start⟩

theorem EntryAt.not_subDir {m : Mount} {N g c : Nat} (he : EntryAt m N V e l x)
    (ha : hasAttr e.attr attrDirectory = false) :
    ¬SubDir m N V g (x, e.dirIndex % entriesPerClust m) c := by
  intro hsub
  have hattr := hsub.attr
  rw [he.attr, ha] at hattr
  cases hattr

theorem Env.Removed.subDir (h : E.Removed V e x V') (hq : E.Quiet) (hf : Fits E.mount E.clusters)
    (hs : Sound E.mount E.clusters V D H ∅) (hd : dirHead E.mount e.dirCluster ∈ D)
    (he : EntryAt E.mount E.clusters V e l x) {g : Nat} (hg : g ∈ D) (hne : g ≠ e.cluster)
    {p : Nat × Nat} {c : Nat} : SubDir E.mount E.clusters V' g p c ↔
      SubDir E.mount E.clusters V g p c ∧ p ≠ (x, e.dirIndex % entriesPerClust E.mount) := by
  cases h with
  | @dropped lc V1 hlc hfree =>
    have hH := (hs.holds _ (hs.live_entry hf hd he) (by simp)).cases hs.dirs
    rw [he.start] at hH
    have hkept : Kept E.clusters (D \ {e.cluster}) V V1 :=
      ⟨fun g hg lg => hs.link_freed hf.small hH hlc hfree (hs.dirs hg.1) hg.2,
        fun y _ => by rw [hfree.data]⟩
    rw [drop_subDir, hkept.subDir ⟨hg, hne⟩]
  | left _ _ hfail => exact absurd hfail (hq.delete _)

theorem Env.Removed.dotdot (h : E.Removed V e x V') (hq : E.Quiet) (hf : Fits E.mount E.clusters)
    (hs : Sound E.mount E.clusters V D H ∅) (hd : dirHead E.mount e.dirCluster ∈ D)
    (he : EntryAt E.mount E.clusters V e l x) {b : Nat} (hb : b ∈ D)
    (hroot : b ≠ E.mount.rootCluster) : dotdotOf V' b = dotdotOf V b := by
  cases h with
  | @dropped lc V1 _ hfree =>
    rw [drop_dotdot hb hroot (hs.live_entry hf hd he).notDots, dotdotOf, dotdotOf, slotAt, slotAt,
      hfree.data]
  | left _ _ hfail => exact absurd hfail (hq.delete _)

theorem Env.Removed.file_planted (h : E.Removed V e x V') (hq : E.Quiet)
    (hf : Fits E.mount E.clusters) (hs : Sound E.mount E.clusters V D H ∅)
    (hd : dirHead E.mount e.dirCluster ∈ D) (he : EntryAt E.mount E.clusters V e l x)
    (ha : hasAttr e.attr attrDirectory = false) (ht : DirTree E.mount E.clusters V D) :
    Planted E.mount E.clusters V' D := by
  have hnot := hs.file_cluster hf hd he ha
  have hs' := h.sound hf hs hd he (.inr (hq.delete _))
  rw [Set.sdiff_singleton_eq_self hnot] at hs'
  have hsame : SameTree E.mount E.clusters D V V' := by
    refine ⟨fun g hg b => exists_congr fun p => ?_,
      fun b hb hroot => h.dotdot hq hf hs hd he hb hroot⟩
    rw [h.subDir hq hf hs hd he hg (fun hge => hnot (hge ▸ hg))]
    refine and_iff_left_of_imp (fun hsub hp => ?_)
    exact he.not_subDir ha (hp ▸ hsub)
  exact ⟨hsame.dirTree ht hs' hf.small, _, hs'⟩

theorem Env.Removed.dir_planted (h : E.Removed V e x V') (hq : E.Quiet)
    (hf : Fits E.mount E.clusters) (hs : Sound E.mount E.clusters V D H ∅)
    (hd : dirHead E.mount e.dirCluster ∈ D) (he : EntryAt E.mount E.clusters V e l x)
    (ha : hasAttr e.attr attrDirectory = true)
    (hleaf : ∀ b, ¬Above E.mount E.clusters V e.cluster b)
    (ht : DirTree E.mount E.clusters V D) : Planted E.mount E.clusters V' (D \ {e.cluster}) := by
  have hN := hf.small
  have hs' := h.sound hf hs hd he (.inr (hq.delete _))
  have hown := he.subDir hf ha
  have hroot := (hown.mem hs hN hd).2
  have habove : ∀ g ∈ D, g ≠ e.cluster → ∀ b, Above E.mount E.clusters V' g b ↔
      Above E.mount E.clusters V g b ∧ b ≠ e.cluster := by
    intro g hg hne b
    constructor
    · rintro ⟨p, hsub⟩
      obtain ⟨hsub, hp⟩ := (h.subDir hq hf hs hd he hg hne).mp hsub
      refine ⟨⟨p, hsub⟩, ?_⟩
      rintro rfl
      exact hp (hsub.once hown hs hN hg hd)
    · rintro ⟨⟨p, hsub⟩, hb⟩
      refine ⟨p, (h.subDir hq hf hs hd he hg hne).mpr ⟨hsub, ?_⟩⟩
      rintro rfl
      exact hb (hsub.start.symm.trans hown.start)
  refine ⟨hs'.dirTree hN (ht.rooted.erase hroot hleaf habove) ?_, _, hs'⟩
  rintro g ⟨hg, hne⟩ b hb
  obtain ⟨hb, -⟩ := (habove g hg hne b).mp hb
  obtain ⟨hbD, hbroot⟩ := ht.rooted.closed hg hb
  rw [h.dotdot hq hf hs hd he hbD hbroot]
  exact ht.dotdot g hg b hb

theorem Env.Renamed.planted (h : E.Renamed V e name l' V') (hq : E.Quiet)
    (hf : Fits E.mount E.clusters) (hs : Sound E.mount E.clusters V D H ∅)
    (hd : dirHead E.mount e.dirCluster ∈ D) (he : EntryAt E.mount E.clusters V e l x)
    (hd' : dirHead E.mount dirCluster ∈ D)
    (hl' : Link E.clusters V fat32Eof (dirHead E.mount dirCluster) l') (hname : isCString name)
    (hstay : hasAttr e.attr attrDirectory = true →
      dirHead E.mount dirCluster = dirHead E.mount e.dirCluster ∧ name.head? ≠ some 0xE5)
    (ht : DirTree E.mount E.clusters V D) : Planted E.mount E.clusters V' D := by
  have hN := hf.small
  have hlive := hs.live_entry hf hd he
  obtain ⟨H', hs'⟩ := h.sound hf hs hd he hd' hl' (.inr ⟨hq.delete _, hq.ata _ _⟩)
  have hold : ∀ {k V1 l1}, Placed E V (newSlot name e.attr e.cluster e.size) 0 l' (.ok k) V1 →
      Link E.clusters V1 fat32Eof (dirHead E.mount e.dirCluster) l1 →
      l1[e.dirIndex / entriesPerClust E.mount]? = some x := by
    intro k V1 l1 hp hl1
    obtain ⟨q, hslot⟩ := hp.slotted hf hs hd' hl' (hq.fat _) (newSlot_length ..)
    obtain ⟨more, hmore⟩ := hslot.chain _ hd l he.chain
    obtain rfl := hl1.unique (eof_stops hN) hmore
    rw [List.getElem?_append_left (List.getElem?_eq_some_iff.mp he.cluster).1]
    exact he.cluster
  cases h with
  | refused hp =>
    rw [(hp.error_eq hq.slot).resolve_right (hq.fat _)]
    exact ⟨ht, H, hs⟩
  | kept hp hl1 hnone =>
    have hnone := hnone.resolve_right (hq.delete _)
    cases hnone.symm.trans (hold hp hl1)
  | @moved k y l1 V1 hp hl1 hy =>
    obtain rfl := Option.some.inj (hy.symm.trans (hold hp hl1))
    obtain ⟨q, hslot⟩ := hp.slotted hf hs hd' hl' (hq.fat _) (newSlot_length ..)
    refine ⟨SameTree.dirTree ⟨fun g hg b => ?_, fun b hb hroot => ?_⟩ ht hs' hN, H', hs'⟩
    · cases ha : hasAttr e.attr attrDirectory with
      | false =>
        refine exists_congr fun p => ?_
        rw [drop_subDir, hslot.sub g hg p b, or_iff_left (fun hnew => not_dirSlot ha hnew.2.2)]
        refine and_iff_left_of_imp (fun hsub hp => ?_)
        exact he.not_subDir ha (hp ▸ hsub)
      | true =>
        obtain ⟨hsame, hfirst⟩ := hstay ha
        have hown := he.subDir hf ha
        have hvol : hasAttr e.attr attrVolumeId = false := he.attr ▸ he.names.2.2
        have hcD := (hown.mem hs hN hd).1
        have hlt := hf.lt_eof (hs.valid (hs.dirs hcD))
        have hnew : ∀ c, DirSlot (slotBytes (newSlot name e.attr e.cluster e.size)) c ↔
            c = e.cluster := fun c =>
          dirSlot_newSlot hname hfirst hvol ha (hlt.2.trans (by decide))
        have hq' : q ≠ (y, e.dirIndex % entriesPerClust E.mount) := by
          rintro rfl
          exact hslot.unnamed _ hd l he.chain he.mem he.names
        constructor
        · rintro ⟨p, hsub⟩
          rcases (hslot.sub g hg p b).mp (drop_subDir.mp hsub).1 with hsub | ⟨hgd, -, hb⟩
          · exact ⟨p, hsub⟩
          · rw [hgd, hsame, (hnew b).mp hb]
            exact ⟨_, hown⟩
        · rintro ⟨p, hsub⟩
          by_cases hp : p = (y, e.dirIndex % entriesPerClust E.mount)
          · -- the entry itself, whose new slot is in the same directory
            subst hp
            obtain ⟨lg, hlg, hm⟩ := hsub.chain
            have hgd := hs.same_dir hg hd hlg he.chain hm he.mem
            refine ⟨q, drop_subDir.mpr ⟨(hslot.sub g hg q b).mpr (.inr ⟨hgd.trans hsame.symm, rfl,
              (hnew b).mpr (hsub.start.symm.trans hown.start)⟩), hq'⟩⟩
          · exact ⟨p, drop_subDir.mpr ⟨(hslot.sub g hg p b).mpr (.inl hsub), hp⟩⟩
    · rw [drop_dotdot hb hroot hlive.notDots, hslot.dotdot b hb hroot]

end Remove

-- Directory l has no room for one more entry, and cannot get any.
def Env.Full (E : Env) (V : Vol) (l : List Nat) : Prop :=
  freeIndex V (entriesPerClust E.mount) l = none ∧ spare E.limit E.clusters V = 0

-- The directory of cluster c lists an entry besides '.' and '..'.
def Env.Busy (E : Env) (V : Vol) (c : Nat) : Prop :=
  ∃ l, Link E.clusters V fat32Eof (dirHead E.mount c) l ∧
    ¬∀ e ∈ listing V (entriesPerClust E.mount) c l, isDots e.name = true

section Refused

variable {E : Env} {w : World} {V V' : Vol} {D H : Set Nat} {e : Fat32Entry}
  {dirCluster fuel : Nat} {l : List Nat} {name slot : List UInt8}

theorem spare_ne_zero {limit N n : Nat} (hok : Valid N n) (hlim : n < limit) (hfree : V.fat n = 0) :
    spare limit N V ≠ 0 := by
  have := spare_alloc (v := fat32Eof) hok hlim hfree (by decide)
  omega

theorem Placed.full {r : Except Int Nat} (hp : Placed E V slot 0 l r V')
    (hfull : E.Full V l) : V' = V ∧ ∃ c, r = .error c := by
  cases hp with
  | nospace => exact ⟨rfl, _, rfl⟩
  | failed => exact ⟨rfl, _, rfl⟩
  | filled hidx => cases hidx.symm.trans hfull.1
  | extended _ _ _ hex => exact absurd hfull.2 (spare_ne_zero hex.ok hex.limit hex.free)

theorem fat32Rename_full (hE : E.Lawful) (hg : Good E w) (hloose : E.Loose)
    (hvalid : E.ok (dirHead E.mount dirCluster))
    (hl : Link E.clusters (E.vol w) fat32Eof (dirHead E.mount dirCluster) l)
    (hroom : E.HasSlot (E.vol w) l ∨ E.CanGrow (E.vol w)) (hfull : E.Full (E.vol w) l) :
    Runs (fat32Rename fuel e dirCluster name) w (fun _ w' => Step E w w' ∧ E.vol w' = E.vol w)
      (fun _ => True) := by
  unfold fat32Rename
  refine Runs.get_bind ?_
  rw [hg.mount, hE.fits.mounted]
  simp only [Bool.not_true, Bool.false_eq_true, if_false]
  refine ((writeDirEntry_runs hE hg hloose.opens hloose.opens hvalid hl
    (eof_stops hE.fits.small _ rfl) (.inl rfl) hroom name e.attr e.cluster e.size).mono
    (fun _ _ h => h) (fun _ _ => trivial)).bind ?_
  rintro r w1 ⟨hs1, hp⟩
  obtain ⟨hsame, c, rfl⟩ := hp.full hfull
  exact Runs.pure ⟨hs1, hsame⟩

theorem fat32Mkdir_full (hE : E.Lawful) (hg : Good E w) (hloose : E.Loose) (hq : E.Quiet)
    (hl : Link E.clusters (E.vol w) fat32Eof (dirHead E.mount dirCluster) l)
    (hroom : E.Taken (E.vol w) dirCluster name l ∨ Room E.limit E.clusters (E.vol w) 1)
    (hspare : spare E.limit E.clusters (E.vol w) = 0) :
    Runs (fat32Mkdir fuel dirCluster name) w (fun r w' => Step E w w' ∧ E.vol w' = E.vol w ∧
      ∃ c, r = .error c) (fun _ => True) := by
  unfold fat32Mkdir
  refine Runs.get_bind ?_
  rw [hg.mount, hE.fits.mounted]
  simp only [Bool.not_true, Bool.false_eq_true, if_false]
  refine ((fat32Find_runs hE hg hloose.opens hl).mono (fun _ _ h => h)
    (fun _ _ => trivial)).bind ?_
  rintro r w1 ⟨hs1, hv1, hfind⟩
  have hvol1 : E.vol w1 = E.vol w := E.vol_congr hv1
  cases r with
  | ok e => exact Runs.pure ⟨hs1, hvol1, _, rfl⟩
  | error c =>
    have habsent : E.Absent (E.vol w) dirCluster name l := hfind
    have hroom1 := hroom.resolve_left habsent.not_taken
    rw [← hvol1] at hroom1 hspare
    refine (fatAllocCluster_runs hE hs1.good (hq.fat _) hroom1).then ?_
    rintro n w2 ⟨hs2, ⟨rfl, hv2, -⟩ | ⟨-, hok, hlim, hfree, -⟩⟩
    · rw [if_pos rfl]
      refine Runs.pure ⟨hs1.trans hs2, ?_, _, rfl⟩
      rw [← hvol1, Env.vol, Env.vol, hv2]
    · exact absurd hspare (spare_ne_zero hok hlim hfree)

theorem fat32Unlink_dir (hE : E.Lawful) (hg : Good E w)
    (ha : hasAttr e.attr attrDirectory = true) :
    Runs (fat32Unlink fuel e) w (fun _ w' => Step E w w' ∧ E.vol w' = E.vol w)
      (fun _ => True) := by
  unfold fat32Unlink
  refine Runs.get_bind ?_
  rw [hg.mount, hE.fits.mounted, ha]
  exact Runs.pure ⟨hg.step, rfl⟩

theorem fat32Rmdir_file (hE : E.Lawful) (hg : Good E w)
    (ha : hasAttr e.attr attrDirectory = false) :
    Runs (fat32Rmdir fuel e) w (fun r w' => Step E w w' ∧ E.vol w' = E.vol w ∧ r ≠ fat32Ok)
      (fun _ => True) := by
  unfold fat32Rmdir
  refine Runs.get_bind ?_
  rw [hg.mount, hE.fits.mounted, ha]
  exact Runs.pure ⟨hg.step, rfl, by decide⟩

end Refused

-- The names passed are C strings.
def Op.Text : Op → Prop
  | .create _ name => isCString name
  | .mkdir _ name => isCString name
  | .rename _ _ name => isCString name
  | _ => True

-- Directories that exist and entries as they are on the volume are passed, save where the call is
-- refused anyway. A directory is renamed only within its parent, none gets a name that marks its
-- slot as deleted, and one that is removed has no subdirectories.
def Op.Orderly (E : Env) (V : Vol) : Op → Prop
  | .create d _ => IsDir E.mount E.clusters V (dirHead E.mount d)
  | .mkdir d name => IsDir E.mount E.clusters V (dirHead E.mount d) ∧
      (name.head? ≠ some 0xE5 ∨ spare E.limit E.clusters V = 0 ∨
        ∃ l, Link E.clusters V fat32Eof (dirHead E.mount d) l ∧ E.Taken V d name l)
  | .write .. => True
  | .unlink e => hasAttr e.attr attrDirectory = true ∨ Current E.mount E.clusters V e
  | .rmdir e => hasAttr e.attr attrDirectory = false ∨ E.Busy V e.cluster ∨
      (Current E.mount E.clusters V e ∧ ∀ c, ¬Above E.mount E.clusters V e.cluster c)
  | .rename e d name => IsDir E.mount E.clusters V (dirHead E.mount d) ∧
      ((∃ l, Link E.clusters V fat32Eof (dirHead E.mount d) l ∧ E.Full V l) ∨
        (Current E.mount E.clusters V e ∧ (hasAttr e.attr attrDirectory = true →
          dirHead E.mount d = dirHead E.mount e.dirCluster ∧ name.head? ≠ some 0xE5)))

-- A call as the shell issues it, and the directories there are before and after it.
inductive DirStep : World × Set Nat → Op → World × Set Nat → Prop
  | create {w w' : World} {D : Set Nat} {fuel d : Nat} {name : List UInt8}
      {r : Except Int Fat32Entry} : fat32Create fuel d name w = (some r, w') →
      DirStep (w, D) (.create d name) (w', D)
  | mkdir {w w' : World} {D : Set Nat} {fuel d : Nat} {name : List UInt8}
      {r : Except Int Fat32Entry} : fat32Mkdir fuel d name w = (some r, w') →
      DirStep (w, D) (.mkdir d name) (w', madeDirs D r)
  | unlink {w w' : World} {D : Set Nat} {fuel : Nat} {e : Fat32Entry} {r : Int} :
      fat32Unlink fuel e w = (some r, w') → DirStep (w, D) (.unlink e) (w', D)
  | rmdir {w w' : World} {D : Set Nat} {fuel : Nat} {e : Fat32Entry} {r : Int} :
      fat32Rmdir fuel e w = (some r, w') → DirStep (w, D) (.rmdir e) (w', keptDirs D e r)
  | rename {w w' : World} {D : Set Nat} {fuel d : Nat} {e : Fat32Entry} {name : List UInt8}
      {r : Int × Fat32Entry} : fat32Rename fuel e d name w = (some r, w') →
      DirStep (w, D) (.rename e d name) (w', D)

def forester (N : Nat) : System (World × Set Nat) Op where
  init s := MountedAt N s.1 ∧ Calm s.1 ∧ Consistent s.1.mount N (volume N s.1) ∧
    DirTree s.1.mount N (volume N s.1) s.2
  step s op s' := op.Text ∧ op.Roomy (worldEnv N s.1 anyRule) (volume N s.1) ∧ DirStep s op s'

section Runs

variable {N fuel d : Nat} {w w' : World} {D : Set Nat} {op : Op} {e : Fat32Entry}
  {name : List UInt8}

theorem Planted.isDir (h : Planted w.mount N (volume N w) D) (hm : MountedAt N w)
    (hd : IsDir w.mount N (volume N w) d) : d ∈ D :=
  h.2.elim fun _ hs => hs.isDir hm.fits.small hd

theorem create_planted (hm : MountedAt N w) (hcalm : Calm w)
    (ht : Planted w.mount N (volume N w) D)
    (hroom : (Op.create d name).Roomy (worldEnv N w anyRule) (volume N w))
    (hv : (Op.create d name).Orderly (worldEnv N w anyRule) (volume N w)) :
    Runs (fat32Create fuel d name) w (fun _ w' => Step (worldEnv N w anyRule) w w' ∧
      Planted w.mount N ((worldEnv N w anyRule).vol w') D) (fun _ => True) := by
  have hd := ht.isDir hm hv
  obtain ⟨htree, H, hs⟩ := ht
  obtain ⟨l, hl⟩ := hs.chain (hs.dirs hd)
  refine (fat32Create_runs hm.lawful (hm.good (legal_any w.trace)) loose_any
    (hs.valid (hs.dirs hd)) hl ((hroom l hl).imp_right (Or.imp_right
      (fun h => ⟨h, hcalm.no_fatFails, hcalm.no_ataFails⟩)))).mono ?_ (fun _ _ => trivial)
  exact fun r w' h => ⟨h.1, h.2.planted hcalm.quiet hm.fits hs hd hl htree⟩

theorem mkdir_planted (hm : MountedAt N w) (hcalm : Calm w)
    (ht : Planted w.mount N (volume N w) D) (hname : isCString name)
    (hroom : (Op.mkdir d name).Roomy (worldEnv N w anyRule) (volume N w))
    (hv : (Op.mkdir d name).Orderly (worldEnv N w anyRule) (volume N w)) :
    Runs (fat32Mkdir fuel d name) w (fun r w' => Step (worldEnv N w anyRule) w w' ∧
      Planted w.mount N ((worldEnv N w anyRule).vol w') (madeDirs D r)) (fun _ => True) := by
  obtain ⟨hdir, hv⟩ := hv
  have hd := ht.isDir hm hdir
  obtain ⟨htree, H, hs⟩ := ht
  obtain ⟨l, hl⟩ := hs.chain (hs.dirs hd)
  have hq := hcalm.quiet (N := N)
  have hg := hm.good (legal_any w.trace)
  have hmake : ∀ hfirst : name.head? ≠ some 0xE5 ∨
      (worldEnv N w anyRule).Taken (volume N w) d name l,
      Runs (fat32Mkdir fuel d name) w (fun r w' => Step (worldEnv N w anyRule) w w' ∧
        Planted w.mount N ((worldEnv N w anyRule).vol w') (madeDirs D r)) (fun _ => True) := by
    intro hfirst
    refine (fat32Mkdir_runs hm.lawful hg loose_any hs hd hl ((hroom l hl).imp_right
      (fun h => ⟨h, hcalm.no_fatFails, hcalm.no_ataFails, hcalm.no_ataFails,
        .inr hcalm.no_ataFails⟩))).mono ?_ (fun _ _ => trivial)
    exact fun r w' h => ⟨h.1, h.2.planted hq hm.fits hs hd hl hname hfirst htree⟩
  rcases hv with hfirst | hspare | ⟨l', hl', htaken⟩
  · exact hmake (.inl hfirst)
  · refine (fat32Mkdir_full hm.lawful hg loose_any hq hl ((hroom l hl).imp_right
      (fun h => h.elim And.right (fun h => h.mono (by decide)))) hspare).mono ?_
      (fun _ _ => trivial)
    rintro r w' ⟨hstep, hsame, c, rfl⟩
    exact ⟨hstep, hsame.symm ▸ ⟨htree, H, hs⟩⟩
  · exact hmake (.inr (hl'.unique (eof_stops hm.fits.small) hl ▸ htaken))

theorem unlink_planted (hm : MountedAt N w) (hcalm : Calm w)
    (ht : Planted w.mount N (volume N w) D)
    (hv : (Op.unlink e).Orderly (worldEnv N w anyRule) (volume N w)) :
    Runs (fat32Unlink fuel e) w (fun _ w' => Step (worldEnv N w anyRule) w w' ∧
      Planted w.mount N ((worldEnv N w anyRule).vol w') D) (fun _ => True) := by
  have hg := hm.good (legal_any w.trace)
  have hsame : ∀ {w'}, (worldEnv N w anyRule).vol w' = volume N w →
      Planted w.mount N ((worldEnv N w anyRule).vol w') D := fun h => h ▸ ht
  cases ha : hasAttr e.attr attrDirectory with
  | true =>
    exact (fat32Unlink_dir hm.lawful hg ha).mono (fun _ _ h => ⟨h.1, hsame h.2⟩) (fun _ h => h)
  | false =>
    obtain ⟨hdir, l, x, he⟩ := hv.resolve_left (fun h => by cases ha.symm.trans h)
    have hd := ht.isDir hm hdir
    obtain ⟨htree, H, hs⟩ := ht
    refine (fat32Unlink_runs hm.lawful hg loose_any hs hdir he).mono ?_ (fun _ _ => trivial)
    rintro r w' ⟨hstep, h | hrem⟩
    · exact ⟨hstep, hsame h⟩
    · exact ⟨hstep, hrem.file_planted hcalm.quiet hm.fits hs hd he ha htree⟩

theorem rmdir_planted (hm : MountedAt N w) (hcalm : Calm w)
    (ht : Planted w.mount N (volume N w) D)
    (hv : (Op.rmdir e).Orderly (worldEnv N w anyRule) (volume N w)) :
    Runs (fat32Rmdir fuel e) w (fun r w' => Step (worldEnv N w anyRule) w w' ∧
      Planted w.mount N ((worldEnv N w anyRule).vol w') (keptDirs D e r)) (fun _ => True) := by
  have hg := hm.good (legal_any w.trace)
  have hsame : ∀ {w' r}, (worldEnv N w anyRule).vol w' = volume N w → r ≠ fat32Ok →
      Planted w.mount N ((worldEnv N w anyRule).vol w') (keptDirs D e r) := fun h hr => by
    rw [keptDirs, if_neg hr, h]
    exact ht
  cases ha : hasAttr e.attr attrDirectory with
  | false =>
    exact (fat32Rmdir_file hm.lawful hg ha).mono (fun _ _ h => ⟨h.1, hsame h.2.1 h.2.2⟩)
      (fun _ h => h)
  | true =>
    rcases hv.resolve_left (fun h => by cases ha.symm.trans h) with
      ⟨lc, hlc, hlist⟩ | ⟨⟨hdir, l, x, he⟩, hleaf⟩
    · exact (fat32Rmdir_refuses hm.lawful hg loose_any hlc hlist hcalm.no_listFails).mono
        (fun _ _ h => ⟨h.1, hsame h.2.1 h.2.2⟩) (fun _ _ => trivial)
    · have hd := ht.isDir hm hdir
      obtain ⟨htree, H, hs⟩ := ht
      have hq := hcalm.quiet (N := N)
      refine (fat32Rmdir_ends hm.lawful hg loose_any hs hdir he).mono ?_ (fun _ _ => trivial)
      rintro r w' ⟨hstep, ⟨h, hr⟩ | ⟨hrem, hr⟩⟩
      · exact ⟨hstep, hsame h (hr.resolve_right hcalm.no_listFails)⟩
      · rw [keptDirs, if_pos (hr.resolve_right (hq.delete _))]
        exact ⟨hstep, hrem.dir_planted hq hm.fits hs hd he ha hleaf htree⟩

theorem rename_planted (hm : MountedAt N w) (hcalm : Calm w)
    (ht : Planted w.mount N (volume N w) D) (hname : isCString name)
    (hroom : (Op.rename e d name).Roomy (worldEnv N w anyRule) (volume N w))
    (hv : (Op.rename e d name).Orderly (worldEnv N w anyRule) (volume N w)) :
    Runs (fat32Rename fuel e d name) w (fun _ w' => Step (worldEnv N w anyRule) w w' ∧
      Planted w.mount N ((worldEnv N w anyRule).vol w') D) (fun _ => True) := by
  obtain ⟨hdir', hv⟩ := hv
  have hg := hm.good (legal_any w.trace)
  have hd' := ht.isDir hm hdir'
  obtain ⟨htree, H, hs⟩ := ht
  obtain ⟨l', hl'⟩ := hs.chain (hs.dirs hd')
  have hgrow := (hroom l' hl').imp_right
    (fun h => (⟨h, hcalm.no_fatFails, hcalm.no_ataFails⟩ : (worldEnv N w anyRule).CanGrow _))
  rcases hv with ⟨l, hl, hfull⟩ | ⟨⟨hdir, l, x, he⟩, hstay⟩
  · obtain rfl := hl.unique (eof_stops hm.fits.small) hl'
    refine (fat32Rename_full hm.lawful hg loose_any (hs.valid (hs.dirs hd')) hl hgrow hfull).mono
      ?_ (fun _ _ => trivial)
    exact fun r w' h => ⟨h.1, h.2.symm ▸ ⟨htree, H, hs⟩⟩
  · have hd := hs.isDir hm.fits.small hdir
    refine (fat32Rename_runs hm.lawful hg loose_any hs hd hd' hl' hgrow name).mono ?_
      (fun _ _ => trivial)
    exact fun r w' h => ⟨h.1,
      h.2.planted hcalm.quiet hm.fits hs hd he hd' hl' hname hstay htree⟩

structure Forested (N : Nat) (s : World × Set Nat) : Prop where
  mounted : MountedAt N s.1
  calm : Calm s.1
  planted : Planted s.1.mount N (volume N s.1) s.2

theorem forested_start {s : World × Set Nat} (h : (forester N).init s) : Forested N s := by
  obtain ⟨hm, hcalm, ⟨D, H, hs⟩, ht⟩ := h
  exact ⟨hm, hcalm, ht, H, ht.dirs ▸ hs.reached hm.fits.small⟩

theorem Forested.next {D' : Set Nat} (h : Forested N (w, D))
    (hs : Step (worldEnv N w anyRule) w w' ∧
      Planted w.mount N ((worldEnv N w anyRule).vol w') D') : Forested N (w', D') := by
  obtain ⟨hstep, ht⟩ := hs
  have hmount : w'.mount = w.mount := hstep.good.mount
  refine ⟨hstep.good.mountedAt h.mounted, hstep.good.calm h.calm, ?_⟩
  change Planted w'.mount N (volume N w') D'
  rw [hmount, ← hstep.good.volume_eq]
  exact ht

theorem Forested.step {s s' : World × Set Nat} (h : Forested N s)
    (hv : op.Orderly (worldEnv N s.1 anyRule) (volume N s.1)) (hstep : (forester N).step s op s') :
    Forested N s' := by
  have hm := h.mounted
  have hcalm := h.calm
  have ht := h.planted
  obtain ⟨htext, hroom, hrun⟩ := hstep
  cases hrun with
  | create hrun => exact h.next ((create_planted hm hcalm ht hroom hv).result hrun)
  | mkdir hrun => exact h.next ((mkdir_planted hm hcalm ht htext hroom hv).result hrun)
  | unlink hrun => exact h.next ((unlink_planted hm hcalm ht hv).result hrun)
  | rmdir hrun => exact h.next ((rmdir_planted hm hcalm ht hv).result hrun)
  | rename hrun => exact h.next ((rename_planted hm hcalm ht htext hroom hv).result hrun)

def orderly (N : Nat) : System (World × Set Nat) Op :=
  (forester N).restrict (fun s op => op.Orderly (worldEnv N s.1 anyRule) (volume N s.1))

def forestedInvariant (N : Nat) : (orderly N).Invariant where
  holds := Forested N
  start := forested_start
  step h ht := h.step ht.1 ht.2

end Runs

theorem dir_tree_kept {N : Nat} {w : World} {D : Set Nat} (h : (orderly N).Reach (w, D)) :
    DirTree w.mount N (volume N w) D ∧
      ∀ c ∈ D, ¬Relation.TransGen (Above w.mount N (volume N w)) c c := by
  have ht : DirTree w.mount N (volume N w) D := ((forestedInvariant N).reach h).planted.1
  exact ⟨ht, fun c hc => ht.rooted.acyclic hc⟩

section Fresh

variable {k : Nat} {name : List UInt8} {w : World}

theorem fresh_no_subDir {p : Nat × Nat} {c : Nat} :
    ¬SubDir freshMount 5 (volume 5 freshWorld) 2 p c := by
  rintro ⟨⟨l, hl, hp⟩, -, hn, -, -, -⟩
  obtain rfl := hl.unique (eof_stops (by decide)) fresh_link
  obtain ⟨x, i⟩ := p
  obtain rfl : x = 2 := List.mem_singleton.mp hp
  exact fresh_root i hn

theorem fresh_tree : DirTree freshMount 5 (volume 5 freshWorld) {2} := by
  refine ⟨⟨rfl, ?_, ?_, ?_⟩, ?_, ?_⟩
  · rintro a b rfl ⟨p, hsub⟩
    exact absurd hsub fresh_no_subDir
  · rintro a a' b rfl rfl - -
    rfl
  · rintro b rfl
    exact .refl
  · rintro d rfl d' rfl p p' c hsub -
    exact absurd hsub fresh_no_subDir
  · rintro d rfl c ⟨p, hsub⟩
    exact absurd hsub fresh_no_subDir

theorem fresh_planted : (forester 5).init (freshWorld, {2}) :=
  ⟨disk_mounted .., fresh_calm, fresh_consistent, fresh_tree⟩

theorem mkdir_roomy (hcalm : Calm w) (hmount : w.mount = freshMount)
    (hend : (volume 5 w).fat 2 = fat32Eof)
    (hidx : freeIndex (volume 5 w) (entriesPerClust w.mount) [2] = some k)
    (hspare : 1 ≤ spare (worldEnv 5 w anyRule).limit 5 (volume 5 w)) :
    (Op.mkdir 0 name).Roomy (worldEnv 5 w anyRule) (volume 5 w) := by
  intro l hl
  obtain rfl := hl.unique (eof_stops (show 5 ≤ 0x0FFFFFF8 by decide)) (root_link hmount hend)
  exact .inr (.inl ⟨⟨fun hn => (by cases hidx.symm.trans hn), hcalm.no_fatFails⟩, .inr hspare⟩)

end Fresh

def dirEntry (name : List UInt8) (cluster dirIndex : Nat) : Fat32Entry where
  name := name
  attr := attrDirectory
  cluster := cluster
  size := 0
  dirCluster := 0
  dirIndex := dirIndex

-- "A" in the empty root directory, and "B" beside it.
def firstDir : World := (fat32Mkdir 100 0 [0x41] freshWorld).2

def secondDir : World := (fat32Mkdir 100 0 [0x42] firstDir).2

-- "B" moved into "A".
def movedDir : World := (fat32Rename 100 (dirEntry [0x42] 4 1) 3 [0x42] secondDir).2

section Moved

variable {d k : Nat} {e : Fat32Entry} {name : List UInt8} {D : Set Nat} {w : World}

theorem orderly_forester {N : Nat} (h : (orderly N).Reach (w, D)) : (forester N).Reach (w, D) :=
  h.of_restrict

theorem orderly_calm {N : Nat} (h : (orderly N).Reach (w, D)) : Calm w :=
  ((forestedInvariant N).reach h).calm

theorem mkdir_next {r : Except Int Fat32Entry} (h : (fat32Mkdir 100 0 name w).1 = some r)
    (hname : isCString name) (hfirst : name.head? ≠ some 0xE5)
    (hroom : (Op.mkdir 0 name).Roomy (worldEnv 5 w anyRule) (volume 5 w)) :
    (orderly 5).step (w, D) (.mkdir 0 name) ((fat32Mkdir 100 0 name w).2, madeDirs D r) :=
  ⟨⟨root_dir w, .inl hfirst⟩, hname, hroom, .mkdir (Prod.ext h rfl)⟩

theorem rename_roomy (hcalm : Calm w) (hd : Valid 5 d)
    (hend : (volume 5 w).fat d = fat32Eof)
    (hidx : freeIndex (volume 5 w) (entriesPerClust w.mount) [d] = some k) :
    (Op.rename e d name).Roomy (worldEnv 5 w anyRule) (volume 5 w) := by
  intro l hl
  have hhead : dirHead w.mount d = d :=
    if_pos (Nat.ne_of_gt (Nat.lt_of_lt_of_le (by decide) hd.1))
  have hone : Link 5 (volume 5 w) fat32Eof (dirHead w.mount d) [d] :=
    hhead.symm ▸ ⟨rfl, hd, hend⟩
  obtain rfl := hl.unique (eof_stops (show 5 ≤ 0x0FFFFFF8 by decide)) hone
  exact .inl ⟨fun hn => (by cases hidx.symm.trans hn), hcalm.no_fatFails⟩

theorem rename_next {r : Int × Fat32Entry} (h : (fat32Rename 100 e d name w).1 = some r)
    (hname : isCString name)
    (hroom : (Op.rename e d name).Roomy (worldEnv 5 w anyRule) (volume 5 w)) :
    (forester 5).step (w, D) (.rename e d name) ((fat32Rename 100 e d name w).2, D) :=
  ⟨hname, hroom, .rename (Prod.ext h rfl)⟩

theorem firstDir_reach : (orderly 5).Reach (firstDir, insert 3 {2}) := by
  have hrun : (fat32Mkdir 100 0 [0x41] freshWorld).1 = some (.ok (dirEntry [0x41] 3 0)) := by
    decide +kernel
  have hroom := @mkdir_roomy 0 [0x41] freshWorld fresh_calm rfl fresh_link.2.2
    (by decide +kernel) (by decide +kernel)
  have hstep := mkdir_next (D := {2}) hrun (by simp [isCString]) (by decide) hroom
  exact .next (.start fresh_planted) hstep
theorem dir_tree_kept_made : DirTree firstDir.mount 5 (volume 5 firstDir) (insert 3 {2}) ∧
    ∀ c ∈ insert 3 ({2} : Set Nat),
      ¬Relation.TransGen (Above firstDir.mount 5 (volume 5 firstDir)) c c :=
  dir_tree_kept firstDir_reach

theorem secondDir_reach : (orderly 5).Reach (secondDir, insert 4 (insert 3 {2})) := by
  have hrun : (fat32Mkdir 100 0 [0x42] firstDir).1 = some (.ok (dirEntry [0x42] 4 1)) := by
    decide +kernel
  obtain ⟨hmount, hend, hidx, hspare⟩ : firstDir.mount = freshMount ∧
      (volume 5 firstDir).fat 2 = fat32Eof ∧
      freeIndex (volume 5 firstDir) (entriesPerClust firstDir.mount) [2] = some 1 ∧
      1 ≤ spare (worldEnv 5 firstDir anyRule).limit 5 (volume 5 firstDir) := by
    decide +kernel
  have hcalm := orderly_calm firstDir_reach
  have hroom := @mkdir_roomy 1 [0x42] firstDir hcalm hmount hend hidx hspare
  have hstep := mkdir_next (w := firstDir) (D := insert 3 {2}) hrun (by simp [isCString])
    (by decide) hroom
  exact .next firstDir_reach hstep

theorem movedDir_reach : (forester 5).Reach (movedDir, insert 4 (insert 3 {2})) := by
  have hrun : (fat32Rename 100 (dirEntry [0x42] 4 1) 3 [0x42] secondDir).1 =
      some (fat32Ok, { dirEntry [0x42] 4 1 with dirCluster := 3, dirIndex := 2 }) := by
    decide +kernel
  obtain ⟨hmount, hend, hidx⟩ : secondDir.mount = freshMount ∧
      (volume 5 secondDir).fat 3 = fat32Eof ∧
      freeIndex (volume 5 secondDir) (entriesPerClust secondDir.mount) [3] = some 2 := by
    decide +kernel
  have hcalm := orderly_calm secondDir_reach
  have hroom : (Op.rename (dirEntry [0x42] 4 1) 3 [0x42]).Roomy (worldEnv 5 secondDir anyRule)
      (volume 5 secondDir) :=
    rename_roomy (k := 2) hcalm (by decide) hend hidx
  have hstep := rename_next (w := secondDir) (D := insert 4 (insert 3 {2})) hrun
    (by simp [isCString]) hroom
  exact .next (orderly_forester secondDir_reach) hstep

theorem dir_tree_kept_fails : ¬∀ (N : Nat) (w : World) (D : Set Nat), (forester N).Reach (w, D) →
    DirTree w.mount N (volume N w) D ∧
      ∀ c ∈ D, ¬Relation.TransGen (Above w.mount N (volume N w)) c c := by
  intro h
  obtain ⟨hmount, hend, hn, ha, hc, hdotdot⟩ : movedDir.mount = freshMount ∧
      (volume 5 movedDir).fat 3 = fat32Eof ∧ Names (slotAt (volume 5 movedDir) (3, 2)) ∧
      hasAttr (slotAttr (slotAt (volume 5 movedDir) (3, 2))) attrDirectory = true ∧
      slotCluster (slotAt (volume 5 movedDir) (3, 2)) = 4 ∧
      dotdotOf (volume 5 movedDir) 4 = 2 := by
    decide +kernel
  obtain ⟨ht, -⟩ := h 5 _ _ movedDir_reach
  have hsub : SubDir movedDir.mount 5 (volume 5 movedDir) 3 (3, 2) 4 := by
    refine ⟨⟨[3], ⟨rfl, by decide, hend⟩, List.mem_singleton_self 3⟩, ?_, hn,
      fun _ _ => le_rfl, ha, hc⟩
    rw [hmount]
    decide
  have hparent := ht.dotdot 3 (.inr (.inl rfl)) 4 ⟨_, hsub⟩
  rw [hdotdot, hmount] at hparent
  exact absurd hparent (by decide)

end Moved

end Fat32
