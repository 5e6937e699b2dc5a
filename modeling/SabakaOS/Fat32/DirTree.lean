import SabakaOS.Library.Rooted
import SabakaOS.Fat32.UniqueNames

namespace Fat32

open Word ByteMemory Prog Chain

-- Slot p of directory d holds the entry of its subdirectory c.
structure SubDir (m : Mount) (N : Nat) (V : Vol) (d : Nat) (p : Nat × Nat) (c : Nat) : Prop where
  chain : ∃ l, Link N V fat32Eof d l ∧ p.1 ∈ l
  index : p.2 < entriesPerClust m
  names : Names (slotAt V p)
  notDots : p.1 = d → d ≠ m.rootCluster → 2 ≤ p.2
  attr : hasAttr (slotAttr (slotAt V p)) attrDirectory = true
  start : slotCluster (slotAt V p) = c

def Above (m : Mount) (N : Nat) (V : Vol) (d c : Nat) : Prop := ∃ p, SubDir m N V d p c

-- The cluster in the '..' of directory c.
def dotdotOf (V : Vol) (c : Nat) : Nat := slotCluster (slotAt V (c, 1))

-- The directories D form a tree, in which each has one entry and a '..' that names its parent.
structure DirTree (m : Mount) (N : Nat) (V : Vol) (D : Set Nat) : Prop where
  rooted : Rooted m.rootCluster D (Above m N V)
  once : ∀ d ∈ D, ∀ d' ∈ D, ∀ p p' c, SubDir m N V d p c → SubDir m N V d' p' c → p = p'
  dotdot : ∀ d ∈ D, ∀ c, Above m N V d c → dirHead m (dotdotOf V c) = d

def DirSlot (s : Slot) (c : Nat) : Prop :=
  Names s ∧ hasAttr (slotAttr s) attrDirectory = true ∧ slotCluster s = c

section Subdirectories

variable {m : Mount} {N : Nat} {V V' : Vol} {D H : Set Nat} {X : Set (Nat × Nat)}
  {b c d g i n x y : Nat} {l l1 : List Nat} {p q : Nat × Nat} {slot : List UInt8}

theorem SubDir.isDir (h : SubDir m N V d p c) (hd : IsDir m N V d) : IsDir m N V c := by
  obtain ⟨⟨l, hl, hp⟩, hi, hn, hdots, ha, rfl⟩ := h
  exact .sub hd hl hp hi hn hdots ha

theorem SubDir.of (h : SubDir m N V d p c) (hs : slotAt V' p = slotAt V p)
    (hl : ∃ l, Link N V' fat32Eof d l ∧ p.1 ∈ l) : SubDir m N V' d p c :=
  ⟨hl, h.index, hs ▸ h.names, h.notDots, hs ▸ h.attr, hs ▸ h.start⟩

theorem SubDir.live (h : SubDir m N V d p c) (hs : Sound m N V D H ∅) (hN : N ≤ 0x0FFFFFF8)
    (hd : d ∈ D) : Live m N V D p := by
  obtain ⟨⟨l, hl, hp⟩, hi, hn, hdots, -, -⟩ := h
  exact hs.live_of_chain hN hd hl hp hi hn hdots

theorem SubDir.mem (h : SubDir m N V d p c) (hs : Sound m N V D H ∅) (hN : N ≤ 0x0FFFFFF8)
    (hd : d ∈ D) : c ∈ D ∧ c ≠ m.rootCluster := by
  have hheld := hs.holds p (h.live hs hN hd) (by simp)
  unfold Holds at hheld
  rwa [if_pos h.attr, h.start] at hheld

theorem SubDir.once (h : SubDir m N V d p c) (h' : SubDir m N V g q c) (hs : Sound m N V D H ∅)
    (hN : N ≤ 0x0FFFFFF8) (hd : d ∈ D) (hg : g ∈ D) : p = q := by
  by_contra hne
  have h0 := hs.apart p q (h.live hs hN hd) (h'.live hs hN hg) (by simp) (by simp) hne
    (h.start.trans h'.start.symm)
  rw [h.start] at h0
  exact absurd (h0 ▸ (hs.valid (hs.dirs (h.mem hs hN hd).1))).1 (by decide)

theorem Sound.same_dir (hs : Sound m N V D H X) (hd : d ∈ D) (hg : g ∈ D)
    (hl : Link N V fat32Eof d l) (hl1 : Link N V fat32Eof g l1) (hx : x ∈ l) (hx1 : x ∈ l1) :
    d = g := by
  by_contra hne
  exact hs.chains.apart d (hs.dirs hd) g (hs.dirs hg) hne _ _ hl hl1 x hx hx1

theorem dotdot_ne_slot (hc : c ∈ D) (hroot : c ≠ m.rootCluster)
    (hdots : x ∈ D → x ≠ m.rootCluster → 2 ≤ i) : (c, 1) ≠ (x, i) := by
  intro he
  obtain ⟨rfl, rfl⟩ := Prod.mk.inj he
  exact absurd (hdots hc hroot) (by decide)

theorem Sound.dirTree (hs : Sound m N V D H ∅) (hN : N ≤ 0x0FFFFFF8)
    (hrooted : Rooted m.rootCluster D (Above m N V))
    (hdotdot : ∀ d ∈ D, ∀ c, Above m N V d c → dirHead m (dotdotOf V c) = d) :
    DirTree m N V D :=
  ⟨hrooted, fun _ hd _ hd' _ _ _ h h' => h.once h' hs hN hd hd', hdotdot⟩

theorem DirTree.dirs (h : DirTree m N V D) : D = {d | IsDir m N V d} := by
  refine Set.Subset.antisymm (fun d hd => ?_) (fun d hd => ?_)
  · have hpath := h.rooted.reach hd
    clear hd
    induction hpath with
    | refl => exact .root
    | tail _ hbc ih => exact hbc.elim fun _ hsub => hsub.isDir ih
  · change IsDir m N V d at hd
    induction hd with
    | root => exact h.rooted.root_mem
    | sub _ hl hx hi hn hdots ha ih =>
      exact (h.rooted.closed ih ⟨_, ⟨_, hl, hx⟩, hi, hn, hdots, ha, rfl⟩).1

end Subdirectories

-- No directory has lost or got a subdirectory, and their '..' are as they were.
structure SameTree (m : Mount) (N : Nat) (D : Set Nat) (V V' : Vol) : Prop where
  above : ∀ g ∈ D, ∀ b, Above m N V' g b ↔ Above m N V g b
  dotdot : ∀ b ∈ D, b ≠ m.rootCluster → dotdotOf V' b = dotdotOf V b

-- Directory d has been given the slot q, and nothing else has changed in any directory.
structure Slotted (m : Mount) (N : Nat) (D : Set Nat) (d : Nat) (q : Nat × Nat) (s : Slot)
    (V V' : Vol) : Prop where
  unnamed : ∀ g ∈ D, ∀ l, Link N V fat32Eof g l → q.1 ∈ l → ¬Names (slotAt V q)
  chain : ∀ g ∈ D, ∀ l, Link N V fat32Eof g l → ∃ more, Link N V' fat32Eof g (l ++ more)
  kept : ∀ g ∈ D, ∀ l, Link N V fat32Eof g l → ∀ p, p.1 ∈ l → p ≠ q → slotAt V' p = slotAt V p
  sub : ∀ g ∈ D, ∀ p c, SubDir m N V' g p c ↔
    SubDir m N V g p c ∨ (g = d ∧ p = q ∧ DirSlot s c)
  dotdot : ∀ b ∈ D, b ≠ m.rootCluster → dotdotOf V' b = dotdotOf V b

section Changes

variable {m : Mount} {N : Nat} {V V' V'' : Vol} {D H : Set Nat} {X : Set (Nat × Nat)}
  {b c d g i n x y : Nat} {l l1 : List Nat} {p q : Nat × Nat} {slot : List UInt8} {s : Slot}

theorem SameTree.refl : SameTree m N D V V := ⟨fun _ _ _ => Iff.rfl, fun _ _ _ => rfl⟩

theorem SameTree.dirTree (h : SameTree m N D V V') (ht : DirTree m N V D)
    (hs : Sound m N V' D H ∅) (hN : N ≤ 0x0FFFFFF8) : DirTree m N V' D := by
  refine hs.dirTree hN (ht.rooted.congr h.above) (fun g hg b hb => ?_)
  have hb := (h.above g hg b).mp hb
  obtain ⟨hbD, hroot⟩ := ht.rooted.closed hg hb
  rw [h.dotdot b hbD hroot]
  exact ht.dotdot g hg b hb

theorem Kept.subDir (h : Kept N D V V') (hg : g ∈ D) :
    SubDir m N V' g p c ↔ SubDir m N V g p c := by
  constructor
  · intro hsub
    obtain ⟨l, hl, hp⟩ := hsub.chain
    have hl := (h.link g hg l).mp hl
    exact hsub.of (by rw [slotAt, slotAt, h.data _ ⟨g, hg, l, hl, hp⟩]) ⟨l, hl, hp⟩
  · intro hsub
    obtain ⟨l, hl, hp⟩ := hsub.chain
    exact hsub.of (by rw [slotAt, slotAt, h.data _ ⟨g, hg, l, hl, hp⟩])
      ⟨l, (h.link g hg l).mpr hl, hp⟩

theorem Kept.sameTree (h : Kept N D V V') (hs : Sound m N V D H X) (hN : N ≤ 0x0FFFFFF8) :
    SameTree m N D V V' :=
  ⟨fun _ hg _ => exists_congr fun _ => h.subDir hg,
    fun b hb _ => by rw [dotdotOf, dotdotOf, slotAt, slotAt, h.data b (hs.head_onDir hN hb)]⟩

theorem fill_slotted (hs : Sound m N V D H X) (hd : d ∈ D) (hl : Link N V fat32Eof d l)
    (hx : x ∈ l) (hi : i < entriesPerClust m) (hfree : SlotFree (slotAt V (x, i)))
    (hlen : slot.length = 32) :
    Slotted m N D d (x, i) (slotBytes slot) V (V.fill x i slot) := by
  have hdots := hs.notDots hfree
  have hunnamed : ¬Names (slotAt V (x, i)) := fun hn => hfree.elim hn.1 hn.2.1
  have hslot : ∀ p, p ≠ (x, i) → slotAt (V.fill x i slot) p = slotAt V p :=
    fun p hp => slotAt_setData ((slotEdit_fill i hlen).outside _) hp
  refine ⟨fun _ _ _ _ _ => hunnamed, fun g _ l hl => ⟨[], by rwa [List.append_nil]⟩,
    fun _ _ _ _ p _ hp => hslot p hp, fun g hg p c => ?_,
    fun b hb hroot => by
      rw [dotdotOf, dotdotOf, hslot _ (dotdot_ne_slot hb hroot hdots)]⟩
  constructor
  · intro hsub
    by_cases hp : p = (x, i)
    · subst hp
      obtain ⟨lg, hlg, hxg⟩ := hsub.chain
      have hlg : Link N V fat32Eof g lg := hlg
      refine .inr ⟨hs.same_dir hg hd hlg hl hxg hx, rfl, ?_⟩
      rw [← slotAt_fill (V := V) (x := x) (i := i) hlen]
      exact ⟨hsub.names, hsub.attr, hsub.start⟩
    · exact .inl (hsub.of (hslot p hp).symm hsub.chain)
  · rintro (hsub | ⟨rfl, rfl, hn, ha, hc⟩)
    · have hp : p ≠ (x, i) := fun hp => hunnamed (hp ▸ hsub.names)
      exact hsub.of (hslot p hp) hsub.chain
    · rw [← slotAt_fill (V := V) (x := x) (i := i) hlen] at hn ha hc
      refine ⟨⟨l, hl, hx⟩, hi, hn, fun hxg hroot => ?_, ha, hc⟩
      have hxg : x = g := hxg
      exact hdots (hxg ▸ hg) (hxg ▸ hroot)

-- A directory that goes on with a cleared cluster has no more entries than before.
theorem grow_slots (hs : Sound m N V D H X) (hN : N ≤ 0x0FFFFFF8) (hn : Valid N n)
    (hfree : V.fat n = 0) (hd : d ∈ D) (hl : Link N V fat32Eof d (l1 ++ [y])) :
    (∀ g ∈ D, ∀ l, Link N V fat32Eof g l →
      ∃ more, Link N ((V.grow n).setFat y n) fat32Eof g (l ++ more)) ∧
    (∀ g ∈ D, ∀ l, Link N V fat32Eof g l → ∀ p : Nat × Nat, p.1 ∈ l →
      slotAt ((V.grow n).setFat y n) p = slotAt V p) ∧
    (∀ g ∈ D, ∀ p c, SubDir m N ((V.grow n).setFat y n) g p c ↔ SubDir m N V g p c) := by
  obtain ⟨-, hready, hnew⟩ := grow_link_sound hs hN hn hfree hd hl
  have hdata : ∀ z, z ≠ n → ((V.grow n).setFat y n).data z = V.data z :=
    fun z hz => Function.update_of_ne hz _ _
  have hchain : ∀ g ∈ D, ∀ l, Link N V fat32Eof g l →
      ∃ more, Link N ((V.grow n).setFat y n) fat32Eof g (l ++ more) := by
    intro g hg lg hlg
    by_cases hgd : g = d
    · subst hgd
      obtain rfl := hlg.unique (eof_stops hN) hl
      exact ⟨[n], by rwa [List.append_assoc]⟩
    · exact ⟨[], by rw [List.append_nil]; exact (hready.others g (hs.dirs hg) hgd lg).mpr hlg⟩
  have hkept : ∀ g ∈ D, ∀ l, Link N V fat32Eof g l → ∀ p : Nat × Nat, p.1 ∈ l →
      slotAt ((V.grow n).setFat y n) p = slotAt V p := by
    intro g _ lg hlg p hp
    rw [slotAt, slotAt, hdata _ (ne_of_mem_of_not_mem hp (free_not_mem hlg hfree))]
  refine ⟨hchain, hkept, fun g hg p c => ?_⟩
  constructor
  · intro hsub
    have hpn : p.1 ≠ n := by
      intro hpn
      refine absurd hsub.names (not_names_zero (i := p.2) (y := p.1) ?_)
      rw [hpn]
      exact Function.update_self ..
    obtain ⟨lg, hlg, hp⟩ := hsub.chain
    refine hsub.of (by rw [slotAt, slotAt, hdata _ hpn]) ?_
    by_cases hgd : g = d
    · subst hgd
      obtain rfl := hlg.unique (eof_stops hN) hnew
      refine ⟨_, hl, ?_⟩
      simpa [hpn] using hp
    · exact ⟨lg, (hready.others g (hs.dirs hg) hgd lg).mp hlg, hp⟩
  · intro hsub
    obtain ⟨lg, hlg, hp⟩ := hsub.chain
    obtain ⟨more, hmore⟩ := hchain g hg lg hlg
    exact hsub.of (hkept g hg lg hlg p hp) ⟨_, hmore, List.mem_append_left _ hp⟩

theorem Placed.slotted {E : Env} {V V' : Vol} {k : Nat} (hf : Fits E.mount E.clusters)
    (hs : Sound E.mount E.clusters V D H X) (hd : d ∈ D) (hl : Link E.clusters V fat32Eof d l)
    (hno : ¬E.fatFails .writeDirEntry) (hlen : slot.length = 32)
    (hp : Placed E V slot 0 l (.ok k) V') :
    ∃ q, Slotted E.mount E.clusters D d q (slotBytes slot) V V' := by
  have hN := hf.small
  generalize hr : (Except.ok k : Except Int Nat) = r at hp
  cases hp with
  | nospace => cases hr
  | failed => cases hr
  | @filled k' x r hidx hx hres =>
    exact ⟨_, fill_slotted hs hd hl (List.mem_of_getElem? hx) (Nat.mod_lt _ hf.epc_pos)
      (freeIndex_free hf.epc_pos hidx hx) hlen⟩
  | @extended l1 l2 y n r V' hsplit hl2 _ hex =>
    obtain rfl := hl2.resolve_right hno
    subst hsplit
    obtain ⟨hok, -, hfree, V2, hV2, hres⟩ := hex
    obtain rfl := hV2.resolve_right (fun h => hno h.2)
    obtain ⟨rfl, -⟩ := hres.resolve_right (fun h => h.2.1.elim fun _ hc => by cases hr.trans hc)
    obtain ⟨hs2, -, hlink⟩ := grow_link_sound hs hN hok hfree hd hl
    obtain ⟨hchain, hkept, hsub⟩ := grow_slots hs hN hok hfree hd hl
    have hzero : ((V.grow n).setFat y n).data n = fun _ => 0 := Function.update_self ..
    have hfree0 : SlotFree (slotAt ((V.grow n).setFat y n) (n, 0)) := by
      refine .inl ?_
      rw [slotAt, hzero]
      rfl
    have hslot := fill_slotted hs2 hd hlink (by simp) hf.epc_pos hfree0 hlen
    refine ⟨(n, 0), fun g hg lg hlg hn => absurd hn (free_not_mem hlg hfree), fun g hg lg hlg => ?_,
      fun g hg lg hlg p hp hpq => ?_, fun g hg p c => ?_, fun b hb hroot => ?_⟩
    · obtain ⟨more, hmore⟩ := hchain g hg lg hlg
      obtain ⟨more', hmore'⟩ := hslot.chain g hg _ hmore
      exact ⟨more ++ more', by rwa [← List.append_assoc]⟩
    · obtain ⟨more, hmore⟩ := hchain g hg lg hlg
      rw [hslot.kept g hg _ hmore p (List.mem_append_left _ hp) hpq, hkept g hg lg hlg p hp]
    · rw [hslot.sub g hg p c, hsub g hg p c]
    · obtain ⟨lb, hlb⟩ := hs.chain (hs.dirs hb)
      have hself := hlb.head_mem (hs.valid (hs.dirs hb)) (eof_stops hN)
      rw [hslot.dotdot b hb hroot, dotdotOf, hkept b hb lb hlb (b, 1) hself]
      rfl

-- Where slot (x, i) is taken out of a directory.
theorem drop_subDir : SubDir m N (V.drop x i) g p c ↔ SubDir m N V g p c ∧ p ≠ (x, i) := by
  have hslot : ∀ p, p ≠ (x, i) → slotAt (V.drop x i) p = slotAt V p :=
    fun p hp => slotAt_setData ((slotEdit_delete i).outside _) hp
  constructor
  · intro hsub
    have hp : p ≠ (x, i) := fun hp => not_names_deleted (hp ▸ hsub.names)
    exact ⟨hsub.of (hslot p hp).symm hsub.chain, hp⟩
  · rintro ⟨hsub, hp⟩
    exact hsub.of (hslot p hp) hsub.chain

theorem drop_dotdot (hb : b ∈ D) (hroot : b ≠ m.rootCluster)
    (hdots : x ∈ D → x ≠ m.rootCluster → 2 ≤ i) : dotdotOf (V.drop x i) b = dotdotOf V b := by
  rw [dotdotOf, dotdotOf, Vol.drop,
    slotAt_setData ((slotEdit_delete i).outside _) (dotdot_ne_slot hb hroot hdots)]

end Changes

theorem not_dirSlot {name : List UInt8} {attr : UInt8} {cluster size c : Nat}
    (ha : hasAttr attr attrDirectory = false) :
    ¬DirSlot (slotBytes (newSlot name attr cluster size)) c := by
  rintro ⟨-, hdir, -⟩
  rw [slotAttr_newSlot, ha] at hdir
  cases hdir

theorem dirSlot_newSlot {name : List UInt8} {attr : UInt8} {cluster size c : Nat}
    (hname : isCString name) (hfirst : name.head? ≠ some 0xE5)
    (hvol : hasAttr attr attrVolumeId = false) (ha : hasAttr attr attrDirectory = true)
    (hc : cluster < 2 ^ 32) :
    DirSlot (slotBytes (newSlot name attr cluster size)) c ↔ c = cluster := by
  unfold DirSlot
  rw [slotAttr_newSlot, slotCluster_newSlot hc]
  exact ⟨fun h => h.2.2.symm, fun h => ⟨(names_newSlot hname hvol).mpr hfirst, ha, h.symm⟩⟩

theorem newDirBuffer_dotdot {c parent : Nat} (hp : parent < 2 ^ 32) :
    slotCluster (slotOf (newDirBuffer c parent) 1) = parent := by
  have h20 : slotOf (newDirBuffer c parent) 1 20 = UInt8.ofNat (parent / 65536) := rfl
  have h21 : slotOf (newDirBuffer c parent) 1 21 = UInt8.ofNat (parent / 65536 / 256) := rfl
  have h26 : slotOf (newDirBuffer c parent) 1 26 = UInt8.ofNat parent := rfl
  have h27 : slotOf (newDirBuffer c parent) 1 27 = UInt8.ofNat (parent / 256) := rfl
  simp only [slotCluster, readLE, h20, h21, h26, h27, UInt8.toNat_ofNat']
  omega

theorem dirHead_dirHead (m : Mount) (c : Nat) : dirHead m (dirHead m c) = dirHead m c := by
  by_cases h : dirHead m c = 0
  · rw [h]
    unfold dirHead at h ⊢
    split at h
    · exact absurd h ‹_›
    · rw [h]
      rfl
  · conv_lhs => rw [dirHead, if_pos h]

section NewDirectory

variable {m : Mount} {N n parent : Nat} {V : Vol} {f : Nat → UInt8}

theorem newDir_dotdot (hf : Fits m N)
    (hbuf : ∀ j < m.bytesPerClust, f j = newDirBuffer n parent j) (hp : parent < 2 ^ 32) :
    dotdotOf (V.setData n f) n = parent := by
  have hepc := hf.epc_eq
  have hspc := hf.spc
  rw [dotdotOf, newDir_slot hf hbuf (by omega)]
  exact newDirBuffer_dotdot hp

theorem newDir_leaf (hf : Fits m N) (hbuf : ∀ j < m.bytesPerClust, f j = newDirBuffer n parent j)
    (hl : Link N (V.setData n f) fat32Eof n [n]) (hroot : n ≠ m.rootCluster) {p : Nat × Nat}
    {c : Nat} : ¬SubDir m N (V.setData n f) n p c := by
  rintro ⟨⟨l, hl', hp⟩, hi, hn, hdots, -, -⟩
  obtain rfl := hl'.unique (eof_stops hf.small) hl
  obtain ⟨x, i⟩ := p
  obtain rfl : x = n := List.mem_singleton.mp hp
  have h2 : 2 ≤ i := hdots rfl hroot
  refine hn.1 ?_
  rw [newDir_slot hf hbuf hi, slotOf, if_pos (by decide)]
  exact newDirBuffer_rest x parent (by omega)

end NewDirectory

end Fat32
