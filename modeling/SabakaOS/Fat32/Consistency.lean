import Mathlib.Order.Interval.Finset.Nat
import SabakaOS.Library.Chain
import SabakaOS.Fat32.Directory
import SabakaOS.Fat32.Volume

namespace Fat32

open Word ByteMemory Chain

abbrev Link (N : Nat) (V : Vol) (e c : Nat) (l : List Nat) : Prop :=
  Path V.fat (Valid N) (· = e) c l

def slotAt (V : Vol) (p : Nat × Nat) : Slot := slotOf (V.data p.1) p.2

def Names (s : Slot) : Prop := s 0 ≠ 0x00 ∧ s 0 ≠ 0xE5 ∧ hasAttr (slotAttr s) attrVolumeId = false

instance (s : Slot) : Decidable (Names s) := inferInstanceAs (Decidable (_ ∧ _ ∧ _))

def OnDir (N : Nat) (V : Vol) (D : Set Nat) (x : Nat) : Prop :=
  ∃ d ∈ D, ∃ l, Link N V fat32Eof d l ∧ x ∈ l

-- The entry in slot p.2 of cluster p.1. The first two slots of a directory other than the root
-- hold its '.' and '..'.
structure Live (m : Mount) (N : Nat) (V : Vol) (D : Set Nat) (p : Nat × Nat) : Prop where
  onDir : OnDir N V D p.1
  index : p.2 < entriesPerClust m
  names : Names (slotAt V p)
  notDots : p.1 ∈ D → p.1 ≠ m.rootCluster → 2 ≤ p.2

-- What an entry may hold: the head of a directory, or of a file if it has any cluster.
def Holds (m : Mount) (D H : Set Nat) (s : Slot) : Prop :=
  if hasAttr (slotAttr s) attrDirectory then slotCluster s ∈ D ∧ slotCluster s ≠ m.rootCluster
  else slotCluster s = 0 ∨ slotCluster s ∈ H ∧ slotCluster s ∉ D

-- D holds the heads of the directories, H those of all chains; X are entries not accounted for.
structure Sound (m : Mount) (N : Nat) (V : Vol) (D H : Set Nat) (X : Set (Nat × Nat)) : Prop where
  root : m.rootCluster ∈ D
  dirs : D ⊆ H
  chains : Forest V.fat (Valid N) (· = fat32Eof) H
  dots : ∀ d ∈ D, d ≠ m.rootCluster → ∀ i < 2, V.data d (32 * i) = 0x2E
  holds : ∀ p, Live m N V D p → p ∉ X → Holds m D H (slotAt V p)
  apart : ∀ p q, Live m N V D p → Live m N V D q → p ∉ X → q ∉ X → p ≠ q →
    slotCluster (slotAt V p) = slotCluster (slotAt V q) → slotCluster (slotAt V p) = 0

def Unused (m : Mount) (N : Nat) (V : Vol) (D : Set Nat) (X : Set (Nat × Nat)) (c : Nat) : Prop :=
  ∀ p, Live m N V D p → p ∉ X → slotCluster (slotAt V p) ≠ c

section

variable {m : Mount} {N : Nat} {V V' : Vol} {D H D' H' : Set Nat} {X X' : Set (Nat × Nat)}
  {c d h i n x : Nat} {l l1 l2 : List Nat} {p : Nat × Nat}

theorem eof_stops (hN : N ≤ 0x0FFFFFF8) : ∀ c, c = fat32Eof → ¬Valid N c := by
  rintro c rfl hc
  unfold Valid fat32Eof at hc
  omega

theorem Live.of (hp : Live m N V' D' p) (hdir : OnDir N V D p.1) (hslot : slotAt V' p = slotAt V p)
    (hD : p.1 ∈ D → p.1 ∈ D') : Live m N V D p :=
  ⟨hdir, hp.index, hslot ▸ hp.names, fun hm => hp.notDots (hD hm)⟩

theorem Holds.mono {s : Slot} (hs : Holds m D H s) (hD : D ⊆ D') (hH : H ⊆ H')
    (hn : slotCluster s ∈ H → slotCluster s ∈ D' → slotCluster s ∈ D) : Holds m D' H' s := by
  unfold Holds at *
  split
  · rename_i ha
    rw [if_pos ha] at hs
    exact ⟨hD hs.1, hs.2⟩
  · rename_i ha
    rw [if_neg ha] at hs
    exact hs.imp_right (fun h => ⟨hH h.1, fun hd => h.2 (hn h.1 hd)⟩)

theorem Holds.diff {s : Slot} (hs : Holds m D H s) (hc : slotCluster s ≠ c) :
    Holds m (D \ {c}) (H \ {c}) s := by
  unfold Holds at *
  split
  · rename_i ha
    rw [if_pos ha] at hs
    exact ⟨⟨hs.1, hc⟩, hs.2⟩
  · rename_i ha
    rw [if_neg ha] at hs
    exact hs.imp_right (fun h => ⟨⟨h.1, hc⟩, fun hd => h.2 hd.1⟩)

theorem Holds.cases {s : Slot} (hs : Holds m D H s) (hD : D ⊆ H) :
    slotCluster s = 0 ∨ slotCluster s ∈ H := by
  unfold Holds at hs
  split at hs
  · exact .inr (hD hs.1)
  · exact hs.imp_right And.left

theorem free_not_mem (hl : Link N V fat32Eof h l) (hc : V.fat c = 0) : c ∉ l := by
  refine Path.not_mem hl ?_ ?_
  · rw [hc]
    exact fun h => absurd h.1 (by decide)
  · rw [hc]
    decide

theorem slotAt_setData {f : Nat → UInt8} {i : Nat} {q : Nat × Nat}
    (hf : ∀ j, ¬(32 * i ≤ j ∧ j < 32 * i + 32) → f j = V.data x j) (hq : q ≠ (x, i)) :
    slotAt (V.setData x f) q = slotAt V q := by
  obtain ⟨y, k⟩ := q
  by_cases hy : y = x
  · subst hy
    have hk : k ≠ i := fun hk => hq (by rw [hk])
    funext j
    simp only [slotAt, slotOf, Vol.setData, Function.update_self]
    split
    · exact hf _ (by omega)
    · rfl
  · simp only [slotAt, Vol.setData]
    rw [Function.update_of_ne hy]

namespace Sound

theorem valid (hs : Sound m N V D H X) (hh : h ∈ H) : Valid N h := (hs.chains.path h hh).1

theorem chain (hs : Sound m N V D H X) (hh : h ∈ H) : ∃ l, Link N V fat32Eof h l :=
  (hs.chains.path h hh).2

theorem head_eq (hs : Sound m N V D H X) (hN : N ≤ 0x0FFFFFF8) (hh : h ∈ H) (hx : x ∈ H)
    (hl : Link N V fat32Eof h l) (hm : x ∈ l) : h = x :=
  hs.chains.head_eq (eof_stops hN) hh hx hl hm

theorem unused (hs : Sound m N V D H X) (hc : c ∉ H) (h0 : c ≠ 0) : Unused m N V D X c := by
  intro p hp hX he
  rcases (hs.holds p hp hX).cases hs.dirs with h | h
  · exact h0 (he ▸ h)
  · exact hc (he ▸ h)

theorem mono (hs : Sound m N V D H X) (hX : X ⊆ X') : Sound m N V D H X' :=
  ⟨hs.root, hs.dirs, hs.chains, hs.dots, fun p hp hx => hs.holds p hp (fun h => hx (hX h)),
    fun p q hp hq hx hy => hs.apart p q hp hq (fun h => hx (hX h)) (fun h => hy (hX h))⟩

theorem forget (hs : Sound m N V D H (insert p X)) (hp : ¬Live m N V D p) : Sound m N V D H X :=
  ⟨hs.root, hs.dirs, hs.chains, hs.dots,
    fun q hq hx => hs.holds q hq (fun h => h.elim (fun he => hp (he ▸ hq)) hx),
    fun q r hq hr hx hy => hs.apart q r hq hr (fun h => h.elim (fun he => hp (he ▸ hq)) hx)
      (fun h => h.elim (fun he => hp (he ▸ hr)) hy)⟩

-- Every way of changing a sound volume that adds no entry.
theorem transfer (hs : Sound m N V D H X) (root : m.rootCluster ∈ D') (dirs : D' ⊆ H')
    (chains : Forest V'.fat (Valid N) (· = fat32Eof) H')
    (dots : ∀ d ∈ D', d ≠ m.rootCluster → ∀ i < 2, V'.data d (32 * i) = 0x2E)
    (live : ∀ p, Live m N V' D' p → p ∉ X' →
      Live m N V D p ∧ p ∉ X ∧ slotAt V' p = slotAt V p ∧ Holds m D' H' (slotAt V p)) :
    Sound m N V' D' H' X' := by
  refine ⟨root, dirs, chains, dots, fun p hp hx => ?_, fun p q hp hq hx hy hne he => ?_⟩
  · obtain ⟨-, -, hslot, hh⟩ := live p hp hx
    rw [hslot]
    exact hh
  · obtain ⟨hp', hx', hsp, -⟩ := live p hp hx
    obtain ⟨hq', hy', hsq, -⟩ := live q hq hy
    rw [hsp] at he ⊢
    rw [hsq] at he
    exact hs.apart p q hp' hq' hx' hy' hne he

theorem free_not_head (hs : Sound m N V D H X) (hN : N ≤ 0x0FFFFFF8) (hc : V.fat c = 0) :
    c ∉ H := by
  intro hm
  obtain ⟨l, hl⟩ := hs.chain hm
  exact free_not_mem hl hc (hl.head_mem (hs.valid hm) (eof_stops hN))

theorem link_alloc (hs : Sound m N V D H X) (hN : N ≤ 0x0FFFFFF8) (hc : V.fat c = 0)
    (v : Nat) (hh : h ∈ H) :
    Link N (V.setFat c v) fat32Eof h l ↔ Link N V fat32Eof h l := by
  obtain ⟨l0, hl0⟩ := hs.chain hh
  refine hl0.congr_iff (eof_stops hN) (fun x hx => ?_)
  exact Function.update_of_ne (ne_of_mem_of_not_mem hx (free_not_mem hl0 hc)) _ _

theorem alloc (hs : Sound m N V D H X) (hN : N ≤ 0x0FFFFFF8) (hok : Valid N c)
    (hc : V.fat c = 0) : Sound m N (V.setFat c fat32Eof) D (insert c H) X := by
  have hnot := hs.free_not_head hN hc
  refine hs.transfer hs.root (hs.dirs.trans (Set.subset_insert ..)) ?_ hs.dots
    (fun p hp hx => ?_)
  · refine hs.chains.alloc (eof_stops hN) hok ?_ ?_ rfl
    · rw [hc]
      exact fun h => absurd h.1 (by decide)
    · rw [hc]
      decide
  · obtain ⟨d, hd, l, hl, hm⟩ := hp.onDir
    have hold : Live m N V D p :=
      hp.of ⟨d, hd, l, (hs.link_alloc hN hc _ (hs.dirs hd)).mp hl, hm⟩ rfl id
    exact ⟨hold, hx, rfl, (hs.holds p hold hx).mono subset_rfl (Set.subset_insert ..)
      (fun _ hd => hd)⟩

theorem link_link (hs : Sound m N V D H X) (hN : N ≤ 0x0FFFFFF8) (hh : h ∈ H)
    (hl : Link N V fat32Eof h (l1 ++ x :: l2)) {h' : Nat} (hh' : h' ∈ H) (hne : h' ≠ h) (v : Nat) :
    Link N (V.setFat x v) fat32Eof h' l ↔ Link N V fat32Eof h' l := by
  obtain ⟨l0, hl0⟩ := hs.chain hh'
  refine hl0.congr_iff (eof_stops hN) (fun y hy => ?_)
  refine Function.update_of_ne (fun he => ?_) _ _
  exact hs.chains.apart h hh h' hh' hne.symm _ _ hl hl0 x (by simp) (he ▸ hy)

section Link

variable {ln : List Nat}

theorem link_new (hs : Sound m N V D H X) (hN : N ≤ 0x0FFFFFF8) (hh : h ∈ H)
    (hl : Link N V fat32Eof h (l1 ++ x :: l2)) (hn : n ∈ H) (hne : n ≠ h)
    (hln : Link N V fat32Eof n ln) : Link N (V.setFat x n) fat32Eof h (l1 ++ x :: ln) :=
  hl.retarget (eof_stops hN) hln (hs.chains.apart h hh n hn hne.symm _ _ hl hln x (by simp))

-- Where a directory has been cut behind x and goes on with n, which names nothing.
theorem live_link (hs : Sound m N V D H X) (hN : N ≤ 0x0FFFFFF8) (hh : h ∈ H)
    (hl : Link N V fat32Eof h (l1 ++ x :: l2)) (hn : n ∈ H) (hne : n ≠ h)
    (hln : Link N V fat32Eof n ln)
    (hempty : h ∈ D → ∀ y ∈ ln, ∀ i < entriesPerClust m, ¬Names (slotAt V (y, i)))
    (hp : Live m N (V.setFat x n) D p) : Live m N V D p := by
  refine hp.of ?_ rfl id
  obtain ⟨d, hd, l, hld, hm⟩ := hp.onDir
  by_cases hdh : d = h
  · subst hdh
    obtain rfl := hld.unique (eof_stops hN) (hs.link_new hN hh hl hn hne hln)
    by_cases hln' : p.1 ∈ ln
    · exact absurd hp.names (hempty hd p.1 hln' p.2 hp.index)
    · refine ⟨d, hd, _, hl, ?_⟩
      simp only [List.mem_append, List.mem_cons] at hm ⊢
      tauto
  · exact ⟨d, hd, l, (hs.link_link hN hh hl (hs.dirs hd) hdh n).mp hld, hm⟩

theorem link (hs : Sound m N V D H X) (hN : N ≤ 0x0FFFFFF8) (hh : h ∈ H)
    (hl : Link N V fat32Eof h (l1 ++ x :: l2)) (hn : n ∈ H) (hnD : n ∉ D)
    (hne : n ≠ h) (hun : Unused m N V D X n) (hln : Link N V fat32Eof n ln)
    (hempty : h ∈ D → ∀ y ∈ ln, ∀ i < entriesPerClust m, ¬Names (slotAt V (y, i))) :
    Sound m N (V.setFat x n) D (H \ {n}) X := by
  refine hs.transfer hs.root (fun d hd => ⟨hs.dirs hd, fun he => hnD (he ▸ hd)⟩)
    (hs.chains.link (eof_stops hN) hh hn hne hl) hs.dots (fun p hp hx => ?_)
  have hold := hs.live_link hN hh hl hn hne hln hempty hp
  refine ⟨hold, hx, rfl, ?_⟩
  have hheld := (hs.holds p hold hx).diff (hun p hold hx)
  rwa [Set.sdiff_singleton_eq_self hnD] at hheld

end Link

theorem link_free (hs : Sound m N V D H X) (hN : N ≤ 0x0FFFFFF8) (hh : h ∈ H)
    (hl : Link N V fat32Eof h l) (hfat : ∀ y, y ∉ l → V'.fat y = V.fat y) {h' : Nat} (hh' : h' ∈ H)
    (hne : h' ≠ h) {l' : List Nat} :
    Link N V' fat32Eof h' l' ↔ Link N V fat32Eof h' l' := by
  obtain ⟨l0, hl0⟩ := hs.chain hh'
  exact hl0.congr_iff (eof_stops hN) (fun y hy => hfat y (fun hm =>
    hs.chains.apart h hh h' hh' hne.symm _ _ hl hl0 y hm hy))

theorem free (hs : Sound m N V D H X) (hN : N ≤ 0x0FFFFFF8) (hh : h ∈ H)
    (hroot : h ≠ m.rootCluster) (hl : Link N V fat32Eof h l)
    (hfat : ∀ y, y ∉ l → V'.fat y = V.fat y) (hdata : V'.data = V.data)
    (hX : X ⊆ X') (hun : Unused m N V D X' h) : Sound m N V' (D \ {h}) (H \ {h}) X' := by
  refine hs.transfer ⟨hs.root, Ne.symm hroot⟩ (Set.sdiff_subset_sdiff_left hs.dirs)
    (hs.chains.free (eof_stops hN) hh hl hfat) (fun d hd => hdata ▸ hs.dots d hd.1)
    (fun p hp hx => ?_)
  have hslot : slotAt V' p = slotAt V p := by rw [slotAt, slotAt, hdata]
  obtain ⟨d, hd, ld, hld, hm⟩ := hp.onDir
  have hld' := (hs.link_free hN hh hl hfat (hs.dirs hd.1) hd.2).mp hld
  have hold : Live m N V D p := hp.of ⟨d, hd.1, ld, hld', hm⟩ hslot (fun hpD => ?_)
  · exact ⟨hold, fun h => hx (hX h), hslot,
      (hs.holds p hold (fun h => hx (hX h))).diff (hun p hold hx)⟩
  · refine ⟨hpD, fun he => hd.2 ?_⟩
    exact hs.head_eq hN (hs.dirs hd.1) hh hld' (he ▸ hm)

theorem head_onDir (hs : Sound m N V D H X) (hN : N ≤ 0x0FFFFFF8) (hd : d ∈ D) :
    OnDir N V D d := by
  obtain ⟨l, hl⟩ := hs.chain (hs.dirs hd)
  exact ⟨d, hd, l, hl, hl.head_mem (hs.valid (hs.dirs hd)) (eof_stops hN)⟩

theorem write (hs : Sound m N V D H X) (hN : N ≤ 0x0FFFFFF8) (hx : ¬OnDir N V D x)
    (f : Nat → UInt8) : Sound m N (V.setData x f) D H X := by
  have hkeep : ∀ y, OnDir N V D y → (V.setData x f).data y = V.data y := fun y hy =>
    Function.update_of_ne (fun he => hx (by rwa [he] at hy)) _ _
  refine hs.transfer hs.root hs.dirs hs.chains (fun d hd hr i hi => ?_) (fun p hp hX => ?_)
  · rw [hkeep d (hs.head_onDir hN hd)]
    exact hs.dots d hd hr i hi
  · have hslot : slotAt (V.setData x f) p = slotAt V p := by rw [slotAt, slotAt, hkeep _ hp.onDir]
    have hold : Live m N V D p := hp.of hp.onDir hslot id
    exact ⟨hold, hX, hslot, hs.holds p hold hX⟩

theorem edit (hs : Sound m N V D H (insert (x, i) X)) {f : Nat → UInt8}
    (hf : ∀ j, ¬(32 * i ≤ j ∧ j < 32 * i + 32) → f j = V.data x j)
    (hdots : x ∈ D → x ≠ m.rootCluster → 2 ≤ i)
    (hnew : Names (slotAt (V.setData x f) (x, i)) → (x, i) ∉ X →
      Holds m D H (slotAt (V.setData x f) (x, i)) ∧
        (slotCluster (slotAt (V.setData x f) (x, i)) = 0 ∨
          Unused m N V D (insert (x, i) X) (slotCluster (slotAt (V.setData x f) (x, i))))) :
    Sound m N (V.setData x f) D H X := by
  have hold : ∀ q, q ≠ (x, i) → Live m N (V.setData x f) D q →
      Live m N V D q ∧ slotAt (V.setData x f) q = slotAt V q := fun q hq hl =>
    ⟨hl.of hl.onDir (slotAt_setData hf hq) id, slotAt_setData hf hq⟩
  have hout : ∀ q, q ≠ (x, i) → q ∉ X → q ∉ insert (x, i) X := fun q hq hX hm =>
    hm.elim hq hX
  refine ⟨hs.root, hs.dirs, hs.chains, fun d hd hr k hk => ?_, fun p hp hX => ?_,
    fun p q hp hq hpX hqX hne he => ?_⟩
  · by_cases hdx : d = x
    · subst hdx
      have hi := hdots hd hr
      simp only [Vol.setData, Function.update_self]
      rw [hf _ (by omega)]
      exact hs.dots d hd hr k hk
    · simp only [Vol.setData]
      rw [Function.update_of_ne hdx]
      exact hs.dots d hd hr k hk
  · by_cases hpx : p = (x, i)
    · subst hpx
      exact (hnew hp.names hX).1
    · obtain ⟨hl, hslot⟩ := hold p hpx hp
      rw [hslot]
      exact hs.holds p hl (hout p hpx hX)
  · by_cases hpx : p = (x, i)
    · subst hpx
      obtain ⟨hlq, hsq⟩ := hold q hne.symm hq
      refine (hnew hp.names hpX).2.resolve_right (fun hu => ?_)
      exact hu q hlq (hout q hne.symm hqX) (hsq ▸ he.symm)
    · obtain ⟨hlp, hsp⟩ := hold p hpx hp
      by_cases hqx : q = (x, i)
      · subst hqx
        rw [he]
        refine (hnew hq.names hqX).2.resolve_right (fun hu => ?_)
        exact hu p hlp (hout p hpx hpX) (hsp ▸ he)
      · obtain ⟨hlq, hsq⟩ := hold q hqx hq
        rw [hsp] at he ⊢
        rw [hsq] at he
        exact hs.apart p q hlp hlq (hout p hpx hpX) (hout q hqx hqX) hne he

theorem live_newDir (hs : Sound m N V D H X) (hN : N ≤ 0x0FFFFFF8) (hnD : n ∉ D)
    (hl : Link N V fat32Eof n l)
    (hempty : ∀ y ∈ l, ∀ i < entriesPerClust m, (y = n → 2 ≤ i) → ¬Names (slotAt V (y, i)))
    (hp : Live m N V (insert n D) p) : Live m N V D p := by
  have hroot : n ≠ m.rootCluster := fun he => hnD (he ▸ hs.root)
  refine hp.of ?_ rfl (Set.mem_insert_of_mem _)
  obtain ⟨d, hd, l', hl', hm⟩ := hp.onDir
  rcases hd with rfl | hd
  · obtain rfl := hl'.unique (eof_stops hN) hl
    refine absurd hp.names (hempty p.1 hm p.2 hp.index (fun he => ?_))
    exact hp.notDots (he ▸ Set.mem_insert ..) (he ▸ hroot)
  · exact ⟨d, hd, l', hl', hm⟩

theorem newDir (hs : Sound m N V D H X) (hN : N ≤ 0x0FFFFFF8) (hn : n ∈ H) (hnD : n ∉ D)
    (hun : Unused m N V D X n) (hl : Link N V fat32Eof n l)
    (hdots : ∀ i < 2, V.data n (32 * i) = 0x2E)
    (hempty : ∀ y ∈ l, ∀ i < entriesPerClust m, (y = n → 2 ≤ i) → ¬Names (slotAt V (y, i))) :
    Sound m N V (insert n D) H X := by
  refine hs.transfer (Set.mem_insert_of_mem _ hs.root) (Set.insert_subset hn hs.dirs) hs.chains
    (fun d hd hr i hi => ?_) (fun p hp hX => ?_)
  · rcases hd with rfl | hd
    · exact hdots i hi
    · exact hs.dots d hd hr i hi
  · have hold := hs.live_newDir hN hnD hl hempty hp
    refine ⟨hold, hX, rfl, (hs.holds p hold hX).mono (Set.subset_insert ..) subset_rfl
      (fun _ hm => hm.resolve_left (hun p hold hX))⟩

end Sound

end

inductive IsDir (m : Mount) (N : Nat) (V : Vol) : Nat → Prop
  | root : IsDir m N V m.rootCluster
  | sub {d x i : Nat} {l : List Nat} : IsDir m N V d → Link N V fat32Eof d l → x ∈ l →
      i < entriesPerClust m → Names (slotAt V (x, i)) → (x = d → d ≠ m.rootCluster → 2 ≤ i) →
      hasAttr (slotAttr (slotAt V (x, i))) attrDirectory = true →
      IsDir m N V (slotCluster (slotAt V (x, i)))

-- A caller's entry that agrees with its slot, in cluster x of the directory's chain l.
structure EntryAt (m : Mount) (N : Nat) (V : Vol) (e : Fat32Entry) (l : List Nat) (x : Nat) :
    Prop where
  chain : Link N V fat32Eof (dirHead m e.dirCluster) l
  cluster : l[e.dirIndex / entriesPerClust m]? = some x
  names : Names (slotAt V (x, e.dirIndex % entriesPerClust m))
  notDots : x = dirHead m e.dirCluster → dirHead m e.dirCluster ≠ m.rootCluster →
    2 ≤ e.dirIndex % entriesPerClust m
  attr : slotAttr (slotAt V (x, e.dirIndex % entriesPerClust m)) = e.attr
  start : slotCluster (slotAt V (x, e.dirIndex % entriesPerClust m)) = e.cluster
  size : slotSize (slotAt V (x, e.dirIndex % entriesPerClust m)) = e.size

def Current (m : Mount) (N : Nat) (V : Vol) (e : Fat32Entry) : Prop :=
  IsDir m N V (dirHead m e.dirCluster) ∧ ∃ l x, EntryAt m N V e l x

def Consistent (m : Mount) (N : Nat) (V : Vol) : Prop := ∃ D H, Sound m N V D H ∅

section Entries

variable {m : Mount} {N : Nat} {V : Vol} {D H : Set Nat} {e : Fat32Entry} {d x : Nat} {l : List Nat}

theorem Fits.epc_eq (hf : Fits m N) : entriesPerClust m = 16 * m.sectorsPerClust := by
  rw [entriesPerClust, hf.bpc]
  omega

theorem Fits.epc_pos (hf : Fits m N) : 0 < entriesPerClust m := by
  have := hf.epc_eq
  have := hf.spc
  omega

theorem Sound.live_of_chain (hs : Sound m N V D H ∅) (hN : N ≤ 0x0FFFFFF8) (hd : d ∈ D)
    (hl : Link N V fat32Eof d l) (hx : x ∈ l) {i : Nat} (hi : i < entriesPerClust m)
    (hn : Names (slotAt V (x, i))) (hdots : x = d → d ≠ m.rootCluster → 2 ≤ i) :
    Live m N V D (x, i) := by
  refine ⟨⟨d, hd, l, hl, hx⟩, hi, hn, fun hxD hr => ?_⟩
  have he := hs.head_eq hN (hs.dirs hd) (hs.dirs hxD) hl hx
  exact hdots he.symm (he ▸ hr)

theorem Sound.isDir (hs : Sound m N V D H ∅) (hN : N ≤ 0x0FFFFFF8) (hd : IsDir m N V d) :
    d ∈ D := by
  induction hd with
  | root => exact hs.root
  | sub _ hl hx hi hn hdots ha ih =>
    have hheld := hs.holds _ (hs.live_of_chain hN ih hl hx hi hn hdots) (by simp)
    unfold Holds at hheld
    rw [if_pos ha] at hheld
    exact hheld.1

-- The directories of a sound volume may be taken to be those that can be reached.
theorem Sound.reached (hs : Sound m N V D H ∅) (hN : N ≤ 0x0FFFFFF8) :
    Sound m N V {d | IsDir m N V d} H ∅ := by
  have hsub : {d | IsDir m N V d} ⊆ D := fun d hd => hs.isDir hN hd
  have hlive : ∀ p, Live m N V {d | IsDir m N V d} p → Live m N V D p := by
    rintro p ⟨⟨d, hd, l, hl, hm⟩, hi, hn, hdots⟩
    refine ⟨⟨d, hsub hd, l, hl, hm⟩, hi, hn, fun hp => hdots ?_⟩
    have hhead := hs.head_eq hN (hs.dirs (hsub hd)) (hs.dirs hp) hl hm
    rwa [← hhead]
  refine hs.transfer .root (hsub.trans hs.dirs) hs.chains (fun d hd => hs.dots d (hsub hd))
    (fun p hp hX => ⟨hlive p hp, hX, rfl, ?_⟩)
  have hheld := hs.holds p (hlive p hp) hX
  obtain ⟨⟨d, hd, l, hl, hm⟩, hi, hn, hdots⟩ := hp
  unfold Holds at *
  split
  · rename_i ha
    rw [if_pos ha] at hheld
    exact ⟨.sub hd hl hm hi hn (fun he => he ▸ hdots (he ▸ hd)) ha, hheld.2⟩
  · rename_i ha
    rw [if_neg ha] at hheld
    exact hheld.imp_right (fun h => ⟨h.1, fun hd => h.2 (hsub hd)⟩)

theorem EntryAt.mem (he : EntryAt m N V e l x) : x ∈ l := List.mem_of_getElem? he.cluster

theorem Sound.live_entry (hs : Sound m N V D H ∅) (hf : Fits m N)
    (hd : dirHead m e.dirCluster ∈ D) (he : EntryAt m N V e l x) :
    Live m N V D (x, e.dirIndex % entriesPerClust m) :=
  hs.live_of_chain hf.small hd he.chain he.mem (Nat.mod_lt _ hf.epc_pos) he.names he.notDots

theorem Sound.file_cluster (hs : Sound m N V D H ∅) (hf : Fits m N)
    (hd : dirHead m e.dirCluster ∈ D) (he : EntryAt m N V e l x)
    (ha : hasAttr e.attr attrDirectory = false) : e.cluster ∉ D := by
  have hheld := hs.holds _ (hs.live_entry hf hd he) (by simp)
  unfold Holds at hheld
  rw [he.attr, ha, if_neg (by decide), he.start] at hheld
  intro hD
  rcases hheld with h0 | ⟨-, hno⟩
  · exact absurd (h0 ▸ hs.valid (hs.dirs hD)).1 (by decide)
  · exact hno hD

theorem Sound.not_inside (hs : Sound m N V D H ∅) (hf : Fits m N)
    (hd : IsDir m N V (dirHead m e.dirCluster)) (he : EntryAt m N V e l x)
    (ha : hasAttr e.attr attrDirectory = true) : e.cluster ≠ dirHead m e.dirCluster := by
  have hdD := hs.isDir hf.small hd
  have hlive := hs.live_entry hf hdD he
  have hheld := hs.holds _ hlive (by simp)
  unfold Holds at hheld
  rw [he.attr, if_pos ha, he.start] at hheld
  intro hself
  have h0 : e.cluster ≠ 0 := by
    intro h0
    exact absurd (h0 ▸ hs.valid (hs.dirs hheld.1)).1 (by decide)
  suffices h : ∀ d', IsDir m N V d' → d' ≠ e.cluster from h _ hd hself.symm
  intro d' hd'
  induction hd' with
  | root => exact fun h => hheld.2 h.symm
  | @sub d'' y i l' hd'' hl' hy hi hn hdots ha' ih =>
    intro hc
    have hdD'' := hs.isDir hf.small hd''
    have hlive' := hs.live_of_chain hf.small hdD'' hl' hy hi hn hdots
    -- no other entry holds the cluster, so this is the entry e itself, in the same directory
    have hsame : (x, e.dirIndex % entriesPerClust m) = (y, i) := by
      by_contra hne
      exact h0 (he.start ▸ hs.apart _ _ hlive hlive' (by simp) (by simp) hne
        (he.start.trans hc.symm))
    obtain ⟨rfl, -⟩ := Prod.mk.inj hsame
    by_contra
    have hdd : dirHead m e.dirCluster = d'' := by
      by_contra hne
      exact hs.chains.apart _ (hs.dirs hdD) _ (hs.dirs hdD'') hne _ _ he.chain hl' _ he.mem hy
    exact ih (hdd ▸ hself.symm)

end Entries

-- The free clusters that fat_alloc_cluster can find before it comes to the end of the volume.
def spare (limit N : Nat) (V : Vol) : Nat :=
  ((Finset.Ico 2 (min limit N)).filter (fun c => V.fat c = 0)).card

-- The next k allocations stay within the volume.
def Room (limit N : Nat) (V : Vol) (k : Nat) : Prop := limit ≤ N ∨ k ≤ spare limit N V

section Room

variable {limit N c k v : Nat} {V V' : Vol}

theorem spare_congr (h : ∀ c, V'.fat c = 0 ↔ V.fat c = 0) :
    spare limit N V' = spare limit N V := by
  unfold spare
  congr 1
  exact Finset.filter_congr (fun c _ => h c)

theorem setFat_used (hc : V.fat c ≠ 0) (hv : v ≠ 0) (x : Nat) :
    (V.setFat c v).fat x = 0 ↔ V.fat x = 0 := by
  by_cases hx : x = c
  · simp [Vol.setFat, hx, hc, hv]
  · simp [Vol.setFat, hx]

theorem spare_alloc (hok : Valid N c) (hlim : c < limit) (hc : V.fat c = 0) (hv : v ≠ 0) :
    spare limit N (V.setFat c v) + 1 = spare limit N V := by
  have hmem : c ∈ (Finset.Ico 2 (min limit N)).filter (fun c => V.fat c = 0) := by
    unfold Valid at hok
    simp only [Finset.mem_filter, Finset.mem_Ico]
    omega
  have herase : (Finset.Ico 2 (min limit N)).filter (fun x => (V.setFat c v).fat x = 0) =
      ((Finset.Ico 2 (min limit N)).filter (fun c => V.fat c = 0)).erase c := by
    ext x
    rw [Finset.mem_erase, Finset.mem_filter, Finset.mem_filter]
    by_cases hx : x = c
    · simp [Vol.setFat, hx, hv]
    · simp [Vol.setFat, hx]
  unfold spare
  rw [herase]
  exact Finset.card_erase_add_one hmem

theorem exists_spare (h : 0 < spare limit N V) :
    ∃ x, 2 ≤ x ∧ x < limit ∧ x < N ∧ V.fat x = 0 := by
  obtain ⟨x, hx⟩ := Finset.card_pos.mp h
  simp only [Finset.mem_filter, Finset.mem_Ico, lt_min_iff] at hx
  exact ⟨x, hx.1.1, hx.1.2.1, hx.1.2.2, hx.2⟩

theorem spare_eq_zero (h : ∀ x, 2 ≤ x → x < limit → V.fat x ≠ 0) : spare limit N V = 0 := by
  by_contra hne
  obtain ⟨x, h1, h2, -, h3⟩ := exists_spare (Nat.pos_of_ne_zero hne)
  exact h x h1 h2 h3

theorem Room.mono {j : Nat} (h : Room limit N V k) (hj : j ≤ k) : Room limit N V j :=
  h.imp_right hj.trans

theorem Room.congr (h : Room limit N V k) (hfat : ∀ c, V'.fat c = 0 ↔ V.fat c = 0) :
    Room limit N V' k := by
  unfold Room at *
  rwa [spare_congr hfat]

theorem Room.alloc (h : Room limit N V (k + 1)) (hok : Valid N c) (hlim : c < limit)
    (hc : V.fat c = 0) (hv : v ≠ 0) : Room limit N (V.setFat c v) k := by
  have := spare_alloc hok hlim hc hv
  exact h.imp_right (fun h => by omega)

end Room

end Fat32
