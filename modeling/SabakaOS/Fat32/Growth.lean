import SabakaOS.Fat32.Lookup

namespace Fat32

open Word ByteMemory Prog Chain

-- No directory has changed, neither its chain nor a byte of it.
structure Kept (N : Nat) (D : Set Nat) (V V' : Vol) : Prop where
  link : ∀ d ∈ D, ∀ l, Link N V' fat32Eof d l ↔ Link N V fat32Eof d l
  data : ∀ x, OnDir N V D x → V'.data x = V.data x

-- Chain h is a file's and no entry but those in X holds it.
structure Owned (m : Mount) (N : Nat) (V : Vol) (D H : Set Nat) (X : Set (Nat × Nat)) (h : Nat) :
    Prop where
  sound : Sound m N V D H ∅
  head : h ∈ H
  notDir : h ∉ D
  unused : Unused m N V D X h

-- Cluster x is in some file's chain, t clusters before its end.
def InFile (N : Nat) (V : Vol) (D H : Set Nat) (x t : Nat) : Prop :=
  ∃ g ∈ H, g ∉ D ∧ ∃ l1 l2, Link N V fat32Eof g (l1 ++ x :: l2) ∧ l2.length = t

section Kept

variable {m : Mount} {N : Nat} {V V' V'' : Vol} {D H : Set Nat} {X : Set (Nat × Nat)}
  {c g h n t x : Nat} {l l1 l2 : List Nat} {p : Nat × Nat}

theorem Kept.refl : Kept N D V V := ⟨fun _ _ _ => Iff.rfl, fun _ _ => rfl⟩

theorem Kept.onDir (h : Kept N D V V') : OnDir N V' D x ↔ OnDir N V D x := by
  constructor
  · rintro ⟨d, hd, l, hl, hm⟩
    exact ⟨d, hd, l, (h.link d hd l).mp hl, hm⟩
  · rintro ⟨d, hd, l, hl, hm⟩
    exact ⟨d, hd, l, (h.link d hd l).mpr hl, hm⟩

theorem Kept.trans (h : Kept N D V V') (h' : Kept N D V' V'') : Kept N D V V'' :=
  ⟨fun d hd l => (h'.link d hd l).trans (h.link d hd l),
    fun x hx => (h'.data x (h.onDir.mpr hx)).trans (h.data x hx)⟩

theorem Kept.live (h : Kept N D V V') (hp : Live m N V' D p) :
    Live m N V D p ∧ slotAt V' p = slotAt V p := by
  have hdir := h.onDir.mp hp.onDir
  have hslot : slotAt V' p = slotAt V p := by rw [slotAt, slotAt, h.data _ hdir]
  exact ⟨hp.of hdir hslot id, hslot⟩

theorem Kept.unused (h : Kept N D V V') (hu : Unused m N V D X c) : Unused m N V' D X c := by
  intro p hp hX
  obtain ⟨hl, hs⟩ := h.live hp
  rw [hs]
  exact hu p hl hX

theorem Sound.kept_alloc (hs : Sound m N V D H X) (hN : N ≤ 0x0FFFFFF8) (hc : V.fat c = 0)
    (v : Nat) : Kept N D V (V.setFat c v) :=
  ⟨fun _ hd _ => hs.link_alloc hN hc v (hs.dirs hd), fun _ _ => rfl⟩

theorem Sound.kept_link (hs : Sound m N V D H X) (hN : N ≤ 0x0FFFFFF8) (hg : g ∈ H) (hgD : g ∉ D)
    (hl : Link N V fat32Eof g (l1 ++ x :: l2)) (v : Nat) : Kept N D V (V.setFat x v) :=
  ⟨fun _ hd _ => hs.link_link hN hg hl (hs.dirs hd) (fun he => hgD (he ▸ hd)) v, fun _ _ => rfl⟩

theorem Sound.file_not_onDir (hs : Sound m N V D H X) (hg : g ∈ H) (hgD : g ∉ D)
    (hl : Link N V fat32Eof g l) (hx : x ∈ l) : ¬OnDir N V D x := by
  rintro ⟨d, hd, l', hl', hm⟩
  exact hs.chains.apart g hg d (hs.dirs hd) (fun he => hgD (he ▸ hd)) l l' hl hl' x hx hm

theorem Kept.write (hx : ¬OnDir N V D x) (f : Nat → UInt8) : Kept N D V (V.setData x f) :=
  ⟨fun _ _ _ => Iff.rfl, fun _ hy => Function.update_of_ne (fun he => hx (by rwa [he] at hy)) _ _⟩

theorem InFile.not_onDir (ht : InFile N V D H x t) (hs : Sound m N V D H X) :
    ¬OnDir N V D x := by
  obtain ⟨g, hg, hgD, l1, l2, hl, -⟩ := ht
  exact hs.file_not_onDir hg hgD hl (by simp)

theorem InFile.valid (ht : InFile N V D H x t) : Valid N x := by
  obtain ⟨g, -, -, l1, l2, hl, -⟩ := ht
  exact hl.ok_of_mem x (by simp)

theorem InFile.used (ht : InFile N V D H x t) : V.fat x ≠ 0 := by
  obtain ⟨g, -, -, l1, l2, hl, -⟩ := ht
  intro h0
  exact free_not_mem hl h0 (by simp)

theorem Owned.write (ho : Owned m N V D H X h) (hN : N ≤ 0x0FFFFFF8) (ht : InFile N V D H x t)
    (f : Nat → UInt8) : Owned m N (V.setData x f) D H X h ∧ Kept N D V (V.setData x f) ∧
      InFile N (V.setData x f) D H x t := by
  have hdir := ht.not_onDir ho.sound
  have hkept := Kept.write hdir f
  exact ⟨⟨ho.sound.write hN hdir f, ho.head, ho.notDir, hkept.unused ho.unused⟩, hkept, ht⟩

theorem Owned.alloc (ho : Owned m N V D H X h) (hN : N ≤ 0x0FFFFFF8) (hn : Valid N n)
    (hfree : V.fat n = 0) : Owned m N (V.setFat n fat32Eof) D (insert n H) X h ∧
      Kept N D V (V.setFat n fat32Eof) ∧
      Link N (V.setFat n fat32Eof) fat32Eof n [n] ∧ n ∉ H ∧
      Unused m N (V.setFat n fat32Eof) D ∅ n := by
  have hkept := ho.sound.kept_alloc hN hfree fat32Eof
  have hnot := ho.sound.free_not_head hN hfree
  have hlink : Link N (V.setFat n fat32Eof) fat32Eof n [n] :=
    ⟨rfl, hn, Function.update_self ..⟩
  refine ⟨⟨ho.sound.alloc hN hn hfree, Set.mem_insert_of_mem _ ho.head, ho.notDir,
    hkept.unused ho.unused⟩, hkept, hlink, hnot, hkept.unused (ho.sound.unused hnot ?_)⟩
  rintro rfl
  exact absurd hn.1 (by decide)

theorem Owned.extend (ho : Owned m N V D H X h) (hN : N ≤ 0x0FFFFFF8) (ht : InFile N V D H x t)
    (hn : Valid N n) (hfree : V.fat n = 0) :
    Owned m N ((V.setFat n fat32Eof).setFat x n) D H X h ∧
      Kept N D V ((V.setFat n fat32Eof).setFat x n) ∧
      InFile N ((V.setFat n fat32Eof).setFat x n) D H n 0 := by
  obtain ⟨ho1, hk1, hln, hnot, hun⟩ := ho.alloc hN hn hfree
  obtain ⟨g, hg, hgD, l1, l2, hl, -⟩ := ht
  have hl1 := (ho.sound.link_alloc hN hfree fat32Eof hg).mpr hl
  have hg1 : g ∈ insert n H := Set.mem_insert_of_mem _ hg
  have hne : n ≠ g := fun he => hnot (he ▸ hg)
  have hnD : n ∉ D := fun hd => hnot (ho.sound.dirs hd)
  have hk2 := ho1.sound.kept_link hN hg1 hgD hl1 n
  have hsound := ho1.sound.link hN hg1 hl1 (Set.mem_insert ..) hnD hne hun hln
    (fun hd => absurd hd hgD)
  rw [Set.insert_sdiff_of_mem _ (Set.mem_singleton n), Set.sdiff_singleton_eq_self hnot] at hsound
  have hnew := ho1.sound.link_new hN hg1 hl1 (Set.mem_insert ..) hne hln
  refine ⟨⟨hsound, ho.head, ho.notDir, hk2.unused ho1.unused⟩, hk1.trans hk2,
    g, hg, hgD, l1 ++ [x], [], ?_, rfl⟩
  simpa using hnew

end Kept

section Next

variable {E : Env} {w : World} {c v x s t k n : Nat} {D H : Set Nat} {X : Set (Nat × Nat)} {h : Nat}

-- What s more steps along a chain may need, with t clusters ahead.
def Env.Enough (E : Env) (V : Vol) (s t : Nat) : Prop :=
  (¬E.fatFails .write ∧ Room E.limit E.clusters V (s - t)) ∨ Room E.limit E.clusters V s

theorem Env.Enough.congr {V V' : Vol} (he : E.Enough V s t)
    (hfat : ∀ c, V'.fat c = 0 ↔ V.fat c = 0) : E.Enough V' s t :=
  he.imp (And.imp_right (fun hr => hr.congr hfat)) (fun hr => hr.congr hfat)

-- Over these steps no allocation can fail in a transfer.
def Env.Steady (E : Env) (s t : Nat) : Prop :=
  ¬E.fatFails .alloc ∨ (¬E.fatFails .write ∧ s ≤ t)

theorem nextOrNew_runs (hE : E.Lawful) (hg : Good E w) {l : List Nat} (hopen : E.Opens .write l)
    (hin : c ∈ l ∨ .alloc c 0 ∈ w.trace) (hc : E.ok c)
    (hnext : E.ok ((E.vol w).fat c) ∨ (E.vol w).fat c = fat32Eof)
    (halloc : (E.ok ((E.vol w).fat c) ∧ ¬E.fatFails .write) ∨ ¬E.fatFails .alloc)
    (hroom : (E.ok ((E.vol w).fat c) ∧ ¬E.fatFails .write) ∨
      Room E.limit E.clusters (E.vol w) 1) :
    Runs (nextOrNew c) w (fun r w' => Step E w w' ∧
      ((r = some ((E.vol w).fat c) ∧ E.ok ((E.vol w).fat c) ∧ E.vol w' = E.vol w) ∨
        ((E.vol w).fat c = fat32Eof ∨ E.fatFails .write) ∧
          ((r = none ∧ E.vol w' = E.vol w ∧ spare E.limit E.clusters (E.vol w) = 0) ∨
            ∃ n, r = some n ∧ E.ok n ∧ n < E.limit ∧ (E.vol w).fat n = 0 ∧
              .alloc n 0 ∈ w'.trace ∧
              (E.vol w' = ((E.vol w).setFat n fat32Eof).setFat c n ∨
                (E.vol w' = (E.vol w).setFat n fat32Eof ∧ E.fatFails .write)))))
      (fun _ => False) := by
  unfold nextOrNew
  refine (fatGet_runs hE hg hc (hopen.at hin List.suffix_rfl rfl)).then ?_
  rintro v w1 ⟨hs1, hv1, -, hv⟩
  have hvol1 : E.vol w1 = E.vol w := E.vol_congr hv1
  by_cases hend : fat32Eof ≤ v ∨ v < 2
  · rw [if_pos hend]
    have hnot : (E.vol w).fat c = fat32Eof ∨ E.fatFails .write := by
      rcases hv with rfl | ⟨-, hfail⟩
      · refine .inl (hnext.resolve_left (fun hok => ?_))
        have := hE.fits.lt_eof hok
        omega
      · exact .inr hfail
    have hstop : ¬(E.ok ((E.vol w).fat c) ∧ ¬E.fatFails .write) := by
      rintro ⟨hok, hno⟩
      rcases hnot with heof | hfail
      · exact eof_stops hE.fits.small _ heof hok
      · exact hno hfail
    have hroom1 : Room E.limit E.clusters (E.vol w1) 1 := by
      rw [hvol1]
      exact hroom.resolve_left hstop
    refine (fatAllocCluster_runs hE hs1.good (halloc.resolve_left hstop) hroom1).then ?_
    rintro n w2 ⟨hs2, ⟨rfl, hv2, hspare⟩ | ⟨hn0, hok, hlim, hfree, hmem, hvol2⟩⟩
    · rw [if_pos rfl]
      have hvol2 : E.vol w2 = E.vol w := by rw [← hvol1, Env.vol, Env.vol, hv2]
      exact Runs.pure ⟨hs1.trans hs2, .inr ⟨hnot, .inl ⟨rfl, hvol2, hvol1 ▸ hspare⟩⟩⟩
    · rw [if_neg hn0]
      rw [hvol1] at hfree hvol2
      have hlt := hE.fits.lt_eof hok
      refine (fatSet_runs hE hs2.good hc (v := n) (by unfold fat32Eof at hlt; omega)
        (hopen.at hin (hs1.trans hs2).ext rfl)).then ?_
      rintro r w3 ⟨hs3, -, hfail3, hvol3⟩
      rw [hvol2] at hvol3
      refine Runs.pure ⟨(hs1.trans hs2).trans hs3, .inr ⟨hnot, .inr ⟨n, rfl, hok, hlim, hfree,
        hs3.ext.subset hmem, hvol3.imp_right (fun h => ⟨h.2, hfail3 h.1⟩)⟩⟩⟩
  · rw [if_neg hend]
    rcases hv with rfl | ⟨rfl, -⟩
    · refine Runs.pure ⟨hs1, .inl ⟨rfl, hnext.resolve_right (fun h => ?_), hvol1⟩⟩
      exact hend (.inl h.ge)
    · exact absurd (.inr (by decide)) hend

theorem InFile.next {N : Nat} {V : Vol} (ht : InFile N V D H x t) :
    (t = 0 ∧ V.fat x = fat32Eof) ∨ ∃ t', t = t' + 1 ∧ InFile N V D H (V.fat x) t' := by
  obtain ⟨g, hg, hgD, l1, l2, hl, rfl⟩ := ht
  obtain ⟨d, -, rfl, -, hrest⟩ := path_append.mp hl
  cases l2 with
  | nil => exact .inl ⟨rfl, hrest⟩
  | cons y l2 =>
    obtain rfl := hrest.1
    refine .inr ⟨l2.length, rfl, g, hg, hgD, l1 ++ [x], l2, ?_, rfl⟩
    simpa using hl

theorem nextOrNew_sound (hE : E.Lawful) (hg : Good E w) (hloose : E.Loose)
    (halloc : E.Steady (s + 1) t) (ho : Owned E.mount E.clusters (E.vol w) D H X h)
    (ht : InFile E.clusters (E.vol w) D H c t) (hroom : E.Enough (E.vol w) (s + 1) t) :
    Runs (nextOrNew c) w (fun r w' => Step E w w' ∧ Kept E.clusters D (E.vol w) (E.vol w') ∧
      ∃ H', Owned E.mount E.clusters (E.vol w') D H' X h ∧ ∀ x, r = some x →
        ∃ t', InFile E.clusters (E.vol w') D H' x t' ∧ E.Enough (E.vol w') s t' ∧ E.Steady s t')
      (fun _ => False) := by
  have hN := hE.fits.small
  have hused := ht.used
  have hnext : E.ok ((E.vol w).fat c) ∨ (E.vol w).fat c = fat32Eof := by
    rcases ht.next with ⟨-, heof⟩ | ⟨t', -, ht'⟩
    · exact .inr heof
    · exact .inl ht'.valid
  have hroom1 : (E.ok ((E.vol w).fat c) ∧ ¬E.fatFails .write) ∨
      Room E.limit E.clusters (E.vol w) 1 := by
    rcases hroom with ⟨hno, hroom⟩ | hroom
    · rcases ht.next with ⟨rfl, -⟩ | ⟨t', -, ht'⟩
      · exact .inr (hroom.mono (by omega))
      · exact .inl ⟨ht'.valid, hno⟩
    · exact .inr (hroom.mono (by omega))
  have halloc1 : (E.ok ((E.vol w).fat c) ∧ ¬E.fatFails .write) ∨ ¬E.fatFails .alloc := by
    rcases halloc with hno | ⟨hno, hle⟩
    · exact .inr hno
    · rcases ht.next with ⟨rfl, -⟩ | ⟨t', -, ht'⟩
      · omega
      · exact .inl ⟨ht'.valid, hno⟩
  refine (nextOrNew_runs hE hg (hloose.opens (l := [c])) (.inl (by simp)) ht.valid hnext halloc1
    hroom1).mono ?_ (fun _ he => he)
  rintro r w1 ⟨hs1, ⟨rfl, hok, hvol⟩ | ⟨hnot, ⟨rfl, hvol, -⟩ | ⟨n, rfl, hok, hlim, hfree, -,
    hvol⟩⟩⟩
  · rw [hvol]
    refine ⟨hs1, Kept.refl, H, ho, ?_⟩
    intro x hx
    cases hx
    rcases ht.next with ⟨-, heof⟩ | ⟨t', rfl, ht'⟩
    · exact absurd hok (eof_stops hN _ heof)
    · exact ⟨t', ht', hroom.imp (And.imp_right (fun h => h.mono (by omega)))
        (fun h => h.mono (by omega)), halloc.imp_right (And.imp_right (by omega))⟩
  · rw [hvol]
    exact ⟨hs1, Kept.refl, H, ho, fun x hx => by cases hx⟩
  · -- the chain ended here, or its table entry could not be read
    have hall : Room E.limit E.clusters (E.vol w) (s + 1) := by
      rcases hroom with ⟨hno, hroom⟩ | hroom
      · rcases ht.next with ⟨rfl, -⟩ | ⟨t', -, ht'⟩
        · exact hroom
        · rcases hnot with heof | hfail
          · exact absurd ht'.valid (eof_stops hN _ heof)
          · exact absurd hfail hno
      · exact hroom
    have hsteady : E.Steady s 0 := by
      refine .inl (halloc.resolve_right (fun h => ?_))
      rcases ht.next with ⟨rfl, -⟩ | ⟨t', -, ht'⟩
      · omega
      · rcases hnot with heof | hfail
        · exact absurd ht'.valid (eof_stops hN _ heof)
        · exact h.1 hfail
    have hne : n ≠ 0 := by
      have := hE.fits.lt_eof hok
      omega
    have hroomA := hall.alloc hok hlim hfree (v := fat32Eof) (by decide)
    rcases hvol with hvol | ⟨hvol, -⟩
    · rw [hvol]
      obtain ⟨ho', hk', ht'⟩ := ho.extend hN ht hok hfree
      refine ⟨hs1, hk', H, ho', ?_⟩
      intro x hx
      cases hx
      have hused' : ((E.vol w).setFat n fat32Eof).fat c ≠ 0 := by
        by_cases hcn : c = n
        · exact absurd (hcn ▸ hfree) hused
        · simpa [Vol.setFat, hcn] using hused
      exact ⟨0, ht', .inr (hroomA.congr (setFat_used hused' hne)), hsteady⟩
    · rw [hvol]
      obtain ⟨ho', hk', hln, hnot', hun'⟩ := ho.alloc hN hok hfree
      refine ⟨hs1, hk', insert n H, ho', ?_⟩
      intro x hx
      cases hx
      exact ⟨0, ⟨n, Set.mem_insert .., fun hd => hnot' (ho.sound.dirs hd), [], [], hln, rfl⟩,
        .inr hroomA, hsteady⟩

theorem seekOrGrow_sound (hE : E.Lawful) (hg : Good E w) (hloose : E.Loose)
    (halloc : E.Steady (n + s) t) (ho : Owned E.mount E.clusters (E.vol w) D H X h)
    (ht : InFile E.clusters (E.vol w) D H c t) (hroom : E.Enough (E.vol w) (n + s) t) :
    Runs (seekOrGrow n c) w (fun r w' => Step E w w' ∧ Kept E.clusters D (E.vol w) (E.vol w') ∧
      ∃ H', Owned E.mount E.clusters (E.vol w') D H' X h ∧ ∀ x, r = some x →
        ∃ t', InFile E.clusters (E.vol w') D H' x t' ∧ E.Enough (E.vol w') s t' ∧ E.Steady s t')
      (fun _ => False) := by
  induction n generalizing w c t H with
  | zero =>
    rw [Nat.zero_add] at hroom halloc
    refine Runs.pure ⟨hg.step, Kept.refl, H, ho, fun x hx => ?_⟩
    cases hx
    exact ⟨t, ht, hroom, halloc⟩
  | succ n ih =>
    unfold seekOrGrow
    rw [show n + 1 + s = n + s + 1 by omega] at hroom halloc
    refine (nextOrNew_sound hE hg hloose halloc ho ht hroom).then ?_
    rintro r w1 ⟨hs1, hk1, H1, ho1, hr⟩
    cases r with
    | none => exact Runs.pure ⟨hs1, hk1, H1, ho1, fun x hx => by cases hx⟩
    | some next =>
      obtain ⟨t1, ht1, hroom1, halloc1⟩ := hr next rfl
      refine (ih hs1.good halloc1 ho1 ht1 hroom1).mono ?_ (fun _ he => he)
      rintro r w2 ⟨hs2, hk2, hr2⟩
      exact ⟨hs1.trans hs2, hk1.trans hk2, hr2⟩

theorem bpc_bounds (hf : Fits E.mount E.clusters) :
    0 < E.mount.bytesPerClust ∧ E.mount.bytesPerClust < 2 ^ 32 := by
  have h1 := hf.bpc
  have h2 := hf.spc
  have h3 := hf.byte
  omega

theorem writeLoop_sound (hE : E.Lawful) (hg : Good E w) (hloose : E.Loose)
    (ho : Owned E.mount E.clusters (E.vol w) D H X h)
    (ht : InFile E.clusters (E.vol w) D H c t) {fuel clustOff written : Nat} {data : List UInt8}
    (hoff : clustOff < E.mount.bytesPerClust)
    (halloc : E.Steady ((clustOff + data.length - 1) / E.mount.bytesPerClust) t)
    (hroom : E.Enough (E.vol w) ((clustOff + data.length - 1) / E.mount.bytesPerClust) t) :
    Runs (writeLoop fuel c clustOff data written) w (fun _ w' => Step E w w' ∧
      Kept E.clusters D (E.vol w) (E.vol w') ∧
      ∃ H', Owned E.mount E.clusters (E.vol w') D H' X h)
      (fun w' => Good E w' ∧ fuel ≤ data.length) := by
  have hbpc := bpc_bounds hE.fits
  induction fuel generalizing w c t H clustOff data written with
  | zero => exact Runs.stopped ⟨hg, Nat.zero_le _⟩
  | succ fuel ih =>
    unfold writeLoop
    by_cases hnil : data = []
    · rw [if_pos hnil]
      exact Runs.pure ⟨hg.step, Kept.refl, H, ho⟩
    rw [if_neg hnil]
    have hlen := List.length_pos_iff.mpr hnil
    refine (clusterRead_runs hE hg ht.valid ((hloose.opens (l := [c])).of_mem (by simp)
      rfl)).then ?_
    rintro r w1 ⟨hs1, hv1, -, ⟨b, rfl, hb⟩ | ⟨rfl, hfail⟩⟩
    · have hvol1 : E.vol w1 = E.vol w := E.vol_congr hv1
      refine Runs.get_bind ?_
      rw [hs1.good.mount, sub32_of_le hbpc.2 hoff.le]
      set toWrite := if data.length < E.mount.bytesPerClust - clustOff then data.length
        else E.mount.bytesPerClust - clustOff with htw
      have htw1 : 1 ≤ toWrite := by
        rw [htw]
        split
        · exact hlen
        · omega
      refine (clusterWrite_runs hE hs1.good ht.valid _ ((hloose.opens (l := [c])).of_mem
        (by simp) rfl)).then ?_
      rintro r w2 ⟨hs2, -, j, -, hvol2, -⟩
      rw [hvol1] at hvol2
      obtain ⟨ho2, hk2, ht2⟩ := ho.write hE.fits.small ht (fun k => if k < 512 * j then
        writeBytes b clustOff (data.take toWrite) k else (E.vol w).data c k)
      rw [← hvol2] at ho2 hk2 ht2
      have hs := hs1.trans hs2
      cases r with
      | false => exact Runs.pure ⟨hs, hk2, H, ho2⟩
      | true =>
        simp only [Bool.not_true, Bool.false_eq_true, if_false]
        by_cases hdone : data.drop toWrite = []
        · rw [if_pos hdone]
          exact Runs.pure ⟨hs, hk2, H, ho2⟩
        · rw [if_neg hdone]
          have hrest : toWrite < data.length := by
            rw [List.drop_eq_nil_iff] at hdone
            omega
          have hfull : toWrite = E.mount.bytesPerClust - clustOff := by
            rw [htw] at hrest ⊢
            split
            · rename_i hlt
              rw [if_pos hlt] at hrest
              omega
            · rfl
          have hsteps : (clustOff + data.length - 1) / E.mount.bytesPerClust =
              (0 + (data.drop toWrite).length - 1) / E.mount.bytesPerClust + 1 := by
            rw [List.length_drop, ← Nat.add_div_left _ hbpc.1]
            congr 1
            omega
          rw [hsteps] at hroom halloc
          have hfat : ∀ x, (E.vol w2).fat x = 0 ↔ (E.vol w).fat x = 0 := by
            rw [hvol2]
            exact fun _ => Iff.rfl
          refine (nextOrNew_sound hE hs2.good hloose halloc ho2 ht2 (hroom.congr hfat)).then ?_
          rintro r w3 ⟨hs3, hk3, H3, ho3, hr3⟩
          cases r with
          | none => exact Runs.pure ⟨hs.trans hs3, hk2.trans hk3, H3, ho3⟩
          | some next =>
            obtain ⟨t3, ht3, hroom3, halloc3⟩ := hr3 next rfl
            refine (ih hs3.good ho3 ht3 hbpc.1 halloc3 hroom3).mono ?_ (fun w' h => ⟨h.1, ?_⟩)
            · rintro r w4 ⟨hs4, hk4, hr4⟩
              exact ⟨(hs.trans hs3).trans hs4, (hk2.trans hk3).trans hk4, hr4⟩
            · have := h.2
              rw [List.length_drop] at this
              omega
    · have hvol1 : E.vol w1 = E.vol w := E.vol_congr hv1
      rw [← hvol1] at ho ⊢
      exact Runs.pure ⟨hs1, Kept.refl, H, ho⟩

end Next

section Slot

variable {b : Buffer} {i k n cluster size : Nat}

theorem readLE_slotOf (h : k + n ≤ 32) : readLE (slotOf b i) n k = readLE b n (32 * i + k) := by
  induction n generalizing k with
  | zero => rfl
  | succ n ih =>
    have hk : slotOf b i k = b (32 * i + k) := if_pos (by omega)
    rw [readLE, readLE, hk, ih (by omega), Nat.add_assoc (32 * i)]

theorem slotCluster_update (hc : cluster < 2 ^ 32) :
    slotCluster (slotOf (updateSlot cluster size b i) i) = cluster := by
  rw [slotCluster, readLE_slotOf (by omega), readLE_slotOf (by omega), updateSlot,
    read_write_disjoint _ _ (by omega), read_write_disjoint _ _ (by omega), read_write_same,
    read_write_disjoint _ _ (by omega), read_write_same]
  omega

theorem slotSize_update : slotSize (slotOf (updateSlot cluster size b i) i) = size % 2 ^ 32 := by
  rw [slotSize, readLE_slotOf (by omega), updateSlot, read_write_same]
  rfl

theorem slotOf_update (hk : k < 20 ∨ 22 ≤ k ∧ k < 26) :
    slotOf (updateSlot cluster size b i) i k = slotOf b i k := by
  unfold slotOf
  rw [if_pos (by omega), if_pos (by omega), updateSlot, writeLE_of_not_mem _ _ _ _ (by omega),
    writeLE_of_not_mem _ _ _ _ (by omega), writeLE_of_not_mem _ _ _ _ (by omega)]

end Slot

-- The slot of file e, in cluster x of its directory's chain l, as far as fat32_write leaves it.
structure FileSlot (m : Mount) (N : Nat) (V : Vol) (D : Set Nat) (e : Fat32Entry) (l : List Nat)
    (x : Nat) : Prop where
  dir : dirHead m e.dirCluster ∈ D
  chain : Link N V fat32Eof (dirHead m e.dirCluster) l
  cluster : l[e.dirIndex / entriesPerClust m]? = some x
  file : hasAttr (slotAttr (slotAt V (x, e.dirIndex % entriesPerClust m))) attrDirectory = false
  notDots : x ∈ D → x ≠ m.rootCluster → 2 ≤ e.dirIndex % entriesPerClust m

section Update

variable {E : Env} {w : World} {D H : Set Nat} {e : Fat32Entry} {l : List Nat} {x h : Nat}

theorem FileSlot.mem {m : Mount} {N : Nat} {V : Vol} (hf : FileSlot m N V D e l x) : x ∈ l :=
  List.mem_of_getElem? hf.cluster

theorem FileSlot.kept {m : Mount} {N : Nat} {V V' : Vol} (hf : FileSlot m N V D e l x)
    (hk : Kept N D V V') : FileSlot m N V' D e l x := by
  refine ⟨hf.dir, (hk.link _ hf.dir l).mpr hf.chain, hf.cluster, ?_, hf.notDots⟩
  have hdata := hk.data x ⟨_, hf.dir, l, hf.chain, hf.mem⟩
  rw [slotAt, hdata]
  exact hf.file

theorem updateDirEntry_sound (hE : E.Lawful) (hg : Good E w) (hloose : E.Loose)
    (hf : FileSlot E.mount E.clusters (E.vol w) D e l x)
    (ho : Owned E.mount E.clusters (E.vol w) D H {(x, e.dirIndex % entriesPerClust E.mount)} h)
    (size : Nat) :
    Runs (updateDirEntry e.dirCluster e.dirIndex h size) w (fun _ w' => Step E w w' ∧
      (E.vol w').fat = (E.vol w).fat ∧
      Owned E.mount E.clusters (E.vol w') D H {(x, e.dirIndex % entriesPerClust E.mount)} h ∧
      FileSlot E.mount E.clusters (E.vol w') D e l x) (fun _ => False) := by
  have hN := hE.fits.small
  have hd := ho.sound.valid (ho.sound.dirs hf.dir)
  refine (editSlot_runs hE hg hloose.opens hd hf.chain (eof_stops hN _ rfl) (.inr rfl)
    (slotEdit_update _ h size)).mono ?_ (fun _ he => he)
  rintro r w1 ⟨hs1, ⟨y, hy, hvol1, -⟩ | ⟨hvol1, -⟩⟩
  · obtain rfl : y = x := Option.some.inj (hy.symm.trans hf.cluster)
    rw [hvol1]
    set i := e.dirIndex % entriesPerClust E.mount
    set f := updateSlot h size ((E.vol w).data y) i with hfdef
    have hvalid := hE.fits.lt_eof (ho.sound.valid ho.head)
    have hslot : slotAt ((E.vol w).setData y f) (y, i) = slotOf f i := by
      rw [slotAt]
      simp only [Vol.setData, Function.update_self]
    have hattr : slotAttr (slotAt ((E.vol w).setData y f) (y, i)) =
        slotAttr (slotAt (E.vol w) (y, i)) := by
      rw [hslot]
      exact slotOf_update (.inl (by decide))
    have hcl : slotCluster (slotAt ((E.vol w).setData y f) (y, i)) = h := by
      rw [hslot]
      exact slotCluster_update (by unfold fat32Eof at hvalid; omega)
    have hedit := slotEdit_update i h size
    have hout : ∀ j, ¬(32 * i ≤ j ∧ j < 32 * i + 32) → f j = (E.vol w).data y j :=
      hedit.outside ((E.vol w).data y)
    have hsound : Sound E.mount E.clusters ((E.vol w).setData y f) D H ∅ := by
      refine (ho.sound.mono (Set.empty_subset _)).edit hout hf.notDots (fun _ _ => ⟨?_, .inr ?_⟩)
      · unfold Holds
        rw [hattr, hf.file, if_neg (by decide), hcl]
        exact .inr ⟨ho.head, ho.notDir⟩
      · rw [hcl]
        intro q hq hX
        exact ho.unused q hq (fun hm => hX (.inl hm))
    refine ⟨hs1, rfl, ⟨hsound, ho.head, ho.notDir, fun q hq hX => ?_⟩, hf.dir, hf.chain,
      hf.cluster, hattr ▸ hf.file, hf.notDots⟩
    have hne : q ≠ (y, i) := hX
    have hsq := slotAt_setData hout hne
    rw [hsq]
    exact ho.unused q (hq.of hq.onDir hsq id) hX
  · rw [hvol1]
    exact ⟨hs1, rfl, ho, hf⟩

-- The steps fat32_write makes along the chain for len bytes at offset.
def writeSteps (bpc offset len : Nat) : Nat := offset / bpc + (offset % bpc + len - 1) / bpc

def Env.WriteRoom (E : Env) (V : Vol) (e : Fat32Entry) (offset len : Nat) : Prop :=
  if e.cluster = 0 then
    Room E.limit E.clusters V (writeSteps E.mount.bytesPerClust offset len + 1)
  else ∀ l, Link E.clusters V fat32Eof e.cluster l →
    E.Enough V (writeSteps E.mount.bytesPerClust offset len) (l.length - 1)

def Env.WriteSteady (E : Env) (V : Vol) (e : Fat32Entry) (offset len : Nat) : Prop :=
  if e.cluster = 0 then ¬E.fatFails .alloc
  else ∀ l, Link E.clusters V fat32Eof e.cluster l →
    E.Steady (writeSteps E.mount.bytesPerClust offset len) (l.length - 1)

theorem Sound.fileSlot (hs : Sound E.mount E.clusters (E.vol w) D H ∅)
    (hf : Fits E.mount E.clusters) (hd : dirHead E.mount e.dirCluster ∈ D)
    (he : EntryAt E.mount E.clusters (E.vol w) e l x)
    (ha : hasAttr e.attr attrDirectory = false) :
    FileSlot E.mount E.clusters (E.vol w) D e l x :=
  ⟨hd, he.chain, he.cluster, he.attr ▸ ha, (hs.live_entry hf hd he).notDots⟩

theorem Sound.owned (hs : Sound E.mount E.clusters (E.vol w) D H ∅)
    (hf : Fits E.mount E.clusters) (hd : dirHead E.mount e.dirCluster ∈ D)
    (he : EntryAt E.mount E.clusters (E.vol w) e l x)
    (ha : hasAttr e.attr attrDirectory = false) (h0 : e.cluster ≠ 0) :
    Owned E.mount E.clusters (E.vol w) D H {(x, e.dirIndex % entriesPerClust E.mount)}
      e.cluster := by
  have hlive := hs.live_entry hf hd he
  have hheld := hs.holds _ hlive (by simp)
  unfold Holds at hheld
  rw [he.attr, ha, if_neg (by decide), he.start] at hheld
  obtain ⟨hH, hD⟩ := hheld.resolve_left h0
  refine ⟨hs, hH, hD, fun q hq hX hc => h0 ?_⟩
  rw [← he.start]
  exact hs.apart _ q hlive hq (by simp) (by simp) (fun h => hX h.symm) (he.start.trans hc.symm)

theorem firstCluster_sound (hE : E.Lawful) (hg : Good E w) (hloose : E.Loose)
    (hs : Sound E.mount E.clusters (E.vol w) D H ∅)
    (hf : FileSlot E.mount E.clusters (E.vol w) D e l x)
    (hown : e.cluster ≠ 0 → Owned E.mount E.clusters (E.vol w) D H
      {(x, e.dirIndex % entriesPerClust E.mount)} e.cluster) {offset len : Nat}
    (halloc : E.WriteSteady (E.vol w) e offset len) (hroom : E.WriteRoom (E.vol w) e offset len) :
    Runs (firstCluster e) w (fun r w' => Step E w w' ∧
      ∃ H', Sound E.mount E.clusters (E.vol w') D H' ∅ ∧
        FileSlot E.mount E.clusters (E.vol w') D e l x ∧
        (r = none → e.cluster = 0) ∧ ∀ e', r = some e' →
        ∃ h, e' = { e with cluster := h } ∧
          Owned E.mount E.clusters (E.vol w') D H'
            {(x, e.dirIndex % entriesPerClust E.mount)} h ∧
          ∃ t, InFile E.clusters (E.vol w') D H' h t ∧
            E.Enough (E.vol w') (writeSteps E.mount.bytesPerClust offset len) t ∧
            E.Steady (writeSteps E.mount.bytesPerClust offset len) t)
      (fun _ => False) := by
  have hN := hE.fits.small
  unfold firstCluster
  by_cases h0 : e.cluster = 0
  · rw [if_pos h0]
    unfold Env.WriteRoom at hroom
    unfold Env.WriteSteady at halloc
    rw [if_pos h0] at hroom halloc
    refine (fatAllocCluster_runs hE hg halloc (hroom.mono (by omega))).then ?_
    rintro n w1 ⟨hs1, ⟨rfl, hv1, -⟩ | ⟨hn0, hok, hlim, hfree, -, hvol1⟩⟩
    · have hvol1 : E.vol w1 = E.vol w := E.vol_congr hv1
      rw [if_pos rfl]
      exact Runs.pure ⟨hs1, H, hvol1.symm ▸ hs, hvol1.symm ▸ hf, fun _ => h0,
        fun e' he' => by cases he'⟩
    · rw [if_neg hn0]
      have hnot := hs.free_not_head hN hfree
      have hkept := hs.kept_alloc hN hfree fat32Eof
      have hsound := hs.alloc hN hok hfree
      have hown : Owned E.mount E.clusters ((E.vol w).setFat n fat32Eof) D (insert n H)
          {(x, e.dirIndex % entriesPerClust E.mount)} n :=
        ⟨hsound, Set.mem_insert .., fun hn => hnot (hs.dirs hn),
          fun q hq _ => hkept.unused (hs.unused hnot hn0) q hq (by simp)⟩
      have hin : InFile E.clusters ((E.vol w).setFat n fat32Eof) D (insert n H) n 0 :=
        ⟨n, Set.mem_insert .., hown.notDir, [], [], ⟨rfl, hok, Function.update_self ..⟩, rfl⟩
      have henough : E.Enough ((E.vol w).setFat n fat32Eof)
          (writeSteps E.mount.bytesPerClust offset len) 0 :=
        .inr (hroom.alloc hok hlim hfree (by decide))
      rw [← hvol1] at hown hin henough hkept
      refine (updateDirEntry_sound hE hs1.good hloose (hf.kept hkept) hown e.size).then ?_
      rintro - w2 ⟨hs2, hfat, hown2, hf2⟩
      refine Runs.pure ⟨hs1.trans hs2, insert n H, hown2.sound, hf2, fun hr => (by cases hr),
        fun e' he' => ?_⟩
      cases he'
      refine ⟨n, rfl, hown2, 0, ?_, henough.congr (fun c => by rw [hfat]), .inl halloc⟩
      unfold InFile Link at hin ⊢
      rw [hfat]
      exact hin
  · rw [if_neg h0]
    unfold Env.WriteRoom at hroom
    unfold Env.WriteSteady at halloc
    rw [if_neg h0] at hroom halloc
    have hown := hown h0
    refine Runs.pure ⟨hg.step, H, hs, hf, fun hr => (by cases hr), fun e' he' => ?_⟩
    cases he'
    obtain ⟨lf, hlf⟩ := hs.chain hown.head
    cases lf with
    | nil => exact absurd (hs.valid hown.head) (eof_stops hN _ hlf)
    | cons y lf =>
      refine ⟨e.cluster, rfl, hown, lf.length, ⟨e.cluster, hown.head, hown.notDir, [], lf,
        ?_, rfl⟩, by simpa using hroom _ hlf, by simpa using halloc _ hlf⟩
      obtain rfl := hlf.1
      exact hlf

theorem writeSteps_eq (bpc offset len : Nat) :
    writeSteps bpc offset len = offset / bpc + (offset % bpc + len - 1) / bpc := rfl

theorem fat32Write_owned (hE : E.Lawful) (hg : Good E w) (hloose : E.Loose)
    (hs : Sound E.mount E.clusters (E.vol w) D H ∅)
    (hf : FileSlot E.mount E.clusters (E.vol w) D e l x)
    (hown : e.cluster ≠ 0 → Owned E.mount E.clusters (E.vol w) D H
      {(x, e.dirIndex % entriesPerClust E.mount)} e.cluster)
    (ha : hasAttr e.attr attrDirectory = false) {data : List UInt8} {offset fuel : Nat}
    (halloc : E.WriteSteady (E.vol w) e offset data.length)
    (hroom : E.WriteRoom (E.vol w) e offset data.length) :
    Runs (fat32Write fuel e data offset) w (fun r w' => Step E w w' ∧
      ∃ H', Sound E.mount E.clusters (E.vol w') D H' ∅ ∧
        FileSlot E.mount E.clusters (E.vol w') D e l x ∧
        (r.2.cluster ≠ 0 → Owned E.mount E.clusters (E.vol w') D H'
          {(x, e.dirIndex % entriesPerClust E.mount)} r.2.cluster))
      (fun w' => Good E w' ∧ fuel ≤ data.length) := by
  unfold fat32Write
  refine Runs.get_bind ?_
  rw [hg.mount, hE.fits.mounted, ha]
  simp only [Bool.not_true, Bool.false_eq_true, if_false]
  refine (kmalloc_runs hg).then ?_
  rintro ok w1 ⟨hs1, hv1, -⟩
  have hvol1 : E.vol w1 = E.vol w := E.vol_congr hv1
  rw [← hvol1] at hs hf hown hroom halloc
  cases ok with
  | false => exact Runs.pure ⟨hs1, H, hs, hf, hown⟩
  | true =>
    simp only [Bool.not_true, Bool.false_eq_true, if_false]
    refine (firstCluster_sound hE hs1.good hloose hs hf hown halloc hroom).then ?_
    rintro r w2 ⟨hs2, H2, hsound2, hf2, hnone2, hr2⟩
    cases r with
    | none =>
      exact Runs.pure ⟨hs1.trans hs2, H2, hsound2, hf2, fun h => absurd (hnone2 rfl) h⟩
    | some e' =>
      obtain ⟨h, rfl, hown2, t2, hin2, hroom2, halloc2⟩ := hr2 e' rfl
      rw [writeSteps_eq] at hroom2 halloc2
      refine (seekOrGrow_sound hE hs2.good hloose halloc2 hown2 hin2 hroom2).then ?_
      rintro r w3 ⟨hs3, hk3, H3, hown3, hr3⟩
      have hs123 := (hs1.trans hs2).trans hs3
      have hf3 := hf2.kept hk3
      cases r with
      | none => exact Runs.pure ⟨hs123, H3, hown3.sound, hf3, fun _ => hown3⟩
      | some c =>
        obtain ⟨t3, hin3, hroom3, halloc3⟩ := hr3 c rfl
        refine (writeLoop_sound hE hs3.good hloose hown3 hin3
          (Nat.mod_lt _ (bpc_bounds hE.fits).1) halloc3 hroom3).bind ?_
        rintro r w4 ⟨hs4, hk4, H4, hown4⟩
        cases r with
        | error z =>
          exact Runs.pure ⟨hs123.trans hs4, H4, hown4.sound, hf3.kept hk4, fun _ => hown4⟩
        | ok written =>
          refine (updateDirEntry_sound hE hs4.good hloose (hf3.kept hk4) hown4 _).then ?_
          rintro - w5 ⟨hs5, -, hown5, hf5⟩
          exact Runs.pure ⟨(hs123.trans hs4).trans hs5, H4, hown5.sound, hf5, fun _ => hown5⟩

theorem fat32Write_sound (hE : E.Lawful) (hg : Good E w) (hloose : E.Loose)
    (hs : Sound E.mount E.clusters (E.vol w) D H ∅)
    (hd : dirHead E.mount e.dirCluster ∈ D) (he : EntryAt E.mount E.clusters (E.vol w) e l x)
    {data : List UInt8} {offset fuel : Nat}
    (halloc : hasAttr e.attr attrDirectory = false →
      E.WriteSteady (E.vol w) e offset data.length)
    (hroom : hasAttr e.attr attrDirectory = false →
      E.WriteRoom (E.vol w) e offset data.length) :
    Runs (fat32Write fuel e data offset) w (fun _ w' => Step E w w' ∧
      ∃ H', Sound E.mount E.clusters (E.vol w') D H' ∅)
      (fun w' => Good E w' ∧ fuel ≤ data.length) := by
  cases ha : hasAttr e.attr attrDirectory with
  | true =>
    unfold fat32Write
    refine Runs.get_bind ?_
    rw [hg.mount, hE.fits.mounted, ha]
    exact Runs.pure ⟨hg.step, H, hs⟩
  | false =>
    refine (fat32Write_owned hE hg hloose hs (hs.fileSlot hE.fits hd he ha)
      (hs.owned hE.fits hd he ha) ha (halloc ha) (hroom ha)).mono ?_ (fun _ h => h)
    rintro r w' ⟨hstep, H', hs', -⟩
    exact ⟨hstep, H', hs'⟩

end Update

end Fat32
