import SabakaOS.Fat32.Volume

namespace Fat32

open Word ByteMemory Prog

structure Step (E : Env) (w w' : World) : Prop where
  good : Good E w'
  ext : w.trace <:+ w'.trace

section Device

variable {E : Env} {w w' : World} {s : Site} {x : Xfer} {lba : Nat}

theorem Good.step (h : Good E w) : Step E w w := ⟨h, List.suffix_rfl⟩

theorem Step.trans {w1 w2 w3 : World} (h : Step E w1 w2) (h' : Step E w2 w3) : Step E w1 w3 :=
  ⟨h'.good, h.ext.trans h'.ext⟩

theorem Good.called (h : Good E w) (n : Nat) : Good E { w with ataCalls := n } :=
  ⟨h.mount, h.present, h.sectorCount, h.ata, h.heap, h.cache, h.legal⟩

theorem Good.logged (h : Good E w) {e : Event} (he : E.rule w.trace e) :
    Good E { w with trace := e :: w.trace } :=
  ⟨h.mount, h.present, h.sectorCount, h.ata, h.heap, h.cache, he, h.legal⟩

theorem log_runs (h : Good E w) {e : Event} (he : E.rule w.trace e) :
    Runs (log e) w (fun _ w' => Step E w w' ∧ view w' = view w ∧ e ∈ w'.trace)
      (fun _ => False) :=
  ⟨⟨h.logged he, List.suffix_cons ..⟩, rfl, List.mem_cons_self ..⟩

theorem kmalloc_runs (h : Good E w) :
    Runs (kmalloc s) w (fun r w' => Step E w w' ∧ view w' = view w ∧ (r = false → E.heapFails s))
      (fun _ => False) := by
  refine ⟨⟨⟨h.mount, h.present, h.sectorCount, h.ata, h.heap, h.cache, h.legal⟩,
    List.suffix_rfl⟩, rfl, fun hr => ⟨w.heapCalls, ?_⟩⟩
  rw [← h.heap]
  exact hr

theorem ataRead_runs (h : Good E w) :
    Runs (ataReadSectors s x lba) w (fun r w' => w' = { w with ataCalls := w.ataCalls + 1 } ∧
      (r = some (sectorAt w.disk lba) ∨ (r = none ∧ E.ataFails s x))) (fun _ => False) := by
  unfold ataReadSectors Runs
  simp only [h.present, Bool.true_and]
  cases hio : w.ata s x w.ataCalls with
  | false => exact ⟨rfl, .inr ⟨rfl, w.ataCalls, h.ata ▸ hio⟩⟩
  | true => exact ⟨rfl, .inl rfl⟩

theorem ataWrite_runs (h : Good E w) (buf : Buffer) :
    Runs (ataWriteSectors s x lba buf) w (fun r w' =>
      (r = true ∧ w' = { w with
        ataCalls := w.ataCalls + 1
        disk := storeSector w.disk lba buf
        trace := .sectorWrite x lba :: w.trace }) ∨
      (r = false ∧ E.ataFails s x ∧ w' = { w with ataCalls := w.ataCalls + 1 }))
      (fun _ => False) := by
  unfold ataWriteSectors Runs
  simp only [h.present, Bool.true_and]
  cases hio : w.ata s x w.ataCalls with
  | false => exact .inr ⟨rfl, ⟨w.ataCalls, h.ata ▸ hio⟩, rfl⟩
  | true => exact .inl ⟨rfl, rfl⟩

end Device

section Cache

variable {E : Env} {w w' : World} {s : Site}

theorem fits_noLba (hf : Fits E.mount E.clusters) {lba : Nat}
    (h : lba < E.mount.fatStartLba + 2 * E.mount.fatSizeSectors) : lba ≠ noLba := by
  have h1 := hf.cluster_lt hf.root
  have h2 := le_clusterLba E.mount E.mount.rootCluster
  have h3 := hf.spc
  have h4 := hf.fats
  rw [noLba]
  omega

theorem fatFlushCache_runs (hE : E.Lawful) (hg : Good E w) :
    Runs (fatFlushCache s) w (fun r w' => Step E w w' ∧ view w' = view w ∧
      w'.fatCacheLba = w.fatCacheLba ∧ (r = true → w'.fatCacheDirty = false) ∧
      (r = false → E.ataFails s .fatWrite)) (fun _ => False) := by
  unfold fatFlushCache
  refine Runs.get_bind ?_
  cases hd : w.fatCacheDirty with
  | false =>
    exact Runs.pure ⟨hg.step, rfl, rfl, fun _ => hd, fun hr => by cases hr⟩
  | true =>
    simp only [Bool.not_true, Bool.false_eq_true, if_false]
    have hcache : E.mount.fatStartLba ≤ w.fatCacheLba ∧
        w.fatCacheLba < E.mount.fatStartLba + 2 * E.mount.fatSizeSectors ∧
        ∀ i < 512, w.fatCache i = view w (512 * w.fatCacheLba + i) := by
      refine hg.cache.resolve_left (fun hno => ?_)
      rw [hno.2] at hd
      cases hd
    have hview : view w = storeSector w.disk w.fatCacheLba w.fatCache := by
      rw [view, if_pos hd]
    refine (ataWrite_runs hg w.fatCache).then ?_
    rintro r w1 (⟨rfl, rfl⟩ | ⟨rfl, hfail, rfl⟩)
    · refine Runs.modify_bind (Runs.pure ⟨⟨?_, List.suffix_cons ..⟩, hview.symm, rfl,
        fun _ => rfl, fun hr => by cases hr⟩)
      refine ⟨hg.mount, hg.present, hg.sectorCount, hg.ata, hg.heap, .inr ⟨hcache.1, hcache.2.1,
        fun i hi => ?_⟩, hE.fatSectors _ _ hcache.1 hcache.2.1, hg.legal⟩
      exact (hcache.2.2 i hi).trans (congrFun hview _)
    · exact Runs.pure ⟨⟨hg.called _, List.suffix_rfl⟩, rfl, rfl, fun hr => (by cases hr),
        fun _ => hfail⟩

theorem fatReadSector_runs (hE : E.Lawful) (hg : Good E w) {lba : Nat}
    (h1 : E.mount.fatStartLba ≤ lba)
    (h2 : lba < E.mount.fatStartLba + 2 * E.mount.fatSizeSectors) :
    Runs (fatReadSector s lba) w (fun r w' => Step E w w' ∧ view w' = view w ∧
      (r = true → ∀ i < 512, w'.fatCache i = view w' (512 * lba + i)) ∧
      (r = true → w'.fatCacheLba = lba) ∧ (r = false → E.fatFails s)) (fun _ => False) := by
  unfold fatReadSector
  refine Runs.get_bind ?_
  split
  · rename_i heq
    refine Runs.pure ⟨hg.step, rfl, fun _ => ?_, fun _ => heq, fun hr => by cases hr⟩
    rcases hg.cache with hno | hc
    · exact absurd (heq.symm.trans hno.1) (fits_noLba hE.fits h2)
    · rw [← heq]
      exact hc.2.2
  · refine (fatFlushCache_runs hE hg).then ?_
    rintro r w1 ⟨hs1, hv1, -, hclean, hfail⟩
    cases r with
    | false =>
      exact Runs.pure ⟨hs1, hv1, fun hr => (by cases hr), fun hr => (by cases hr),
        fun _ => .inr (hfail rfl)⟩
    | true =>
      simp only [Bool.not_true, Bool.false_eq_true, if_false]
      refine (ataRead_runs hs1.good).then ?_
      rintro r w2 ⟨rfl, rfl | ⟨rfl, hfail⟩⟩
      · have hdisk : view w1 = w1.disk := by
          rw [view, hclean rfl]
          rfl
        have hnew : ∀ (f : Buffer) (l n : Nat), view { w1 with
            ataCalls := n, fatCache := f, fatCacheLba := l } = view w1 := fun f l n => by
          rw [hdisk, view]
          simp only [hclean rfl]
          rfl
        refine Runs.modify_bind (Runs.pure ⟨⟨?_, hs1.ext⟩, (hnew _ _ _).trans hv1,
          fun _ i _ => ?_, fun _ => rfl, fun hr => by cases hr⟩)
        · refine ⟨hs1.good.mount, hs1.good.present, hs1.good.sectorCount, hs1.good.ata,
            hs1.good.heap, .inr ⟨h1, h2, fun i _ => ?_⟩, hs1.good.legal⟩
          rw [hnew, hdisk]
          rfl
        · rw [hnew, hdisk]
          rfl
      · exact Runs.pure ⟨⟨hs1.good.called _, hs1.ext⟩, hv1, fun hr => (by cases hr),
          fun hr => (by cases hr), fun _ => .inl hfail⟩

end Cache

section Table

variable {E : Env} {w w' : World} {s : Site} {c : Nat}

theorem readLE_cache {cache img : Buffer} {lba off a : Nat}
    (h : ∀ i < 512, cache i = img (512 * lba + i)) (ha : 512 * lba + off = a)
    (ho : off + 4 ≤ 512) : readLE cache 4 off = readLE img 4 a := by
  have hshift : ∀ n k b, b = 512 * lba + k → k + n ≤ 512 → readLE cache n k = readLE img n b := by
    intro n
    induction n with
    | zero => exact fun _ _ _ _ => rfl
    | succ n ih =>
      intro k b hb hk
      rw [readLE, readLE, h k (by omega), hb, ih (k + 1) (512 * lba + k + 1) (by omega) (by omega)]
  exact hshift 4 off a ha.symm ho

theorem fatGet_runs (hE : E.Lawful) (hg : Good E w) (hc : E.ok c)
    (hr : E.rule w.trace (.fatGet s c)) :
    Runs (fatGet s c) w (fun r w' => Step E w w' ∧ view w' = view w ∧ .fatGet s c ∈ w'.trace ∧
      (r = (E.vol w).fat c ∨ (r = 0 ∧ E.fatFails s))) (fun _ => False) := by
  unfold fatGet
  refine (log_runs hg hr).then ?_
  rintro - w1 ⟨hs1, hv1, hm1⟩
  refine Runs.get_bind ?_
  have hlba := hE.fits.fatLba_eq hc (show 0 < 2 by decide)
  rw [← hs1.good.mount] at hlba
  refine (fatReadSector_runs hE hs1.good (by rw [← hs1.good.mount]; exact hlba.2.1)
    (by rw [← hs1.good.mount]; exact hlba.2.2.1)).then ?_
  rintro r w2 ⟨hs2, hv2, hcache, -, hfail⟩
  have hm2 : .fatGet s c ∈ w2.trace := hs2.ext.subset hm1
  cases r with
  | false =>
    exact Runs.pure ⟨hs1.trans hs2, hv2.trans hv1, hm2, .inr ⟨rfl, hfail rfl⟩⟩
  | true =>
    refine Runs.get_bind (Runs.pure ⟨hs1.trans hs2, hv2.trans hv1, hm2, .inl ?_⟩)
    have haddr : 512 * fatLba w1.mount 0 c + fatOff c = entryAddr E.mount c := by
      rw [hlba.1, hs1.good.mount]
      omega
    rw [readLE_cache (hcache rfl) haddr hlba.2.2.2, hv2, hv1]
    exact (if_pos hc).symm

theorem putEntry_eq {cache img : Buffer} {lba off a v : Nat}
    (h : ∀ i < 512, cache i = img (512 * lba + i)) (ha : 512 * lba + off = a)
    (ho : off + 4 ≤ 512) :
    storeSector img lba (putEntry cache off v) =
      writeLE img 4 a (v + (img (a + 3)).toNat / 16 * 16 * 0x1000000) := by
  have hold : cache (off + 3) = img (a + 3) := by
    rw [h _ (by omega)]
    congr 1
    omega
  have hshift : ∀ n k b x, b = 512 * lba + k → k + n ≤ 512 → ∀ i < 512,
      writeLE cache n k x i = writeLE img n b x (512 * lba + i) := by
    intro n
    induction n with
    | zero => exact fun _ _ _ _ _ i hi => h i hi
    | succ n ih =>
      intro k b x hb hk i hi
      by_cases hik : i = k
      · rw [writeLE, writeLE, hik, hb, Function.update_self, Function.update_self]
      · rw [writeLE, writeLE, Function.update_of_ne hik, Function.update_of_ne (by omega)]
        exact ih (k + 1) (b + 1) _ (by omega) (by omega) i hi
  funext x
  unfold storeSector putEntry
  by_cases hx : 512 * lba ≤ x ∧ x < 512 * lba + 512
  · rw [if_pos hx, hold, hshift 4 off a _ ha.symm ho _ (by omega)]
    congr 1
    omega
  · rw [if_neg hx, writeLE_of_not_mem _ _ _ _ (by omega)]

theorem fatSetCopy_runs (hE : E.Lawful) (hg : Good E w) (hc : E.ok c) {v k : Nat} (hk : k < 2) :
    Runs (fatSetCopy s c v k) w (fun r w' => Step E w w' ∧ (r = false → E.fatFails s) ∧
      ((r = false ∧ view w' = view w) ∨ ∃ x, view w' =
        writeLE (view w) 4 (entryAddr E.mount c + 512 * (k * E.mount.fatSizeSectors))
          (v + x * 16 * 0x1000000))) (fun _ => False) := by
  unfold fatSetCopy
  refine Runs.get_bind ?_
  have hlba := hE.fits.fatLba_eq hc hk
  rw [hg.mount]
  refine (fatReadSector_runs hE hg hlba.2.1 hlba.2.2.1).then ?_
  rintro r w1 ⟨hs1, hv1, hcache, hat, hfail⟩
  cases r with
  | false => exact Runs.pure ⟨hs1, fun _ => hfail rfl, .inl ⟨rfl, hv1⟩⟩
  | true =>
    have hcache := hcache rfl
    refine Runs.modify_bind ?_
    set w2 : World := { w1 with
      fatCache := putEntry w1.fatCache (fatOff c) v
      fatCacheDirty := true } with hw2
    have hview : view w2 = writeLE (view w)  4
        (entryAddr E.mount c + 512 * (k * E.mount.fatSizeSectors))
        (v + (view w (entryAddr E.mount c + 512 * (k * E.mount.fatSizeSectors) + 3)).toNat / 16 * 16 *
          0x1000000) := by
      rw [← hv1, ← hlba.1, ← putEntry_eq hcache rfl hlba.2.2.2]
      funext a
      rw [hw2, view]
      simp only [if_true, hat rfl]
      unfold storeSector
      split
      · rfl
      · rename_i hout
        unfold view
        split
        · unfold storeSector
          rw [hat rfl, if_neg hout]
        · rfl
    have hg2 : Good E w2 := by
      refine ⟨hs1.good.mount, hs1.good.present, hs1.good.sectorCount, hs1.good.ata, hs1.good.heap,
        .inr ⟨?_, ?_, fun i hi => ?_⟩, hs1.good.legal⟩
      · change E.mount.fatStartLba ≤ w1.fatCacheLba
        rw [hat rfl]
        exact hlba.2.1
      · change w1.fatCacheLba < _
        rw [hat rfl]
        exact hlba.2.2.1
      · rw [hw2, view]
        simp only [if_true]
        unfold storeSector
        rw [if_pos (by omega)]
        congr 1
        omega
    refine (fatFlushCache_runs hE hg2).mono ?_ (fun _ he => he)
    rintro r w3 ⟨hs3, hv3, -, -, hfail3⟩
    exact ⟨⟨hs3.good, hs1.ext.trans hs3.ext⟩, fun hr => .inr (hfail3 hr),
      .inr ⟨_, hv3.trans hview⟩⟩

theorem vol_firstCopy (hE : E.Lawful) (hc : E.ok c) {v x : Nat} (hv : v < 0x10000000)
    (h : view w' = writeLE (view w) 4 (entryAddr E.mount c) (v + x * 16 * 0x1000000)) :
    E.vol w' = (E.vol w).setFat c v := by
  rw [Env.vol, h, volOf_writeEntry hE.fits hc]
  congr 1
  omega

theorem vol_secondCopy (hE : E.Lawful) (hc : E.ok c) {v : Nat}
    (h : view w' = writeLE (view w) 4 (entryAddr E.mount c + 512 * E.mount.fatSizeSectors) v) :
    E.vol w' = E.vol w := by
  have h1 := hE.fits.entry_room hc
  have h2 := hE.fits.fats
  have h3 : 512 * E.mount.fatStartLba ≤ entryAddr E.mount c := by
    rw [entryAddr_eq]
    omega
  rw [Env.vol, h]
  exact volOf_congr hE.fits (fun a _ ha => writeLE_of_not_mem _ _ _ _ (by omega))
    (fun a ha => writeLE_of_not_mem _ _ _ _ (by omega))

theorem fatSet_runs (hE : E.Lawful) (hg : Good E w) (hc : E.ok c) {v : Nat} (hv : v < 0x10000000)
    (hr : E.rule w.trace (.fatSet s c v)) :
    Runs (fatSet s c v) w (fun r w' => Step E w w' ∧ .fatSet s c v ∈ w'.trace ∧
      (r = false → E.fatFails s) ∧
      (E.vol w' = (E.vol w).setFat c v ∨ (r = false ∧ E.vol w' = E.vol w))) (fun _ => False) := by
  unfold fatSet
  rw [Nat.mod_eq_of_lt hv]
  refine (log_runs hg hr).then ?_
  rintro - w1 ⟨hs1, hv1, hm1⟩
  have hvol1 : E.vol w1 = E.vol w := E.vol_congr hv1
  refine (fatSetCopy_runs hE hs1.good hc (show 0 < 2 by decide)).then ?_
  rintro r w2 ⟨hs2, hfail2, hview2⟩
  have hm2 : .fatSet s c v ∈ w2.trace := hs2.ext.subset hm1
  have hvol2 : E.vol w2 = (E.vol w).setFat c v ∨ (r = false ∧ E.vol w2 = E.vol w) := by
    rcases hview2 with ⟨hrf, hsame⟩ | ⟨x, hx⟩
    · exact .inr ⟨hrf, by rw [← hvol1, Env.vol, hsame]; rfl⟩
    · rw [Nat.zero_mul, Nat.mul_zero, Nat.add_zero] at hx
      exact .inl (by rw [vol_firstCopy hE hc hv hx, hvol1])
  cases r with
  | false =>
    exact Runs.pure ⟨hs1.trans hs2, hm2, fun _ => hfail2 rfl, hvol2⟩
  | true =>
    have hset : E.vol w2 = (E.vol w).setFat c v := hvol2.resolve_right (fun h => by cases h.1)
    refine (fatSetCopy_runs hE hs2.good hc (show 1 < 2 by decide)).mono ?_ (fun _ he => he)
    rintro r w3 ⟨hs3, hfail3, hview3⟩
    refine ⟨(hs1.trans hs2).trans hs3, hs3.ext.subset hm2, hfail3, .inl ?_⟩
    rcases hview3 with ⟨-, hsame⟩ | ⟨x, hx⟩
    · rw [← hset, Env.vol, hsame]
      rfl
    · rw [Nat.one_mul] at hx
      rw [vol_secondCopy hE hc hx, hset]

end Table

section Clusters

variable {E : Env} {w w' : World} {s : Site} {c : Nat}

theorem Good.disk_eq (hE : E.Lawful) (hg : Good E w) {a : Nat}
    (ha : 512 * E.mount.dataStartLba ≤ a) : view w a = w.disk a := by
  unfold view
  split
  · rename_i hd
    have hfats := hE.fits.fats
    rcases hg.cache with hno | hc
    · rw [hno.2] at hd
      cases hd
    · unfold storeSector
      rw [if_neg (by omega)]
  · rfl

theorem clusterReadFrom_runs (hg : Good E w) {lba n i : Nat} {buf : Buffer}
    (hlba : lba + (i + n) ≤ 2 ^ 32) :
    Runs (clusterReadFrom s lba n i buf) w (fun r w' => (∃ k, w' = { w with ataCalls := k }) ∧
      ((∃ b, r = some b ∧ (∀ j, j < 512 * i → b j = buf j) ∧
        ∀ j, 512 * i ≤ j → j < 512 * (i + n) → b j = w.disk (512 * lba + j)) ∨
      (r = none ∧ E.ataFails s .clusterRead))) (fun _ => False) := by
  induction n generalizing i buf w with
  | zero =>
    exact Runs.pure ⟨⟨w.ataCalls, rfl⟩, .inl ⟨buf, rfl, fun _ _ => rfl, fun j h1 h2 => by omega⟩⟩
  | succ n ih =>
    unfold clusterReadFrom
    refine (ataRead_runs hg).then ?_
    rintro r w1 ⟨rfl, rfl | ⟨rfl, hfail⟩⟩
    · refine (ih (hg.called _) (by omega)).mono ?_ (fun _ he => he)
      rintro r w2 ⟨⟨k, rfl⟩, hr⟩
      refine ⟨⟨k, rfl⟩, hr.imp_left ?_⟩
      rintro ⟨b, rfl, hlow, hhigh⟩
      refine ⟨b, rfl, fun j hj => ?_, fun j h1 h2 => ?_⟩
      · rw [hlow j (by omega), storeSector, if_neg (by omega)]
      · by_cases hj : j < 512 * (i + 1)
        · have hin : 512 * i ≤ j ∧ j < 512 * i + 512 := by omega
          rw [hlow j hj, storeSector, if_pos hin, sectorAt, u32_of_lt (by omega)]
          congr 1
          omega
        · exact hhigh j (by omega) (by omega)
    · exact Runs.pure ⟨⟨_, rfl⟩, .inr ⟨rfl, hfail⟩⟩

theorem clusterRead_runs (hE : E.Lawful) (hg : Good E w) (hc : E.ok c)
    (hr : E.rule w.trace (.clusterRead s c)) :
    Runs (clusterRead s c) w (fun r w' => Step E w w' ∧ view w' = view w ∧
      .clusterRead s c ∈ w'.trace ∧
      ((∃ b, r = some b ∧ ∀ j < E.mount.bytesPerClust, b j = (E.vol w).data c j) ∨
        (r = none ∧ E.ataFails s .clusterRead))) (fun _ => False) := by
  unfold clusterRead
  refine (log_runs hg hr).then ?_
  rintro - w1 ⟨hs1, hv1, hm1⟩
  refine Runs.get_bind ?_
  have hroom := hE.fits.cluster_lt hc
  rw [hs1.good.mount, hE.fits.clusterToLba_eq hc]
  refine (clusterReadFrom_runs hs1.good (by omega)).mono ?_ (fun _ he => he)
  rintro r w2 ⟨⟨k, rfl⟩, hr⟩
  refine ⟨⟨hs1.good.called k, hs1.ext⟩, hv1, hm1, hr.imp_left ?_⟩
  rintro ⟨b, rfl, -, hb⟩
  refine ⟨b, rfl, fun j hj => ?_⟩
  have hdata : (E.vol w).data c j = view w (512 * clusterLba E.mount c + j) := if_pos ⟨hc, hj⟩
  have hbpc := hE.fits.bpc
  have hle := le_clusterLba E.mount c
  rw [hb j (by omega) (by omega), hdata, ← hv1]
  exact (hs1.good.disk_eq hE (by omega)).symm

theorem Vol.setData_setData (V : Vol) (c : Nat) (f g : Nat → UInt8) :
    (V.setData c f).setData c g = V.setData c g := by
  simp [Vol.setData]

theorem clusterWriteFrom_runs (hE : E.Lawful) (hg : Good E w) (hc : E.ok c) {n i : Nat}
    (buf : Buffer) (hn : i + n = E.mount.sectorsPerClust) :
    Runs (clusterWriteFrom s (clusterLba E.mount c) buf n i) w (fun r w' => Step E w w' ∧
      ∃ k ≤ n, E.vol w' = (E.vol w).setData c (fun j =>
          if 512 * i ≤ j ∧ j < 512 * (i + k) then buf j else (E.vol w).data c j) ∧
        ((r = true ∧ k = n) ∨ (r = false ∧ E.ataFails s .clusterWrite))) (fun _ => False) := by
  have hnone : ∀ w, (E.vol w).setData c (fun j =>
      if 512 * i ≤ j ∧ j < 512 * (i + 0) then buf j else (E.vol w).data c j) = E.vol w := by
    intro w
    rw [Vol.setData]
    have hf : (fun j => if 512 * i ≤ j ∧ j < 512 * (i + 0) then buf j else (E.vol w).data c j) =
        (E.vol w).data c := funext fun j => if_neg (by omega)
    rw [hf, Function.update_eq_self]
  induction n generalizing i w with
  | zero => exact Runs.pure ⟨hg.step, 0, le_rfl, (hnone w).symm, .inl ⟨rfl, rfl⟩⟩
  | succ n ih =>
    unfold clusterWriteFrom
    have hroom := hE.fits.cluster_lt hc
    rw [u32_of_lt (by omega)]
    refine (ataWrite_runs hg (sectorAt buf i)).then ?_
    rintro r w1 (⟨rfl, rfl⟩ | ⟨rfl, hfail, rfl⟩)
    · simp only [Bool.not_true, Bool.false_eq_true, if_false]
      set w1 : World := { w with
        ataCalls := w.ataCalls + 1
        disk := storeSector w.disk (clusterLba E.mount c + i) (sectorAt buf i)
        trace := .sectorWrite .clusterWrite (clusterLba E.mount c + i) :: w.trace } with hw1
      have hle := le_clusterLba E.mount c
      have hfats := hE.fits.fats
      -- the sector lies behind the FATs, so the pending FAT sector is not touched
      have hview : view w1 = storeSector (view w) (clusterLba E.mount c + i) (sectorAt buf i) := by
        funext a
        rw [hw1]
        unfold view
        cases hd : w.fatCacheDirty with
        | false => rfl
        | true =>
          have hcache := hg.cache.resolve_left (fun hno => by
            rw [hno.2] at hd
            cases hd)
          simp only [if_true]
          unfold storeSector
          split
          · rw [if_neg (by omega)]
          · rfl
      have hg1 : Good E w1 := by
        refine ⟨hg.mount, hg.present, hg.sectorCount, hg.ata, hg.heap, hg.cache.imp_right ?_,
          hE.dataSectors _ c i hc (by omega), hg.legal⟩
        rintro ⟨h1, h2, h3⟩
        refine ⟨h1, h2, fun k hk => ?_⟩
        have h2' : w.fatCacheLba < E.mount.fatStartLba + 2 * E.mount.fatSizeSectors := h2
        change w.fatCache k = view w1 (512 * w.fatCacheLba + k)
        rw [hview, storeSector, if_neg (by omega)]
        exact h3 k hk
      have hvol1 : E.vol w1 = (E.vol w).setData c (fun j =>
          if 512 * i ≤ j ∧ j < 512 * i + 512 then buf j else (E.vol w).data c j) := by
        rw [Env.vol, hview]
        exact volOf_storeSector hE.fits hc (by omega) buf
      refine (ih hg1 (by omega) (fun w => ?_)).mono ?_ (fun _ he => he)
      · have hf : (fun j => if 512 * (i + 1) ≤ j ∧ j < 512 * (i + 1 + 0) then buf j
            else (E.vol w).data c j) = (E.vol w).data c := funext fun j => if_neg (by omega)
        rw [hf, Vol.setData, Function.update_eq_self]
      · rintro r w2 ⟨hs2, k, hk, hvol2, hr⟩
        refine ⟨⟨hs2.good, (List.suffix_cons ..).trans hs2.ext⟩, k + 1, by omega, ?_, ?_⟩
        · rw [hvol2, hvol1, Vol.setData_setData]
          congr 1
          funext j
          simp only [Vol.setData, Function.update_self]
          by_cases h1 : 512 * (i + 1) ≤ j ∧ j < 512 * (i + 1 + k)
          · rw [if_pos h1, if_pos (by omega)]
          · rw [if_neg h1]
            by_cases h2 : 512 * i ≤ j ∧ j < 512 * i + 512
            · rw [if_pos h2, if_pos (by omega)]
            · rw [if_neg h2, if_neg (by omega)]
        · exact hr.imp_left (fun h => ⟨h.1, by omega⟩)
    · exact Runs.pure ⟨⟨hg.called _, List.suffix_rfl⟩, 0, Nat.zero_le _, (hnone w).symm,
        .inr ⟨rfl, hfail⟩⟩

theorem clusterWrite_runs (hE : E.Lawful) (hg : Good E w) (hc : E.ok c) (buf : Buffer)
    (hr : E.rule w.trace (.clusterWrite s c)) :
    Runs (clusterWrite s c buf) w (fun r w' => Step E w w' ∧ .clusterWrite s c ∈ w'.trace ∧
      ∃ k ≤ E.mount.sectorsPerClust, E.vol w' = (E.vol w).setData c (fun j =>
          if j < 512 * k then buf j else (E.vol w).data c j) ∧
        ((r = true ∧ k = E.mount.sectorsPerClust) ∨ (r = false ∧ E.ataFails s .clusterWrite)))
      (fun _ => False) := by
  unfold clusterWrite
  refine (log_runs hg hr).then ?_
  rintro - w1 ⟨hs1, hv1, hm1⟩
  refine Runs.get_bind ?_
  rw [hs1.good.mount, hE.fits.clusterToLba_eq hc]
  refine (clusterWriteFrom_runs hE hs1.good hc buf (Nat.zero_add _)).mono ?_ (fun _ he => he)
  rintro r w2 ⟨hs2, k, hk, hvol2, hr⟩
  refine ⟨hs1.trans hs2, hs2.ext.subset hm1, k, hk, ?_, hr⟩
  have hvol1 : E.vol w1 = E.vol w := E.vol_congr hv1
  rw [hvol2, hvol1]
  simp only [Nat.mul_zero, Nat.zero_le, true_and, Nat.zero_add]

end Clusters

section Alloc

variable {E : Env} {w w' : World}

theorem viewEntry_eq (hg : Good E w) {c : Nat} (hc : E.ok c) : viewEntry w c = (E.vol w).fat c := by
  have hfat : (E.vol w).fat c = readLE (view w) 4 (entryAddr E.mount c) % 0x10000000 := if_pos hc
  rw [hfat, viewEntry, hg.mount, entryAddr_eq]

theorem fatAllocFrom_runs (hE : E.Lawful) (hg : Good E w) (hfail : ¬E.fatFails .alloc) {n c : Nat}
    (hc : 2 ≤ c) (hroom : c + n ≤ E.clusters ∨
      ∃ x, c ≤ x ∧ x < c + n ∧ x < E.clusters ∧ (E.vol w).fat x = 0) :
    Runs (fatAllocFrom n c) w (fun r w' => Step E w w' ∧
      ((r = 0 ∧ view w' = view w ∧ ∀ x, c ≤ x → x < c + n → (E.vol w).fat x ≠ 0) ∨
        (c ≤ r ∧ r < c + n ∧ E.ok r ∧ (E.vol w).fat r = 0 ∧ .alloc r 0 ∈ w'.trace ∧
          E.vol w' = (E.vol w).setFat r fat32Eof))) (fun _ => False) := by
  induction n generalizing c w with
  | zero => exact Runs.pure ⟨hg.step, .inl ⟨rfl, rfl, fun x h1 h2 => by omega⟩⟩
  | succ n ih =>
    have hok : E.ok c := by
      refine ⟨hc, ?_⟩
      rcases hroom with h | ⟨x, h1, -, h3, -⟩
      · omega
      · omega
    have hrule := fun t => hE.allocs t c hok
    unfold fatAllocFrom
    refine (fatGet_runs hE hg hok (hrule _).1).then ?_
    rintro v w1 ⟨hs1, hv1, -, hval⟩
    have hval : v = (E.vol w).fat c := hval.resolve_right (fun h => hfail h.2)
    have hvol1 : E.vol w1 = E.vol w := E.vol_congr hv1
    by_cases h0 : v = 0
    · rw [if_pos h0]
      refine Runs.modify_bind ?_
      have hfree : viewEntry w1 c = 0 := by
        rw [viewEntry_eq hs1.good hok, hvol1, ← hval, h0]
      rw [hfree]
      have hg2 : Good E { w1 with trace := .alloc c 0 :: w1.trace } :=
        hs1.good.logged (hrule _).2.1
      refine (fatSet_runs hE hg2 hok (by decide) (hrule _).2.2).then ?_
      rintro r w2 ⟨hs2, -, hsf, hset⟩
      refine Runs.pure ⟨⟨hs2.good, hs1.ext.trans ((List.suffix_cons ..).trans hs2.ext)⟩, .inr
        ⟨le_rfl, by omega, hok, hval ▸ h0, hs2.ext.subset (List.mem_cons_self ..), ?_⟩⟩
      rw [← hvol1]
      exact hset.resolve_right (fun h => hfail (hsf h.1))
    · rw [if_neg h0]
      refine (ih hs1.good (by omega) ?_).mono ?_ (fun _ he => he)
      · rw [hvol1]
        refine hroom.imp (fun h => by omega) ?_
        rintro ⟨x, h1, h2, h3, h4⟩
        have hne : x ≠ c := fun he => h0 (hval.trans (he ▸ h4))
        exact ⟨x, by omega, by omega, h3, h4⟩
      · rintro r w2 ⟨hs2, hr⟩
        refine ⟨hs1.trans hs2, ?_⟩
        rw [hvol1] at hr
        rcases hr with ⟨hr, hv2, hnone⟩ | ⟨h1, h2, h3⟩
        · refine .inl ⟨hr, hv2.trans hv1, fun x h1 h2 => ?_⟩
          by_cases hx : x = c
          · rw [hx, ← hval]
            exact h0
          · exact hnone x (by omega) (by omega)
        · exact .inr ⟨by omega, by omega, h3⟩

end Alloc

end Fat32
