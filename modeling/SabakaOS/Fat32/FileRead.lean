import SabakaOS.Fat32.FileWrite

namespace Fat32

open Word ByteMemory Prog Chain

section Read

variable {E : Env} {w : World} {e : Fat32Entry} {l : List Nat} {c d fuel j m n off size : Nat}
  {got : List UInt8}

theorem fatGet_next (hE : E.Lawful) (hq : E.Quiet) (hg : Good E w) {s : Site}
    (hopen : E.Opens s l) (hl : Link E.clusters (E.vol w) m d l) (hc : l[j]? = some c) :
    Runs (fatGet s c) w (fun r w' => Step E w w' ∧ view w' = view w ∧
      ((l[j + 1]? = some r ∧ E.ok r) ∨ (l.length = j + 1 ∧ r = m))) (fun _ => False) := by
  have hmem := List.mem_of_getElem? hc
  refine (fatGet_runs hE hg (hl.ok_of_mem c hmem) (hopen.of_mem hmem rfl)).mono ?_ (fun _ h => h)
  rintro r w1 ⟨hs1, hv1, -, rfl | ⟨-, hfail⟩⟩
  · exact ⟨hs1, hv1, hl.next_at hc⟩
  · exact absurd hfail (hq.fat s)

theorem skipClusters_exact (hE : E.Lawful) (hq : E.Quiet) (hg : Good E w)
    (hopen : E.Opens .read l) (hl : Link E.clusters (E.vol w) m d l) (hc : l[j]? = some c)
    (hn : j + n < l.length) :
    Runs (skipClusters n c) w (fun r w' => Step E w w' ∧ view w' = view w ∧
      l[j + n]? = some r) (fun _ => False) := by
  induction n generalizing w c j with
  | zero => exact Runs.pure ⟨hg.step, rfl, hc⟩
  | succ n ih =>
    have hok := hl.ok_of_mem c (List.mem_of_getElem? hc)
    unfold skipClusters
    rw [if_pos (hE.fits.lt_eof hok).2]
    refine (fatGet_next hE hq hg hopen hl hc).then ?_
    rintro next w1 ⟨hs1, hv1, ⟨hnext, -⟩ | ⟨hlen, -⟩⟩
    · have hvol1 : E.vol w1 = E.vol w := E.vol_congr hv1
      refine (ih hs1.good (hvol1 ▸ hl) hnext (by omega)).mono ?_ (fun _ h => h)
      rintro r w2 ⟨hs2, hv2, hr⟩
      refine ⟨hs1.trans hs2, hv2.trans hv1, ?_⟩
      rw [show j + (n + 1) = j + 1 + n by omega]
      exact hr
    · omega

-- One turn of the read loop: what is left of the cluster is copied, as far as it is asked for.
theorem readLoop_turn {Q : Except Int (List UInt8) → World → Prop} {S : World → Prop}
    (hE : E.Lawful) (hq : E.Quiet) (hg : Good E w) (hopen : E.Opens .read l)
    (hl : Link E.clusters (E.vol w) m d l) (hc : l[j]? = some c) (hsize : 0 < size)
    (hoff : off < E.mount.bytesPerClust)
    (hrest : ∀ w' next, Step E w w' → view w' = view w →
      ((l[j + 1]? = some next ∧ E.ok next) ∨ (l.length = j + 1 ∧ next = m)) →
      Runs (readLoop fuel next 0 (size - min size (E.mount.bytesPerClust - off))
        (got ++ readBytes (fileByte E.mount.bytesPerClust (E.vol w) l)
          (min size (E.mount.bytesPerClust - off)) (j * E.mount.bytesPerClust + off))) w' Q S) :
    Runs (readLoop (fuel + 1) c off size got) w Q S := by
  have hbpc := bpc_bounds hE.fits
  have hmem := List.mem_of_getElem? hc
  have hok := hl.ok_of_mem c hmem
  unfold readLoop
  rw [if_pos ⟨hsize, hE.fits.lt_eof hok⟩]
  refine (clusterRead_runs hE hg hok (hopen.of_mem hmem rfl)).then ?_
  rintro r w1 ⟨hs1, hv1, -, ⟨b, rfl, hb⟩ | ⟨-, hfail⟩⟩
  swap
  · exact absurd hfail (hq.ata _ _)
  have hvol1 : E.vol w1 = E.vol w := E.vol_congr hv1
  refine Runs.get_bind ?_
  have hcut : (if size < E.mount.bytesPerClust - off then size
      else E.mount.bytesPerClust - off) = min size (E.mount.bytesPerClust - off) := by
    split
    · omega
    · omega
  rw [hs1.good.mount, sub32_of_le hbpc.2 hoff.le]
  dsimp only
  rw [hcut]
  have hcopied : readBytes b (min size (E.mount.bytesPerClust - off)) off =
      readBytes (fileByte E.mount.bytesPerClust (E.vol w) l)
        (min size (E.mount.bytesPerClust - off)) (j * E.mount.bytesPerClust + off) := by
    refine List.map_congr_left fun t ht => ?_
    rw [List.mem_range] at ht
    have hdiv : (j * E.mount.bytesPerClust + (off + t)) / E.mount.bytesPerClust = j := by
      rw [Nat.mul_comm, Nat.mul_add_div hbpc.1, Nat.div_eq_of_lt (by omega), Nat.add_zero]
    have hmod : (j * E.mount.bytesPerClust + (off + t)) % E.mount.bytesPerClust = off + t := by
      rw [Nat.mul_comm, Nat.mul_add_mod, Nat.mod_eq_of_lt (by omega)]
    rw [hb _ (by omega), fileByte, Nat.add_assoc, hdiv, hmod, List.getD_eq_getElem?_getD, hc]
    rfl
  rw [hcopied]
  refine (fatGet_next hE hq hs1.good hopen (hvol1.symm ▸ hl) hc).then ?_
  rintro next w2 ⟨hs2, hv2, hnext⟩
  exact hrest w2 next (hs1.trans hs2) (hv2.trans hv1) hnext

-- Once everything has been copied it does not matter where the chain has got to.
theorem readLoop_exact (hE : E.Lawful) (hq : E.Quiet) (hg : Good E w)
    (hopen : E.Opens .read l) (hl : Link E.clusters (E.vol w) m d l)
    (hc : size = 0 ∨ l[j]? = some c) (hoff : off < E.mount.bytesPerClust)
    (hsize : j * E.mount.bytesPerClust + off + size ≤ l.length * E.mount.bytesPerClust) :
    Runs (readLoop fuel c off size got) w (fun r w' => Step E w w' ∧ view w' = view w ∧
      r = .ok (got ++ readBytes (fileByte E.mount.bytesPerClust (E.vol w) l) size
        (j * E.mount.bytesPerClust + off))) (fun _ => fuel ≤ size) := by
  have hbpc := bpc_bounds hE.fits
  induction fuel generalizing w c j off size got with
  | zero => exact Runs.stopped (Nat.zero_le _)
  | succ fuel ih =>
    by_cases h0 : size = 0
    · subst h0
      unfold readLoop
      rw [if_neg (by simp)]
      exact Runs.pure ⟨hg.step, rfl, by simp [readBytes]⟩
    have hc := hc.resolve_left h0
    refine readLoop_turn hE hq hg hopen hl hc (Nat.pos_of_ne_zero h0) hoff ?_
    intro w2 next hs2 hv2 hnext
    have hvol2 : E.vol w2 = E.vol w := E.vol_congr hv2
    have hj := (List.getElem?_eq_some_iff.mp hc).1
    generalize htc : min size (E.mount.bytesPerClust - off) = toCopy
    have hle : toCopy ≤ size ∧ off + toCopy ≤ E.mount.bytesPerClust ∧ 1 ≤ toCopy := by omega
    have hrest : size - toCopy ≠ 0 → off + toCopy = E.mount.bytesPerClust := by omega
    have hmul : (j + 1) * E.mount.bytesPerClust = j * E.mount.bytesPerClust +
        E.mount.bytesPerClust := Nat.succ_mul ..
    have hlmul : (j + 1) * E.mount.bytesPerClust ≤ l.length * E.mount.bytesPerClust :=
      Nat.mul_le_mul_right _ hj
    refine (ih (j := j + 1) hs2.good (hvol2 ▸ hl) ?_ hbpc.1 ?_).mono ?_ (fun _ h => ?_)
    · by_cases hz : size - toCopy = 0
      · exact .inl hz
      · rcases hnext with ⟨hget, -⟩ | ⟨hlen, -⟩
        · exact .inr hget
        · have := hrest hz
          rw [hlen] at hsize
          omega
    · by_cases hz : size - toCopy = 0
      · omega
      · have := hrest hz
        omega
    · rintro r w3 ⟨hs3, hv3, rfl⟩
      refine ⟨hs2.trans hs3, hv3.trans hv2, ?_⟩
      rw [hvol2, List.append_assoc]
      congr 2
      have hsplit : size = toCopy + (size - toCopy) := by omega
      conv_rhs => rw [hsplit, readBytes_append]
      congr 1
      by_cases hz : size - toCopy = 0
      · rw [hz]
        rfl
      · have := hrest hz
        congr 1
        omega
    · omega

-- A read that starts inside the file comes to the loop, at its cluster and its place in it.
theorem fat32Read_seek {Q : Except Int (List UInt8) → World → Prop} {S : World → Prop}
    (hE : E.Lawful) (hq : E.Quiet) (hg : Good E w) (hopen : E.Opens .read l)
    (hc : E.Clusters (E.vol w) m e l) (ha : hasAttr e.attr attrDirectory = false)
    (hroom : e.size ≤ l.length * E.mount.bytesPerClust) (hoff : off < e.size)
    (hsize : (if e.size < u32 (off + size) then e.size - off else size) = n) (hn : n ≠ 0)
    (hrest : ∀ w' c, Step E w w' → view w' = view w → Link E.clusters (E.vol w') m e.cluster l →
      l[off / E.mount.bytesPerClust]? = some c →
      Runs (readLoop fuel c (off % E.mount.bytesPerClust) n []) w' Q S) :
    Runs (fat32Read fuel e off size) w Q S := by
  have hbpc := bpc_bounds hE.fits
  unfold fat32Read
  refine Runs.get_bind ?_
  rw [hg.mount, hE.fits.mounted, ha]
  simp only [Bool.not_true, Bool.false_eq_true, if_false]
  rw [if_neg (Nat.not_le.mpr hoff), hsize, if_neg hn]
  have hdiv : off / E.mount.bytesPerClust < l.length :=
    (Nat.div_lt_iff_lt_mul hbpc.1).mpr (by omega)
  have hne : e.cluster ≠ 0 := by
    intro h0
    rw [Env.Clusters, if_pos h0] at hc
    rw [hc.1] at hdiv
    exact absurd hdiv (Nat.not_lt_zero _)
  rw [Env.Clusters, if_neg hne] at hc
  have hget : l[0]? = some e.cluster := by
    cases l with
    | nil => exact absurd hdiv (Nat.not_lt_zero _)
    | cons y l => rw [hc.2.1]; rfl
  refine (kmalloc_runs hg).then ?_
  rintro ok w1 ⟨hs1, hv1, hok⟩
  have hvol1 : E.vol w1 = E.vol w := E.vol_congr hv1
  cases ok with
  | false => exact absurd (hok rfl) (hq.heap _)
  | true =>
    simp only [Bool.not_true, Bool.false_eq_true, if_false]
    refine (skipClusters_exact hE hq hs1.good hopen (hvol1 ▸ hc.2) hget (by omega)).then ?_
    rintro c w2 ⟨hs2, hv2, hc2⟩
    have hvol2 : E.vol w2 = E.vol w := by rw [← hvol1, Env.vol, Env.vol, hv2]
    rw [Nat.zero_add] at hc2
    exact hrest w2 c (hs1.trans hs2) (hv2.trans hv1) (hvol2 ▸ hc.2) hc2

theorem fat32Read_none (hE : E.Lawful) (hg : Good E w) (ha : hasAttr e.attr attrDirectory = false)
    (h : e.size ≤ off ∨ size = 0) : fat32Read fuel e off size w = (some (.ok []), w) := by
  change (if !w.mount.mounted then _ else _ : Drv _) w = _
  rw [hg.mount, hE.fits.mounted, ha]
  simp only [Bool.not_true, Bool.false_eq_true, if_false]
  by_cases hpast : e.size ≤ off
  · rw [if_pos hpast]
    rfl
  · obtain rfl := h.resolve_left hpast
    have hle : u32 (off + 0) ≤ off := Nat.mod_le _ _
    rw [if_neg hpast, if_neg (show ¬e.size < u32 (off + 0) by omega), if_pos rfl]
    rfl

theorem fat32Read_exact (hE : E.Lawful) (hq : E.Quiet) (hg : Good E w)
    (hopen : E.Opens .read l) (hc : E.Clusters (E.vol w) m e l)
    (ha : hasAttr e.attr attrDirectory = false)
    (hroom : e.size ≤ l.length * E.mount.bytesPerClust) (hsize : off + size < 2 ^ 32) :
    Runs (fat32Read fuel e off size) w (fun r w' => Step E w w' ∧ view w' = view w ∧
      r = .ok (readBytes (fileByte E.mount.bytesPerClust (E.vol w) l)
        (min size (e.size - off)) off)) (fun _ => fuel ≤ size) := by
  have hbpc := bpc_bounds hE.fits
  by_cases hnone : e.size ≤ off ∨ size = 0
  · rw [Runs, fat32Read_none hE hg ha hnone, show min size (e.size - off) = 0 by omega]
    exact ⟨hg.step, rfl, rfl⟩
  rw [not_or, Nat.not_le] at hnone
  have hcut : (if e.size < u32 (off + size) then e.size - off else size) =
      min size (e.size - off) := by
    rw [u32_of_lt hsize]
    split
    · omega
    · omega
  refine fat32Read_seek hE hq hg hopen hc ha hroom hnone.1 hcut (by omega) ?_
  intro w2 c hs2 hv2 hl hc2
  have hvol2 : E.vol w2 = E.vol w := E.vol_congr hv2
  have hoff := Nat.div_add_mod' off E.mount.bytesPerClust
  refine (readLoop_exact hE hq hs2.good hopen hl (.inr hc2)
    (Nat.mod_lt _ hbpc.1) (by omega)).mono ?_ (fun _ h => by omega)
  rintro r w3 ⟨hs3, hv3, rfl⟩
  refine ⟨hs2.trans hs3, hv3.trans hv2, ?_⟩
  rw [hvol2, hoff, List.nil_append]

end Read

end Fat32
