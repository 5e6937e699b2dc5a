import SabakaOS.Fat32.Growth

namespace Fat32

open Word ByteMemory Prog Chain

-- Byte k of the file with the clusters l.
def fileByte (bpc : Nat) (V : Vol) (l : List Nat) (k : Nat) : UInt8 :=
  V.data (l.getD (k / bpc) 0) (k % bpc)

-- The bytes bs have been put into the file from byte i on. Its clusters, l before, are now l': free
-- ones have been added at the end. Nothing outside of l' has changed.
structure Env.Wrote (E : Env) (V : Vol) (l : List Nat) (i : Nat) (bs : List UInt8) (V' : Vol)
    (l' : List Nat) : Prop where
  grown : ∃ new, l' = l ++ new ∧ ∀ n ∈ new, E.ok n ∧ V.fat n = 0
  outside : ∀ x, x ∉ l' → V'.fat x = V.fat x ∧ V'.data x = V.data x
  bytes : ∀ k < l'.length * E.mount.bytesPerClust, fileByte E.mount.bytesPerClust V' l' k =
    if i ≤ k ∧ k < i + bs.length then bs.getD (k - i) 0 else fileByte E.mount.bytesPerClust V l' k
  spare : spare E.limit E.clusters V' + l'.length = spare E.limit E.clusters V + l.length

def Marker (e : Nat) : Prop := 0x0FFFFFF8 ≤ e ∧ e ≤ fat32Eof

-- A chain from h with the clusters l, each the caller's own or handed out since.
structure Env.File (E : Env) (own : List Nat) (e h : Nat) (w : World) (l : List Nat) : Prop where
  link : Link E.clusters (E.vol w) e h l
  known : ∀ x ∈ l, x ∈ own ∨ .alloc x 0 ∈ w.trace

section Wrote

variable {E : Env} {V V1 V2 : Vol} {l l1 l2 : List Nat} {i c n x : Nat} {bs cs : List UInt8}

theorem fileByte_congr {bpc k : Nat} {V V' : Vol} {l : List Nat} (hb : 0 < bpc)
    (hk : k < l.length * bpc) (h : ∀ x ∈ l, V'.data x = V.data x) :
    fileByte bpc V' l k = fileByte bpc V l k := by
  have hdiv : k / bpc < l.length := (Nat.div_lt_iff_lt_mul hb).mpr hk
  unfold fileByte
  rw [List.getD_eq_getElem _ _ hdiv, h _ (List.getElem_mem hdiv)]

theorem fileByte_append {bpc k : Nat} {V : Vol} {l new : List Nat} (hb : 0 < bpc)
    (hk : k < l.length * bpc) : fileByte bpc V (l ++ new) k = fileByte bpc V l k := by
  have hdiv : k / bpc < l.length := (Nat.div_lt_iff_lt_mul hb).mpr hk
  unfold fileByte
  rw [List.getD_append _ _ _ _ hdiv]

theorem Env.Wrote.refl (V : Vol) (l : List Nat) (i : Nat) : E.Wrote V l i [] V l := by
  refine ⟨⟨[], by simp, fun n hn => by cases hn⟩, fun x _ => ⟨rfl, rfl⟩, fun k _ => ?_, rfl⟩
  rw [if_neg (by simp)]

theorem Env.Wrote.length_le (h : E.Wrote V l i bs V1 l1) : l.length ≤ l1.length := by
  obtain ⟨new, rfl, -⟩ := h.grown
  simp

theorem fileByte_beyond {bpc k : Nat} {V V' : Vol} {l new : List Nat} (hb : 0 < bpc)
    (hk : k < (l ++ new).length * bpc) (hl : l.length * bpc ≤ k)
    (h : ∀ x ∈ new, V'.data x = V.data x) :
    fileByte bpc V' (l ++ new) k = fileByte bpc V (l ++ new) k := by
  have hdiv : k / bpc < (l ++ new).length := (Nat.div_lt_iff_lt_mul hb).mpr hk
  have hle : l.length ≤ k / bpc := (Nat.le_div_iff_mul_le hb).mpr hl
  unfold fileByte
  rw [List.getD_eq_getElem _ _ hdiv, List.getElem_append_right hle, h _ (List.getElem_mem _)]

theorem Env.Wrote.trans (h1 : E.Wrote V l i bs V1 l1)
    (h2 : E.Wrote V1 l1 (i + bs.length) cs V2 l2) (hb : 0 < E.mount.bytesPerClust)
    (hused : ∀ x ∈ l1, V1.fat x ≠ 0)
    (hin : bs = [] ∨ i + bs.length ≤ l1.length * E.mount.bytesPerClust) :
    E.Wrote V l i (bs ++ cs) V2 l2 := by
  obtain ⟨new1, hl1, hnew1⟩ := h1.grown
  obtain ⟨new2, rfl, hnew2⟩ := h2.grown
  have hfresh : ∀ n ∈ new2, n ∉ l1 := fun n hn hm => hused n hm (hnew2 n hn).2
  refine ⟨⟨new1 ++ new2, by rw [hl1, List.append_assoc], fun n hn => ?_⟩, fun y hy => ?_,
    fun k hk => ?_, by rw [h2.spare, h1.spare]⟩
  · rcases List.mem_append.mp hn with hn | hn
    · exact hnew1 n hn
    · rw [← (h1.outside n (hfresh n hn)).1]
      exact hnew2 n hn
  · obtain ⟨hf2, hd2⟩ := h2.outside y hy
    obtain ⟨hf1, hd1⟩ := h1.outside y (fun hm => hy (List.mem_append_left _ hm))
    exact ⟨hf2.trans hf1, hd2.trans hd1⟩
  · rw [h2.bytes k hk, List.length_append]
    by_cases hin2 : i + bs.length ≤ k ∧ k < i + bs.length + cs.length
    · rw [if_pos hin2, if_pos (by omega), List.getD_append_right _ _ _ _ (by omega)]
      congr 1
      omega
    · rw [if_neg hin2]
      by_cases hk1 : k < l1.length * E.mount.bytesPerClust
      · rw [fileByte_append hb hk1, h1.bytes k hk1, fileByte_append hb hk1]
        by_cases hin1 : i ≤ k ∧ k < i + bs.length
        · rw [if_pos hin1, if_pos (by omega), List.getD_append _ _ _ _ (by omega)]
        · rw [if_neg hin1, if_neg (by omega)]
      · rw [if_neg]
        · exact fileByte_beyond hb hk (by omega) (fun n hn => (h1.outside n (hfresh n hn)).2)
        · rcases hin with rfl | hin
          · simpa using hin2
          · omega

-- A free cluster n is put behind the last cluster x.
theorem Env.Wrote.grow (hx : x ∈ l) (hused : V.fat x ≠ 0) (hok : E.ok n) (hlim : n < E.limit)
    (hfree : V.fat n = 0) (i : Nat) :
    E.Wrote V l i [] ((V.setFat n fat32Eof).setFat x n) (l ++ [n]) := by
  have hn0 : n ≠ 0 := by
    rintro rfl
    exact absurd hok.1 (by decide)
  have hne : x ≠ n := fun h => hused (h ▸ hfree)
  refine ⟨⟨[n], rfl, fun y hy => ?_⟩, fun y hy => ⟨?_, rfl⟩, fun k _ => ?_, ?_⟩
  · rw [List.mem_singleton.mp hy]
    exact ⟨hok, hfree⟩
  · rw [List.mem_append, List.mem_singleton, not_or] at hy
    have hyx : y ≠ x := fun h => hy.1 (h ▸ hx)
    change Function.update (Function.update V.fat n fat32Eof) x n y = V.fat y
    rw [Function.update_of_ne hyx, Function.update_of_ne hy.2]
  · rw [if_neg (by simp)]
    rfl
  · have halloc := spare_alloc (v := fat32Eof) hok hlim hfree (by decide)
    have hfat : ∀ y, ((V.setFat n fat32Eof).setFat x n).fat y = 0 ↔
        (V.setFat n fat32Eof).fat y = 0 := by
      intro y
      by_cases hy : y = x
      · subst hy
        change Function.update (Function.update V.fat n fat32Eof) y n y = 0 ↔
          Function.update V.fat n fat32Eof y = 0
        rw [Function.update_self, Function.update_of_ne hne]
        exact ⟨fun h => absurd h hn0, fun h => absurd h hused⟩
      · exact iff_of_eq (congrArg (· = 0) (Function.update_of_ne hy _ _))
    rw [spare_congr hfat, List.length_append, List.length_singleton]
    omega

-- Bytes are put into one cluster of the file.
theorem Env.Wrote.put {j off : Nat} (hc : l[j]? = some c) (hnodup : l.Nodup)
    (hb : 0 < E.mount.bytesPerClust) (hoff : off + bs.length ≤ E.mount.bytesPerClust)
    {f : Nat → UInt8}
    (hf : ∀ t < E.mount.bytesPerClust, f t = writeBytes (V.data c) off bs t) :
    E.Wrote V l (j * E.mount.bytesPerClust + off) bs (V.setData c f) l := by
  obtain ⟨hj, hget⟩ := List.getElem?_eq_some_iff.mp hc
  have hmem : c ∈ l := hget ▸ List.getElem_mem hj
  refine ⟨⟨[], by simp, fun n hn => by cases hn⟩, fun y hy => ⟨rfl, ?_⟩, fun k hk => ?_, rfl⟩
  · exact Function.update_of_ne (ne_of_mem_of_not_mem hmem hy).symm _ _
  · have hdiv : k / E.mount.bytesPerClust < l.length := (Nat.div_lt_iff_lt_mul hb).mpr hk
    have hmod := Nat.mod_lt k hb
    have hk' := Nat.div_add_mod k E.mount.bytesPerClust
    unfold fileByte
    rw [List.getD_eq_getElem _ _ hdiv]
    by_cases hkj : k / E.mount.bytesPerClust = j
    · subst hkj
      rw [hget]
      simp only [Vol.setData, Function.update_self]
      rw [hf _ hmod, writeBytes_eq]
      rw [Nat.mul_comm] at hk'
      generalize k / E.mount.bytesPerClust * E.mount.bytesPerClust = base at hk' ⊢
      by_cases hin : off ≤ k % E.mount.bytesPerClust ∧
          k % E.mount.bytesPerClust < off + bs.length
      · rw [if_pos hin, if_pos (by omega)]
        congr 1
        omega
      · rw [if_neg hin, if_neg (by omega)]
    · have hne : l[k / E.mount.bytesPerClust] ≠ c := by
        intro he
        exact hkj ((hnodup.getElem_inj_iff).mp (he.trans hget.symm))
      simp only [Vol.setData]
      rw [Function.update_of_ne hne, if_neg]
      rintro ⟨hlo, hhi⟩
      refine hkj (Nat.div_eq_of_lt_le (by omega) ?_)
      rw [Nat.succ_mul]
      omega

end Wrote

section Chain

variable {E : Env} {w w' : World} {V V' : Vol} {own l l' : List Nat} {e h c i j n p x : Nat}
  {bs : List UInt8}

theorem Marker.stops (hm : Marker e) (hN : E.clusters ≤ 0x0FFFFFF8) :
    ∀ c, c = e → ¬Valid E.clusters c := by
  rintro c rfl hc
  unfold Marker at hm
  unfold Valid at hc
  omega

theorem link_used {N : Nat} (hl : Link N V e h l) (hm : Marker e) : ∀ x ∈ l, V.fat x ≠ 0 := by
  intro x hx h0
  rcases hl.next_of_mem hx with hok | he
  · exact absurd (h0 ▸ hok.1) (by decide)
  · unfold Marker at hm
    omega

theorem Env.Wrote.room (h : E.Wrote V l i bs V' l')
    (hroom : Room E.limit E.clusters V (p + 1 - l.length)) :
    Room E.limit E.clusters V' (p + 1 - l'.length) := by
  have hspare := h.spare
  exact hroom.imp_right (fun hk => by omega)

theorem Env.File.later (hf : E.File own e h w l) (hs : Step E w w')
    (hfat : (E.vol w').fat = (E.vol w).fat) : E.File own e h w' l :=
  ⟨by rw [Link, hfat]; exact hf.link, fun x hx => (hf.known x hx).imp_right (fun h => hs.ext.subset h)⟩

theorem link_grow {N : Nat} (hN : N ≤ 0x0FFFFFF8) (hl : Link N V fat32Eof h l)
    (hc : l[j]? = some c) (hlen : l.length = j + 1) (hok : Valid N n) (hfree : V.fat n = 0) :
    Link N ((V.setFat n fat32Eof).setFat c n) fat32Eof h (l ++ [n]) := by
  have hn : n ∉ l := free_not_mem hl hfree
  have hsplit : l = l.take j ++ [c] := by
    have htake : l.take (j + 1) = l := List.take_of_length_le hlen.le
    rw [List.take_add_one, hc] at htake
    exact htake.symm
  have hold : Link N (V.setFat n fat32Eof) fat32Eof h (l.take j ++ c :: []) := by
    rw [← hsplit]
    exact hl.congr (fun y hy => Function.update_of_ne (ne_of_mem_of_not_mem hy hn) _ _)
  have hself : Link N (V.setFat n fat32Eof) fat32Eof n [n] :=
    ⟨rfl, hok, Function.update_self ..⟩
  have hcn : c ∉ [n] := fun hm => hn (List.mem_singleton.mp hm ▸ List.mem_of_getElem? hc)
  have hnew := hold.retarget (eof_stops hN) hself hcn
  rw [hsplit, List.append_assoc]
  exact hnew

theorem nextOrNew_exact (hE : E.Lawful) (hq : E.Quiet) (hg : Good E w)
    (hopen : E.Opens .write own) (hm : Marker e) (hf : E.File own e h w l)
    (hc : l[j]? = some c) (hjp : j < p) (hend : e = fat32Eof ∨ p < l.length)
    (hroom : Room E.limit E.clusters (E.vol w) (p + 1 - l.length)) (i : Nat) :
    Runs (nextOrNew c) w (fun r w' => Step E w w' ∧
      ((r = none ∧ E.vol w' = E.vol w ∧ l.length = j + 1 ∧
          l.length + spare E.limit E.clusters (E.vol w) ≤ p) ∨
        ∃ l' next, r = some next ∧ l'[j + 1]? = some next ∧ E.File own e h w' l' ∧
          E.Wrote (E.vol w) l i [] (E.vol w') l')) (fun _ => False) := by
  have hN := hE.fits.small
  have hmem := List.mem_of_getElem? hc
  have hvalid := hf.link.ok_of_mem c hmem
  have hcase := hf.link.next_at hc
  have hnext : E.ok ((E.vol w).fat c) ∨ (E.vol w).fat c = fat32Eof := by
    rcases hcase with ⟨-, hok⟩ | ⟨hlen, he⟩
    · exact .inl hok
    · exact .inr (he.trans (hend.resolve_right (by omega)))
  have hroom1 : (E.ok ((E.vol w).fat c) ∧ ¬E.fatFails .write) ∨
      Room E.limit E.clusters (E.vol w) 1 := by
    rcases hcase with ⟨-, hok⟩ | ⟨hlen, -⟩
    · exact .inl ⟨hok, hq.fat _⟩
    · exact .inr (hroom.mono (by omega))
  refine (nextOrNew_runs hE hg hopen (hf.known c hmem) hvalid hnext (.inr (hq.fat _))
    hroom1).mono ?_ (fun _ h => h)
  rintro r w1 ⟨hs, ⟨rfl, hok, hvol⟩ | ⟨hnot, hnew⟩⟩
  · refine ⟨hs, .inr ⟨l, _, rfl, ?_, hf.later hs (by rw [hvol]), hvol ▸ .refl _ l i⟩⟩
    rcases hcase with ⟨hget, -⟩ | ⟨-, he⟩
    · exact hget
    · exact absurd hok (hm.stops hN _ he)
  · have heof := hnot.resolve_right (hq.fat _)
    obtain ⟨hlen, he⟩ : l.length = j + 1 ∧ fat32Eof = e := by
      rcases hcase with ⟨-, hok⟩ | ⟨hlen, he⟩
      · exact absurd hok (eof_stops hN _ heof)
      · exact ⟨hlen, heof ▸ he⟩
    subst he
    rcases hnew with ⟨rfl, hvol, hspare⟩ | ⟨n, rfl, hok, hlim, hfree, halloc, hvol⟩
    · exact ⟨hs, .inl ⟨rfl, hvol, hlen, by omega⟩⟩
    · have hvol := hvol.resolve_right (fun h => hq.fat _ h.2)
      have hused := link_used hf.link hm c hmem
      refine ⟨hs, .inr ⟨l ++ [n], n, rfl, ?_, ⟨?_, fun x hx => ?_⟩, ?_⟩⟩
      · rw [List.getElem?_append_right hlen.le, hlen, Nat.sub_self]
        rfl
      · rw [Link, hvol]
        exact link_grow hN hf.link hc hlen hok hfree
      · rcases List.mem_append.mp hx with hx | hx
        · exact (hf.known x hx).imp_right (fun h => hs.ext.subset h)
        · exact .inr (List.mem_singleton.mp hx ▸ halloc)
      · rw [hvol]
        exact .grow hmem hused hok hlim hfree i

theorem seekOrGrow_exact (hE : E.Lawful) (hq : E.Quiet) (hg : Good E w)
    (hopen : E.Opens .write own) (hm : Marker e) (hf : E.File own e h w l)
    (hc : l[j]? = some c) (hjp : j + n ≤ p) (hend : e = fat32Eof ∨ p < l.length)
    (hroom : Room E.limit E.clusters (E.vol w) (p + 1 - l.length)) (i : Nat) :
    Runs (seekOrGrow n c) w (fun r w' => Step E w w' ∧
      ∃ l', E.File own e h w' l' ∧ E.Wrote (E.vol w) l i [] (E.vol w') l' ∧
        (r = none → l.length + spare E.limit E.clusters (E.vol w) ≤ p) ∧
        ∀ next, r = some next → l'[j + n]? = some next) (fun _ => False) := by
  induction n generalizing w c j l with
  | zero =>
    refine Runs.pure ⟨hg.step, l, hf, .refl _ l i, fun hr => (by cases hr), fun next hr => ?_⟩
    obtain rfl := Option.some.inj hr
    exact hc
  | succ n ih =>
    unfold seekOrGrow
    refine (nextOrNew_exact hE hq hg hopen hm hf hc (by omega) hend hroom i).then ?_
    rintro r w1 ⟨hs1, ⟨rfl, hvol, -, hfull⟩ | ⟨l1, next, rfl, hnext, hf1, hw1⟩⟩
    · exact Runs.pure ⟨hs1, l, hf.later hs1 (by rw [hvol]), hvol ▸ .refl _ l i, fun _ => hfull,
        fun next hr => by cases hr⟩
    · have hle := hw1.length_le
      refine (ih hs1.good hf1 hnext (by omega) (hend.imp_right (by omega))
        (hw1.room hroom)).mono ?_ (fun _ h => h)
      rintro r w2 ⟨hs2, l2, hf2, hw2, hnone, hsome⟩
      refine ⟨hs1.trans hs2, l2, hf2, ?_, fun hr => ?_, fun next hr => ?_⟩
      · exact hw1.trans hw2 (bpc_bounds hE.fits).1 (link_used hf1.link hm) (.inl rfl)
      · have hspare := hw1.spare
        have := hnone hr
        omega
      · rw [show j + (n + 1) = j + 1 + n by omega]
        exact hsome next hr

theorem writeLoop_exact (hE : E.Lawful) (hq : E.Quiet) (hg : Good E w)
    (hopen : E.Opens .write own) (hm : Marker e) (hf : E.File own e h w l)
    (hc : l[j]? = some c) {fuel off written : Nat} {data : List UInt8}
    (hoff : off < E.mount.bytesPerClust)
    (hp : j + (off + data.length - 1) / E.mount.bytesPerClust ≤ p)
    (hend : e = fat32Eof ∨ p < l.length)
    (hroom : Room E.limit E.clusters (E.vol w) (p + 1 - l.length)) :
    Runs (writeLoop fuel c off data written) w (fun r w' => Step E w w' ∧
      ∃ l' k, E.File own e h w' l' ∧ r = .ok (written + k) ∧ k ≤ data.length ∧
        E.Wrote (E.vol w) l (j * E.mount.bytesPerClust + off) (data.take k) (E.vol w') l' ∧
        j * E.mount.bytesPerClust + off + k ≤ l'.length * E.mount.bytesPerClust ∧
        (k < data.length → l.length + spare E.limit E.clusters (E.vol w) ≤ p ∧
          j * E.mount.bytesPerClust + off + k = l'.length * E.mount.bytesPerClust))
      (fun _ => fuel ≤ data.length) := by
  have hbpc := bpc_bounds hE.fits
  induction fuel generalizing w c j l off written data with
  | zero => exact Runs.stopped (Nat.zero_le _)
  | succ fuel ih =>
    have hj := (List.getElem?_eq_some_iff.mp hc).1
    have hin : (j + 1) * E.mount.bytesPerClust ≤ l.length * E.mount.bytesPerClust :=
      Nat.mul_le_mul_right _ hj
    rw [Nat.succ_mul] at hin
    unfold writeLoop
    by_cases hnil : data = []
    · subst hnil
      rw [if_pos rfl]
      exact Runs.pure ⟨hg.step, l, 0, hf, rfl, le_rfl, .refl _ l _, by omega,
        fun h => absurd h (by simp)⟩
    rw [if_neg hnil]
    have hlen := List.length_pos_iff.mpr hnil
    have hmem := List.mem_of_getElem? hc
    have hvalid := hf.link.ok_of_mem c hmem
    refine (clusterRead_runs hE hg hvalid (hopen.at (hf.known c hmem) List.suffix_rfl rfl)).then ?_
    rintro r w1 ⟨hs1, hv1, -, ⟨b, rfl, hb⟩ | ⟨-, hfail⟩⟩
    swap
    · exact absurd hfail (hq.ata _ _)
    have hvol1 : E.vol w1 = E.vol w := E.vol_congr hv1
    refine Runs.get_bind ?_
    rw [hs1.good.mount, sub32_of_le hbpc.2 hoff.le]
    set toWrite := if data.length < E.mount.bytesPerClust - off then data.length
      else E.mount.bytesPerClust - off with htw
    have hle : toWrite ≤ data.length ∧ off + toWrite ≤ E.mount.bytesPerClust ∧ 1 ≤ toWrite := by
      rw [htw]
      split
      · omega
      · omega
    have hf1 := hf.later hs1 (by rw [hvol1])
    refine (clusterWrite_runs hE hs1.good hvalid _ (hopen.at (hf1.known c hmem) List.suffix_rfl
      rfl)).then ?_
    rintro r w2 ⟨hs2, -, k, -, hvol2, ⟨rfl, hk⟩ | ⟨-, hfail⟩⟩
    swap
    · exact absurd hfail (hq.ata _ _)
    rw [hvol1, hk, ← hE.fits.bpc] at hvol2
    have hs := hs1.trans hs2
    have htake : (data.take toWrite).length = toWrite := by
      rw [List.length_take, min_eq_left hle.1]
    have hw2 : E.Wrote (E.vol w) l (j * E.mount.bytesPerClust + off) (data.take toWrite)
        (E.vol w2) l := by
      rw [hvol2]
      refine .put hc (hf.link.nodup (hm.stops hE.fits.small)) hbpc.1 (by rw [htake]; exact hle.2.1)
        fun t ht => ?_
      rw [if_pos ht]
      unfold writeBytes
      rw [hb t ht]
    have hf2 := hf.later hs (by rw [hvol2]; rfl)
    simp only [Bool.not_true, Bool.false_eq_true, if_false]
    by_cases hdone : data.drop toWrite = []
    · rw [if_pos hdone]
      have hall : toWrite = data.length := by
        rw [List.drop_eq_nil_iff] at hdone
        omega
      exact Runs.pure ⟨hs, l, toWrite, hf2, rfl, hle.1, hw2, by omega,
        fun h => absurd h (by omega)⟩
    · rw [if_neg hdone]
      have hrest : toWrite < data.length := by
        rw [List.drop_eq_nil_iff] at hdone
        omega
      have hfull : toWrite = E.mount.bytesPerClust - off := by
        rw [htw] at hrest ⊢
        split
        · rename_i hlt
          rw [if_pos hlt] at hrest
          omega
        · rfl
      have hsteps : (off + data.length - 1) / E.mount.bytesPerClust =
          (0 + (data.drop toWrite).length - 1) / E.mount.bytesPerClust + 1 := by
        rw [List.length_drop, ← Nat.add_div_left _ hbpc.1]
        congr 1
        omega
      have hnext : j * E.mount.bytesPerClust + off + toWrite =
          (j + 1) * E.mount.bytesPerClust + 0 := by
        rw [Nat.succ_mul]
        omega
      have hspare2 : spare E.limit E.clusters (E.vol w2) = spare E.limit E.clusters (E.vol w) := by
        have := hw2.spare
        omega
      have hroom2 : Room E.limit E.clusters (E.vol w2) (p + 1 - l.length) := by
        unfold Room at hroom ⊢
        rwa [hspare2]
      rw [hsteps, Nat.add_comm _ 1, ← Nat.add_assoc] at hp
      have hjp : j < p := Nat.lt_of_lt_of_le (Nat.lt_succ_self j) ((Nat.le_add_right ..).trans hp)
      refine (nextOrNew_exact hE hq hs2.good hopen hm hf2 hc hjp hend hroom2
        (j * E.mount.bytesPerClust + off + toWrite)).then ?_
      rintro r w3 ⟨hs3, ⟨rfl, hvol3, hlast, hfree⟩ | ⟨l3, next, rfl, hget, hf3, hw3⟩⟩
      · refine Runs.pure ⟨hs.trans hs3, l, toWrite, hf2.later hs3 (by rw [hvol3]), rfl, hle.1,
          hvol3 ▸ hw2, by omega, fun _ => ⟨hspare2 ▸ hfree, ?_⟩⟩
        rw [hnext, hlast, Nat.add_zero]
      · have hlen3 := hw3.length_le
        have hin3 := hin.trans (Nat.mul_le_mul_right E.mount.bytesPerClust hlen3)
        refine (ih hs3.good hf3 hget hbpc.1 hp (hend.imp_right (by omega))
          (hw3.room hroom2)).mono ?_ (fun _ h => ?_)
        · rintro r w4 ⟨hs4, l4, k4, hf4, rfl, hk4, hw4, hin4, hnone4⟩
          refine ⟨(hs.trans hs3).trans hs4, l4, toWrite + k4, hf4, by rw [Nat.add_assoc], ?_, ?_,
            by omega, fun hlt => ?_⟩
          · rw [List.length_drop] at hk4
            omega
          · have hw23 := hw2.trans (htake.symm ▸ hw3) hbpc.1 (link_used hf2.link hm) (.inr (by
              rw [htake]
              omega))
            rw [List.append_nil] at hw23
            rw [← hnext] at hw4
            have hw := hw23.trans (htake.symm ▸ hw4) hbpc.1 (link_used hf3.link hm) (.inr (by
              rw [htake]
              omega))
            rwa [htake, ← List.take_add] at hw
          · have hspare3 := hw3.spare
            rw [List.length_drop] at hnone4
            obtain ⟨hfree4, hend4⟩ := hnone4 (by omega)
            exact ⟨by omega, by omega⟩
        · rw [List.length_drop] at h
          omega

end Chain

end Fat32
