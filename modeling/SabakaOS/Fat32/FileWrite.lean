import SabakaOS.Fat32.FileData

namespace Fat32

open Word ByteMemory Prog Chain

def InSlot (i j : Nat) : Prop := 32 * i ≤ j ∧ j < 32 * i + 32

-- As Wrote has it, but for slot i of cluster x, which holds the entry of the file.
structure Env.Updated (E : Env) (x i : Nat) (V : Vol) (l : List Nat) (off : Nat) (bs : List UInt8)
    (V' : Vol) (l' : List Nat) : Prop where
  grown : ∃ new, l' = l ++ new ∧ ∀ n ∈ new, V.fat n = 0
  outside : ∀ y, y ∉ l' → V'.fat y = V.fat y ∧
    ∀ j, ¬(y = x ∧ InSlot i j) → V'.data y j = V.data y j
  bytes : ∀ k < l'.length * E.mount.bytesPerClust, fileByte E.mount.bytesPerClust V' l' k =
    if off ≤ k ∧ k < off + bs.length then bs.getD (k - off) 0
    else fileByte E.mount.bytesPerClust V l' k

-- The clusters of the file with entry e, whose chain ends in the marker m.
def Env.Clusters (E : Env) (V : Vol) (m : Nat) (e : Fat32Entry) (l : List Nat) : Prop :=
  if e.cluster = 0 then l = [] ∧ m = fat32Eof
  else E.ok e.cluster ∧ Link E.clusters V m e.cluster l

section Updated

variable {E : Env} {V V1 V2 : Vol} {l l1 l2 : List Nat} {off i n x : Nat} {bs : List UInt8}
  {f : Nat → UInt8}

theorem Env.Updated.refl (V : Vol) (l : List Nat) (off : Nat) : E.Updated x i V l off [] V l := by
  refine ⟨⟨[], by simp, fun n hn => by cases hn⟩, fun y _ => ⟨rfl, fun _ _ => rfl⟩, fun k _ => ?_⟩
  rw [if_neg (by simp)]

theorem Env.Updated.not_mem (h : E.Updated x i V l off bs V1 l1) {y : Nat} (hy : y ∉ l)
    (hu : V.fat y ≠ 0) : y ∉ l1 := by
  obtain ⟨new, rfl, hnew⟩ := h.grown
  rw [List.mem_append, not_or]
  exact ⟨hy, fun hm => hu (hnew y hm)⟩

-- The first cluster n of a file that had none, noted in its entry.
theorem Env.Updated.first (hfree : V.fat n = 0) (hne : n ≠ x)
    (hf : ∀ j, ¬InSlot i j → f j = V.data x j) :
    E.Updated x i V [] off [] ((V.setFat n fat32Eof).setData x f) [n] := by
  refine ⟨⟨[n], rfl, fun y hy => List.mem_singleton.mp hy ▸ hfree⟩, fun y hy => ⟨?_, fun j hj => ?_⟩,
    fun k hk => ?_⟩
  · exact Function.update_of_ne (fun he => hy (List.mem_singleton.mpr he)) _ _
  · by_cases hyx : y = x
    · subst hyx
      simp only [Vol.setData, Function.update_self]
      exact hf j fun hin => hj ⟨rfl, hin⟩
    · simp only [Vol.setData, Vol.setFat]
      rw [Function.update_of_ne hyx]
  · rw [if_neg (by simp)]
    rw [List.length_singleton, Nat.one_mul] at hk
    unfold fileByte
    rw [Nat.div_eq_of_lt hk]
    simp only [List.getD_cons_zero, Vol.setData, Vol.setFat]
    rw [Function.update_of_ne hne]

theorem Env.Updated.wrote (h : E.Updated x i V l off [] V1 l1) (hw : E.Wrote V1 l1 off bs V2 l2)
    (hx : x ∉ l) (hu : V.fat x ≠ 0) (hused : ∀ y ∈ l1, V1.fat y ≠ 0)
    (hb : 0 < E.mount.bytesPerClust) : E.Updated x i V l off bs V2 l2 := by
  have hx1 := h.not_mem hx hu
  obtain ⟨new1, hl1, hnew1⟩ := h.grown
  obtain ⟨new2, rfl, hnew2⟩ := hw.grown
  have hfresh : ∀ n ∈ new2, n ∉ l1 := fun n hn hm => hused n hm (hnew2 n hn).2
  have hfree : ∀ n ∈ new2, V.fat n = 0 := fun n hn =>
    (h.outside n (hfresh n hn)).1.symm.trans (hnew2 n hn).2
  have hsame : ∀ n ∈ new2, V1.data n = V.data n := fun n hn => funext fun j =>
    (h.outside n (hfresh n hn)).2 j fun hj => hu (hj.1 ▸ hfree n hn)
  refine ⟨⟨new1 ++ new2, by rw [hl1, List.append_assoc], fun n hn => ?_⟩, fun y hy => ?_,
    fun k hk => ?_⟩
  · exact (List.mem_append.mp hn).elim (hnew1 n) (hfree n)
  · obtain ⟨hf2, hd2⟩ := hw.outside y hy
    obtain ⟨hf1, hd1⟩ := h.outside y fun hm => hy (List.mem_append_left _ hm)
    exact ⟨hf2.trans hf1, fun j hj => (congrFun hd2 j).trans (hd1 j hj)⟩
  · rw [hw.bytes k hk]
    refine if_congr Iff.rfl rfl ?_
    by_cases hk1 : k < l1.length * E.mount.bytesPerClust
    · rw [fileByte_append hb hk1, fileByte_append hb hk1, h.bytes k hk1, if_neg (by simp)]
    · exact fileByte_beyond hb hk (by omega) hsame

theorem Env.Updated.patch (h : E.Updated x i V l off bs V1 l1) (hx : x ∉ l1)
    (hb : 0 < E.mount.bytesPerClust) (hf : ∀ j, ¬InSlot i j → f j = V1.data x j) :
    E.Updated x i V l off bs (V1.setData x f) l1 := by
  refine ⟨h.grown, fun y hy => ⟨(h.outside y hy).1, fun j hj => ?_⟩, fun k hk => ?_⟩
  · refine Eq.trans ?_ ((h.outside y hy).2 j hj)
    by_cases hyx : y = x
    · subst hyx
      simp only [Vol.setData, Function.update_self]
      exact hf j fun hin => hj ⟨rfl, hin⟩
    · simp only [Vol.setData]
      rw [Function.update_of_ne hyx]
  · rw [← h.bytes k hk]
    refine fileByte_congr hb hk fun y hy => ?_
    exact Function.update_of_ne (ne_of_mem_of_not_mem hy hx) _ _

theorem Env.Updated.link (h : E.Updated x i V l off bs V1 l1) {m d : Nat} {ld : List Nat}
    (hm : Marker m) (hl : Link E.clusters V m d ld) (hapart : ∀ y ∈ ld, y ∉ l) :
    Link E.clusters V1 m d ld ∧ ∀ y ∈ ld, y ∉ l1 := by
  have hout : ∀ y ∈ ld, y ∉ l1 := fun y hy => h.not_mem (hapart y hy) (link_used hl hm y hy)
  exact ⟨hl.congr fun y hy => (h.outside y (hout y hy)).1, hout⟩

end Updated

section Write

variable {E : Env} {w : World} {e : Fat32Entry} {l ld : List Nat} {offset fuel x : Nat}
  {data : List UInt8}

theorem updateDirEntry_exact (hE : E.Lawful) (hq : E.Quiet) (hg : Good E w) {m rawIdx d : Nat}
    (hopen : E.Opens .updateDirEntry ld) (hd : E.ok (dirHead E.mount d)) (hm : Marker m)
    (hl : Link E.clusters (E.vol w) m (dirHead E.mount d) ld)
    (hx : ld[rawIdx / entriesPerClust E.mount]? = some x) (cluster size : Nat) :
    Runs (updateDirEntry d rawIdx cluster size) w (fun _ w' => Step E w w' ∧
      E.vol w' = (E.vol w).setData x (updateSlot cluster size ((E.vol w).data x)
        (rawIdx % entriesPerClust E.mount))) (fun _ => False) := by
  have hlt := (List.getElem?_eq_some_iff.mp hx).1
  refine (editSlot_runs hE hg hopen hd hl (hm.stops hE.fits.small m rfl) (.inl hlt)
    (slotEdit_update _ cluster size)).mono ?_ (fun _ h => h)
  rintro r w1 ⟨hs, ⟨y, hy, hvol, -⟩ | ⟨-, -, hnone | ⟨-, hfail⟩ | hfail | hfail | hfail⟩⟩
  · obtain rfl := Option.some.inj (hy.symm.trans hx)
    exact ⟨hs, hvol⟩
  · cases hnone.symm.trans hx
  · exact absurd hfail (hq.fat _)
  · exact absurd hfail (hq.heap _)
  · exact absurd hfail (hq.ata _ _)
  · exact absurd hfail (hq.ata _ _)

theorem updateSlot_outside {cluster size i j : Nat} (b : Buffer) (hj : ¬InSlot i j) :
    updateSlot cluster size b i j = b j :=
  (slotEdit_update i cluster size).outside b j hj

theorem slotAt_setData_self (V : Vol) (x i : Nat) (f : Buffer) :
    slotAt (V.setData x f) (x, i) = slotOf f i := by
  rw [slotAt]
  simp only [Vol.setData, Function.update_self]

-- The entry e of a file without clusters has got its first one, c, in slot i of cluster x as well.
def FirstNoted (x i : Nat) (V : Vol) (e : Fat32Entry) (c : Nat) (V' : Vol) : Prop :=
  (e.cluster ≠ 0 ∧ c = e.cluster ∧ V' = V) ∨
    (e.cluster = 0 ∧ slotCluster (slotAt V' (x, i)) = c ∧ slotSize (slotAt V' (x, i)) = e.size % 2 ^ 32)

theorem firstCluster_exact (hE : E.Lawful) (hq : E.Quiet) (hg : Good E w) {m md i : Nat}
    {own : List Nat} (hopen : E.Opens .updateDirEntry ld)
    (hd : E.ok (dirHead E.mount e.dirCluster)) (hmd : Marker md)
    (hl : Link E.clusters (E.vol w) md (dirHead E.mount e.dirCluster) ld)
    (hx : ld[e.dirIndex / entriesPerClust E.mount]? = some x)
    (hi : e.dirIndex % entriesPerClust E.mount = i)
    (hc : E.Clusters (E.vol w) m e l) (hown : ∀ y ∈ l, y ∈ own)
    (hroom : Room E.limit E.clusters (E.vol w) (1 - l.length)) (offset : Nat) :
    Runs (firstCluster e) w (fun r w' => Step E w w' ∧
      ((r = none ∧ E.vol w' = E.vol w ∧ l.length + spare E.limit E.clusters (E.vol w) = 0) ∨
        ∃ c l1, r = some { e with cluster := c } ∧ c ≠ 0 ∧ E.ok c ∧ E.File own m c w' l1 ∧
          E.Updated x i (E.vol w) l offset [] (E.vol w') l1 ∧
          FirstNoted x i (E.vol w) e c (E.vol w') ∧
          l1.length + spare E.limit E.clusters (E.vol w') =
            l.length + spare E.limit E.clusters (E.vol w))) (fun _ => False) := by
  unfold firstCluster
  unfold Env.Clusters at hc
  by_cases h0 : e.cluster = 0
  · rw [if_pos h0] at hc ⊢
    obtain ⟨rfl, rfl⟩ := hc
    refine (fatAllocCluster_runs hE hg (hq.fat _) hroom).then ?_
    rintro n w1 ⟨hs1, ⟨rfl, hv1, hspare⟩ | ⟨hn0, hok, hlim, hfree, halloc, hvol1⟩⟩
    · rw [if_pos rfl]
      exact Runs.pure ⟨hs1, .inl ⟨rfl, E.vol_congr hv1, by simpa using hspare⟩⟩
    · rw [if_neg hn0]
      have hnlt := hE.fits.lt_eof hok
      have hxl := List.mem_of_getElem? hx
      have hused := link_used hl hmd
      have hfat1 : ∀ y ∈ ld, (E.vol w1).fat y = (E.vol w).fat y := fun y hy => by
        rw [hvol1]
        exact Function.update_of_ne (fun he : y = n => hused y hy (he ▸ hfree)) _ _
      refine (updateDirEntry_exact hE hq hs1.good hopen hd hmd (hl.congr hfat1) hx n e.size).then ?_
      rintro - w2 ⟨hs2, hvol2⟩
      rw [hi] at hvol2
      refine Runs.pure ⟨hs1.trans hs2, .inr ⟨n, [n], rfl, hn0, hok, ⟨⟨rfl, hok, ?_⟩, fun y hy => ?_⟩,
        ?_, ?_, ?_⟩⟩
      · rw [hvol2, hvol1]
        exact Function.update_self ..
      · exact .inr (List.mem_singleton.mp hy ▸ hs2.ext.subset halloc)
      · rw [hvol2, hvol1]
        exact .first hfree (fun he => hused x hxl (he ▸ hfree)) fun j hj => updateSlot_outside _ hj
      · have hslot := slotAt_setData_self (E.vol w1) x i (updateSlot n e.size ((E.vol w1).data x) i)
        rw [← hvol2] at hslot
        refine .inr ⟨h0, ?_, ?_⟩
        · rw [hslot]
          exact slotCluster_update (by unfold fat32Eof at hnlt; omega)
        · rw [hslot]
          exact slotSize_update
      · have halloc := spare_alloc (v := fat32Eof) hok hlim hfree (by decide)
        rw [hvol2, hvol1]
        change 1 + spare E.limit E.clusters ((E.vol w).setFat n fat32Eof) =
          0 + spare E.limit E.clusters (E.vol w)
        omega
  · rw [if_neg h0] at hc ⊢
    exact Runs.pure ⟨hg.step, .inr ⟨e.cluster, l, rfl, h0, hc.1,
      ⟨hc.2, fun y hy => .inl (hown y hy)⟩, .refl _ l offset, .inl ⟨h0, rfl, rfl⟩, rfl⟩⟩

theorem marker_eof : Marker fat32Eof := ⟨by decide, le_rfl⟩

-- What a write leaves of a file with entry e in slot i of cluster x and the clusters l: k bytes
-- have been put into it and noted in the entry, or space ran out on the way to the first of them.
structure Env.Stored (E : Env) (m x i : Nat) (V : Vol) (l : List Nat) (e : Fat32Entry)
    (offset : Nat) (data : List UInt8) (r : Int) (e' : Fat32Entry) (V' : Vol) (l' : List Nat)
    (k : Nat) : Prop where
  same : e' = { e with cluster := e'.cluster, size := e'.size }
  chain : E.Clusters V' m e' l'
  le : k ≤ data.length
  updated : E.Updated x i V l offset (data.take k) V' l'
  noted : (r = k ∧ e'.cluster ≠ 0 ∧ e'.size = max e.size (offset + k) ∧
      slotCluster (slotAt V' (x, i)) = e'.cluster ∧
      slotSize (slotAt V' (x, i)) = e'.size % 2 ^ 32 ∧
      offset + k ≤ l'.length * E.mount.bytesPerClust ∧
      (k < data.length → offset + k = l'.length * E.mount.bytesPerClust)) ∨
    (r = fat32ErrNospace ∧ k = 0 ∧ e'.size = e.size ∧
      ((e'.cluster = e.cluster ∧ slotAt V' (x, i) = slotAt V (x, i)) ∨
        (e.cluster = 0 ∧ slotCluster (slotAt V' (x, i)) = e'.cluster ∧
          slotSize (slotAt V' (x, i)) = e.size % 2 ^ 32)))

theorem fat32Write_stored (hE : E.Lawful) (hq : E.Quiet) (hg : Good E w) {m md i p : Nat}
    {own : List Nat} (hopenW : E.Opens .write own) (hopenU : E.Opens .updateDirEntry ld)
    (ha : hasAttr e.attr attrDirectory = false)
    (hd : E.ok (dirHead E.mount e.dirCluster)) (hmd : Marker md) (hm : Marker m)
    (hl : Link E.clusters (E.vol w) md (dirHead E.mount e.dirCluster) ld)
    (hx : ld[e.dirIndex / entriesPerClust E.mount]? = some x)
    (hi : e.dirIndex % entriesPerClust E.mount = i)
    (hc : E.Clusters (E.vol w) m e l) (hown : ∀ y ∈ l, y ∈ own) (hapart : ∀ y ∈ ld, y ∉ l)
    (hsize : offset + data.length < 2 ^ 32)
    (hp : writeSteps E.mount.bytesPerClust offset data.length = p)
    (hend : m = fat32Eof ∨ p < l.length)
    (hroom : Room E.limit E.clusters (E.vol w) (p + 1 - l.length)) :
    Runs (fat32Write fuel e data offset) w (fun r w' => Step E w w' ∧
      ∃ l' k, E.Stored m x i (E.vol w) l e offset data r.1 r.2 (E.vol w') l' k ∧
        (p < l.length + spare E.limit E.clusters (E.vol w) → r.1 = data.length))
      (fun _ => fuel ≤ data.length) := by
  have hbpc := bpc_bounds hE.fits
  have hxl := List.mem_of_getElem? hx
  unfold fat32Write
  refine Runs.get_bind ?_
  rw [hg.mount, hE.fits.mounted, ha]
  simp only [Bool.not_true, Bool.false_eq_true, if_false]
  refine (kmalloc_runs hg).then ?_
  rintro ok w1 ⟨hs1, hv1, hok⟩
  have hvol1 : E.vol w1 = E.vol w := E.vol_congr hv1
  cases ok with
  | false => exact absurd (hok rfl) (hq.heap _)
  | true =>
    simp only [Bool.not_true, Bool.false_eq_true, if_false]
    rw [← hvol1] at hl hc hroom ⊢
    refine (firstCluster_exact hE hq hs1.good hopenU hd hmd hl hx hi hc hown
      (hroom.mono (by omega)) offset).then ?_
    rintro r w2 ⟨hs2, ⟨rfl, hvol2, hnone⟩ | ⟨c, l2, rfl, hc0, hcok, hf2, hu2, hnoted, hspare2⟩⟩
    · refine Runs.pure ⟨hs1.trans hs2, l, 0, ⟨rfl, hvol2 ▸ hc, Nat.zero_le _, hvol2 ▸ .refl _ l _,
        .inr ⟨rfl, rfl, rfl, .inl ⟨rfl, by rw [hvol2]⟩⟩⟩, fun h => absurd h (by omega)⟩
    have hroom2 : Room E.limit E.clusters (E.vol w2) (p + 1 - l2.length) :=
      hroom.imp_right (by omega)
    have hl12 : l.length ≤ l2.length := by
      obtain ⟨new, rfl, -⟩ := hu2.grown
      simp
    have hget : l2[0]? = some c := by
      cases l2 with
      | nil => exact absurd hcok (hm.stops hE.fits.small c hf2.link)
      | cons y l2 => rw [hf2.link.1]; rfl
    have hsteps : offset / E.mount.bytesPerClust +
        (offset % E.mount.bytesPerClust + data.length - 1) / E.mount.bytesPerClust = p := hp
    have hseek : 0 + offset / E.mount.bytesPerClust ≤ p := by
      rw [Nat.zero_add, ← hsteps]
      exact Nat.le_add_right ..
    refine (seekOrGrow_exact hE hq hs2.good hopenW hm hf2 hget hseek (hend.imp_right (by omega))
      hroom2 offset).then ?_
    rintro r w3 ⟨hs3, l3, hf3, hw3, hnone3, hsome3⟩
    have hs123 := (hs1.trans hs2).trans hs3
    have hu3 := hu2.wrote hw3 (hapart x hxl) (link_used hl hmd x hxl) (link_used hf2.link hm)
      hbpc.1
    obtain ⟨-, hout3⟩ := hu3.link hmd hl hapart
    have hslot3 : slotAt (E.vol w3) (x, i) = slotAt (E.vol w2) (x, i) := by
      rw [slotAt, slotAt, (hw3.outside x (hout3 x hxl)).2]
    cases r with
    | none =>
      refine Runs.pure ⟨hs123, l3, 0, ⟨rfl, ?_, Nat.zero_le _, hu3, .inr ⟨rfl, rfl, rfl, ?_⟩⟩,
        fun h => absurd (hnone3 rfl) (by omega)⟩
      · rw [Env.Clusters, if_neg hc0]
        exact ⟨hcok, hf3.link⟩
      · rw [hslot3]
        rcases hnoted with ⟨-, rfl, hvol2⟩ | hnoted
        · exact .inl ⟨rfl, by rw [hvol2]⟩
        · exact .inr hnoted
    | some c3 =>
      have hl23 := hw3.length_le
      have hget3 := hsome3 c3 rfl
      rw [Nat.zero_add] at hget3
      refine (writeLoop_exact hE hq hs3.good hopenW hm hf3 hget3
        (Nat.mod_lt _ hbpc.1) hsteps.le (hend.imp_right (by omega)) (hw3.room hroom2)).bind ?_
      rintro r w4 ⟨hs4, l4, k, hf4, rfl, hk, hw4, hin4, hfull4⟩
      rw [Nat.div_add_mod'] at hw4 hin4 hfull4
      have hu4 := hu3.wrote hw4 (hapart x hxl) (link_used hl hmd x hxl) (link_used hf3.link hm)
        hbpc.1
      obtain ⟨hl4, hout4⟩ := hu4.link hmd hl hapart
      simp only [Nat.zero_add]
      refine (updateDirEntry_exact hE hq hs4.good hopenU hd hmd hl4 hx _ _).then ?_
      rintro - w5 ⟨hs5, hvol5⟩
      have hnew : (if e.size < u32 (offset + k) then u32 (offset + k) else e.size) =
          max e.size (offset + k) := by
        rw [u32_of_lt (by omega)]
        split
        · omega
        · omega
      rw [hnew, hi] at hvol5
      have hslot := slotAt_setData_self (E.vol w4) x i (updateSlot c (max e.size (offset + k))
        ((E.vol w4).data x) i)
      rw [← hvol5] at hslot
      have hclt := hE.fits.lt_eof hcok
      refine Runs.pure ⟨(hs123.trans hs4).trans hs5, l4, k, ⟨rfl, ?_, hk, ?_,
        .inl ⟨rfl, hc0, hnew, ?_, ?_, hin4, fun h => (hfull4 h).2⟩⟩, fun henough => ?_⟩
      · rw [Env.Clusters, if_neg hc0]
        refine ⟨hcok, ?_⟩
        rw [Link, hvol5]
        exact hf4.link
      · rw [hvol5]
        exact hu4.patch (hout4 x hxl) hbpc.1 fun j hj => updateSlot_outside _ hj
      · rw [hslot]
        exact slotCluster_update (by unfold fat32Eof at hclt; omega)
      · rw [hslot, hnew]
        exact slotSize_update
      · obtain rfl : k = data.length := by
          by_contra hne
          have hspare3 := hw3.spare
          have := (hfull4 (by omega)).1
          omega
        rfl

-- As above, where there is room for all of the bytes.
theorem Env.Stored.all {m i k : Nat} {V V' : Vol} {e' : Fat32Entry} {l' : List Nat} {r : Int}
    (h : E.Stored m x i V l e offset data r e' V' l' k) (hr : r = data.length) :
    k = data.length ∧ e'.cluster ≠ 0 ∧ e'.size = max e.size (offset + data.length) ∧
      slotCluster (slotAt V' (x, i)) = e'.cluster ∧
      slotSize (slotAt V' (x, i)) = e'.size % 2 ^ 32 ∧
      offset + data.length ≤ l'.length * E.mount.bytesPerClust := by
  rcases h.noted with ⟨hk, hc, hs, hcl, hsz, hin, -⟩ | ⟨hk, -⟩
  · obtain rfl : k = data.length := by omega
    exact ⟨rfl, hc, hs, hcl, hsz, hin⟩
  · have hneg : fat32ErrNospace < 0 := by decide
    omega

end Write

end Fat32
