import SabakaOS.Fat32.Entries
import SabakaOS.Fat32.Growth

namespace Fat32

open Word ByteMemory Prog Chain

-- What making room for an entry in directory d does to the rest of the volume.
structure Readied (m : Mount) (N : Nat) (D H : Set Nat) (d : Nat) (V V2 : Vol) : Prop where
  live : ∀ p, Live m N V2 D p → Live m N V D p ∧ slotAt V2 p = slotAt V p
  others : ∀ g ∈ H, g ≠ d → ∀ l, Link N V2 fat32Eof g l ↔ Link N V fat32Eof g l
  index : ∀ l, Link N V fat32Eof d l → ∃ l2, Link N V2 fat32Eof d l2 ∧
    ∀ j x : Nat, l[j]? = some x → OnDir N V2 D x → l2[j]? = some x

section Place

variable {m : Mount} {N : Nat} {V V' : Vol} {D H : Set Nat} {X : Set (Nat × Nat)}
  {c d i n x y : Nat} {l l1 l2 : List Nat} {slot : List UInt8}

theorem Kept.readied (hk : Kept N D V V') (hd : d ∈ D)
    (ho : ∀ g ∈ H, ∀ l, Link N V' fat32Eof g l ↔ Link N V fat32Eof g l) :
    Readied m N D H d V V' :=
  ⟨fun _ hp => hk.live hp, fun g hg _ => ho g hg,
    fun l hl => ⟨l, (hk.link d hd l).mpr hl, fun _ _ h _ => h⟩⟩

theorem Readied.unused (h : Readied m N D H d V V') (hu : Unused m N V D X c) :
    Unused m N V' D X c := by
  intro p hp hX
  obtain ⟨hl, hs⟩ := h.live p hp
  rw [hs]
  exact hu p hl hX

theorem not_names_zero (h : V.data y = fun _ => 0) (i : Nat) : ¬Names (slotAt V (y, i)) := by
  intro hn
  refine hn.1 ?_
  rw [slotAt, h]
  rfl

theorem grow_sound (hs : Sound m N V D H X) (hN : N ≤ 0x0FFFFFF8) (hn : Valid N n)
    (hfree : V.fat n = 0) :
    Sound m N (V.grow n) D (insert n H) X ∧ Kept N D V (V.grow n) ∧ n ∉ H ∧
      Link N (V.grow n) fat32Eof n [n] ∧ Unused m N (V.grow n) D X n ∧
      (∀ g ∈ H, ∀ l, Link N (V.grow n) fat32Eof g l ↔ Link N V fat32Eof g l) := by
  have hnot := hs.free_not_head hN hfree
  have hA := hs.alloc hN hn hfree
  have hkA := hs.kept_alloc hN hfree fat32Eof
  have hlink : Link N (V.setFat n fat32Eof) fat32Eof n [n] := ⟨rfl, hn, Function.update_self ..⟩
  have hdir := hA.file_not_onDir (Set.mem_insert ..) (fun hd => hnot (hs.dirs hd)) hlink
    (List.mem_singleton_self n)
  have hkB := Kept.write hdir (fun _ => 0)
  have hn0 : n ≠ 0 := by
    rintro rfl
    exact absurd hn.1 (by decide)
  exact ⟨hA.write hN hdir _, hkA.trans hkB, hnot, hlink,
    hkB.unused (hkA.unused (hs.unused hnot hn0)), fun g hg l => hs.link_alloc hN hfree _ hg⟩

theorem grow_link_sound (hs : Sound m N V D H X) (hN : N ≤ 0x0FFFFFF8) (hn : Valid N n)
    (hfree : V.fat n = 0) (hd : d ∈ D) (hl : Link N V fat32Eof d (l1 ++ y :: l2)) :
    Sound m N ((V.grow n).setFat y n) D H X ∧ Readied m N D H d V ((V.grow n).setFat y n) ∧
      Link N ((V.grow n).setFat y n) fat32Eof d (l1 ++ [y, n]) := by
  obtain ⟨hg, hk, hnot, hln, hun, hothers⟩ := grow_sound hs hN hn hfree
  have hdH := hs.dirs hd
  have hd1 : d ∈ insert n H := Set.mem_insert_of_mem _ hdH
  have hl1 := (hothers d hdH _).mpr hl
  have hne : n ≠ d := fun he => hnot (he ▸ hdH)
  have hnD : n ∉ D := fun h => hnot (hs.dirs h)
  have hempty : d ∈ D → ∀ z ∈ [n], ∀ i < entriesPerClust m, ¬Names (slotAt (V.grow n) (z, i)) := by
    intro _ z hz i _
    rw [List.mem_singleton.mp hz]
    exact not_names_zero (Function.update_self ..) i
  have hsound := hg.link hN hd1 hl1 (Set.mem_insert ..) hnD hne hun hln hempty
  rw [Set.insert_sdiff_of_mem _ (Set.mem_singleton n), Set.sdiff_singleton_eq_self hnot] at hsound
  have hnew := hg.link_new hN hd1 hl1 (Set.mem_insert ..) hne hln
  refine ⟨hsound, ⟨fun p hp => ?_, fun g hgH hgd l => ?_, fun l hl' => ⟨_, hnew, ?_⟩⟩, hnew⟩
  · have hlive := hg.live_link hN hd1 hl1 (Set.mem_insert ..) hne hln hempty hp
    exact ⟨(hk.live hlive).1, (hk.live hlive).2⟩
  · exact (hg.link_link hN hd1 hl1 (Set.mem_insert_of_mem _ hgH) hgd n).trans (hothers g hgH l)
  · obtain rfl := hl'.unique (eof_stops hN) hl
    intro j x hj hx
    by_cases hle : j ≤ l1.length
    · rw [← hj]
      rcases Nat.lt_or_ge j l1.length with hlt | hge
      · rw [List.getElem?_append_left hlt, List.getElem?_append_left hlt]
      · obtain rfl : j = l1.length := by omega
        simp
    -- the cut off part is on no directory any more
    · exfalso
      have hx2 : x ∈ l2 := by
        rw [List.getElem?_append_right (by omega)] at hj
        have hcons : (y :: l2)[j - l1.length - 1 + 1]? = some x := by
          rw [← hj]
          congr 1
          omega
        rw [List.getElem?_cons_succ] at hcons
        exact List.mem_of_getElem? hcons
      have hxl : x ∈ l1 ++ y :: l2 := by simp [hx2]
      obtain ⟨d', hd', l', hld', hm⟩ := hx
      by_cases hdd : d' = d
      · subst hdd
        obtain rfl := hld'.unique (eof_stops hN) hnew
        have hnodup := List.nodup_append.mp (hl.nodup (eof_stops hN))
        simp only [List.mem_append, List.mem_cons, List.not_mem_nil, or_false] at hm
        rcases hm with hm | rfl | rfl
        · exact hnodup.2.2 x hm x (by simp [hx2]) rfl
        · exact (List.nodup_cons.mp hnodup.2.1).1 hx2
        · exact free_not_mem hl hfree hxl
      · have hold := (hothers d' (hs.dirs hd') _).mp
          ((hg.link_link hN hd1 hl1 (Set.mem_insert_of_mem _ (hs.dirs hd')) hdd n).mp hld')
        exact hs.chains.apart d' (hs.dirs hd') d hdH hdd _ _ hold hl x hm hxl

theorem Placed.ready {E : Env} (hf : Fits E.mount E.clusters)
    (hs : Sound E.mount E.clusters V D H X) (hd : d ∈ D) (hl : Link E.clusters V fat32Eof d l)
    {r : Except Int Nat} {base : Nat} (hp : Placed E V slot base l r V') :
    ∃ V2 H2, Sound E.mount E.clusters V2 D H2 X ∧ H ⊆ H2 ∧
      Readied E.mount E.clusters D H d V V2 ∧
      ((V' = V2 ∧ ∃ c, r = .error c) ∨
        ∃ x i, i < entriesPerClust E.mount ∧ SlotFree (slotAt V2 (x, i)) ∧
          V' = V2.fill x i slot ∧
          ((∃ k, r = .ok k) ∨ ((∃ c, r = .error c) ∧
            E.ataFails .writeDirEntry .clusterWrite))) := by
  have hN := hf.small
  have hsame : Readied E.mount E.clusters D H d V V :=
    Kept.refl.readied hd (fun _ _ _ => Iff.rfl)
  cases hp with
  | nospace => exact ⟨V, H, hs, subset_rfl, hsame, .inl ⟨rfl, _, rfl⟩⟩
  | failed => exact ⟨V, H, hs, subset_rfl, hsame, .inl ⟨rfl, _, rfl⟩⟩
  | @filled k x r hidx hx hr =>
    exact ⟨V, H, hs, subset_rfl, hsame, .inr ⟨x, k % entriesPerClust E.mount,
      Nat.mod_lt _ hf.epc_pos, freeIndex_free hf.epc_pos hidx hx, rfl,
      hr.imp_left (fun h => ⟨_, h⟩)⟩⟩
  | @extended l1 l2 y n r V' hsplit _ _ hex =>
    obtain ⟨hok, -, hfree, V2, hV2, hres⟩ := hex
    rw [hsplit] at hl
    obtain ⟨hg, hk, hnot, hln, hun, hothers⟩ := grow_sound hs hN hok hfree
    obtain ⟨hg', hr', -⟩ := grow_link_sound hs hN hok hfree hd hl
    have hzero : V2.data n = fun _ => 0 := by
      have hself : (V.grow n).data n = fun _ => 0 := Function.update_self ..
      rcases hV2 with rfl | ⟨rfl, -⟩
      · exact hself
      · exact hself
    have hready : ∃ H2, Sound E.mount E.clusters V2 D H2 X ∧ H ⊆ H2 ∧
        Readied E.mount E.clusters D H d V V2 := by
      rcases hV2 with rfl | ⟨rfl, -⟩
      · exact ⟨H, hg', subset_rfl, hr'⟩
      · exact ⟨insert n H, hg, Set.subset_insert .., hk.readied hd hothers⟩
    obtain ⟨H2, hs2, hH2, hr2⟩ := hready
    refine ⟨V2, H2, hs2, hH2, hr2, ?_⟩
    rcases hres with ⟨rfl, hr⟩ | ⟨rfl, hr, -⟩
    · refine .inr ⟨n, 0, hf.epc_pos, .inl ?_, rfl, hr.imp_left (fun h => ⟨_, h⟩)⟩
      rw [slotAt, hzero]
      rfl
    · exact .inl ⟨rfl, hr⟩

def slotBytes (slot : List UInt8) : Slot := fun j => if j < 32 then slot.getD j 0 else 0

theorem slotAt_fill (hlen : slot.length = 32) : slotAt (V.fill x i slot) (x, i) = slotBytes slot := by
  funext j
  simp only [slotAt, slotOf, slotBytes, Vol.fill, Vol.setData, Function.update_self]
  split
  · rw [writeBytes, if_pos (by omega), Nat.add_sub_cancel_left, List.getD_eq_getElem _ _ (by omega),
      List.getD_eq_getElem _ _ (by omega)]
  · rfl

theorem dirSlots_edit {k : Nat} {g : Buffer → Buffer} (hepc : 0 < entriesPerClust m)
    (hg : SlotEdit (k % entriesPerClust m) g) (hnodup : l.Nodup)
    (hx : l[k / entriesPerClust m]? = some x) :
    dirSlots (V.setData x (g (V.data x))) (entriesPerClust m) l =
      (dirSlots V (entriesPerClust m) l).set k
        (slotOf (g (V.data x)) (k % entriesPerClust m)) := by
  refine List.ext_getElem? fun j => ?_
  rw [List.getElem?_set, dirSlots_getElem? hepc, dirSlots_getElem? hepc]
  by_cases hj : k = j
  · subst hj
    rw [if_pos rfl, hx, dirSlots_length, Option.map_some, slotAt, if_pos]
    · simp only [Vol.setData, Function.update_self]
    · have hlt := (List.getElem?_eq_some_iff.mp hx).1
      have hmul := Nat.mul_le_mul_right (entriesPerClust m) hlt
      have hdiv := Nat.div_add_mod k (entriesPerClust m)
      have hmod := Nat.mod_lt k hepc
      rw [Nat.succ_mul, Nat.mul_comm] at hmul
      omega
  · rw [if_neg hj]
    rcases hy : l[j / entriesPerClust m]? with _ | y
    · rfl
    · rw [Option.map_some, Option.map_some, slotAt_setData (hg.outside _) (fun he => hj ?_)]
      obtain ⟨rfl, hmod⟩ := Prod.mk.inj he
      have hdiv := (List.getElem?_inj (List.getElem?_eq_some_iff.mp hx).1 hnodup).mp
        (hx.trans hy.symm)
      rw [← Nat.div_add_mod k (entriesPerClust m), ← Nat.div_add_mod j (entriesPerClust m), hdiv,
        hmod]

theorem dirSlots_fill (hepc : 0 < entriesPerClust m) (hlen : slot.length = 32) (hnodup : l.Nodup)
    {k : Nat} (hx : l[k / entriesPerClust m]? = some x) :
    dirSlots (V.fill x (k % entriesPerClust m) slot) (entriesPerClust m) l =
      (dirSlots V (entriesPerClust m) l).set k (slotBytes slot) := by
  rw [Vol.fill, dirSlots_edit hepc (slotEdit_fill _ hlen) hnodup hx,
    ← slotAt_fill (V := V) (x := x) (i := k % entriesPerClust m) hlen]
  simp only [slotAt, Vol.fill, Vol.setData, Function.update_self]

-- The number that is returned, when one is, counts from the first slot of the directory.
theorem ok_index {k i : Nat} {P : Prop} (h : (Except.ok k : Except Int Nat) = .ok (0 + i) ∨
    ((∃ c, (Except.ok k : Except Int Nat) = .error c) ∧ P)) : k = i := by
  rcases h with h | ⟨⟨c, h⟩, -⟩
  · exact (Except.ok.inj h).trans (Nat.zero_add i)
  · cases h

theorem Placed.listed {E : Env} (hf : Fits E.mount E.clusters)
    (hs : Sound E.mount E.clusters V D H X) (hd : d ∈ D) (hl : Link E.clusters V fat32Eof d l)
    (hno : ¬E.fatFails .writeDirEntry) (hlen : slot.length = 32) {k : Nat}
    (hp : Placed E V slot 0 l (.ok k) V') :
    Listed E.clusters (entriesPerClust E.mount) V l (slotBytes slot) d k V' := by
  have hnodup := hl.nodup (eof_stops hf.small)
  cases hp with
  | @filled k' x r hidx hx hr =>
    obtain rfl : k = k' := ok_index hr
    obtain ⟨hlead, hlength⟩ := lead_of_some hidx
    refine ⟨hlength.symm, l, [], hl, ?_, fun z hz => by cases hz⟩
    rw [dirSlots_fill hf.epc_pos hlen hnodup hx, hlead, List.append_nil,
      List.set_eq_take_append_cons_drop, if_pos]
    rw [hlead, List.length_take] at hlength
    exact (List.findIdx?_eq_some_iff_getElem.mp hidx).1
  | @extended l1 l2 y n r V' hsplit hl2 hnone hex =>
    obtain rfl := hl2.resolve_right hno
    subst hsplit
    obtain ⟨hok, -, hfree, V2, hV2, hres⟩ := hex
    obtain rfl := hV2.resolve_right (fun h => hno h.2)
    obtain ⟨-, -, hlink⟩ := grow_link_sound hs hf.small hok hfree hd hl
    have hn : n ∉ l1 ++ [y] := free_not_mem hl hfree
    have hlead := lead_of_none hnone
    rcases hres with ⟨rfl, hr⟩ | ⟨-, ⟨c, hr⟩, -⟩
    · have hk : k = (l1.length + 1) * entriesPerClust E.mount := ok_index hr
      have hone : dirSlots (((V.grow n).setFat y n).fill n 0 slot) (entriesPerClust E.mount) [n] =
          (dirSlots ((V.grow n).setFat y n) (entriesPerClust E.mount) [n]).set 0
            (slotBytes slot) :=
        dirSlots_fill hf.epc_pos hlen (List.nodup_singleton n) (k := 0) (by simp)
      obtain ⟨s, rest, hcons⟩ := List.exists_cons_of_length_pos
        (l := dirSlots ((V.grow n).setFat y n) (entriesPerClust E.mount) [n])
        (by rw [dirSlots_length]; simpa using hf.epc_pos)
      have hlength : (dirSlots V (entriesPerClust E.mount) (l1 ++ [y])).length = k := by
        rw [dirSlots_length, hk, List.length_append, List.length_singleton]
      refine ⟨hlead ▸ hlength.symm, l1 ++ [y] ++ [n], rest, ?_, ?_, fun z hz => ?_⟩
      · rw [List.append_assoc]
        exact hlink
      · rw [dirSlots_append, hone, hcons, hlead, List.set_cons_zero,
          List.drop_of_length_le (by omega), List.nil_append]
        congr 1
        refine dirSlots_congr fun z hz => ?_
        have hne : z ≠ n := ne_of_mem_of_not_mem hz hn
        simp only [Vol.fill, Vol.setData, Vol.grow, Vol.setFat]
        rw [Function.update_of_ne hne, Function.update_of_ne hne]
      · have hz' : z ∈ dirSlots ((V.grow n).setFat y n) (entriesPerClust E.mount) [n] :=
          hcons ▸ List.mem_cons_of_mem _ hz
        rw [dirSlots, List.flatMap_singleton] at hz'
        obtain ⟨i, -, rfl⟩ := List.mem_map.mp hz'
        have hself : ((V.grow n).setFat y n).data n = fun _ => 0 := Function.update_self ..
        rw [slotAt, hself]
        rfl
    · cases hr

-- Slot k of the directory, made longer if need be, is the free one that is filled.
theorem Placed.put {E : Env} (hf : Fits E.mount E.clusters)
    (hs : Sound E.mount E.clusters V D H X) (hd : d ∈ D) (hl : Link E.clusters V fat32Eof d l)
    (hno : ¬E.fatFails .writeDirEntry) {k : Nat} (hp : Placed E V slot 0 l (.ok k) V') :
    ∃ V2 l2 x, Sound E.mount E.clusters V2 D H X ∧ Link E.clusters V2 fat32Eof d l2 ∧
      l2[k / entriesPerClust E.mount]? = some x ∧
      SlotFree (slotAt V2 (x, k % entriesPerClust E.mount)) ∧
      V' = V2.fill x (k % entriesPerClust E.mount) slot := by
  cases hp with
  | @filled k' x r hidx hx hr =>
    obtain rfl : k = k' := ok_index hr
    exact ⟨V, l, x, hs, hl, hx, freeIndex_free hf.epc_pos hidx hx, rfl⟩
  | @extended l1 l2 y n r V' hsplit hl2 hnone hex =>
    obtain rfl := hl2.resolve_right hno
    subst hsplit
    obtain ⟨hok, -, hfree, V2, hV2, hres⟩ := hex
    obtain rfl := hV2.resolve_right (fun h => hno h.2)
    obtain ⟨hs2, -, hlink⟩ := grow_link_sound hs hf.small hok hfree hd hl
    rcases hres with ⟨rfl, hr⟩ | ⟨-, ⟨c, hr⟩, -⟩
    · obtain rfl : k = (l1.length + 1) * entriesPerClust E.mount := ok_index hr
      rw [Nat.mul_div_cancel _ hf.epc_pos, Nat.mul_mod_left]
      have hself : (V.grow n).data n = fun _ => 0 := Function.update_self ..
      refine ⟨_, _, n, hs2, hlink, ?_, .inl ?_, rfl⟩
      · simp
      · change slotOf ((V.grow n).data n) 0 0 = 0
        rw [hself]
        rfl
    · cases hr

theorem Placed.kept {E : Env} (hf : Fits E.mount E.clusters)
    (hs : Sound E.mount E.clusters V D H X) (hd : d ∈ D) (hl : Link E.clusters V fat32Eof d l)
    {r : Except Int Nat} {base : Nat} (hp : Placed E V slot base l r V') :
    Kept E.clusters (H \ {d}) V V' := by
  have hN := hf.small
  have hdH := hs.dirs hd
  have hapart : ∀ {z : Nat}, OnDir E.clusters V (H \ {d}) z → z ∉ l := by
    rintro z ⟨g, hg, lg, hlg, hz⟩
    exact hs.chains.apart g hg.1 d hdH hg.2 _ _ hlg hl z hz
  have hfill : ∀ (x i : Nat), x ∈ l → Kept E.clusters (H \ {d}) V (V.fill x i slot) :=
    fun x i hx => Kept.write (fun hz => hapart hz hx) _
  cases hp with
  | nospace => exact Kept.refl
  | failed => exact Kept.refl
  | @filled k x r hidx hx hr => exact hfill x _ (List.mem_of_getElem? hx)
  | @extended l1 l2 y n r V' hsplit _ _ hex =>
    obtain ⟨hok, -, hfree, V2, hV2, hres⟩ := hex
    subst hsplit
    obtain ⟨hg, -, hnot, hln, -, hothers⟩ := grow_sound hs hN hok hfree
    have hl1 := (hothers d hdH _).mpr hl
    have hlink : ∀ g ∈ H \ {d}, ∀ lg,
        Link E.clusters V2 fat32Eof g lg ↔ Link E.clusters V fat32Eof g lg := by
      rintro g ⟨hgH, hgd⟩ lg
      rcases hV2 with rfl | ⟨rfl, -⟩
      · exact (hg.link_link hN (Set.mem_insert_of_mem _ hdH) hl1 (Set.mem_insert_of_mem _ hgH)
          hgd n).trans (hothers g hgH lg)
      · exact hothers g hgH lg
    have hdata : ∀ z, z ≠ n → V2.data z = V.data z := by
      intro z hz
      rcases hV2 with rfl | ⟨rfl, -⟩
      · exact Function.update_of_ne hz _ _
      · exact Function.update_of_ne hz _ _
    have hne : ∀ z, OnDir E.clusters V (H \ {d}) z → z ≠ n := by
      rintro z ⟨g, -, lg, hlg, hz⟩
      exact ne_of_mem_of_not_mem hz (free_not_mem hlg hfree)
    rcases hres with ⟨rfl, -⟩ | ⟨rfl, -⟩
    · exact ⟨hlink, fun z hz => (Function.update_of_ne (hne z hz) _ _).trans (hdata z (hne z hz))⟩
    · exact ⟨hlink, fun z hz => hdata z (hne z hz)⟩

-- The slots of '.' and '..' are never free.
theorem Sound.notDots (hs : Sound m N V D H X) (hfree : SlotFree (slotAt V (x, i))) (hx : x ∈ D)
    (hroot : x ≠ m.rootCluster) : 2 ≤ i := by
  by_contra hi
  have hdot : slotAt V (x, i) 0 = 0x2E := hs.dots x hx hroot i (by omega)
  unfold SlotFree at hfree
  rw [hdot] at hfree
  revert hfree
  decide

theorem Sound.fill (hs : Sound m N V D H X) (hfree : SlotFree (slotAt V (x, i)))
    (hlen : slot.length = 32) (hholds : Holds m D H (slotBytes slot))
    (hun : slotCluster (slotBytes slot) = 0 ∨ Unused m N V D X (slotCluster (slotBytes slot))) :
    Sound m N (V.fill x i slot) D H X := by
  have hslot := slotAt_fill (V := V) (x := x) (i := i) hlen
  refine (hs.mono (Set.subset_insert ..)).edit ((slotEdit_fill i hlen).outside _)
    (hs.notDots hfree) (fun _ _ => ?_)
  · change Holds m D H (slotAt (V.fill x i slot) (x, i)) ∧
      (slotCluster (slotAt (V.fill x i slot) (x, i)) = 0 ∨ Unused m N V D (insert (x, i) X)
        (slotCluster (slotAt (V.fill x i slot) (x, i))))
    rw [hslot]
    exact ⟨hholds, hun.imp_right (fun h p hp hX => h p hp (fun hm => hX (.inr hm)))⟩

theorem Placed.sound {E : Env} (hf : Fits E.mount E.clusters)
    (hs : Sound E.mount E.clusters V D H X) (hd : d ∈ D) (hl : Link E.clusters V fat32Eof d l)
    {r : Except Int Nat} {base : Nat} (hp : Placed E V slot base l r V') (hlen : slot.length = 32)
    (hholds : Holds E.mount D H (slotBytes slot))
    (hun : slotCluster (slotBytes slot) = 0 ∨
      Unused E.mount E.clusters V D X (slotCluster (slotBytes slot))) :
    ∃ H', Sound E.mount E.clusters V' D H' X := by
  obtain ⟨V2, H2, hs2, hH, hready, ⟨rfl, -⟩ | ⟨x, i, -, hfree, rfl, -⟩⟩ := hp.ready hf hs hd hl
  · exact ⟨H2, hs2⟩
  · exact ⟨H2, hs2.fill hfree hlen (hholds.mono subset_rfl hH (fun _ h => h))
      (hun.imp_right (fun h => hready.unused h))⟩

end Place

section NewSlot

variable {name : List UInt8} {attr : UInt8} {cluster size : Nat}

theorem make83_length (name : List UInt8) : (make83 name).length = 11 := by
  simp [make83, padTo_length]

-- The slot behind its eleven name bytes.
def slotTail (attr : UInt8) (cluster size : Nat) : List UInt8 :=
  [attr, 0, 0] ++ le 2 0 ++ le 2 dateStamp ++ le 2 dateStamp ++ le 2 (cluster / 65536) ++ le 2 0 ++
    le 2 dateStamp ++ le 2 cluster ++ le 4 size

theorem newSlot_eq : newSlot name attr cluster size = make83 name ++ slotTail attr cluster size := by
  simp only [newSlot, slotTail, List.append_assoc]

theorem slotBytes_tail {k : Nat} (hk : 11 + k < 32) :
    slotBytes (newSlot name attr cluster size) (11 + k) =
      (slotTail attr cluster size).getD k 0 := by
  rw [slotBytes, if_pos hk, newSlot_eq, List.getD_append_right _ _ _ _ (by rw [make83_length]; omega),
    make83_length, Nat.add_sub_cancel_left]

theorem slotBytes_name {k : Nat} (hk : k < 11) :
    slotBytes (newSlot name attr cluster size) k = (make83 name).getD k 0 := by
  rw [slotBytes, if_pos (by omega), newSlot_eq, List.getD_append _ _ _ _ (by rw [make83_length]; omega)]

theorem slotAttr_newSlot : slotAttr (slotBytes (newSlot name attr cluster size)) = attr :=
  @slotBytes_tail name attr cluster size 0 (by decide)

theorem slotCluster_newSlot (hc : cluster < 2 ^ 32) :
    slotCluster (slotBytes (newSlot name attr cluster size)) = cluster := by
  have hbyte := fun k hk => @slotBytes_tail name attr cluster size k hk
  have h20 : slotBytes (newSlot name attr cluster size) 20 = UInt8.ofNat (cluster / 65536) :=
    hbyte 9 (by decide)
  have h21 : slotBytes (newSlot name attr cluster size) 21 = UInt8.ofNat (cluster / 65536 / 256) :=
    hbyte 10 (by decide)
  have h26 : slotBytes (newSlot name attr cluster size) 26 = UInt8.ofNat cluster :=
    hbyte 15 (by decide)
  have h27 : slotBytes (newSlot name attr cluster size) 27 = UInt8.ofNat (cluster / 256) :=
    hbyte 16 (by decide)
  simp only [slotCluster, readLE, h20, h21, h26, h27, UInt8.toNat_ofNat']
  omega

theorem holds_newFile {m : Mount} {D H : Set Nat} (ha : hasAttr attr attrDirectory = false) :
    Holds m D H (slotBytes (newSlot name attr 0 size)) := by
  unfold Holds
  rw [slotAttr_newSlot, ha, if_neg (by decide), slotCluster_newSlot (by decide)]
  exact .inl rfl

end NewSlot

-- More turns than any walk over a sound volume takes.
def Env.turns (E : Env) : Nat := E.clusters * entriesPerClust E.mount

def Env.Taken (E : Env) (V : Vol) (dirCluster : Nat) (name : List UInt8) (l : List Nat) : Prop :=
  (∃ e ∈ listing V (entriesPerClust E.mount) dirCluster l, ¬Skipped name e) ∧ ¬E.listFails

def Env.HasSlot (E : Env) (V : Vol) (l : List Nat) : Prop :=
  freeIndex V (entriesPerClust E.mount) l ≠ none ∧ ¬E.fatFails .writeDirEntry

section Turns

variable {E : Env} {l : List Nat}

theorem link_length_le {N c : Nat} {V : Vol} (hN : N ≤ 0x0FFFFFF8)
    (hl : Link N V fat32Eof c l) : l.length ≤ N := by
  have hsub : l ⊆ List.range N := fun x hx => List.mem_range.mpr (hl.ok_of_mem x hx).2
  have := ((hl.nodup (eof_stops hN)).subperm hsub).length_le
  simpa using this

theorem turns_le (hf : Fits E.mount E.clusters) {V : Vol} {c : Nat}
    (hl : Link E.clusters V fat32Eof c l) :
    l.length ≤ E.turns ∧ l.length * entriesPerClust E.mount ≤ E.turns := by
  have h := link_length_le hf.small hl
  have hmul : l.length * entriesPerClust E.mount ≤ E.turns := Nat.mul_le_mul_right _ h
  exact ⟨(Nat.le_mul_of_pos_right _ hf.epc_pos).trans hmul, hmul⟩

end Turns

end Fat32
