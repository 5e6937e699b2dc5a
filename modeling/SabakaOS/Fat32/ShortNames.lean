import SabakaOS.Fat32.Operations

namespace Fat32

open ByteMemory

section Compare

variable {a b name : List UInt8}

theorem charVal_inj {x y : UInt8} (h : charVal x = charVal y) : x = y := by
  have hx := x.toNat_lt
  have hy := y.toNat_lt
  unfold charVal at h
  apply UInt8.toNat_inj.mp
  split at h
  · split at h
    · omega
    · omega
  · split at h
    · omega
    · omega

theorem kstricmp_eq_zero (ha : isCString a) (hb : isCString b) :
    kstricmp a b = 0 ↔ a.map upper = b.map upper := by
  induction a generalizing b with
  | nil =>
    cases b with
    | nil => simp [kstricmp]
    | cons y b =>
      have hy : y.toNat ≠ 0 := fun h => hb y (by simp) (UInt8.toNat_inj.mp h)
      simp [kstricmp, hy]
  | cons x a ih =>
    cases b with
    | nil =>
      have hx : x.toNat ≠ 0 := fun h => ha x (by simp) (UInt8.toNat_inj.mp h)
      simp [kstricmp, hx]
    | cons y b =>
      rw [kstricmp, List.map_cons, List.map_cons, List.cons.injEq]
      split
      · rename_i hne
        constructor
        · exact fun h => absurd (charVal_inj (by omega)) hne
        · exact fun h => absurd h.1 hne
      · rename_i heq
        rw [not_not] at heq
        rw [ih (fun c hc => ha c (by simp [hc])) (fun c hc => hb c (by simp [hc]))]
        exact (and_iff_right heq).symm

theorem kstrcmp_eq_zero (ha : isCString a) (hb : isCString b) : kstrcmp a b = 0 ↔ a = b := by
  induction a generalizing b with
  | nil =>
    cases b with
    | nil => simp [kstrcmp]
    | cons y b =>
      have hy : y.toNat ≠ 0 := fun h => hb y (by simp) (UInt8.toNat_inj.mp h)
      simp [kstrcmp, hy]
  | cons x a ih =>
    cases b with
    | nil =>
      have hx : x.toNat ≠ 0 := fun h => ha x (by simp) (UInt8.toNat_inj.mp h)
      simp [kstrcmp, hx]
    | cons y b =>
      rw [kstrcmp, List.cons.injEq]
      split
      · rename_i heq
        rw [ih (fun c hc => ha c (by simp [hc])) (fun c hc => hb c (by simp [hc]))]
        exact (and_iff_right heq).symm
      · rename_i hne
        constructor
        · exact fun h => absurd (UInt8.toNat_inj.mp (by omega)) hne
        · exact fun h => absurd h.1 hne

theorem upper_toNat (c : UInt8) : (upper c).toNat =
    if 97 ≤ c.toNat ∧ c.toNat ≤ 122 then c.toNat - 32 else c.toNat := by
  have h61 : 0x61 ≤ c ↔ 97 ≤ c.toNat := UInt8.le_iff_toNat_le
  have h7A : c ≤ 0x7A ↔ c.toNat ≤ 122 := UInt8.le_iff_toNat_le
  unfold upper
  simp only [h61, h7A]
  split
  · rename_i hc
    exact UInt8.toNat_sub_of_le c 32 (UInt8.le_iff_toNat_le.mpr (by change 32 ≤ c.toNat; omega))
  · rfl

theorem upper_upper (c : UInt8) : upper (upper c) = upper c := by
  refine UInt8.toNat_inj.mp ?_
  rw [upper_toNat (upper c), upper_toNat c]
  by_cases hc : 97 ≤ c.toNat ∧ c.toNat ≤ 122
  · rw [if_pos hc, if_neg (by omega)]
  · rw [if_neg hc, if_neg hc]

theorem upper_eq_iff {c v : UInt8} (hv : v.toNat < 65 ∨ 122 < v.toNat) : upper c = v ↔ c = v := by
  rw [← UInt8.toNat_inj, ← UInt8.toNat_inj (a := c), upper_toNat]
  split <;> omega

theorem mem_map_upper {c : UInt8} (hc : c.toNat < 65 ∨ 122 < c.toNat) {s : List UInt8} :
    c ∈ s.map upper ↔ c ∈ s := by
  rw [List.mem_map]
  constructor
  · rintro ⟨x, hx, he⟩
    rwa [← (upper_eq_iff hc).mp he]
  · exact fun h => ⟨c, h, (upper_eq_iff hc).mpr rfl⟩

end Compare

section Split

variable {name : List UInt8}

def joinDot (parts : List UInt8 × Option (List UInt8)) : List UInt8 :=
  match parts.2 with
  | none => parts.1
  | some ext => parts.1 ++ 0x2E :: ext

theorem joinDot_split (name : List UInt8) : joinDot (splitLastDot name) = name := by
  have happ := List.takeWhile_append_dropWhile (p := (· != 0x2E)) (l := name.reverse)
  unfold splitLastDot
  split
  · rfl
  · rename_i d base hd
    have hdot : d = 0x2E := by
      have := List.head?_dropWhile_not (· != 0x2E) name.reverse
      rw [hd] at this
      simpa using this
    rw [hd, hdot] at happ
    have hrev := congrArg List.reverse happ
    rw [List.reverse_append, List.reverse_reverse, List.reverse_cons, List.append_assoc] at hrev
    exact hrev

-- A name that the eight and three bytes of a slot can hold.
def Fits83 (name : List UInt8) : Prop :=
  (splitLastDot name).1.length ≤ 8 ∧ 0x20 ∉ (splitLastDot name).1 ∧
    ∀ ext, (splitLastDot name).2 = some ext → ext ≠ [] ∧ ext.length ≤ 3 ∧ 0x20 ∉ ext

def untilBlank (s : List UInt8) : List UInt8 := s.takeWhile (· != 0x20)

theorem untilBlank_replicate (k : Nat) : untilBlank (List.replicate k 0x20) = [] := by
  cases k with
  | zero => rfl
  | succ k => rfl

theorem untilBlank_padTo (n : Nat) (s : List UInt8) : untilBlank (padTo n s) = untilBlank (s.take n) := by
  unfold untilBlank padTo
  rw [List.takeWhile_append]
  split
  · rename_i hlen
    rw [show (List.replicate (n - s.length) (0x20 : UInt8)).takeWhile (· != 0x20) = [] from
      untilBlank_replicate _, List.append_nil]
    exact ((List.takeWhile_prefix _).eq_of_length hlen).symm
  · rfl

theorem untilBlank_initial (n : Nat) (s : List UInt8) : untilBlank (s.take n) <+: s :=
  (List.takeWhile_prefix _).trans (List.take_prefix ..)

theorem untilBlank_eq_iff (n : Nat) (s : List UInt8) :
    untilBlank (s.take n) = s ↔ s.length ≤ n ∧ 0x20 ∉ s := by
  constructor
  · intro h
    have hlen : s.length ≤ n := by
      have h1 := (List.takeWhile_prefix (· != 0x20) (l := s.take n)).length_le
      rw [show (s.take n).takeWhile (· != 0x20) = s from h, List.length_take] at h1
      omega
    refine ⟨hlen, fun hm => ?_⟩
    have hm' : (0x20 : UInt8) ∈ (s.take n).takeWhile (· != 0x20) := by
      rwa [show (s.take n).takeWhile (· != 0x20) = s from h]
    simpa using List.mem_takeWhile_imp hm'
  · rintro ⟨hlen, hno⟩
    rw [List.take_of_length_le hlen]
    refine List.takeWhile_eq_self_iff.mpr fun c hc => bne_iff_ne.mpr ?_
    rintro rfl
    exact hno hc

end Split

section Short

variable {name : List UInt8} {s : Slot}

-- What parse_83_name makes of a slot that make_83 has filled.
def shortName (name : List UInt8) : List UInt8 :=
  let base := (splitLastDot name).1.map upper
  let ext := ((splitLastDot name).2.getD []).map upper
  if ext.headD 0x20 = 0x20 then untilBlank (base.take 8)
  else untilBlank (base.take 8) ++ 0x2E :: untilBlank (ext.take 3)

theorem fits_upper (n : Nat) (s : List UInt8) :
    untilBlank ((s.map upper).take n) = s.map upper ↔ s.length ≤ n ∧ 0x20 ∉ s := by
  rw [untilBlank_eq_iff, List.length_map, mem_map_upper (.inl (by decide))]

theorem map_upper_untilBlank (n : Nat) (s : List UInt8) :
    (untilBlank ((s.map upper).take n)).map upper = untilBlank ((s.map upper).take n) := by
  have hmap : ∀ c ∈ untilBlank ((s.map upper).take n), upper c = c := by
    intro c hc
    obtain ⟨x, -, rfl⟩ := List.mem_map.mp ((untilBlank_initial n (s.map upper)).subset hc)
    exact upper_upper x
  rw [List.map_congr_left hmap, List.map_id']

theorem shortName_iff (name : List UInt8) :
    (shortName name).map upper = name.map upper ↔ Fits83 name := by
  have hname := joinDot_split name
  rcases hsplit : splitLastDot name with ⟨base, ext⟩
  rw [hsplit] at hname
  unfold shortName Fits83
  rw [hsplit]
  dsimp only
  rw [← hname]
  have hle := (untilBlank_initial 8 (base.map upper)).length_le
  cases ext with
  | none =>
    rw [if_pos (by rfl), map_upper_untilBlank, joinDot, fits_upper]
    simp
  | some x =>
    have hdot : (joinDot (base, some x)).map upper = base.map upper ++ 0x2E :: x.map upper := by
      rw [joinDot, List.map_append]
      rfl
    rw [hdot, Option.getD_some]
    split
    · rename_i hblank
      rw [map_upper_untilBlank]
      constructor
      · intro h
        have := congrArg List.length h
        rw [List.length_append, List.length_cons] at this
        omega
      · rintro ⟨-, -, hext⟩
        obtain ⟨hne, -, hno⟩ := hext x rfl
        obtain ⟨c, y, rfl⟩ := List.exists_cons_of_ne_nil hne
        exact absurd ((upper_eq_iff (.inl (by decide))).mp hblank ▸ List.mem_cons_self ..) hno
    · rename_i hblank
      have hle' := (untilBlank_initial 3 (x.map upper)).length_le
      have hne : x ≠ [] := by
        rintro rfl
        exact hblank rfl
      rw [List.map_append, List.map_cons, map_upper_untilBlank, map_upper_untilBlank,
        show upper 0x2E = 0x2E from rfl]
      constructor
      · intro h
        have hlen := congrArg List.length h
        simp only [List.length_append, List.length_cons] at hlen
        obtain ⟨h1, h2⟩ := List.append_inj h (by omega)
        have h3 := (fits_upper 3 x).mp (List.cons.inj h2).2
        have h4 := (fits_upper 8 base).mp h1
        refine ⟨h4.1, h4.2, fun e he => ?_⟩
        obtain rfl := Option.some.inj he
        exact ⟨hne, h3.1, h3.2⟩
      · rintro ⟨h1, h2, hext⟩
        obtain ⟨-, h3, h4⟩ := hext x rfl
        rw [(fits_upper 8 base).mpr ⟨h1, h2⟩, (fits_upper 3 x).mpr ⟨h3, h4⟩]

theorem splitLastDot_subset (name : List UInt8) :
    (∀ c ∈ (splitLastDot name).1, c ∈ name) ∧ ∀ c ∈ (splitLastDot name).2.getD [], c ∈ name := by
  have hname := joinDot_split name
  rcases hsplit : splitLastDot name with ⟨base, ext⟩
  rw [hsplit] at hname
  rw [← hname]
  cases ext with
  | none => exact ⟨fun c hc => hc, fun c hc => by cases hc⟩
  | some x =>
    exact ⟨fun c hc => List.mem_append_left _ hc,
      fun c hc => List.mem_append_right _ (List.mem_cons_of_mem _ hc)⟩

theorem upper_ne_zero {c : UInt8} (h : c ≠ 0) : upper c ≠ 0 :=
  fun hu => h ((upper_eq_iff (.inl (by decide))).mp hu)

theorem shortName_cString (h : isCString name) : isCString (shortName name) := by
  obtain ⟨hbase, hext⟩ := splitLastDot_subset name
  have hup : ∀ (n : Nat) (s : List UInt8), (∀ c ∈ s, c ∈ name) →
      ∀ c ∈ untilBlank ((s.map upper).take n), c ≠ 0 := by
    intro n s hs c hc
    obtain ⟨x, hx, rfl⟩ := List.mem_map.mp ((untilBlank_initial n (s.map upper)).subset hc)
    exact upper_ne_zero (h x (hs x hx))
  unfold shortName
  dsimp only
  split
  · exact hup 8 _ hbase
  · intro c hc
    rcases List.mem_append.mp hc with hc | hc
    · exact hup 8 _ hbase c hc
    · rcases List.mem_cons.mp hc with rfl | hc
      · decide
      · exact hup 3 _ hext c hc

theorem cString_eq (h : isCString name) : cString name = name :=
  List.takeWhile_eq_self_iff.mpr fun c hc => bne_iff_ne.mpr (h c hc)

theorem headD_padTo {n : Nat} (hn : 0 < n) (s : List UInt8) :
    (padTo n s).headD 0 = s.headD 0x20 := by
  obtain ⟨k, rfl⟩ := Nat.exists_eq_add_of_lt hn
  cases s with
  | nil => rfl
  | cons c s => rfl

theorem parse83Name_made (h : isCString name) (hs : readBytes s 11 0 = make83 name) :
    parse83Name s = shortName name := by
  have hbase : readBytes s 8 0 = padTo 8 ((splitLastDot name).1.map upper) :=
    calc readBytes s 8 0 = (readBytes s 11 0).take 8 := (readBytes_take s 11 0 8).symm
      _ = _ := by rw [hs, make83, List.take_left' (padTo_length ..)]
  have hext : readBytes s 3 8 = padTo 3 (((splitLastDot name).2.getD []).map upper) :=
    calc readBytes s 3 8 = (readBytes s 11 0).drop 8 :=
          (readBytes_drop s 0 (show 8 ≤ 11 by decide)).symm
      _ = _ := by rw [hs, make83, List.drop_left' (padTo_length ..)]
  have hdot : s 8 = (((splitLastDot name).2.getD []).map upper).headD 0x20 := by
    rw [← headD_padTo (show 0 < 3 by decide), ← hext]
    rfl
  have hres : (if s 8 != 0x20 then untilBlank (padTo 8 ((splitLastDot name).1.map upper)) ++
        0x2E :: untilBlank (padTo 3 (((splitLastDot name).2.getD []).map upper))
      else untilBlank (padTo 8 ((splitLastDot name).1.map upper))) = shortName name := by
    rw [untilBlank_padTo, untilBlank_padTo, hdot]
    unfold shortName
    simp only [bne_iff_ne, ne_eq, ite_not]
  have hparse := congrArg cString hres
  rw [cString_eq (shortName_cString h), ← hbase, ← hext] at hparse
  exact hparse

theorem readBytes_newSlot {attr : UInt8} {cluster size : Nat} :
    readBytes (slotBytes (newSlot name attr cluster size)) 11 0 = make83 name := by
  refine List.ext_getElem (by rw [readBytes_length, make83_length]) fun j h1 h2 => ?_
  rw [readBytes_length] at h1
  simp only [readBytes, List.getElem_map, List.getElem_range]
  rw [Nat.zero_add, slotBytes_name h1, List.getD_eq_getElem _ _ h2]

theorem parse83Name_newSlot {attr : UInt8} {cluster size : Nat} (h : isCString name) :
    parse83Name (slotBytes (newSlot name attr cluster size)) = shortName name :=
  parse83Name_made h readBytes_newSlot

theorem newSlot_first {attr : UInt8} {cluster size : Nat} (h : isCString name) :
    slotBytes (newSlot name attr cluster size) 0 ≠ 0x00 ∧
      (slotBytes (newSlot name attr cluster size) 0 = 0xE5 ↔ name.head? = some 0xE5) := by
  have hname := joinDot_split name
  have hfirst : slotBytes (newSlot name attr cluster size) 0 =
      ((splitLastDot name).1.map upper).headD 0x20 := by
    rw [slotBytes_name (by decide), make83, List.getD_append _ _ _ _ (by rw [padTo_length]; decide)]
    cases (splitLastDot name).1.map upper with
    | nil => rfl
    | cons c x => rfl
  rw [hfirst]
  rcases hsplit : splitLastDot name with ⟨base, ext⟩
  rw [hsplit] at hname
  dsimp only
  cases base with
  | nil =>
    refine ⟨by decide, fun h => absurd h (by decide), fun h => ?_⟩
    rw [← hname] at h
    cases ext with
    | none => cases h
    | some x => exact absurd (Option.some.inj h) (by decide)
  | cons c base =>
    have hhead : name.head? = some c := by
      rw [← hname]
      cases ext with
      | none => rfl
      | some x => rfl
    rw [hhead]
    refine ⟨upper_ne_zero (h c (List.mem_of_mem_head? hhead)), ?_⟩
    rw [Option.some.injEq]
    exact upper_eq_iff (.inr (by decide))

theorem names_newSlot {attr : UInt8} {cluster size : Nat} (h : isCString name)
    (ha : hasAttr attr attrVolumeId = false) :
    Names (slotBytes (newSlot name attr cluster size)) ↔ name.head? ≠ some 0xE5 := by
  obtain ⟨h0, h5⟩ := @newSlot_first name attr cluster size h
  unfold Names
  rw [slotAttr_newSlot, ne_eq, ne_eq, h5]
  exact ⟨fun h => h.2.1, fun h => ⟨h0, h, ha⟩⟩

theorem isDots_iff {s : List UInt8} (hs : isCString s) :
    isDots s = true ↔ s = dotName ∨ s = dotdotName := by
  have h1 : isCString dotName := by simp [isCString, dotName]
  have h2 : isCString dotdotName := by simp [isCString, dotdotName]
  simp [isDots, kstrcmp_eq_zero hs h1, kstrcmp_eq_zero hs h2]

theorem dots_of_upper (h : name.map upper = dotName.map upper ∨
    name.map upper = dotdotName.map upper) : name = dotName ∨ name = dotdotName := by
  have hdot : ∀ c : UInt8, upper c = 0x2E ↔ c = 0x2E := fun c => upper_eq_iff (.inl (by decide))
  refine h.imp (fun h => ?_) (fun h => ?_)
  · obtain ⟨c, t, rfl, hc, ht⟩ := List.map_eq_cons_iff.mp h
    rw [(hdot c).mp hc, List.map_eq_nil_iff.mp ht]
    rfl
  · obtain ⟨c, t, rfl, hc, ht⟩ := List.map_eq_cons_iff.mp h
    obtain ⟨d, t, rfl, hd, ht⟩ := List.map_eq_cons_iff.mp ht
    rw [(hdot c).mp hc, (hdot d).mp hd, List.map_eq_nil_iff.mp ht]
    rfl

theorem not_fits_dots (h : name = dotName ∨ name = dotdotName) : ¬Fits83 name := by
  rintro ⟨-, -, hext⟩
  rcases h with rfl | rfl
  · exact (hext [] rfl).1 rfl
  · exact (hext [] rfl).1 rfl

-- Where no long name stands before it, the new entry answers to its name just when that fits.
theorem shortName_skipped (h : isCString name) :
    ¬(isDots (shortName name) = true ∨ kstricmp (shortName name) name ≠ 0) ↔ Fits83 name := by
  rw [not_or, not_not, kstricmp_eq_zero (shortName_cString h) h, shortName_iff,
    isDots_iff (shortName_cString h)]
  refine and_iff_right_of_imp fun hfit hd => ?_
  have hup := (shortName_iff name).mpr hfit
  refine not_fits_dots (dots_of_upper ?_) hfit
  rw [← hup]
  exact hd.imp (congrArg _) (congrArg _)

end Short

end Fat32
