import SabakaOS.Fat32.ShortNames

namespace Fat32

open ByteMemory

def Part (n : Nat) (s : List UInt8) : Prop :=
  s ≠ [] ∧ s.length ≤ n ∧ 0 ∉ s ∧ 0x20 ∉ s ∧ 0x2E ∉ s

instance (n : Nat) (s : List UInt8) : Decidable (Part n s) :=
  inferInstanceAs (Decidable (_ ∧ _ ∧ _ ∧ _ ∧ _))

inductive Name83 : List UInt8 → Prop
  | bare (base : List UInt8) (hbase : Part 8 base) : Name83 base
  | dotted (base ext : List UInt8) (hbase : Part 8 base) (hext : Part 3 ext) :
    Name83 (base ++ 0x2E :: ext)

section Split

variable {base ext : List UInt8}

theorem takeWhile_noDot {s : List UInt8} (h : 0x2E ∉ s) (t : List UInt8) :
    (s.reverse ++ t).takeWhile (· != 0x2E) = s.reverse ++ t.takeWhile (· != 0x2E) ∧
      (s.reverse ++ t).dropWhile (· != 0x2E) = t.dropWhile (· != 0x2E) := by
  have hall : ∀ c ∈ s.reverse, (c != 0x2E) = true := by
    intro c hc
    refine bne_iff_ne.mpr fun he => h ?_
    rw [← he]
    exact List.mem_reverse.mp hc
  exact ⟨List.takeWhile_append_of_pos hall, List.dropWhile_append_of_pos hall⟩

theorem splitLastDot_bare (h : 0x2E ∉ base) : splitLastDot base = (base, none) := by
  have hdrop := (takeWhile_noDot h []).2
  rw [List.append_nil] at hdrop
  rw [splitLastDot, hdrop]
  rfl

theorem splitLastDot_dotted (base : List UInt8) (h : 0x2E ∉ ext) :
    splitLastDot (base ++ 0x2E :: ext) = (base, some ext) := by
  obtain ⟨htake, hdrop⟩ := takeWhile_noDot h (0x2E :: base.reverse)
  have hrev : (base ++ 0x2E :: ext).reverse = ext.reverse ++ 0x2E :: base.reverse := by simp
  rw [splitLastDot, hrev, htake, hdrop]
  simp

theorem splitLastDot_upper (name : List UInt8) : splitLastDot (name.map upper) =
    ((splitLastDot name).1.map upper, (splitLastDot name).2.map (List.map upper)) := by
  have hdot : (fun c : UInt8 => c != 0x2E) ∘ upper = fun c => c != 0x2E := by
    funext c
    have hc : upper c = 0x2E ↔ c = 0x2E := upper_eq_iff (.inl (by decide))
    simp [bne, hc]
  unfold splitLastDot
  rw [← List.map_reverse, List.dropWhile_map, List.takeWhile_map, hdot]
  cases name.reverse.dropWhile (· != 0x2E) with
  | nil => rfl
  | cons d base => simp

end Split

section RoundTrip

variable {name a b : List UInt8} {s : Slot}

theorem Name83.cString (h : Name83 name) : isCString name := by
  cases h with
  | bare base hbase =>
    rintro c hc rfl
    exact hbase.2.2.1 hc
  | dotted base ext hbase hext =>
    rintro c hc rfl
    rcases List.mem_append.mp hc with hc | hc
    · exact hbase.2.2.1 hc
    · rcases List.mem_cons.mp hc with hc | hc
      · exact absurd hc (by decide)
      · exact hext.2.2.1 hc

theorem Name83.fits (h : Name83 name) : Fits83 name := by
  cases h with
  | bare base hbase =>
    rw [Fits83, splitLastDot_bare hbase.2.2.2.2]
    exact ⟨hbase.2.1, hbase.2.2.2.1, fun ext he => by cases he⟩
  | dotted base ext hbase hext =>
    rw [Fits83, splitLastDot_dotted base hext.2.2.2.2]
    refine ⟨hbase.2.1, hbase.2.2.2.1, fun e he => ?_⟩
    obtain rfl := Option.some.inj he
    exact ⟨hext.1, hext.2.1, hext.2.2.2.1⟩

theorem map_upper_shortName (name : List UInt8) : (shortName name).map upper = shortName name := by
  unfold shortName
  dsimp only
  split
  · exact map_upper_untilBlank 8 _
  · rw [List.map_append, List.map_cons, map_upper_untilBlank, map_upper_untilBlank]
    rfl

theorem map_upper_upper (name : List UInt8) : (name.map upper).map upper = name.map upper := by
  rw [List.map_map]
  exact List.map_congr_left fun c _ => upper_upper c

theorem make83_upper (name : List UInt8) : make83 (name.map upper) = make83 name := by
  unfold make83
  rw [splitLastDot_upper]
  rcases splitLastDot name with ⟨base, ext⟩
  dsimp only
  cases ext with
  | none =>
    rw [map_upper_upper]
    rfl
  | some ext =>
    rw [Option.map_some, Option.getD_some, Option.getD_some, map_upper_upper, map_upper_upper]

theorem Name83.parsed (h : Name83 name) (hs : readBytes s 11 0 = make83 name) :
    parse83Name s = name.map upper := by
  rw [parse83Name_made h.cString hs, ← (shortName_iff name).mpr h.fits, map_upper_shortName]

theorem name83_round_trip (ha : Name83 a) (hb : Name83 b) :
    (∀ s : Slot, readBytes s 11 0 = make83 a →
        parse83Name s = a.map upper ∧ kstricmp (parse83Name s) a = 0) ∧
      (make83 a = make83 b ↔ a.map upper = b.map upper) := by
  have hupper : isCString (a.map upper) := by
    intro c hc
    obtain ⟨x, hx, rfl⟩ := List.mem_map.mp hc
    exact upper_ne_zero (ha.cString x hx)
  refine ⟨fun s hs => ?_, fun h => ?_, fun h => ?_⟩
  · rw [ha.parsed hs]
    exact ⟨rfl, (kstricmp_eq_zero hupper ha.cString).mpr (map_upper_upper a)⟩
  · have hs := @readBytes_newSlot a 0 0 0
    rw [← ha.parsed hs, hb.parsed (hs.trans h)]
  · rw [← make83_upper a, h, make83_upper]

-- "readme.txt" in two spellings.
def readme : List UInt8 := [0x72, 0x65, 0x61, 0x64, 0x6D, 0x65] ++ 0x2E :: [0x74, 0x78, 0x74]

def readmeUpper : List UInt8 := [0x52, 0x45, 0x41, 0x44, 0x4D, 0x45] ++ 0x2E :: [0x54, 0x58, 0x54]

theorem name83_round_trip_readme :
    (∀ s : Slot, readBytes s 11 0 = make83 readme →
        parse83Name s = readme.map upper ∧ kstricmp (parse83Name s) readme = 0) ∧
      (make83 readme = make83 readmeUpper ↔ readme.map upper = readmeUpper.map upper) :=
  name83_round_trip (.dotted _ _ (by decide) (by decide)) (.dotted _ _ (by decide) (by decide))

end RoundTrip

end Fat32
