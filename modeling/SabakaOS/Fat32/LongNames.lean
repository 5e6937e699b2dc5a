import SabakaOS.Fat32.CreateFind

namespace Fat32

open Word ByteMemory Prog Chain

-- A blank at the end of a field is padding, a blank inside is a character of the name.
structure DosName where
  base : List UInt8
  ext : List UInt8
  base_length : base.length ≤ 8
  ext_length : ext.length ≤ 3
  base_chars : isCString base
  ext_chars : isCString ext
  base_trimmed : base.getLast? ≠ some 0x20
  ext_trimmed : ext.getLast? ≠ some 0x20
  used : base.head? ≠ some 0xE5

def DosName.full (n : DosName) : List UInt8 :=
  if n.ext = [] then n.base else n.base ++ 0x2E :: n.ext

structure ShortEntry where
  slot : Slot
  name : DosName
  base : readBytes slot 8 0 = padTo 8 name.base
  ext : readBytes slot 3 8 = padTo 3 name.ext
  file : hasAttr (slotAttr slot) attrVolumeId = false

structure LongName where
  name : List UInt8
  ne : name ≠ []
  length : name.length ≤ 255
  printable : ∀ c ∈ name, 0x20 ≤ c ∧ c ≤ 0x7E

namespace LongName

def char (n : LongName) (i : Nat) : Nat :=
  if h : i < n.name.length then n.name[i].toNat
  else if i = n.name.length then 0x0000 else 0xFFFF

def parts (n : LongName) : Nat := (n.name.length + 12) / 13

def fragment (n : LongName) (j : Nat) : List Nat := (List.range 13).map fun i => n.char (13 * j + i)

def order (n : LongName) (j : Nat) : UInt8 :=
  UInt8.ofNat (if j + 1 = n.parts then 0x40 + (j + 1) else j + 1)

end LongName

-- The last fragment comes first.
structure LongRun (n : LongName) where
  slots : List Slot
  order : slots.map (· 0) = ((List.range n.parts).map n.order).reverse
  chars : slots.map lfnChars = ((List.range n.parts).map n.fragment).reverse
  attr : ∀ s ∈ slots, slotAttr s = attrLfn

inductive Item where
  | deleted (slot : Slot) (h : slot 0 = 0xE5)
  | label (slot : Slot) (used : ¬SlotFree slot) (short : slotAttr slot ≠ attrLfn)
      (h : hasAttr (slotAttr slot) attrVolumeId = true)
  | short (e : ShortEntry)
  | long (n : LongName) (run : LongRun n) (e : ShortEntry)

def Item.slots : Item → List Slot
  | .deleted s _ => [s]
  | .label s _ _ _ => [s]
  | .short e => [e.slot]
  | .long _ run e => run.slots ++ [e.slot]

def ShortEntry.named (e : ShortEntry) (name : List UInt8) (dirCluster k : Nat) : Fat32Entry where
  name := name
  attr := slotAttr e.slot
  cluster := slotCluster e.slot
  size := slotSize e.slot
  dirCluster := dirCluster
  dirIndex := k

-- The live entry of an item whose first slot is number k.
def Item.live (dirCluster k : Nat) : Item → Option Fat32Entry
  | .deleted _ _ => none
  | .label _ _ _ _ => none
  | .short e => some (e.named e.name.full dirCluster k)
  | .long n run e => some (e.named n.name dirCluster (k + run.slots.length))

def liveEntries (dirCluster : Nat) : Nat → List Item → List Fat32Entry
  | _, [] => []
  | k, it :: items =>
    (it.live dirCluster k).toList ++ liveEntries dirCluster (k + it.slots.length) items

def DosName.Solid (n : DosName) : Prop := 0x20 ∉ n.base ∧ 0x20 ∉ n.ext

-- The slot behind a long name may have any name.
def Item.Solid : Item → Prop
  | .short e => e.name.Solid
  | _ => True

section Fragments

variable {n : LongName}

theorem range_blocks {α : Type} (f : Nat → α) (m k : Nat) :
    (List.range k).flatMap (fun j => (List.range m).map fun i => f (m * j + i)) =
      (List.range (m * k)).map f := by
  induction k with
  | zero => rfl
  | succ k ih =>
    rw [List.range_succ, List.flatMap_append, ih, Nat.mul_succ, List.range_add, List.map_append]
    simp

theorem LongName.length_le (n : LongName) : n.name.length ≤ 13 * n.parts := by
  unfold LongName.parts
  omega

theorem LongName.parts_le (n : LongName) : n.parts ≤ 20 := by
  have := n.length
  unfold LongName.parts
  omega

theorem LongName.chars_take (n : LongName) :
    (List.range n.name.length).map n.char = n.name.map UInt8.toNat := by
  refine List.ext_getElem (by simp) fun i h1 h2 => ?_
  have hi : i < n.name.length := by simpa using h1
  simp [LongName.char, hi]

theorem LongName.chars_end (n : LongName) :
    ((List.range (13 * n.parts)).map n.char).takeWhile (fun c => c != 0xFFFF && c != 0) =
      n.name.map UInt8.toNat := by
  obtain ⟨k, hk⟩ := Nat.exists_eq_add_of_le n.length_le
  rw [hk, List.range_add, List.map_append, n.chars_take]
  have hname : ∀ c ∈ n.name.map UInt8.toNat, (c != 0xFFFF && c != 0) = true := by
    intro c hc
    obtain ⟨x, hx, rfl⟩ := List.mem_map.mp hc
    have h20 : 0x20 ≤ x.toNat := UInt8.le_iff_toNat_le.mp (n.printable x hx).1
    have hlt := x.toNat_lt
    simp only [Bool.and_eq_true, bne_iff_ne]
    omega
  rw [List.takeWhile_append_of_pos hname]
  cases k with
  | zero => exact List.append_nil _
  | succ k =>
    rw [List.range_succ_eq_map, List.map_cons, List.map_cons]
    simp [LongName.char]

theorem ucs2ToAscii_printable {c : UInt8} (h : 0x20 ≤ c ∧ c ≤ 0x7E) :
    ucs2ToAscii c.toNat = c := by
  have h1 : 0x20 ≤ c.toNat := UInt8.le_iff_toNat_le.mp h.1
  have h2 : c.toNat ≤ 0x7E := UInt8.le_iff_toNat_le.mp h.2
  rw [ucs2ToAscii, if_pos ⟨h1, h2⟩, UInt8.ofNat_toNat]

theorem lfnCollect_run (run : LongRun n) : lfnCollect run.slots.reverse = n.name := by
  have hchars : run.slots.reverse.flatMap lfnChars = (List.range (13 * n.parts)).map n.char := by
    rw [List.flatMap_def, List.map_reverse, run.chars, List.reverse_reverse, ← List.flatMap_def]
    exact range_blocks n.char 13 n.parts
  unfold lfnCollect
  rw [hchars, n.chars_end, List.take_of_length_le (by simpa using n.length), List.map_map]
  refine (List.map_congr_left fun c hc => ?_).trans (List.map_id _)
  exact ucs2ToAscii_printable (n.printable c hc)

theorem LongName.order_used (n : LongName) {j : Nat} (hj : j < n.parts) :
    n.order j ≠ 0x00 ∧ n.order j ≠ 0xE5 := by
  have hparts := n.parts_le
  have hval : (n.order j).toNat = if j + 1 = n.parts then 0x40 + (j + 1) else j + 1 := by
    rw [LongName.order, UInt8.toNat_ofNat']
    split <;> omega
  constructor
  · intro h
    rw [h] at hval
    change 0 = _ at hval
    split at hval <;> omega
  · intro h
    rw [h] at hval
    change 0xE5 = _ at hval
    split at hval <;> omega

theorem LongRun.used (run : LongRun n) : ∀ s ∈ run.slots, s 0 ≠ 0x00 ∧ s 0 ≠ 0xE5 := by
  intro s hs
  have hmem : s 0 ∈ ((List.range n.parts).map n.order).reverse := by
    rw [← run.order]
    exact List.mem_map_of_mem hs
  obtain ⟨j, hj, he⟩ := List.mem_map.mp (List.mem_reverse.mp hmem)
  rw [← he]
  exact n.order_used (List.mem_range.mp hj)

theorem LongRun.length (run : LongRun n) : run.slots.length = n.parts := by
  simpa using congrArg List.length run.order

theorem LongRun.ne_nil (run : LongRun n) : run.slots.reverse ≠ [] := by
  intro h
  have hlen := run.length
  rw [List.reverse_eq_nil_iff.mp h] at hlen
  have hname := n.length_le
  have hpos := List.length_pos_iff.mpr n.ne
  rw [← hlen, List.length_nil] at hname
  omega

end Fragments

section Names83

theorem ShortEntry.dot (e : ShortEntry) : e.slot 8 = e.name.ext.headD 0x20 := by
  have hhead := congrArg (fun l : List UInt8 => l.headD 0) e.ext
  have hread : (readBytes e.slot 3 8).headD 0 = e.slot 8 := rfl
  rw [hread] at hhead
  rw [hhead]
  cases h : e.name.ext with
  | nil => rfl
  | cons c ext => rfl

theorem ShortEntry.names (e : ShortEntry) : Names e.slot := by
  have hhead := congrArg (fun l : List UInt8 => l.headD 0) e.base
  have hread : (readBytes e.slot 8 0).headD 0 = e.slot 0 := rfl
  rw [hread] at hhead
  have hchars := e.name.base_chars
  have hused := e.name.used
  refine ⟨?_, ?_, e.file⟩
  · rw [hhead]
    cases hbase : e.name.base with
    | nil => decide
    | cons c base => exact hchars c (by simp [hbase])
  · rw [hhead]
    cases hbase : e.name.base with
    | nil => decide
    | cons c base =>
      rintro rfl
      exact hused (by rw [hbase]; rfl)

theorem ShortEntry.parsed (e : ShortEntry) : parse83Name e.slot =
    if e.name.ext.headD 0x20 = 0x20 then untilBlank e.name.base
    else untilBlank e.name.base ++ 0x2E :: untilBlank e.name.ext := by
  have hbase : untilBlank (readBytes e.slot 8 0) = untilBlank e.name.base := by
    rw [e.base, untilBlank_padTo, List.take_of_length_le e.name.base_length]
  have hext : untilBlank (readBytes e.slot 3 8) = untilBlank e.name.ext := by
    rw [e.ext, untilBlank_padTo, List.take_of_length_le e.name.ext_length]
  have hchars : ∀ l : List UInt8, isCString l → ∀ c ∈ untilBlank l, c ≠ 0 :=
    fun l hl c hc => hl c ((List.takeWhile_prefix _).subset hc)
  change cString (if e.slot 8 != 0x20 then untilBlank (readBytes e.slot 8 0) ++
    0x2E :: untilBlank (readBytes e.slot 3 8) else untilBlank (readBytes e.slot 8 0)) = _
  rw [hbase, hext, e.dot]
  simp only [bne_iff_ne, ne_eq, ite_not]
  refine cString_eq ?_
  split
  · exact hchars _ e.name.base_chars
  · intro c hc
    rcases List.mem_append.mp hc with hc | hc
    · exact hchars _ e.name.base_chars c hc
    · rcases List.mem_cons.mp hc with rfl | hc
      · decide
      · exact hchars _ e.name.ext_chars c hc

theorem untilBlank_eq (s : List UInt8) : untilBlank s = s ↔ 0x20 ∉ s := by
  have h := untilBlank_eq_iff s.length s
  rw [List.take_length] at h
  exact h.trans (and_iff_right le_rfl)

theorem untilBlank_length (s : List UInt8) : (untilBlank s).length ≤ s.length :=
  (List.takeWhile_prefix _).length_le

theorem ShortEntry.parsed_iff (e : ShortEntry) :
    parse83Name e.slot = e.name.full ↔ e.name.Solid := by
  rw [e.parsed, DosName.full, DosName.Solid, ← untilBlank_eq, ← untilBlank_eq]
  cases hext : e.name.ext with
  | nil => simp [untilBlank]
  | cons c ext =>
    have hbase := untilBlank_length e.name.base
    rw [List.headD_cons, if_neg (List.cons_ne_nil c ext)]
    split
    · rename_i hblank
      constructor
      · intro h
        have := congrArg List.length h
        rw [List.length_append, List.length_cons] at this
        omega
      · rintro ⟨-, h⟩
        rw [hblank] at h
        cases h
    · constructor
      · intro h
        have hlen := congrArg List.length h
        have hle := untilBlank_length (c :: ext)
        simp only [List.length_append, List.length_cons] at hlen hle
        obtain ⟨h1, h2⟩ := List.append_inj h (by omega)
        exact ⟨h1, (List.cons.inj h2).2⟩
      · rintro ⟨h1, h2⟩
        rw [h1, h2]

end Names83

section Listing

variable {dirCluster k : Nat} {lfns slots rest : List Slot}

theorem entries_run (h : ∀ s ∈ slots, s 0 ≠ 0x00 ∧ s 0 ≠ 0xE5 ∧ slotAttr s = attrLfn)
    (hlen : lfns.length + slots.length ≤ 20) :
    entries dirCluster (slots ++ rest) k lfns =
      entries dirCluster rest (k + slots.length) (slots.reverse ++ lfns) := by
  induction slots generalizing k lfns with
  | nil => rfl
  | cons s slots ih =>
    obtain ⟨h0, h5, ha⟩ := h s (by simp)
    rw [List.length_cons] at hlen
    rw [List.cons_append, entries_skip h0 (not_names_lfn ha), pending, if_pos ⟨h5, ha⟩,
      if_pos (by omega), ih (fun t ht => h t (by simp [ht])) (by rw [List.length_cons]; omega),
      List.reverse_cons, List.append_assoc, List.length_cons, Nat.add_comm slots.length,
      Nat.add_assoc]
    rfl

-- What the driver makes of an item.
def Item.listed (dirCluster k : Nat) : Item → Option Fat32Entry
  | .short e => some (e.named (parse83Name e.slot) dirCluster k)
  | it => it.live dirCluster k

def listedEntries (dirCluster : Nat) : Nat → List Item → List Fat32Entry
  | _, [] => []
  | k, it :: items =>
    (it.listed dirCluster k).toList ++ listedEntries dirCluster (k + it.slots.length) items

theorem entries_item (it : Item) : entries dirCluster (it.slots ++ rest) k [] =
    (it.listed dirCluster k).toList ++ entries dirCluster rest (k + it.slots.length) [] := by
  cases it with
  | deleted s h =>
    have h0 : s 0 ≠ 0x00 := by
      rw [h]
      decide
    have hskip := @entries_skip dirCluster k [] s h0 (fun hn => hn.2.1 h) rest
    rwa [pending, if_neg (fun hp => hp.1 h)] at hskip
  | label s used short h =>
    have hn : ¬Names s := fun hn => by cases h.symm.trans hn.2.2
    have hskip := @entries_skip dirCluster k [] s (fun h0 => used (.inl h0)) hn rest
    rwa [pending, if_neg (fun hp => short hp.2)] at hskip
  | short e => exact entries_names e.names rest
  | long n run e =>
    have hlen : ([] : List Slot).length + run.slots.length ≤ 20 := by
      rw [run.length]
      simpa using n.parts_le
    have hslots : ∀ s ∈ run.slots, s 0 ≠ 0x00 ∧ s 0 ≠ 0xE5 ∧ slotAttr s = attrLfn :=
      fun s hs => ⟨(run.used s hs).1, (run.used s hs).2, run.attr s hs⟩
    rw [Item.slots, List.append_assoc, entries_run hslots hlen, List.append_nil,
      List.singleton_append, entries_names e.names, entryOf, slotName, if_pos run.ne_nil,
      lfnCollect_run, List.length_append, ← Nat.add_assoc]
    rfl

theorem entries_items (items : List Item) (hrest : rest = [] ∨ ∃ s more, rest = s :: more ∧ s 0 = 0) :
    entries dirCluster (items.flatMap Item.slots ++ rest) k [] =
      listedEntries dirCluster k items := by
  induction items generalizing k with
  | nil =>
    rcases hrest with rfl | ⟨s, more, rfl, h0⟩
    · rfl
    · exact entries_end h0 more
  | cons it items ih =>
    rw [List.flatMap_cons, List.append_assoc, entries_item, ih, listedEntries]

theorem Item.listed_iff (it : Item) :
    it.listed dirCluster k = it.live dirCluster k ↔ it.Solid := by
  cases it with
  | short e =>
    rw [Item.listed, Item.live, Item.Solid, ← e.parsed_iff, Option.some.injEq]
    exact ⟨fun h => congrArg Fat32Entry.name h, fun h => by rw [h]⟩
  | deleted s h => exact ⟨fun _ => trivial, fun _ => rfl⟩
  | label s used short h => exact ⟨fun _ => trivial, fun _ => rfl⟩
  | long n run e => exact ⟨fun _ => trivial, fun _ => rfl⟩

theorem Item.listed_length (it : Item) :
    (it.listed dirCluster k).toList.length = (it.live dirCluster k).toList.length := by
  cases it with
  | _ => rfl

theorem toList_inj {α : Type} {a b : Option α} (h : a.toList = b.toList) : a = b := by
  rw [← Option.head?_toList (o := a), h, Option.head?_toList]

theorem listedEntries_iff (items : List Item) :
    listedEntries dirCluster k items = liveEntries dirCluster k items ↔ ∀ it ∈ items, it.Solid := by
  induction items generalizing k with
  | nil => simp [listedEntries, liveEntries]
  | cons it items ih =>
    rw [listedEntries, liveEntries, List.forall_mem_cons, ← @Item.listed_iff dirCluster k, ← ih]
    constructor
    · intro h
      obtain ⟨h1, h2⟩ := List.append_inj h it.listed_length
      exact ⟨toList_inj h1, h2⟩
    · rintro ⟨h1, h2⟩
      rw [h1, h2]

theorem lookup_inj {a b : Option Fat32Entry} (h : lookup a = lookup b) : a = b := by
  cases a with
  | none =>
    cases b with
    | none => rfl
    | some y => cases h
  | some x =>
    cases b with
    | none => cases h
    | some y => exact congrArg some (Except.ok.inj h)

end Listing

section Decoded

variable {N dirCluster fuel e : Nat} {w : World} {l : List Nat} {items : List Item}
  {rest : List Slot}

theorem readdir_listed (hm : MountedAt N w) (hcalm : Calm w)
    (hl : Link N (volume N w) e (dirHead w.mount dirCluster) l)
    (hslots : dirSlots (volume N w) (entriesPerClust w.mount) l =
      items.flatMap Item.slots ++ rest)
    (hend : (e = fat32Eof ∧ rest = []) ∨ ∃ s more, rest = s :: more ∧ s 0 = 0x00)
    (hfuel : l.length < fuel) (i : Nat) :
    ∃ w', fat32Readdir fuel dirCluster i w =
      (some (lookup (listedEntries dirCluster 0 items)[i]?), w') := by
  have hlist : listing (volume N w) (entriesPerClust w.mount) dirCluster l =
      listedEntries dirCluster 0 items := by
    rw [listing, hslots, entries_items items (hend.imp_left And.right)]
  have hwithin : Within (volume N w) (entriesPerClust w.mount) dirCluster i e l scanStart := by
    rcases hend with ⟨he, -⟩ | ⟨s, more, rfl, h0⟩
    · exact .inl he
    · refine .inr (.inl ⟨s, ?_, h0⟩)
      rw [hslots]
      simp
  have hg := hm.good (legal_any w.trace)
  have hruns := @fat32Readdir_runs (worldEnv N w anyRule) w dirCluster i e fuel l hm.lawful hg
    loose_any.opens hl hwithin
  obtain ⟨r, w', hrun, -, -, hr⟩ := (hruns.mono (fun _ _ h => h)
    (fun _ h => absurd h.2 (Nat.not_le.mpr hfuel))).ends
  have hr := hr.resolve_right (fun h => hcalm.no_listFails h.2)
  exact ⟨w', by rw [hrun, hr, ← hlist]; rfl⟩

theorem directory_decoded (hm : MountedAt N w) (hcalm : Calm w)
    (hl : Link N (volume N w) e (dirHead w.mount dirCluster) l)
    (hslots : dirSlots (volume N w) (entriesPerClust w.mount) l =
      items.flatMap Item.slots ++ rest)
    (hend : (e = fat32Eof ∧ rest = []) ∨ ∃ s more, rest = s :: more ∧ s 0 = 0x00)
    (hfuel : l.length < fuel) :
    (∀ i, ∃ w', fat32Readdir fuel dirCluster i w =
      (some (lookup (liveEntries dirCluster 0 items)[i]?), w')) ↔ ∀ it ∈ items, it.Solid := by
  have hlisted := readdir_listed hm hcalm hl hslots hend hfuel
  rw [← @listedEntries_iff dirCluster 0]
  constructor
  · intro h
    refine List.ext_getElem? fun i => lookup_inj ?_
    obtain ⟨w1, h1⟩ := hlisted i
    obtain ⟨w2, h2⟩ := h i
    exact Option.some.inj (congrArg Prod.fst (h1.symm.trans h2))
  · intro h
    rwa [← h]

-- Cluster 2, the root directory, begins with the given slots.
def rootWorld (slots : List UInt8) : World :=
  diskWorld (writeBytes freshDisk 1536 slots) (fun _ _ _ => true)

def rootSlot (slots : List UInt8) (i : Nat) : Slot := slotAt (volume 5 (rootWorld slots)) (2, i)

def rootRest (slots : List UInt8) (i n : Nat) : List Slot := (List.range' i n).map (rootSlot slots)

-- "index.html", behind which there is the slot of "INDEX~1.HTM".
def htmlName : LongName where
  name := [0x69, 0x6E, 0x64, 0x65, 0x78, 0x2E, 0x68, 0x74, 0x6D, 0x6C]
  ne := by decide
  length := by decide
  printable := by simp

def htmlSlots : List UInt8 :=
  [0x41, 0x69, 0, 0x6E, 0, 0x64, 0, 0x65, 0, 0x78, 0, 0x0F, 0, 0x2C, 0x2E, 0, 0x68, 0, 0x74, 0,
    0x6D, 0, 0x6C, 0, 0, 0, 0, 0, 0xFF, 0xFF, 0xFF, 0xFF] ++
  newSlot [0x49, 0x4E, 0x44, 0x45, 0x58, 0x7E, 0x31, 0x2E, 0x48, 0x54, 0x4D] attrArchive 3 20

def htmlRun : LongRun htmlName where
  slots := [rootSlot htmlSlots 0]
  order := by decide +kernel
  chars := by decide +kernel
  attr := by decide +kernel

def htmlShort : DosName where
  base := [0x49, 0x4E, 0x44, 0x45, 0x58, 0x7E, 0x31]
  ext := [0x48, 0x54, 0x4D]
  base_length := by decide
  ext_length := by decide
  base_chars := by simp [isCString]
  ext_chars := by simp [isCString]
  base_trimmed := by decide
  ext_trimmed := by decide
  used := by decide

theorem htmlSlot_base : readBytes (rootSlot htmlSlots 1) 8 0 = padTo 8 htmlShort.base := by
  decide +kernel

theorem htmlSlot_ext : readBytes (rootSlot htmlSlots 1) 3 8 = padTo 3 htmlShort.ext := by
  decide +kernel

theorem htmlSlot_file : hasAttr (slotAttr (rootSlot htmlSlots 1)) attrVolumeId = false := by
  decide +kernel

def htmlEntry : ShortEntry where
  slot := rootSlot htmlSlots 1
  name := htmlShort
  base := htmlSlot_base
  ext := htmlSlot_ext
  file := htmlSlot_file

theorem root_chain {slots : List UInt8} (h : (volume 5 (rootWorld slots)).fat 2 = fat32Eof) :
    Link 5 (volume 5 (rootWorld slots)) fat32Eof (dirHead (rootWorld slots).mount 0) [2] :=
  root_link rfl h

theorem directory_decoded_html : (∀ i, ∃ w', fat32Readdir 2 0 i (rootWorld htmlSlots) =
      (some (lookup (liveEntries 0 0 [.long htmlName htmlRun htmlEntry])[i]?), w')) ↔
    ∀ it ∈ [Item.long htmlName htmlRun htmlEntry], it.Solid :=
  @directory_decoded 5 0 2 fat32Eof (rootWorld htmlSlots) [2] _ (rootRest htmlSlots 2 14)
    (disk_mounted ..) ⟨fun _ _ _ => rfl, fun _ _ => rfl⟩ (root_chain (by decide +kernel)) rfl
    (.inr ⟨rootSlot htmlSlots 2, rootRest htmlSlots 3 13, rfl, by decide +kernel⟩) (by decide)

-- The slot that fat32_create writes for "MY FILE.TXT".
def blankSlots : List UInt8 :=
  newSlot [0x4D, 0x59, 0x20, 0x46, 0x49, 0x4C, 0x45, 0x2E, 0x54, 0x58, 0x54] attrArchive 0 0

def blankEntry : ShortEntry where
  slot := rootSlot blankSlots 0
  name :=
    { base := [0x4D, 0x59, 0x20, 0x46, 0x49, 0x4C, 0x45]
      ext := [0x54, 0x58, 0x54]
      base_length := by decide
      ext_length := by decide
      base_chars := by simp [isCString]
      ext_chars := by simp [isCString]
      base_trimmed := by decide
      ext_trimmed := by decide
      used := by decide }
  base := by decide +kernel
  ext := by decide +kernel
  file := by decide +kernel

-- It is listed as "MY.TXT".
theorem directory_decoded_fails : ¬∀ (N dirCluster fuel e i : Nat) (w : World) (l : List Nat)
    (items : List Item) (rest : List Slot), MountedAt N w → Calm w →
    Link N (volume N w) e (dirHead w.mount dirCluster) l →
    dirSlots (volume N w) (entriesPerClust w.mount) l = items.flatMap Item.slots ++ rest →
    ((e = fat32Eof ∧ rest = []) ∨ ∃ s more, rest = s :: more ∧ s 0 = 0x00) → l.length < fuel →
    ∃ w', fat32Readdir fuel dirCluster i w =
      (some (lookup (liveEntries dirCluster 0 items)[i]?), w') := by
  intro h
  obtain ⟨w', hrun⟩ := h 5 0 2 fat32Eof 0 (rootWorld blankSlots) [2] [.short blankEntry]
    (rootRest blankSlots 1 15) (disk_mounted ..) ⟨fun _ _ _ => rfl, fun _ _ => rfl⟩
    (root_chain (by decide +kernel)) rfl
    (.inr ⟨rootSlot blankSlots 1, rootRest blankSlots 2 14, rfl, by decide +kernel⟩) (by decide)
  have hname : ((fat32Readdir 2 0 0 (rootWorld blankSlots)).1.map
      (fun r => r.toOption.map Fat32Entry.name)) =
      some (some [0x4D, 0x59, 0x2E, 0x54, 0x58, 0x54]) := by decide +kernel
  rw [hrun] at hname
  exact absurd (Option.some.inj (Option.some.inj hname))
    (show blankEntry.name.full ≠ [0x4D, 0x59, 0x2E, 0x54, 0x58, 0x54] by decide)

end Decoded

end Fat32
