import SabakaOS.Fat32.Mounted
import SabakaOS.Fat32.ShortNames
import SabakaOS.Fat32.SlotLists

namespace Fat32

open Word ByteMemory Prog Chain

section Listing

variable {dirCluster k : Nat} {lfns slots post : List Slot} {pre : List Fat32Entry} {s : Slot}
  {e : Fat32Entry} {E : Env} {name : List UInt8} {r : Except Int Fat32Entry}

theorem finds_slot (hf : E.Finds (pre ++ entries dirCluster (s :: post) k lfns) name r)
    (hno : ¬E.listFails) (hpre : ∀ e ∈ pre, Skipped name e) (hs : Names s)
    (hskip : ¬Skipped name (entryOf dirCluster k lfns s)) :
    r = .ok (entryOf dirCluster k lfns s) := by
  rw [entries_names hs] at hf
  cases r with
  | error c => exact absurd (hf.resolve_right hno _ (by simp)) hskip
  | ok f =>
    obtain ⟨i, hi, hbefore, hf⟩ := hf
    rcases Nat.lt_trichotomy i pre.length with hlt | rfl | hgt
    · rw [List.getElem?_append_left hlt] at hi
      exact absurd (hpre f (List.mem_of_getElem? hi)) hf
    · rw [List.getElem?_append_right le_rfl, Nat.sub_self] at hi
      exact congrArg _ (Option.some.inj hi).symm
    · refine absurd (hbefore _ ?_) hskip
      rw [List.take_append, List.mem_append]
      refine .inr (List.mem_of_getElem? (i := 0) ?_)
      rw [List.getElem?_take_of_lt (by omega)]
      rfl

theorem slot_of_finds (hf : E.Finds (pre ++ entries dirCluster (s :: post) k lfns) name (.ok e))
    (hpre : ∀ e ∈ pre, Skipped name e) (h0 : s 0 ≠ 0x00) (hk : e.dirIndex = k) :
    Names s ∧ ¬Skipped name (entryOf dirCluster k lfns s) := by
  obtain ⟨i, hi, -, hskip⟩ := hf
  have hlater : ∀ lfns', e ∉ entries dirCluster post (k + 1) lfns' := fun _ h => by
    have := le_dirIndex h
    omega
  have hmem := (List.mem_append.mp (List.mem_of_getElem? hi)).resolve_left
    (fun h => hskip (hpre e h))
  by_cases hn : Names s
  · rw [entries_names hn] at hmem
    rcases List.mem_cons.mp hmem with rfl | hmem
    · exact ⟨hn, hskip⟩
    · exact absurd hmem (hlater _)
  · rw [entries_skip h0 hn] at hmem
    exact absurd hmem (hlater _)

end Listing

-- The name under which a new entry is listed behind the long-name slots lfns is its own.
def Answers (lfns : List Slot) (name : List UInt8) : Prop :=
  name.head? ≠ some 0xE5 ∧
    if lfns = [] then Fits83 name
    else isDots (lfnCollect lfns) = false ∧ kstricmp (lfnCollect lfns) name = 0

section New

variable {name : List UInt8} {attr : UInt8} {cluster size dirCluster k : Nat} {lfns : List Slot}

theorem answers_iff (h : isCString name) (ha : hasAttr attr attrVolumeId = false) :
    Names (slotBytes (newSlot name attr cluster size)) ∧
      ¬Skipped name (entryOf dirCluster k lfns (slotBytes (newSlot name attr cluster size))) ↔
      Answers lfns name := by
  unfold Answers
  rw [names_newSlot h ha]
  refine and_congr_right fun _ => ?_
  unfold Skipped entryOf slotName
  dsimp only
  by_cases hl : lfns = []
  · rw [if_neg (not_not.mpr hl), if_pos hl, parse83Name_newSlot h]
    exact shortName_skipped h
  · rw [if_pos hl, if_neg hl, not_or, not_not, Bool.not_eq_true]

theorem slotSize_newSlot (hs : size < 2 ^ 32) :
    slotSize (slotBytes (newSlot name attr cluster size)) = size := by
  have hbyte := fun k hk => @slotBytes_tail name attr cluster size k hk
  have h28 : slotBytes (newSlot name attr cluster size) 28 = UInt8.ofNat size :=
    hbyte 17 (by decide)
  have h29 : slotBytes (newSlot name attr cluster size) 29 = UInt8.ofNat (size / 256) :=
    hbyte 18 (by decide)
  have h30 : slotBytes (newSlot name attr cluster size) 30 = UInt8.ofNat (size / 256 / 256) :=
    hbyte 19 (by decide)
  have h31 : slotBytes (newSlot name attr cluster size) 31 =
      UInt8.ofNat (size / 256 / 256 / 256) := hbyte 20 (by decide)
  simp only [slotSize, readLE, h28, h29, h30, h31, UInt8.toNat_ofNat']
  omega

end New

inductive Maker where
  | create
  | mkdir

def Maker.run : Maker → Nat → Nat → List UInt8 → Drv (Except Int Fat32Entry)
  | .create => fat32Create
  | .mkdir => fat32Mkdir

def Maker.op : Maker → Nat → List UInt8 → Op
  | .create => .create
  | .mkdir => .mkdir

-- fat32_find by the name comes back with the entry's slot, cluster, size and attribute.
def FoundAgain (fuel dirCluster : Nat) (name : List UInt8) (e : Fat32Entry) (w : World) : Prop :=
  ∃ f w', fat32Find fuel dirCluster name w = (some (.ok f), w') ∧ f.dirIndex = e.dirIndex ∧
    f.cluster = e.cluster ∧ f.size = e.size ∧ f.attr = e.attr

section Found

variable {E : Env} {V : Vol} {w : World} {dirCluster fuel : Nat} {l : List Nat}
  {name : List UInt8} {e : Fat32Entry}

theorem Env.Added.volumeId (hadd : E.Added V dirCluster name l e (E.vol w)) :
    hasAttr e.attr attrVolumeId = false := by
  rcases hadd.attr with h | h
  · rw [h]
    decide
  · rw [h]
    decide

theorem lead_used {epc : Nat} {s : Slot} (hs : s ∈ lead V epc l) : s 0 ≠ 0x00 :=
  fun h0 => lead_not_free hs (.inl h0)

theorem entries_lead {epc : Nat} {e' : Fat32Entry}
    (he : e' ∈ entries dirCluster (lead V epc l) 0 []) : e' ∈ listing V epc dirCluster l := by
  obtain ⟨rest, hrest⟩ := List.takeWhile_prefix (fun s : Slot => !decide (SlotFree s))
    (l := dirSlots V epc l)
  rw [listing, ← hrest]
  exact entries_append (fun s hs => lead_used hs) rest ▸ List.mem_append_left _ he

theorem Env.Added.found_iff (hE : E.Lawful) (hg : Good E w) (hloose : E.Loose)
    (hlist : ¬E.listFails) (hput : ¬E.fatFails .writeDirEntry)
    (hadd : E.Added V dirCluster name l e (E.vol w)) (hname : isCString name)
    (hfuel : E.turns < fuel) : FoundAgain fuel dirCluster name e w ↔
      Answers ((lead V (entriesPerClust E.mount) l).foldl pending []) name := by
  obtain ⟨hk, l', more, hl', hslots, -⟩ := hadd.listed hput
  have hentries : listing (E.vol w) (entriesPerClust E.mount) dirCluster l' =
      entries dirCluster (lead V (entriesPerClust E.mount) l) 0 [] ++
        entries dirCluster (slotBytes (newSlot name e.attr e.cluster 0) ::
            ((dirSlots V (entriesPerClust E.mount) l).drop (e.dirIndex + 1) ++ more)) e.dirIndex
          ((lead V (entriesPerClust E.mount) l).foldl pending []) := by
    rw [listing, hslots, entries_append (fun s hs => lead_used hs), Nat.zero_add, hk]
  have hpre : ∀ e' ∈ entries dirCluster (lead V (entriesPerClust E.mount) l) 0 [],
      Skipped name e' := fun e' he' => hadd.absent.resolve_right hlist e' (entries_lead he')
  have hturns := (turns_le hE.fits hl').2
  obtain ⟨r, w', hfind, -, -, hr⟩ := ((@fat32Find_runs E w dirCluster fuel l' name hE hg
    hloose.opens hl').mono (fun _ _ h => h)
    (fun _ h => absurd (h.2.trans hturns) (Nat.not_le.mpr hfuel))).ends
  rw [hentries] at hr
  rw [← @answers_iff name e.attr e.cluster 0 dirCluster e.dirIndex _ hname hadd.volumeId]
  constructor
  · rintro ⟨f, w2, hf, hidx, -⟩
    rw [hfind] at hf
    obtain rfl := Option.some.inj (congrArg Prod.fst hf)
    exact slot_of_finds hr hpre (newSlot_first hname).1 hidx
  · rintro ⟨hnames, hskip⟩
    obtain rfl := finds_slot hr hlist hpre hnames hskip
    have hcluster := @slotCluster_newSlot name e.attr e.cluster 0 hadd.cluster
    have hsize := @slotSize_newSlot name e.attr e.cluster 0 (Nat.two_pow_pos 32)
    refine ⟨_, w', hfind, rfl, hcluster, hsize.trans hadd.size.symm, ?_⟩
    rw [entryOf, slotAttr_newSlot]

end Found

section Made

variable {N dirCluster fuel fuel' : Nat} {w w' : World} {l : List Nat} {name : List UInt8}
  {e : Fat32Entry} {mk : Maker}

theorem Maker.run_added (hm : MountedAt N w) (hcalm : Calm w)
    (hc : Consistent w.mount N (volume N w))
    (hd : IsDir w.mount N (volume N w) (dirHead w.mount dirCluster))
    (hl : Link N (volume N w) fat32Eof (dirHead w.mount dirCluster) l)
    (hroom : (mk.op dirCluster name).Roomy (worldEnv N w anyRule) (volume N w))
    (hrun : mk.run fuel dirCluster name w = (some (.ok e), w')) :
    Good (worldEnv N w anyRule) w' ∧
      (worldEnv N w anyRule).Added (volume N w) dirCluster name l e
        ((worldEnv N w anyRule).vol w') := by
  obtain ⟨D, H, hs⟩ := hc
  have hdD := hs.isDir hm.fits.small hd
  have hg := hm.good (legal_any w.trace)
  cases mk with
  | create =>
    obtain ⟨hs', hmade⟩ := (fat32Create_runs hm.lawful hg loose_any (hs.valid (hs.dirs hdD)) hl
      ((hroom l hl).imp_right (Or.imp_right
        (fun h => ⟨h, hcalm.no_fatFails, hcalm.no_ataFails⟩)))).result hrun
    exact ⟨hs'.good, hmade.added hm.fits hs hdD hl⟩
  | mkdir =>
    obtain ⟨hs', hmade⟩ := (fat32Mkdir_runs hm.lawful hg loose_any hs hdD hl
      ((hroom l hl).imp_right (fun h => ⟨h, hcalm.no_fatFails, hcalm.no_ataFails,
        hcalm.no_ataFails, .inr hcalm.no_ataFails⟩))).result hrun
    exact ⟨hs'.good, hmade.added hm.fits hs hdD hl⟩

theorem made_found_iff (hm : MountedAt N w) (hcalm : Calm w)
    (hc : Consistent w.mount N (volume N w))
    (hd : IsDir w.mount N (volume N w) (dirHead w.mount dirCluster))
    (hl : Link N (volume N w) fat32Eof (dirHead w.mount dirCluster) l)
    (hroom : (mk.op dirCluster name).Roomy (worldEnv N w anyRule) (volume N w))
    (hname : isCString name) (hrun : mk.run fuel dirCluster name w = (some (.ok e), w'))
    (hfuel : N * entriesPerClust w.mount < fuel') :
    FoundAgain fuel' dirCluster name e w' ↔
      Answers ((lead (volume N w) (entriesPerClust w.mount) l).foldl pending []) name := by
  obtain ⟨hg, hadd⟩ := Maker.run_added hm hcalm hc hd hl hroom hrun
  exact hadd.found_iff hm.lawful hg loose_any hcalm.no_listFails hcalm.no_fatFails hname hfuel

-- The entry that create returns for a name in the empty root directory.
def freshEntry (name : List UInt8) : Fat32Entry where
  name := name
  attr := attrArchive
  cluster := 0
  size := 0
  dirCluster := 0
  dirIndex := 0

def freshCreated (name : List UInt8) : World := (fat32Create 100 0 name freshWorld).2

theorem fresh_created {name : List UInt8}
    (h : (fat32Create 100 0 name freshWorld).1 = some (.ok (freshEntry name))) :
    Maker.create.run 100 0 name freshWorld = (some (.ok (freshEntry name)), freshCreated name) := by
  rw [freshCreated, Maker.run, ← h]

theorem fresh_roomy (name : List UInt8) :
    (Maker.create.op 0 name).Roomy (worldEnv 5 freshWorld anyRule) (volume 5 freshWorld) :=
  create_roomy (k := 0) fresh_calm rfl fresh_link.2.2 (by decide +kernel) name

-- "A.TXT"
theorem made_found_short : FoundAgain 100 0 [0x41, 0x2E, 0x54, 0x58, 0x54]
      (freshEntry [0x41, 0x2E, 0x54, 0x58, 0x54]) (freshCreated [0x41, 0x2E, 0x54, 0x58, 0x54]) ↔
    Answers ((lead (volume 5 freshWorld) 16 [2]).foldl pending [])
      [0x41, 0x2E, 0x54, 0x58, 0x54] := by
  have hrun : (fat32Create 100 0 [0x41, 0x2E, 0x54, 0x58, 0x54] freshWorld).1 =
      some (.ok (freshEntry [0x41, 0x2E, 0x54, 0x58, 0x54])) := by decide +kernel
  exact made_found_iff (disk_mounted ..) fresh_calm fresh_consistent .root fresh_link
    (fresh_roomy _) (by simp [isCString]) (fresh_created hrun) (by decide)

-- "index.html" is listed as "INDEX.HTM".
theorem made_found_fails : ¬∀ (N dirCluster fuel fuel' : Nat) (w w' : World) (l : List Nat)
    (name : List UInt8) (e : Fat32Entry) (mk : Maker), MountedAt N w → Calm w →
    Consistent w.mount N (volume N w) →
    IsDir w.mount N (volume N w) (dirHead w.mount dirCluster) →
    Link N (volume N w) fat32Eof (dirHead w.mount dirCluster) l →
    (mk.op dirCluster name).Roomy (worldEnv N w anyRule) (volume N w) →
    isCString name → name ≠ [] → name.length ≤ 63 → 0x2F ∉ name →
    mk.run fuel dirCluster name w = (some (.ok e), w') →
    N * entriesPerClust w.mount < fuel' → FoundAgain fuel' dirCluster name e w' := by
  intro h
  have hrun : (fat32Create 100 0 [0x69, 0x6E, 0x64, 0x65, 0x78, 0x2E, 0x68, 0x74, 0x6D, 0x6C]
      freshWorld).1 = some (.ok (freshEntry
        [0x69, 0x6E, 0x64, 0x65, 0x78, 0x2E, 0x68, 0x74, 0x6D, 0x6C])) := by decide +kernel
  obtain ⟨f, w', hf, -⟩ := h 5 0 100 100 freshWorld _ [2] _ _ .create (disk_mounted ..) fresh_calm
    fresh_consistent .root fresh_link (fresh_roomy _) (by simp [isCString]) (by decide) (by decide)
    (by decide) (fresh_created hrun) (by decide)
  have hnone : (fat32Find 100 0 [0x69, 0x6E, 0x64, 0x65, 0x78, 0x2E, 0x68, 0x74, 0x6D, 0x6C]
      (freshCreated [0x69, 0x6E, 0x64, 0x65, 0x78, 0x2E, 0x68, 0x74, 0x6D, 0x6C])).1 =
      some (.error fat32ErrNoent) := by decide +kernel
  have hsome := congrArg Prod.fst hf
  cases hnone.symm.trans hsome

end Made

end Fat32
