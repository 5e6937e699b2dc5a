import SabakaOS.Fat32.Placement

namespace Fat32

open Word ByteMemory Prog Chain

-- No entry of the directory has the name, as far as the search could see.
def Env.Absent (E : Env) (V : Vol) (dirCluster : Nat) (name : List UInt8) (l : List Nat) : Prop :=
  (∀ e ∈ listing V (entriesPerClust E.mount) dirCluster l, Skipped name e) ∨ E.listFails

def newEntry (dirCluster : Nat) (name : List UInt8) (attr : UInt8) (cluster rawIdx : Nat) :
    Fat32Entry where
  name := name
  attr := attr
  cluster := cluster
  size := 0
  dirCluster := dirCluster
  dirIndex := rawIdx

inductive Env.Created (E : Env) (V : Vol) (dirCluster : Nat) (name : List UInt8) (l : List Nat) :
    Except Int Fat32Entry → Vol → Prop
  | refused {c : Int} : E.Created V dirCluster name l (.error c) V
  | stored {r : Except Int Nat} {V' : Vol} : E.Absent V dirCluster name l →
      Placed E V (newSlot name attrArchive 0 0) 0 l r V' →
      E.Created V dirCluster name l (r.map (newEntry dirCluster name attrArchive 0)) V'

-- The entry e that create or mkdir has returned: no entry of the directory had its name, and its
-- slot is where the first free one was.
structure Env.Added (E : Env) (V : Vol) (dirCluster : Nat) (name : List UInt8) (l : List Nat)
    (e : Fat32Entry) (V' : Vol) : Prop where
  attr : e.attr = attrArchive ∨ e.attr = attrDirectory
  cluster : e.cluster < 2 ^ 32
  size : e.size = 0
  absent : E.Absent V dirCluster name l
  listed : ¬E.fatFails .writeDirEntry → Listed E.clusters (entriesPerClust E.mount) V l
    (slotBytes (newSlot name e.attr e.cluster 0)) (dirHead E.mount dirCluster) e.dirIndex V'

section Create

variable {E : Env} {w : World} {V V' : Vol} {D H : Set Nat} {dirCluster fuel n : Nat}
  {l : List Nat} {name : List UInt8}

theorem Env.Absent.not_taken (h : E.Absent V dirCluster name l) : ¬E.Taken V dirCluster name l := by
  rintro ⟨⟨e, he, hskip⟩, hno⟩
  exact h.elim (fun h => hskip (h e he)) hno

theorem fat32Create_runs (hE : E.Lawful) (hg : Good E w) (hloose : E.Loose)
    (hvalid : E.ok (dirHead E.mount dirCluster))
    (hl : Link E.clusters (E.vol w) fat32Eof (dirHead E.mount dirCluster) l)
    (hroom : E.Taken (E.vol w) dirCluster name l ∨ E.HasSlot (E.vol w) l ∨
      E.CanGrow (E.vol w)) :
    Runs (fat32Create fuel dirCluster name) w (fun r w' => Step E w w' ∧
      E.Created (E.vol w) dirCluster name l r (E.vol w'))
      (fun w' => Good E w' ∧ fuel ≤ E.turns) := by
  have hturns := turns_le hE.fits hl
  unfold fat32Create
  refine Runs.get_bind ?_
  rw [hg.mount, hE.fits.mounted]
  simp only [Bool.not_true, Bool.false_eq_true, if_false]
  refine ((fat32Find_runs hE hg hloose.opens hl).mono (fun _ _ h => h)
    (fun _ h => ⟨h.1, h.2.trans hturns.2⟩)).bind ?_
  rintro r w1 ⟨hs1, hv1, hfind⟩
  have hvol1 : E.vol w1 = E.vol w := E.vol_congr hv1
  cases r with
  | ok e => exact Runs.pure ⟨hs1, hvol1.symm ▸ .refused⟩
  | error c =>
    have habsent : E.Absent (E.vol w) dirCluster name l := hfind
    have hroom1 := hroom.resolve_left habsent.not_taken
    rw [← hvol1] at hl hroom1
    refine ((writeDirEntry_runs hE hs1.good hloose.opens hloose.opens hvalid hl
      (eof_stops hE.fits.small _ rfl) (.inl rfl) hroom1 name attrArchive 0 0).mono (fun _ _ h => h)
      (fun _ h => ⟨h.1, h.2.trans hturns.1⟩)).bind ?_
    rintro r w2 ⟨hs2, hp⟩
    rw [hvol1] at hp
    have hcreated := Env.Created.stored habsent hp
    cases r with
    | error c => exact Runs.pure ⟨hs1.trans hs2, hcreated⟩
    | ok rawIdx => exact Runs.pure ⟨hs1.trans hs2, hcreated⟩

theorem Env.Created.sound {r : Except Int Fat32Entry}
    (h : E.Created V dirCluster name l r V') (hf : Fits E.mount E.clusters)
    (hs : Sound E.mount E.clusters V D H ∅) (hd : dirHead E.mount dirCluster ∈ D)
    (hl : Link E.clusters V fat32Eof (dirHead E.mount dirCluster) l) :
    ∃ H', Sound E.mount E.clusters V' D H' ∅ := by
  cases h with
  | refused => exact ⟨H, hs⟩
  | stored _ hp =>
    exact hp.sound hf hs hd hl (newSlot_length ..) (holds_newFile (by decide))
      (.inl (slotCluster_newSlot (by decide)))

theorem Env.Created.added {e : Fat32Entry} (h : E.Created V dirCluster name l (.ok e) V')
    (hf : Fits E.mount E.clusters) (hs : Sound E.mount E.clusters V D H ∅)
    (hd : dirHead E.mount dirCluster ∈ D)
    (hl : Link E.clusters V fat32Eof (dirHead E.mount dirCluster) l) :
    E.Added V dirCluster name l e V' := by
  generalize hr : (Except.ok e : Except Int Fat32Entry) = r at h
  cases h with
  | refused => cases hr
  | @stored rp _ habsent hp =>
    cases rp with
    | error c => cases hr
    | ok k =>
      cases hr
      exact ⟨.inl rfl, Nat.two_pow_pos 32, rfl, habsent,
        fun hno => hp.listed hf hs hd hl hno (newSlot_length ..)⟩

theorem fat32Create_sound (hE : E.Lawful) (hg : Good E w) (hloose : E.Loose)
    (hs : Sound E.mount E.clusters (E.vol w) D H ∅) (hd : dirHead E.mount dirCluster ∈ D)
    (hl : Link E.clusters (E.vol w) fat32Eof (dirHead E.mount dirCluster) l)
    (hroom : E.Taken (E.vol w) dirCluster name l ∨ E.HasSlot (E.vol w) l ∨
      E.CanGrow (E.vol w)) :
    Runs (fat32Create fuel dirCluster name) w (fun _ w' => Step E w w' ∧
      ∃ D' H', Sound E.mount E.clusters (E.vol w') D' H' ∅)
      (fun w' => Good E w' ∧ fuel ≤ E.turns) :=
  (fat32Create_runs hE hg hloose (hs.valid (hs.dirs hd)) hl hroom).mono
    (fun _ _ h => ⟨h.1, D, h.2.sound hE.fits hs hd hl⟩) (fun _ h => h)

theorem dotSlot_length (s : List UInt8) (c : Nat) : (dotSlot s c).length = 32 := by
  simp [dotSlot, padTo_length, le]

theorem newDirBuffer_dots (c parent : Nat) :
    newDirBuffer c parent 0 = 0x2E ∧ newDirBuffer c parent 32 = 0x2E := by
  constructor
  · rfl
  · rfl

theorem newDirBuffer_rest (c parent : Nat) {j : Nat} (hj : 64 ≤ j) : newDirBuffer c parent j = 0 := by
  have h1 := dotSlot_length dotName c
  have h2 := dotSlot_length dotdotName parent
  rw [newDirBuffer, writeBytes_of_not_mem _ _ _ (by omega), writeBytes_of_not_mem _ _ _ (by omega)]

theorem newDir_sound {V : Vol} {m : Mount} {N : Nat} (hs : Sound m N V D H ∅) (hf : Fits m N)
    (hok : Valid N n) (hfree : V.fat n = 0) {f : Nat → UInt8} (parent : Nat)
    (hdata : ∀ j < m.bytesPerClust, f j = newDirBuffer n parent j) :
    Sound m N ((V.setFat n fat32Eof).setData n f) (insert n D) (insert n H) ∅ ∧ n ∉ H ∧
      Link N ((V.setFat n fat32Eof).setData n f) fat32Eof n [n] ∧
      Unused m N ((V.setFat n fat32Eof).setData n f) (insert n D) ∅ n ∧
      (∀ g ∈ H, ∀ l, Link N ((V.setFat n fat32Eof).setData n f) fat32Eof g l ↔
        Link N V fat32Eof g l) := by
  have hN := hf.small
  have hnot := hs.free_not_head hN hfree
  have hnD : n ∉ D := fun hd => hnot (hs.dirs hd)
  have hA := hs.alloc hN hok hfree
  have hlink : Link N (V.setFat n fat32Eof) fat32Eof n [n] := ⟨rfl, hok, Function.update_self ..⟩
  have hdir := hA.file_not_onDir (Set.mem_insert ..) hnD hlink (List.mem_singleton_self n)
  have hB := hA.write hN hdir f
  have hk := (hs.kept_alloc hN hfree fat32Eof).trans (Kept.write hdir f)
  have hn0 : n ≠ 0 := by
    rintro rfl
    exact absurd hok.1 (by decide)
  have hun := hk.unused (hs.unused (X := ∅) hnot hn0)
  have hself : ((V.setFat n fat32Eof).setData n f).data n = f := Function.update_self ..
  have hepc := hf.epc_eq
  have hbpc := hf.bpc
  have hspc := hf.spc
  have hdots : ∀ i < 2, ((V.setFat n fat32Eof).setData n f).data n (32 * i) = 0x2E := by
    intro i hi
    rw [hself, hdata _ (by omega)]
    rcases (show i = 0 ∨ i = 1 by omega) with rfl | rfl
    · exact (newDirBuffer_dots n parent).1
    · exact (newDirBuffer_dots n parent).2
  have hempty : ∀ y ∈ [n], ∀ i < entriesPerClust m, (y = n → 2 ≤ i) →
      ¬Names (slotAt ((V.setFat n fat32Eof).setData n f) (y, i)) := by
    intro y hy i hi h2 hn
    obtain rfl := List.mem_singleton.mp hy
    have hi2 := h2 rfl
    refine hn.1 ?_
    rw [slotAt, hself]
    change f (32 * i + 0) = 0
    rw [hdata _ (by omega)]
    exact newDirBuffer_rest y parent (by omega)
  exact ⟨hB.newDir hN (Set.mem_insert ..) hnD hun hlink hdots hempty, hnot, hlink,
    fun p hp hX => hun p (hB.live_newDir hN hnD hlink hempty hp) hX,
    fun g hg l => hs.link_alloc hN hfree _ hg⟩

-- The room a new directory needs: its own cluster, and one for the parent if that is full.
def Env.MkdirRoom (E : Env) (V : Vol) (l : List Nat) : Prop :=
  (E.HasSlot V l ∧ Room E.limit E.clusters V 1) ∨ Room E.limit E.clusters V 2

-- The failures that leave a new directory sound, or keep it from being stored at all.
structure Env.MkdirSafe (E : Env) (V : Vol) (l : List Nat) : Prop where
  alloc : ¬E.fatFails .alloc
  clear : ¬E.ataFails .mkdir .clusterWrite
  put : ¬E.ataFails .writeDirEntry .clusterWrite
  extend : E.HasSlot V l ∨ ¬E.ataFails .extendDir .clusterWrite

-- What fat32_mkdir does: it is refused, or has no buffer and gives its cluster n back, or stores
-- the entry of the new directory n, or frees n again where the entry could not be stored.
inductive Env.Made (E : Env) (V : Vol) (dirCluster : Nat) (name : List UInt8) (l : List Nat) :
    Except Int Fat32Entry → Vol → Prop
  | refused {c : Int} : E.Made V dirCluster name l (.error c) V
  | unbuilt {c : Int} {n v : Nat} : E.ok n → V.fat n = 0 → E.heapFails .mkdir →
      v = 0 ∨ v = fat32Eof → E.Made V dirCluster name l (.error c) (V.setFat n v)
  | stored {n k : Nat} {f : Nat → UInt8} {V' : Vol} : E.Absent V dirCluster name l → E.ok n →
      V.fat n = 0 →
      (∀ j < E.mount.bytesPerClust, f j = newDirBuffer n (dirHead E.mount dirCluster) j) →
      Placed E ((V.setFat n fat32Eof).setData n f) (newSlot name attrDirectory n 0) 0 l (.ok k) V' →
      E.Made V dirCluster name l (.ok (newEntry dirCluster name attrDirectory n k)) V'
  | undone {n : Nat} {f : Nat → UInt8} {c : Int} {V2 V' : Vol} : E.Absent V dirCluster name l →
      E.ok n → V.fat n = 0 →
      (∀ j < E.mount.bytesPerClust, f j = newDirBuffer n (dirHead E.mount dirCluster) j) →
      Placed E ((V.setFat n fat32Eof).setData n f) (newSlot name attrDirectory n 0) 0 l
        (.error c) V2 →
      V'.data = V2.data → (∀ x, x ≠ n → V'.fat x = V2.fat x) →
      E.Made V dirCluster name l (.error c) V'

theorem fat32Mkdir_runs (hE : E.Lawful) (hg : Good E w) (hloose : E.Loose)
    (hs : Sound E.mount E.clusters (E.vol w) D H ∅) (hd : dirHead E.mount dirCluster ∈ D)
    (hl : Link E.clusters (E.vol w) fat32Eof (dirHead E.mount dirCluster) l)
    (hroom : E.Taken (E.vol w) dirCluster name l ∨
      (E.MkdirRoom (E.vol w) l ∧ E.MkdirSafe (E.vol w) l)) :
    Runs (fat32Mkdir fuel dirCluster name) w (fun r w' => Step E w w' ∧
      E.Made (E.vol w) dirCluster name l r (E.vol w'))
      (fun w' => Good E w' ∧ fuel ≤ E.turns) := by
  have hN := hE.fits.small
  have hturns := turns_le hE.fits hl
  have hvalid := hs.valid (hs.dirs hd)
  unfold fat32Mkdir
  refine Runs.get_bind ?_
  rw [hg.mount, hE.fits.mounted]
  simp only [Bool.not_true, Bool.false_eq_true, if_false]
  refine ((fat32Find_runs hE hg hloose.opens hl).mono (fun _ _ h => h)
    (fun _ h => ⟨h.1, h.2.trans hturns.2⟩)).bind ?_
  rintro r w1 ⟨hs1, hv1, hfind⟩
  have hvol1 : E.vol w1 = E.vol w := E.vol_congr hv1
  cases r with
  | ok e => exact Runs.pure ⟨hs1, hvol1.symm ▸ .refused⟩
  | error c =>
    have habsent : E.Absent (E.vol w) dirCluster name l := hfind
    obtain ⟨hroom1, hsafe⟩ := hroom.resolve_left habsent.not_taken
    rw [← hvol1] at hs hl hroom1 hsafe habsent
    rw [← hvol1]
    have hone : Room E.limit E.clusters (E.vol w1) 1 :=
      hroom1.elim (fun h => h.2) (fun h => h.mono (by omega))
    refine (fatAllocCluster_runs hE hs1.good hsafe.alloc hone).then ?_
    rintro n w2 ⟨hs2, ⟨rfl, hv2, -⟩ | ⟨hn0, hok, hlim, hfree, -, hvol2⟩⟩
    · have hvol2 : E.vol w2 = E.vol w1 := E.vol_congr hv2
      rw [if_pos rfl]
      exact Runs.pure ⟨hs1.trans hs2, hvol2.symm ▸ .refused⟩
    · rw [if_neg hn0]
      refine (kmalloc_runs hs2.good).then ?_
      rintro ok w3 ⟨hs3, hv3, hheap⟩
      have hvol3 : E.vol w3 = (E.vol w1).setFat n fat32Eof := by
        rw [← hvol2, Env.vol, Env.vol, hv3]
      have hs13 := (hs1.trans hs2).trans hs3
      cases ok with
      | false =>
        simp only [Bool.not_false, if_true]
        refine (fatSet_runs hE hs3.good hok (by decide) ((hloose.opens (l := [n])).of_mem
          (by simp) rfl)).then ?_
        rintro r w4 ⟨hs4, -, -, hvol4⟩
        rw [hvol3] at hvol4
        refine Runs.pure ⟨hs13.trans hs4, ?_⟩
        rcases hvol4 with hvol4 | ⟨-, hvol4⟩
        · have hback : E.vol w4 = (E.vol w1).setFat n 0 := by
            rw [hvol4, Vol.setFat, Vol.setFat, Vol.setFat, Function.update_idem]
          exact hback ▸ .unbuilt hok hfree (hheap rfl) (.inl rfl)
        · exact hvol4 ▸ .unbuilt hok hfree (hheap rfl) (.inr rfl)
      | true =>
        simp only [Bool.not_true, Bool.false_eq_true, if_false]
        refine (clusterWrite_runs hE hs3.good hok _ ((hloose.opens (l := [n])).of_mem
          (by simp) rfl)).then ?_
        rintro r4 w4 ⟨hs4, -, k, -, hvol4, hr4⟩
        rw [hvol3] at hvol4
        have hfull : k = E.mount.sectorsPerClust :=
          hr4.elim And.right (fun h => absurd h.2 hsafe.clear)
        have hbuf : ∀ j < E.mount.bytesPerClust, (if j < 512 * k then
            newDirBuffer n (dirHead E.mount dirCluster) j
            else ((E.vol w1).setFat n fat32Eof).data n j) =
            newDirBuffer n (dirHead E.mount dirCluster) j :=
          fun j hj => if_pos (by rw [hfull, ← hE.fits.bpc]; exact hj)
        obtain ⟨hB, hnot, hlinkB, -, hothers⟩ := newDir_sound hs hE.fits hok hfree
          (dirHead E.mount dirCluster) hbuf
        rw [← hvol4] at hB hlinkB hothers
        have hs14 := hs13.trans hs4
        have hdH := hs.dirs hd
        have hlB := (hothers _ hdH l).mpr hl
        have hslots : dirSlots (E.vol w4) (entriesPerClust E.mount) l =
            dirSlots (E.vol w1) (entriesPerClust E.mount) l := by
          refine dirSlots_congr (fun x hx => ?_)
          rw [hvol4]
          exact Function.update_of_ne (ne_of_mem_of_not_mem hx (free_not_mem hl hfree)) _ _
        have hslotB : E.HasSlot (E.vol w1) l → E.HasSlot (E.vol w4) l := by
          unfold Env.HasSlot freeIndex
          rw [hslots]
          exact id
        have hroomB : E.HasSlot (E.vol w4) l ∨ E.CanGrow (E.vol w4) := by
          rcases hroom1 with h | h
          · exact .inl (hslotB h.1)
          · refine hsafe.extend.imp hslotB (fun hext => ⟨?_, hsafe.alloc, hext⟩)
            rw [hvol4]
            exact h.alloc hok hlim hfree (v := fat32Eof) (by decide)
        refine ((writeDirEntry_runs hE hs4.good hloose.opens hloose.opens hvalid hlB
          (eof_stops hN _ rfl) (.inl rfl) hroomB name attrDirectory n 0).mono (fun _ _ h => h)
          (fun _ h => ⟨h.1, h.2.trans hturns.1⟩)).bind ?_
        rintro r w5 ⟨hs5, hp⟩
        have hs15 := hs14.trans hs5
        cases r with
        | ok rawIdx =>
          rw [hvol4] at hp
          exact Runs.pure ⟨hs15, .stored habsent hok hfree hbuf hp⟩
        | error z =>
          have hkept := hp.kept hE.fits hB (Set.mem_insert_of_mem _ hd) hlB
          have hnd : n ≠ dirHead E.mount dirCluster := fun he => hnot (he ▸ hdH)
          have hlink5 := (hkept.link n ⟨Set.mem_insert .., hnd⟩ _).mpr hlinkB
          rw [hvol4] at hp
          refine ((fatFreeChain_runs hE hs5.good hloose.opens hlink5).mono (fun _ _ h => h)
            (fun _ h => ⟨h.1, h.2.trans (turns_le hE.fits hlink5).1⟩)).bind ?_
          rintro - w6 ⟨hs6, hdata, hout, -, -⟩
          exact Runs.pure ⟨hs15.trans hs6, .undone habsent hok hfree hbuf hp hdata
            (fun x hx => hout x (by simpa using hx))⟩

theorem Env.Made.sound {r : Except Int Fat32Entry} (h : E.Made V dirCluster name l r V')
    (hf : Fits E.mount E.clusters) (hs : Sound E.mount E.clusters V D H ∅)
    (hd : dirHead E.mount dirCluster ∈ D)
    (hl : Link E.clusters V fat32Eof (dirHead E.mount dirCluster) l)
    (hput : E.Absent V dirCluster name l → ¬E.ataFails .writeDirEntry .clusterWrite) :
    ∃ D' H', Sound E.mount E.clusters V' D' H' ∅ ∧
      ∀ g ∈ D', g ∈ D ∨ ∃ e, r = .ok e ∧ e.cluster = g := by
  have hN := hf.small
  have hdH := hs.dirs hd
  cases h with
  | refused => exact ⟨D, H, hs, fun g hg => .inl hg⟩
  | @unbuilt c n v hok hfree _ hv =>
    rcases hv with rfl | rfl
    · refine ⟨D, H, ?_, fun g hg => .inl hg⟩
      rwa [Vol.setFat, Function.update_eq_self_iff.mpr hfree.symm]
    · exact ⟨D, insert n H, hs.alloc hN hok hfree, fun g hg => .inl hg⟩
  | @stored n k f V' _ hok hfree hbuf hp =>
    obtain ⟨hB, hnot, -, hunB, hothers⟩ := newDir_sound hs hf hok hfree _ hbuf
    have hlt := hf.lt_eof hok
    have hcl : slotCluster (slotBytes (newSlot name attrDirectory n 0)) = n :=
      slotCluster_newSlot (hlt.2.trans (by decide))
    have hnroot : n ≠ E.mount.rootCluster := fun he => hnot (he ▸ hs.dirs hs.root)
    obtain ⟨H', hs'⟩ := hp.sound hf hB (Set.mem_insert_of_mem _ hd) ((hothers _ hdH l).mpr hl)
      (newSlot_length ..)
      (by
        unfold Holds
        rw [slotAttr_newSlot, if_pos (by decide), hcl]
        exact ⟨Set.mem_insert .., hnroot⟩)
      (.inr (hcl.symm ▸ hunB))
    exact ⟨insert n D, H', hs', fun g hg => hg.elim (fun h => .inr ⟨_, rfl, h.symm⟩) .inl⟩
  | @undone n f c V2 V' habsent hok hfree hbuf hp hdata hout =>
    obtain ⟨hB, hnot, hlinkB, hunB, hothers⟩ := newDir_sound hs hf hok hfree _ hbuf
    have hnroot : n ≠ E.mount.rootCluster := fun he => hnot (he ▸ hs.dirs hs.root)
    -- the entry was not stored, so that the new directory may be given back
    obtain ⟨V3, H3, hs3, hH3, hready, ⟨rfl, -⟩ | ⟨x, i, -, -, -, ⟨k, hk⟩ | ⟨-, hfail⟩⟩⟩ :=
      hp.ready hf hB (Set.mem_insert_of_mem _ hd) ((hothers _ hdH l).mpr hl)
    · have hnd : n ≠ dirHead E.mount dirCluster := fun he => hnot (he ▸ hdH)
      have hlink3 := (hready.others n (Set.mem_insert ..) hnd _).mpr hlinkB
      exact ⟨insert n D \ {n}, H3 \ {n}, hs3.free hN (hH3 (Set.mem_insert ..)) hnroot hlink3
        (fun y hy => hout y (by simpa using hy)) hdata subset_rfl (hready.unused hunB),
        fun g hg => .inl (hg.1.resolve_left hg.2)⟩
    · cases hk
    · exact absurd hfail (hput habsent)

theorem Env.Made.added {e : Fat32Entry} (h : E.Made V dirCluster name l (.ok e) V')
    (hf : Fits E.mount E.clusters) (hs : Sound E.mount E.clusters V D H ∅)
    (hd : dirHead E.mount dirCluster ∈ D)
    (hl : Link E.clusters V fat32Eof (dirHead E.mount dirCluster) l) :
    E.Added V dirCluster name l e V' := by
  cases h with
  | @stored n k f V' habsent hok hfree hbuf hp =>
    obtain ⟨hB, -, -, -, hothers⟩ := newDir_sound hs hf hok hfree _ hbuf
    have hlt := hf.lt_eof hok
    refine ⟨.inr rfl, hlt.2.trans (by decide), rfl, habsent, fun hno => ?_⟩
    have hlisted := hp.listed hf hB (Set.mem_insert_of_mem _ hd)
      ((hothers _ (hs.dirs hd) l).mpr hl) hno (newSlot_length ..)
    have hslots : dirSlots ((V.setFat n fat32Eof).setData n f) (entriesPerClust E.mount) l =
        dirSlots V (entriesPerClust E.mount) l :=
      dirSlots_congr (fun x hx => Function.update_of_ne
        (ne_of_mem_of_not_mem hx (free_not_mem hl hfree)) _ _)
    rwa [Listed, lead, hslots, ← lead] at hlisted

theorem fat32Mkdir_sound (hE : E.Lawful) (hg : Good E w) (hloose : E.Loose)
    (hs : Sound E.mount E.clusters (E.vol w) D H ∅) (hd : dirHead E.mount dirCluster ∈ D)
    (hl : Link E.clusters (E.vol w) fat32Eof (dirHead E.mount dirCluster) l)
    (hroom : E.Taken (E.vol w) dirCluster name l ∨
      (E.MkdirRoom (E.vol w) l ∧ E.MkdirSafe (E.vol w) l)) :
    Runs (fat32Mkdir fuel dirCluster name) w (fun _ w' => Step E w w' ∧
      ∃ D' H', Sound E.mount E.clusters (E.vol w') D' H' ∅)
      (fun w' => Good E w' ∧ fuel ≤ E.turns) :=
  (fat32Mkdir_runs hE hg hloose hs hd hl hroom).mono
    (fun _ _ h => ⟨h.1, (h.2.sound hE.fits hs hd hl
      (fun habsent => (hroom.resolve_left habsent.not_taken).2.put)).imp
        (fun _ h => h.imp (fun _ h => h.1))⟩) (fun _ h => h)

end Create

def Env.deleteFails (E : Env) (rawIdx : Nat) : Prop :=
  (0 < rawIdx / entriesPerClust E.mount ∧ E.fatFails .markDeleted) ∨ E.heapFails .markDeleted ∨
    E.ataFails .markDeleted .clusterRead ∨ E.ataFails .markDeleted .clusterWrite

section Remove

variable {E : Env} {w : World} {D H : Set Nat} {X : Set (Nat × Nat)} {e : Fat32Entry}
  {dirCluster rawIdx fuel i x : Nat} {l : List Nat}

theorem not_names_deleted {V : Vol} :
    ¬Names (slotAt (V.setData x (deleteSlot (V.data x) i)) (x, i)) := by
  intro hn
  refine hn.2.1 ?_
  simp only [slotAt, Vol.setData, Function.update_self]
  exact Function.update_self ..

theorem Sound.delete {m : Mount} {N : Nat} {V : Vol} (hs : Sound m N V D H (insert (x, i) X))
    (hdots : x ∈ D → x ≠ m.rootCluster → 2 ≤ i) :
    Sound m N (V.setData x (deleteSlot (V.data x) i)) D H X :=
  hs.edit ((slotEdit_delete i).outside _) hdots (fun hn _ => absurd hn not_names_deleted)

-- The chain lc has been given up, as far as the table could be read and written.
structure Freed (V : Vol) (lc : List Nat) (V' : Vol) : Prop where
  data : V'.data = V.data
  fat : ∀ y, y ∉ lc → V'.fat y = V.fat y

def Vol.drop (V : Vol) (x i : Nat) : Vol := V.setData x (deleteSlot (V.data x) i)

-- The clusters of an entry.
def Chained (N : Nat) (V : Vol) (cluster : Nat) (lc : List Nat) : Prop :=
  (cluster = 0 ∧ lc = []) ∨ (cluster ≠ 0 ∧ Link N V fat32Eof cluster lc)

inductive Env.Removed (E : Env) (V : Vol) (e : Fat32Entry) (x : Nat) : Vol → Prop
  | dropped {lc : List Nat} {V1 : Vol} : Chained E.clusters V e.cluster lc → Freed V lc V1 →
      E.Removed V e x (V1.drop x (e.dirIndex % entriesPerClust E.mount))
  | left {lc : List Nat} {V1 : Vol} : Chained E.clusters V e.cluster lc → Freed V lc V1 →
      E.deleteFails e.dirIndex → E.Removed V e x V1

theorem Freed.eq {V V' : Vol} (h : Freed V [] V') : V' = V :=
  Vol.ext (funext fun y => h.fat y (by simp)) h.data

theorem Sound.chained {m : Mount} {N : Nat} {V : Vol} (hs : Sound m N V D H ∅)
    {p : Nat × Nat} (hp : Live m N V D p) :
    ∃ lc, Chained N V (slotCluster (slotAt V p)) lc := by
  by_cases h0 : slotCluster (slotAt V p) = 0
  · exact ⟨[], .inl ⟨h0, rfl⟩⟩
  · obtain ⟨lc, hlc⟩ := hs.chain (((hs.holds p hp (by simp)).cases hs.dirs).resolve_left h0)
    exact ⟨lc, .inr ⟨h0, hlc⟩⟩

theorem Sound.link_freed {m : Mount} {N : Nat} {V V' : Vol} {cluster g : Nat} {lc lg : List Nat}
    (hs : Sound m N V D H ∅) (hN : N ≤ 0x0FFFFFF8) (hc : cluster = 0 ∨ cluster ∈ H)
    (hlc : Chained N V cluster lc) (hf : Freed V lc V') (hg : g ∈ H) (hne : g ≠ cluster) :
    Link N V' fat32Eof g lg ↔ Link N V fat32Eof g lg := by
  rcases hlc with ⟨-, rfl⟩ | ⟨h0, hlc⟩
  · rw [hf.eq]
  · exact hs.link_free hN (hc.resolve_left h0) hlc hf.fat hg hne

theorem freeChain_runs (hE : E.Lawful) (hg : Good E w) (hloose : E.Loose) {cluster : Nat}
    {lc : List Nat} (hlc : Chained E.clusters (E.vol w) cluster lc) :
    Runs (fatFreeChain fuel cluster) w (fun _ w' => Step E w w' ∧ Freed (E.vol w) lc (E.vol w'))
      (fun w' => Good E w' ∧ fuel ≤ E.turns) := by
  rcases hlc with ⟨rfl, rfl⟩ | ⟨-, hlc⟩
  · refine (fatFreeChain_stop (show ¬(2 ≤ 0 ∧ 0 < fat32Eof) by decide)).mono ?_ ?_
    · rintro - w1 rfl
      exact ⟨hg.step, rfl, fun _ _ => rfl⟩
    · rintro w1 ⟨rfl, rfl⟩
      exact ⟨hg, Nat.zero_le _⟩
  · refine (fatFreeChain_runs hE hg hloose.opens hlc).mono ?_
      (fun _ h => ⟨h.1, h.2.trans (turns_le hE.fits hlc).1⟩)
    rintro - w1 ⟨hs1, hdata, hout, -, -⟩
    exact ⟨hs1, hdata, hout⟩

theorem Sound.not_own {m : Mount} {N : Nat} {V : Vol} (hs : Sound m N V D H ∅) (hf : Fits m N)
    (hd : IsDir m N V (dirHead m e.dirCluster)) (he : EntryAt m N V e l x) :
    e.cluster ≠ dirHead m e.dirCluster := by
  have hdD := hs.isDir hf.small hd
  cases ha : hasAttr e.attr attrDirectory with
  | true => exact hs.not_inside hf hd he ha
  | false =>
    intro hself
    have hheld := hs.holds _ (hs.live_entry hf hdD he) (by simp)
    unfold Holds at hheld
    rw [he.attr, ha, if_neg (by decide), he.start] at hheld
    rcases hheld with h0 | ⟨-, hD⟩
    · have hvalid := (hs.valid (hs.dirs hdD)).1
      rw [← hself, h0] at hvalid
      exact absurd hvalid (by decide)
    · exact hD (hself ▸ hdD)

theorem remove_runs (hE : E.Lawful) (hg : Good E w) (hloose : E.Loose)
    (hs : Sound E.mount E.clusters (E.vol w) D H ∅) (hd : dirHead E.mount e.dirCluster ∈ D)
    (he : EntryAt E.mount E.clusters (E.vol w) e l x)
    (hself : e.cluster ≠ dirHead E.mount e.dirCluster) :
    Runs (do
      fatFreeChain fuel e.cluster
      markDeleted e.dirCluster e.dirIndex) w (fun r w' => Step E w w' ∧
        E.Removed (E.vol w) e x (E.vol w') ∧ (r = fat32Ok ∨ E.deleteFails e.dirIndex))
      (fun w' => Good E w' ∧ fuel ≤ E.turns) := by
  have hN := hE.fits.small
  have hlive := hs.live_entry hE.fits hd he
  obtain ⟨lc, hlc⟩ := hs.chained hlive
  have hH := (hs.holds _ hlive (by simp)).cases hs.dirs
  rw [he.start] at hlc hH
  refine (freeChain_runs hE hg hloose hlc).bind ?_
  rintro - w1 ⟨hs1, hfreed⟩
  have hl' := (hs.link_freed hN hH hlc hfreed (hs.dirs hd) (Ne.symm hself)).mpr he.chain
  refine (editSlot_runs hE hs1.good hloose.opens (hs.valid (hs.dirs hd)) hl' (eof_stops hN _ rfl)
    (.inr rfl) (slotEdit_delete _)).mono ?_ (fun _ h => h.elim)
  rintro r w2 ⟨hs2, ⟨y, hy, hvol, hr⟩ | ⟨hvol, -, hfail⟩⟩
  · obtain rfl : y = x := Option.some.inj (hy.symm.trans he.cluster)
    exact ⟨hs1.trans hs2, hvol ▸ .dropped hlc hfreed,
      hr.imp_right (fun h => .inr (.inr (.inr h)))⟩
  · have hdel : E.deleteFails e.dirIndex := hfail.resolve_left (fun h => by
      rw [he.cluster] at h
      cases h)
    exact ⟨hs1.trans hs2, hvol ▸ .left hlc hfreed hdel, .inr hdel⟩

theorem Freed.sound {V V1 : Vol} {lc : List Nat} (hfree : Freed V lc V1)
    (hlc : Chained E.clusters V e.cluster lc) (hf : Fits E.mount E.clusters)
    (hs : Sound E.mount E.clusters V D H ∅) (hd : dirHead E.mount e.dirCluster ∈ D)
    (he : EntryAt E.mount E.clusters V e l x) :
    Sound E.mount E.clusters V1 (D \ {e.cluster}) (H \ {e.cluster})
      (insert (x, e.dirIndex % entriesPerClust E.mount) ∅) := by
  have hlive := hs.live_entry hf hd he
  have hheld := hs.holds _ hlive (by simp)
  rcases hlc with ⟨h0, rfl⟩ | ⟨h0, hlc⟩
  · have hnot : e.cluster ∉ H := fun hm => absurd (h0 ▸ hs.valid hm).1 (by decide)
    rw [hfree.eq, Set.sdiff_singleton_eq_self hnot,
      Set.sdiff_singleton_eq_self (fun hm => hnot (hs.dirs hm))]
    exact hs.mono (Set.empty_subset _)
  · have hH := hheld.cases hs.dirs
    rw [he.start] at hH
    have hroot : e.cluster ≠ E.mount.rootCluster := by
      unfold Holds at hheld
      rw [he.start] at hheld
      split at hheld
      · exact hheld.2
      · exact fun hr => (hheld.resolve_left h0).2 (hr ▸ hs.root)
    refine hs.free hf.small (hH.resolve_left h0) hroot hlc hfree.fat hfree.data
      (Set.empty_subset _) (fun q hq hX hc => h0 ?_)
    rw [← he.start]
    exact hs.apart _ q hlive hq (by simp) (by simp) (fun h => hX (.inl h.symm))
      (he.start.trans hc.symm)

theorem Env.Removed.sound {V V' : Vol} (h : E.Removed V e x V') (hf : Fits E.mount E.clusters)
    (hs : Sound E.mount E.clusters V D H ∅) (hd : dirHead E.mount e.dirCluster ∈ D)
    (he : EntryAt E.mount E.clusters V e l x)
    (hdel : e.cluster = 0 ∨ ¬E.deleteFails e.dirIndex) :
    Sound E.mount E.clusters V' (D \ {e.cluster}) (H \ {e.cluster}) ∅ := by
  have hlive := hs.live_entry hf hd he
  cases h with
  | dropped hlc hfree =>
    exact (hfree.sound hlc hf hs hd he).delete (fun hxD => hlive.notDots hxD.1)
  | left hlc hfree hfail =>
    have h0 := hdel.resolve_right (fun h => h hfail)
    obtain ⟨-, rfl⟩ := hlc.resolve_right (fun h => h.1 h0)
    have hnot : e.cluster ∉ H := fun hm => absurd (h0 ▸ hs.valid hm).1 (by decide)
    rw [hfree.eq, Set.sdiff_singleton_eq_self hnot,
      Set.sdiff_singleton_eq_self (fun hm => hnot (hs.dirs hm))]
    exact hs

theorem fat32Unlink_runs (hE : E.Lawful) (hg : Good E w) (hloose : E.Loose)
    (hs : Sound E.mount E.clusters (E.vol w) D H ∅)
    (hd : IsDir E.mount E.clusters (E.vol w) (dirHead E.mount e.dirCluster))
    (he : EntryAt E.mount E.clusters (E.vol w) e l x) :
    Runs (fat32Unlink fuel e) w (fun _ w' => Step E w w' ∧
      (E.vol w' = E.vol w ∨ E.Removed (E.vol w) e x (E.vol w')))
      (fun w' => Good E w' ∧ fuel ≤ E.turns) := by
  unfold fat32Unlink
  refine Runs.get_bind ?_
  rw [hg.mount, hE.fits.mounted]
  simp only [Bool.not_true, Bool.false_eq_true, if_false]
  cases hasAttr e.attr attrDirectory with
  | true =>
    rw [if_pos rfl]
    exact Runs.pure ⟨hg.step, .inl rfl⟩
  | false =>
    rw [if_neg (by decide)]
    exact (remove_runs hE hg hloose hs (hs.isDir hE.fits.small hd) he
      (hs.not_own hE.fits hd he)).mono (fun _ _ h => ⟨h.1, .inr h.2.1⟩) (fun _ h => h)

theorem fat32Unlink_sound (hE : E.Lawful) (hg : Good E w) (hloose : E.Loose)
    (hs : Sound E.mount E.clusters (E.vol w) D H ∅)
    (hd : IsDir E.mount E.clusters (E.vol w) (dirHead E.mount e.dirCluster))
    (he : EntryAt E.mount E.clusters (E.vol w) e l x)
    (hdel : e.cluster = 0 ∨ ¬E.deleteFails e.dirIndex) :
    Runs (fat32Unlink fuel e) w (fun _ w' => Step E w w' ∧
      ∃ D' H', Sound E.mount E.clusters (E.vol w') D' H' ∅)
      (fun w' => Good E w' ∧ fuel ≤ E.turns) := by
  refine (fat32Unlink_runs hE hg hloose hs hd he).mono ?_ (fun _ h => h)
  rintro r w' ⟨hs', hsame | hrem⟩
  · exact ⟨hs', D, H, hsame.symm ▸ hs⟩
  · exact ⟨hs', _, _, hrem.sound hE.fits hs (hs.isDir hE.fits.small hd) he hdel⟩

theorem fat32Rmdir_ends (hE : E.Lawful) (hg : Good E w) (hloose : E.Loose)
    (hs : Sound E.mount E.clusters (E.vol w) D H ∅)
    (hd : IsDir E.mount E.clusters (E.vol w) (dirHead E.mount e.dirCluster))
    (he : EntryAt E.mount E.clusters (E.vol w) e l x) :
    Runs (fat32Rmdir fuel e) w (fun r w' => Step E w w' ∧
      ((E.vol w' = E.vol w ∧ (r ≠ fat32Ok ∨ E.listFails)) ∨
        (E.Removed (E.vol w) e x (E.vol w') ∧ (r = fat32Ok ∨ E.deleteFails e.dirIndex))))
      (fun w' => Good E w' ∧ fuel ≤ E.turns) := by
  have hdD := hs.isDir hE.fits.small hd
  unfold fat32Rmdir
  refine Runs.get_bind ?_
  rw [hg.mount, hE.fits.mounted]
  simp only [Bool.not_true, Bool.false_eq_true, if_false]
  cases ha : hasAttr e.attr attrDirectory with
  | false => exact Runs.pure ⟨hg.step, .inl ⟨rfl, .inl (by decide)⟩⟩
  | true =>
    simp only [Bool.not_true, Bool.false_eq_true, if_false]
    have hheld := hs.holds _ (hs.live_entry hE.fits hdD he) (by simp)
    unfold Holds at hheld
    rw [he.attr, ha, if_pos rfl, he.start] at hheld
    have hvalid := hs.valid (hs.dirs hheld.1)
    have hhead : dirHead E.mount e.cluster = e.cluster := by
      rw [dirHead, if_pos]
      intro h0
      exact absurd (h0 ▸ hvalid.1) (by decide)
    obtain ⟨lc, hlc⟩ := hs.chain (hs.dirs hheld.1)
    refine ((rmdirScan_lists hE hg hloose.opens (hhead.symm ▸ hlc) rfl (Nat.zero_le _)
      (by simp) (by omega)).mono (fun _ _ h => h)
      (fun _ h => ⟨h.1, h.2.trans (turns_le hE.fits hlc).2⟩)).bind ?_
    rintro r w1 ⟨hs1, hv1, hr⟩
    have hvol1 : E.vol w1 = E.vol w := E.vol_congr hv1
    cases r with
    | some z =>
      exact Runs.pure ⟨hs1, .inl ⟨hvol1, hr.imp_left (fun h hz => h.1 (congrArg some hz))⟩⟩
    | none =>
      have hself := hs.not_own hE.fits hd he
      rw [← hvol1] at hs he ⊢
      exact (remove_runs hE hs1.good hloose hs hdD he hself).mono
        (fun _ _ h => ⟨hs1.trans h.1, .inr h.2⟩) (fun _ h => h)

theorem fat32Rmdir_runs (hE : E.Lawful) (hg : Good E w) (hloose : E.Loose)
    (hs : Sound E.mount E.clusters (E.vol w) D H ∅)
    (hd : IsDir E.mount E.clusters (E.vol w) (dirHead E.mount e.dirCluster))
    (he : EntryAt E.mount E.clusters (E.vol w) e l x) :
    Runs (fat32Rmdir fuel e) w (fun _ w' => Step E w w' ∧
      (E.vol w' = E.vol w ∨ E.Removed (E.vol w) e x (E.vol w')))
      (fun w' => Good E w' ∧ fuel ≤ E.turns) :=
  (fat32Rmdir_ends hE hg hloose hs hd he).mono
    (fun _ _ h => ⟨h.1, h.2.imp And.left And.left⟩) (fun _ h => h)

-- A directory that lists anything but '.' and '..' stays.
theorem fat32Rmdir_refuses (hE : E.Lawful) (hg : Good E w) (hloose : E.Loose) {lc : List Nat}
    (hlc : Link E.clusters (E.vol w) fat32Eof (dirHead E.mount e.cluster) lc)
    (hlist : ¬∀ e' ∈ listing (E.vol w) (entriesPerClust E.mount) e.cluster lc,
      isDots e'.name = true) (hno : ¬E.listFails) :
    Runs (fat32Rmdir fuel e) w (fun r w' => Step E w w' ∧ E.vol w' = E.vol w ∧ r ≠ fat32Ok)
      (fun w' => Good E w' ∧ fuel ≤ E.turns) := by
  unfold fat32Rmdir
  refine Runs.get_bind ?_
  rw [hg.mount, hE.fits.mounted]
  simp only [Bool.not_true, Bool.false_eq_true, if_false]
  cases hasAttr e.attr attrDirectory with
  | false => exact Runs.pure ⟨hg.step, rfl, by decide⟩
  | true =>
    simp only [Bool.not_true, Bool.false_eq_true, if_false]
    refine ((rmdirScan_lists hE hg hloose.opens hlc rfl (Nat.zero_le _) (by simp)
      (by omega)).mono (fun _ _ h => h)
      (fun _ h => ⟨h.1, h.2.trans (turns_le hE.fits hlc).2⟩)).bind ?_
    rintro r w1 ⟨hs1, hv1, hr⟩
    obtain ⟨hz, hall⟩ := hr.resolve_right hno
    cases r with
    | some z =>
      refine Runs.pure ⟨hs1, ?_, fun h => hz (congrArg some h)⟩
      exact E.vol_congr hv1
    | none => exact absurd (hall rfl) hlist

theorem fat32Rmdir_sound (hE : E.Lawful) (hg : Good E w) (hloose : E.Loose)
    (hs : Sound E.mount E.clusters (E.vol w) D H ∅)
    (hd : IsDir E.mount E.clusters (E.vol w) (dirHead E.mount e.dirCluster))
    (he : EntryAt E.mount E.clusters (E.vol w) e l x)
    (hdel : e.cluster = 0 ∨ ¬E.deleteFails e.dirIndex) :
    Runs (fat32Rmdir fuel e) w (fun _ w' => Step E w w' ∧
      ∃ D' H', Sound E.mount E.clusters (E.vol w') D' H' ∅)
      (fun w' => Good E w' ∧ fuel ≤ E.turns) := by
  refine (fat32Rmdir_runs hE hg hloose hs hd he).mono ?_ (fun _ h => h)
  rintro r w' ⟨hs', hsame | hrem⟩
  · exact ⟨hs', D, H, hsame.symm ▸ hs⟩
  · exact ⟨hs', _, _, hrem.sound hE.fits hs (hs.isDir hE.fits.small hd) he hdel⟩

theorem dots_of_index {m : Mount} {N : Nat} {V : Vol} (hs : Sound m N V D H X) (hN : N ≤ 0x0FFFFFF8)
    {d j y : Nat} (hd : d ∈ D) (hl : Link N V fat32Eof d l) (hy : l[j]? = some y)
    (hfirst : j = 0 → d ≠ m.rootCluster → 2 ≤ i) : y ∈ D → y ≠ m.rootCluster → 2 ≤ i := by
  intro hyD hroot
  have hyl := List.mem_of_getElem? hy
  obtain rfl := hs.head_eq hN (hs.dirs hd) (hs.dirs hyD) hl hyl
  refine hfirst ?_ hroot
  have hnodup := hl.nodup (eof_stops hN)
  cases l with
  | nil => exact absurd hyl (by simp)
  | cons z l =>
    obtain rfl := hl.1
    have hlt := (List.getElem?_eq_some_iff.mp hy).1
    exact (List.getElem?_inj hlt hnodup).mp hy

theorem EntryAt.first {V : Vol} (he : EntryAt E.mount E.clusters V e l x)
    (h0 : e.dirIndex / entriesPerClust E.mount = 0)
    (hroot : dirHead E.mount e.dirCluster ≠ E.mount.rootCluster) :
    2 ≤ e.dirIndex % entriesPerClust E.mount := by
  refine he.notDots ?_ hroot
  have hx := he.cluster
  have hl := he.chain
  rw [h0] at hx
  cases l with
  | nil => cases hx
  | cons y l => exact (Option.some.inj hx).symm.trans hl.1

-- What fat32_rename does: the new slot is refused, or it is stored and the old one marked deleted,
-- or both are left.
inductive Env.Renamed (E : Env) (V : Vol) (e : Fat32Entry) (name : List UInt8) (l : List Nat) :
    Vol → Prop
  | refused {c : Int} {V' : Vol} :
      Placed E V (newSlot name e.attr e.cluster e.size) 0 l (.error c) V' → E.Renamed V e name l V'
  | moved {k y : Nat} {l1 : List Nat} {V1 : Vol} :
      Placed E V (newSlot name e.attr e.cluster e.size) 0 l (.ok k) V1 →
      Link E.clusters V1 fat32Eof (dirHead E.mount e.dirCluster) l1 →
      l1[e.dirIndex / entriesPerClust E.mount]? = some y →
      E.Renamed V e name l (V1.drop y (e.dirIndex % entriesPerClust E.mount))
  | kept {k : Nat} {l1 : List Nat} {V1 : Vol} :
      Placed E V (newSlot name e.attr e.cluster e.size) 0 l (.ok k) V1 →
      Link E.clusters V1 fat32Eof (dirHead E.mount e.dirCluster) l1 →
      l1[e.dirIndex / entriesPerClust E.mount]? = none ∨ E.deleteFails e.dirIndex →
      E.Renamed V e name l V1

theorem Placed.chain {V V' : Vol} {slot : List UInt8} {d g base : Nat} {r : Except Int Nat}
    (hp : Placed E V slot base l r V') (hf : Fits E.mount E.clusters)
    (hs : Sound E.mount E.clusters V D H X) (hd : d ∈ D) (hl : Link E.clusters V fat32Eof d l)
    (hg : g ∈ H) : ∃ lg, Link E.clusters V' fat32Eof g lg := by
  obtain ⟨V2, H2, hs2, hH2, -, ⟨rfl, -⟩ | ⟨y, i, -, -, rfl, -⟩⟩ := hp.ready hf hs hd hl
  · exact hs2.chain (hH2 hg)
  · exact hs2.chain (hH2 hg)

theorem fat32Rename_runs (hE : E.Lawful) (hg : Good E w) (hloose : E.Loose)
    (hs : Sound E.mount E.clusters (E.vol w) D H ∅) (hd : dirHead E.mount e.dirCluster ∈ D)
    (hd' : dirHead E.mount dirCluster ∈ D) {l' : List Nat}
    (hl' : Link E.clusters (E.vol w) fat32Eof (dirHead E.mount dirCluster) l')
    (hroom : E.HasSlot (E.vol w) l' ∨ E.CanGrow (E.vol w)) (name : List UInt8) :
    Runs (fat32Rename fuel e dirCluster name) w (fun _ w' => Step E w w' ∧
      E.Renamed (E.vol w) e name l' (E.vol w'))
      (fun w' => Good E w' ∧ fuel ≤ E.turns) := by
  have hN := hE.fits.small
  unfold fat32Rename
  refine Runs.get_bind ?_
  rw [hg.mount, hE.fits.mounted]
  simp only [Bool.not_true, Bool.false_eq_true, if_false]
  refine ((writeDirEntry_runs hE hg hloose.opens hloose.opens
    (hs.valid (hs.dirs hd')) hl' (eof_stops hN _ rfl) (.inl rfl) hroom name e.attr e.cluster
    e.size).mono (fun _ _ h => h)
    (fun _ h => ⟨h.1, h.2.trans (turns_le hE.fits hl').1⟩)).bind ?_
  rintro r w1 ⟨hs1, hp⟩
  cases r with
  | error z => exact Runs.pure ⟨hs1, .refused hp⟩
  | ok k =>
    obtain ⟨l1, hl1⟩ := hp.chain hE.fits hs hd' hl' (hs.dirs hd)
    refine (editSlot_runs hE hs1.good hloose.opens (hs.valid (hs.dirs hd)) hl1
      (eof_stops hN _ rfl) (.inr rfl) (slotEdit_delete _)).then ?_
    rintro r w2 ⟨hs2, ⟨y, hy, hvol, -⟩ | ⟨hvol, -, hfail⟩⟩
    · have hren := Env.Renamed.moved hp hl1 hy
      rw [Vol.drop, ← hvol] at hren
      split
      · exact Runs.pure ⟨hs1.trans hs2, hren⟩
      · exact Runs.pure ⟨hs1.trans hs2, hren⟩
    · have hren := Env.Renamed.kept hp hl1 hfail
      rw [← hvol] at hren
      split
      · exact Runs.pure ⟨hs1.trans hs2, hren⟩
      · exact Runs.pure ⟨hs1.trans hs2, hren⟩

theorem Env.Renamed.sound {V V' : Vol} {name : List UInt8} {l' : List Nat}
    (h : E.Renamed V e name l' V') (hf : Fits E.mount E.clusters)
    (hs : Sound E.mount E.clusters V D H ∅) (hd : dirHead E.mount e.dirCluster ∈ D)
    (he : EntryAt E.mount E.clusters V e l x) (hd' : dirHead E.mount dirCluster ∈ D)
    (hl' : Link E.clusters V fat32Eof (dirHead E.mount dirCluster) l')
    (hmove : e.cluster = 0 ∨
      (¬E.deleteFails e.dirIndex ∧ ¬E.ataFails .writeDirEntry .clusterWrite)) :
    ∃ H', Sound E.mount E.clusters V' D H' ∅ := by
  have hN := hf.small
  have hlive := hs.live_entry hf hd he
  have hheld := hs.holds _ hlive (by simp)
  have hcluster : e.cluster = 0 ∨ e.cluster ∈ H := by
    have := hheld.cases hs.dirs
    rwa [he.start] at this
  have hcl : slotCluster (slotBytes (newSlot name e.attr e.cluster e.size)) = e.cluster := by
    refine slotCluster_newSlot ?_
    rcases hcluster with h0 | hH
    · omega
    · exact (hf.lt_eof (hs.valid hH)).2.trans (by decide)
  have hholds : Holds E.mount D H (slotBytes (newSlot name e.attr e.cluster e.size)) := by
    unfold Holds at hheld ⊢
    rw [slotAttr_newSlot, hcl]
    rwa [he.attr, he.start] at hheld
  -- a slot on which nothing depends may be dropped
  have hdrop : ∀ {V1 H1 l1 y}, Sound E.mount E.clusters V1 D H1 ∅ →
      Link E.clusters V1 fat32Eof (dirHead E.mount e.dirCluster) l1 →
      l1[e.dirIndex / entriesPerClust E.mount]? = some y →
      Sound E.mount E.clusters (V1.drop y (e.dirIndex % entriesPerClust E.mount)) D H1 ∅ :=
    fun hs1 hl1 hy => (hs1.mono (Set.subset_insert ..)).delete
      (dots_of_index hs1 hN hd hl1 hy he.first)
  by_cases h0 : e.cluster = 0
  · have hstored : ∀ {r V1}, Placed E V (newSlot name e.attr e.cluster e.size) 0 l' r V1 →
        ∃ H', Sound E.mount E.clusters V1 D H' ∅ := fun hp =>
      hp.sound hf hs hd' hl' (newSlot_length ..) hholds (.inl (hcl.trans h0))
    cases h with
    | refused hp => exact hstored hp
    | moved hp hl1 hy =>
      obtain ⟨H', hs'⟩ := hstored hp
      exact ⟨H', hdrop hs' hl1 hy⟩
    | kept hp => exact hstored hp
  · obtain ⟨hdel, hput⟩ := hmove.resolve_left h0
    have hun : Unused E.mount E.clusters V D
        {(x, e.dirIndex % entriesPerClust E.mount)} e.cluster := by
      intro q hq hX hc
      refine h0 ?_
      rw [← he.start]
      exact hs.apart _ q hlive hq (by simp) (by simp) (fun h => hX h.symm)
        (he.start.trans hc.symm)
    have hstored : ∀ {k V1}, Placed E V (newSlot name e.attr e.cluster e.size) 0 l' (.ok k) V1 →
        ∃ H', Sound E.mount E.clusters V1 D H'
            (insert (x, e.dirIndex % entriesPerClust E.mount) ∅) ∧
          (Live E.mount E.clusters V1 D (x, e.dirIndex % entriesPerClust E.mount) →
            ∃ l2, Link E.clusters V1 fat32Eof (dirHead E.mount e.dirCluster) l2 ∧
              l2[e.dirIndex / entriesPerClust E.mount]? = some x) := by
      intro k V1 hp
      obtain ⟨V2, H2, hs2, hH2, hready, ⟨-, z, hz⟩ | ⟨y, i, -, hfree, hV', -⟩⟩ :=
        hp.ready hf hs hd' hl'
      · cases hz
      subst hV'
      refine ⟨H2, (hs2.mono (Set.empty_subset _)).fill hfree (newSlot_length ..)
        (hholds.mono subset_rfl hH2 (fun _ h => h)) (.inr ?_), fun hl1 => ?_⟩
      · rw [hcl, insert_empty_eq]
        exact hready.unused hun
      · by_cases hsame : dirHead E.mount e.dirCluster = dirHead E.mount dirCluster
        · obtain ⟨l2, hl2, hidx⟩ := hready.index l (hsame ▸ he.chain)
          exact ⟨l2, hsame ▸ hl2, hidx _ _ he.cluster hl1.onDir⟩
        · exact ⟨l, (hready.others _ (hs.dirs hd) hsame l).mpr he.chain, he.cluster⟩
    cases h with
    | refused hp =>
      obtain ⟨V2, H2, hs2, -, -, ⟨rfl, -⟩ | ⟨y, i, -, -, -, ⟨k, hk⟩ | ⟨-, hfail⟩⟩⟩ :=
        hp.ready hf hs hd' hl'
      · exact ⟨H2, hs2⟩
      · cases hk
      · exact absurd hfail hput
    | @moved k y l1 V1 hp hl1 hy =>
      obtain ⟨H', hs', hidx⟩ := hstored hp
      by_cases hlive1 : Live E.mount E.clusters V1 D (x, e.dirIndex % entriesPerClust E.mount)
      · obtain ⟨l2, hl2, hx⟩ := hidx hlive1
        obtain rfl := hl2.unique (eof_stops hN) hl1
        obtain rfl := Option.some.inj (hx.symm.trans hy)
        exact ⟨H', hs'.delete hlive1.notDots⟩
      · exact ⟨H', hdrop (hs'.forget hlive1) hl1 hy⟩
    | kept hp hl1 hfail =>
      obtain ⟨H', hs', hidx⟩ := hstored hp
      refine ⟨H', hs'.forget (fun hlive1 => ?_)⟩
      obtain ⟨l2, hl2, hx⟩ := hidx hlive1
      obtain rfl := hl2.unique (eof_stops hN) hl1
      exact hfail.elim (fun h => by cases hx.symm.trans h) hdel

theorem fat32Rename_sound (hE : E.Lawful) (hg : Good E w) (hloose : E.Loose)
    (hs : Sound E.mount E.clusters (E.vol w) D H ∅) (hd : dirHead E.mount e.dirCluster ∈ D)
    (he : EntryAt E.mount E.clusters (E.vol w) e l x)
    (hd' : dirHead E.mount dirCluster ∈ D) {l' : List Nat}
    (hl' : Link E.clusters (E.vol w) fat32Eof (dirHead E.mount dirCluster) l')
    (hroom : E.HasSlot (E.vol w) l' ∨ E.CanGrow (E.vol w))
    (hmove : e.cluster = 0 ∨
      (¬E.deleteFails e.dirIndex ∧ ¬E.ataFails .writeDirEntry .clusterWrite))
    (name : List UInt8) :
    Runs (fat32Rename fuel e dirCluster name) w (fun _ w' => Step E w w' ∧
      ∃ D' H', Sound E.mount E.clusters (E.vol w') D' H' ∅)
      (fun w' => Good E w' ∧ fuel ≤ E.turns) :=
  (fat32Rename_runs hE hg hloose hs hd hd' hl' hroom name).mono
    (fun _ _ h => ⟨h.1, D, h.2.sound hE.fits hs hd he hd' hl' hmove⟩) (fun _ h => h)

end Remove

end Fat32
