import SabakaOS.Memory.AllocRegion

namespace Paging

open Word Loop Pmm

def userFlags : Nat := pagePresent ||| pageWrite ||| pageUser

-- The address of a page's entry.
def entryOf (p : Tables) (q : Nat) : Nat := tableOf p (q / 1024) + 4 * (q % 1024)

-- Both entries on the way to the page let a user program write to it.
def UserWritable (p : Tables) (q : Nat) : Prop :=
  p.pageDirectory (q / 1024) &&& userFlags = userFlags ∧
    p.mem (entryOf p q) &&& userFlags = userFlags

section Entries

variable {p : Tables} {virt phys flags frame a d q : Nat}

theorem pagingMap_directory : (pagingMap p virt phys flags frame).pageDirectory d =
    if d = pdIdx virt ∧ ¬Present p d then frame ||| pagePresent ||| pageWrite ||| pageUser
    else p.pageDirectory d := by
  rw [pagingMap_eq, setPte, getOrCreatePt]
  by_cases hp : Present p (pdIdx virt)
  · rw [if_neg hp, if_neg]
    rintro ⟨rfl, hno⟩
    exact hno hp
  · rw [if_pos (not_not.mp hp)]
    by_cases hd : d = pdIdx virt
    · subst hd
      rw [if_pos ⟨rfl, hp⟩]
      exact Function.update_self ..
    · rw [if_neg fun h => hd h.1]
      exact Function.update_of_ne hd ..

theorem pagingMap_mem_self : (pagingMap p virt phys flags frame).mem
    (entryOf (pagingMap p virt phys flags frame) (virt / 4096)) = entry phys flags := by
  rw [pagingMap_eq, entryOf, setPte]
  exact Function.update_self ..

theorem pagingMap_mem_of_ne (hs : a ≠ entryOf (pagingMap p virt phys flags frame) (virt / 4096))
    (hf : ¬Present p (pdIdx virt) → a < frame ∨ frame + 4096 ≤ a) :
    (pagingMap p virt phys flags frame).mem a = p.mem a := by
  rw [pagingMap_eq] at hs ⊢
  rw [entryOf, setPte] at hs
  rw [setPte]
  refine (Function.update_of_ne hs ..).trans ?_
  rw [getOrCreatePt]
  by_cases hp : Present p (pdIdx virt)
  · rw [if_neg hp]
  · have := hf hp
    rw [if_pos (not_not.mp hp)]
    exact upto_update_other fun i hi => by omega

theorem userFlags_and (x : Nat) : (x ||| pagePresent ||| pageWrite ||| pageUser) &&& userFlags =
    userFlags := by
  rw [Nat.or_assoc, Nat.or_assoc, Nat.and_or_distrib_right]
  refine Nat.eq_of_testBit_eq fun i => ?_
  rw [Nat.testBit_or, Nat.testBit_and, show (pagePresent ||| (pageWrite ||| pageUser)) &&& userFlags
    = userFlags by decide]
  cases userFlags.testBit i with
  | false => rw [Bool.and_false, Bool.or_false]
  | true => rw [Bool.or_true]

theorem entry_userFlags (phys : Nat) : entry phys userFlags &&& userFlags = userFlags := by
  have h := userFlags_and (phys &&& frameMask)
  have he : entry phys userFlags =
      (phys &&& frameMask) ||| pagePresent ||| pageWrite ||| pageUser := by
    rw [entry, Nat.or_assoc, Nat.or_assoc, Nat.or_assoc]
    congr 1
  rwa [he]

theorem userFlags_present {e : Nat} (h : e &&& userFlags = userFlags) : e &&& pagePresent ≠ 0 := by
  intro he
  have hand : userFlags &&& pagePresent = 0 := by
    rw [← h, Nat.and_assoc, Nat.and_comm userFlags, ← Nat.and_assoc, he, Nat.zero_and]
  exact absurd hand (by decide)

theorem UserWritable.mapped (h : UserWritable p q) : (walk p q).isSome = true := by
  have hp : Present p (q / 1024) := userFlags_present h.1
  have hm : p.mem (tableOf p (q / 1024) + 4 * (q % 1024)) &&& pagePresent ≠ 0 :=
    userFlags_present h.2
  rw [walk, if_pos hp]
  dsimp only
  rw [if_neg hm]
  rfl

end Entries

section Turns

variable {kernelEnd virt flags a q : Nat} {P P' : Pool Nat} {i frame : Nat} {m m' : Machine}
  {l : List (Nat × Nat)}

theorem entryOf_div {p : Tables} {j : Nat} (h : tableOf p (q / 1024) = j * 4096) :
    entryOf p q / 4096 = j := by
  rw [entryOf, h]
  exact frame_div j (by omega)

theorem Turn.slot_ne (ht : Turn kernelEnd virt flags P P' i frame m m') (h : Held kernelEnd P m)
    (ha : a / 4096 ∈ usedFrames m.pmm) (hp' : Present m'.tables (q / 1024))
    (hs : Present m.tables (q / 1024) → a ≠ entryOf m.tables q) : a ≠ entryOf m'.tables q := by
  rcases ht.tables h hp' with ⟨hp, htab⟩ | ⟨hno, -, htab⟩
  · rw [entryOf, htab]
    exact hs hp
  · obtain ⟨j, -, hj, hjP, -⟩ := ht.table hno
    rintro rfl
    rw [entryOf_div (htab.trans hj), h.counted.usedFrames] at ha
    exact hjP ha

-- A word of a frame in use is written to only as the entry of the page.
theorem Turn.mem (ht : Turn kernelEnd virt flags P P' i frame m m') (h : Held kernelEnd P m)
    (ha : a / 4096 ∈ usedFrames m.pmm)
    (hs : Present m.tables (virt / 4096 / 1024) → a ≠ entryOf m.tables (virt / 4096)) :
    m'.tables.mem a = m.tables.mem a := by
  have hp' : Present m'.tables (virt / 4096 / 1024) := by
    rw [← pdIdx_eq]
    exact (ht.present _).mpr (.inr rfl)
  have hne := ht.slot_ne h ha hp' hs
  rw [ht.eq] at hne ⊢
  refine pagingMap_mem_of_ne hne fun hno => ?_
  obtain ⟨j, -, rfl, hjP, -⟩ := ht.table hno
  rw [h.counted.usedFrames] at ha
  have hne : a / 4096 ≠ j := fun he => hjP (he ▸ ha)
  omega

-- What mapping the pages of l with userFlags does to the page directory and the page tables.
structure Entered (m m' : Machine) (l : List Nat) : Prop where
  kept : ∀ d, Present m.tables d → m'.tables.pageDirectory d = m.tables.pageDirectory d
  made : ∀ d, Present m'.tables d → ¬Present m.tables d →
    m'.tables.pageDirectory d &&& userFlags = userFlags
  mem : ∀ a, a / 4096 ∈ usedFrames m.pmm →
    (∀ q ∈ l, Present m.tables (q / 1024) → a ≠ entryOf m.tables q) →
    m'.tables.mem a = m.tables.mem a
  written : ∀ q ∈ l, m'.tables.mem (entryOf m'.tables q) &&& userFlags = userFlags

theorem Turn.directory (ht : Turn kernelEnd virt flags P P' i frame m m') {d : Nat}
    (hp : Present m.tables d) : m'.tables.pageDirectory d = m.tables.pageDirectory d := by
  rw [ht.eq, pagingMap_directory, if_neg fun h => h.2 hp]

theorem Turn.made (ht : Turn kernelEnd virt flags P P' i frame m m') {d : Nat}
    (hp' : Present m'.tables d) (hp : ¬Present m.tables d) :
    m'.tables.pageDirectory d &&& userFlags = userFlags := by
  have hd : d = pdIdx virt := ((ht.present d).mp hp').resolve_left hp
  rw [ht.eq, pagingMap_directory, if_pos ⟨hd, hp⟩, userFlags_and]

theorem Held.slot_used (h : Held kernelEnd P m) (hq : q < 1048576)
    (hp : Present m.tables (q / 1024)) : entryOf m.tables q / 4096 ∈ usedFrames m.pmm := by
  obtain ⟨j, hj, hjt⟩ := h.tables (q / 1024) (by omega) hp
  rwa [entryOf_div hjt, h.counted.usedFrames]

theorem Held.entered (hb : Bounds kernelEnd memSize) (h : Held kernelEnd P m)
    (hl : ∀ v ∈ l, v.1 < 4294967296 ∧ v.2 = userFlags)
    (hnd : (l.map fun v => v.1 / 4096).Nodup) (hk : TablesSeen l m)
    (hok : (mapAll l m).1 = true) : Entered m (mapAll l m).2 (l.map fun v => v.1 / 4096) := by
  induction l generalizing P m with
  | nil => exact ⟨fun _ _ => rfl, fun _ hp hno => absurd hp hno, fun _ _ _ => rfl,
      fun _ hq => absurd hq List.not_mem_nil⟩
  | cons v l ih =>
    rw [mapAll] at hok ⊢
    cases hp : m.page v.1 v.2 with
    | none =>
      rw [hp] at hok
      cases hok
    | some m1 =>
      rw [hp] at hok
      obtain ⟨hv, hflags⟩ := hl v List.mem_cons_self
      rw [List.map_cons, List.nodup_cons] at hnd
      obtain ⟨P1, i, frame, ht⟩ := h.turn hb hv hk.1 hp
      have hrest : ∀ w ∈ l, w.1 < 4294967296 ∧ w.2 = userFlags := fun w hw =>
        hl w (List.mem_cons_of_mem v hw)
      have he := ih ht.held hrest hnd.2 (hk.2 m1 hp) hok
      have hsub : ∀ f ∈ usedFrames m.pmm, f ∈ usedFrames m1.pmm := fun f hf => by
        rw [ht.held.counted.usedFrames, ht.taken]
        exact .inl (h.counted.usedFrames ▸ hf)
      refine ⟨fun d hd => ?_, fun d hd hno => ?_, fun a ha hne => ?_, fun q hq => ?_⟩
      · exact (he.kept d (ht.kept h hd).1).trans (ht.directory hd)
      · by_cases hd1 : Present m1.tables d
        · change (mapAll l m1).2.tables.pageDirectory d &&& userFlags = userFlags
          rw [he.kept d hd1]
          exact ht.made hd1 hno
        · exact he.made d hd hd1
      · refine (he.mem a (hsub _ ha) fun q hq hq1 => ?_).trans (ht.mem h ha ?_)
        · exact ht.slot_ne h ha hq1 (hne q (List.mem_cons_of_mem _ hq))
        · exact hne _ List.mem_cons_self
      · rcases List.mem_cons.mp hq with rfl | hq
        · have hp1 : Present m1.tables (v.1 / 4096 / 1024) := by
            rw [← pdIdx_eq]
            exact (ht.present _).mpr (.inr rfl)
          have hslot : entryOf (mapAll l m1).2.tables (v.1 / 4096) =
              entryOf m1.tables (v.1 / 4096) := by
            rw [entryOf, entryOf, tableOf, tableOf, he.kept _ hp1]
          have hself : m1.tables.mem (entryOf m1.tables (v.1 / 4096)) &&& userFlags =
              userFlags := by
            rw [ht.eq, pagingMap_mem_self, hflags, entry_userFlags]
          change (mapAll l m1).2.tables.mem (entryOf (mapAll l m1).2.tables (v.1 / 4096)) &&& _ = _
          rw [hslot, he.mem _ (ht.held.slot_used (by omega) hp1) fun q hq hpq heq => ?_]
          · exact hself
          · obtain ⟨w, hw, rfl⟩ := List.mem_map.mp hq
            have hwlt := (hrest w hw).1
            have := Paging.slot_ne ht.held.translates.wired (by omega) (by omega) hp1 hpq
              (by omega) (by omega) heq
            have hsame : v.1 / 4096 = w.1 / 4096 := by omega
            exact hnd.1 (hsame ▸ hq)
        · exact he.written q hq

end Turns

section Slots

variable {sym : Symbols} {kernelEnd d : Nat} {t : Tables}

theorem Machine.map_tables (m : Machine) (virt phys flags : Nat) :
    ∃ frame, (m.map virt phys flags).tables = pagingMap m.tables virt phys flags frame := by
  rw [Machine.map]
  split
  · exact ⟨_, rfl⟩
  · exact ⟨_, rfl⟩

-- Only the two page tables of paging_init are closed to user programs.
def OpenSlots (t : Tables) : Prop :=
  ∀ d, 2 ≤ d → d < 1024 → Present t d → t.pageDirectory d &&& userFlags = userFlags

theorem OpenSlots.map (h : OpenSlots t) (virt phys flags frame : Nat) :
    OpenSlots (pagingMap t virt phys flags frame) := by
  intro d h2 hlt hp
  rw [Present] at hp
  rw [pagingMap_directory] at hp ⊢
  split
  · exact userFlags_and frame
  · next hd =>
    rw [if_neg hd] at hp
    exact h d h2 hlt hp

def openInvariant (sym : Symbols) (kernelEnd : Nat) : (machine sym kernelEnd).Invariant where
  holds m := OpenSlots m.tables
  start := by
    rintro m ⟨p, t, rfl⟩ d h2 hlt hp
    have hd : d = 0 ∨ d = 1 := (pagingInit_present t hlt).mp hp
    omega
  step := by
    rintro m a m' h ht
    cases a with
    | map virt phys flags =>
      obtain ⟨-, rfl⟩ := ht
      obtain ⟨frame, he⟩ := m.map_tables virt phys flags
      rw [he]
      exact h.map virt phys flags frame
    | page virt flags =>
      obtain ⟨-, ht⟩ := ht
      rw [Machine.page] at ht
      split at ht
      · cases ht
      · obtain rfl := Option.some.inj ht
        obtain ⟨frame, he⟩ :=
          ({ m with pmm := (pmmAlloc m.pmm).2 } : Machine).map_tables virt (pmmAlloc m.pmm).1 flags
        rw [he]
        exact h.map virt (pmmAlloc m.pmm).1 flags frame

end Slots

-- A page with a frame of its own that is no page table.
def OwnPage (m : Machine) (q : Nat) : Prop :=
  ∃ f ∈ usedFrames m.pmm, walk m.tables q = some (f * 4096) ∧
    ∀ d < 1024, Present m.tables d → tableOf m.tables d ≠ f * 4096

-- The words and bytes of the frame at f are the same in both.
def SameFrame (s s' : AddressSpace) (f : Nat) : Prop :=
  ∀ o < 4096, s'.ram (f + o) = s.ram (f + o) ∧
    s'.machine.tables.mem (f + o) = s.machine.tables.mem (f + o)

section Pages

variable {kernelEnd q : Nat} {P : Pool Nat} {m m' : Machine} {l : List Nat}

theorem Entered.writable_old (he : Entered m m' l) (h : Held kernelEnd P m)
    (hl : ∀ q ∈ l, q < 1048576) (hq : q < 1048576) (hno : q ∉ l) (hw : UserWritable m.tables q) : UserWritable m'.tables q := by
  have hp : Present m.tables (q / 1024) := userFlags_present hw.1
  have hdir := he.kept (q / 1024) hp
  have hslot : entryOf m'.tables q = entryOf m.tables q := by
    rw [entryOf, entryOf, tableOf, tableOf, hdir]
  have hmem : m'.tables.mem (entryOf m.tables q) = m.tables.mem (entryOf m.tables q) := by
    refine he.mem _ (h.slot_used hq hp) fun q' hq' hp' heq => ?_
    have hlt := hl q' hq'
    have := slot_ne h.translates.wired (by omega) (by omega) hp hp' (by omega) (by omega) heq
    have hsame : q = q' := by omega
    exact hno (hsame ▸ hq')
  rw [UserWritable, hdir, hslot, hmem]
  exact hw

theorem Entered.writable_new (he : Entered m m' l) (ho : OpenSlots m.tables) (hq : q < 1048576)
    (hhigh : 0x800 ≤ q) (hin : q ∈ l) (hp' : Present m'.tables (q / 1024)) :
    UserWritable m'.tables q := by
  refine ⟨?_, he.written q hin⟩
  by_cases hp : Present m.tables (q / 1024)
  · rw [he.kept _ hp]
    exact ho _ (by omega) (by omega) hp
  · exact he.made _ hp' hp

theorem OwnPage.old (ho : OwnPage m q) (hm : Tabled m m' l)
    (hw : walk m'.tables q = walk m.tables q) : OwnPage m' q := by
  obtain ⟨f, hf, hwalk, htab⟩ := ho
  refine ⟨f, hm.sub hf, hw.trans hwalk, fun d hd hp he => ?_⟩
  rcases hm.tables d hd hp with ⟨hp0, he0⟩ | ⟨f', hf', -, he'⟩
  · exact htab d hd hp0 (he0.symm.trans he)
  · exact hf' (mul_page_inj (he'.symm.trans he) ▸ hf)

theorem Entered.sameFrame (he : Entered m m' l) (h : Held kernelEnd P m)
    (hl : ∀ q ∈ l, q < 1048576) (ram : Nat → UInt8) {f : Nat} (hf : f ∈ usedFrames m.pmm)
    (htab : ∀ d < 1024, Present m.tables d → tableOf m.tables d ≠ f * 4096) :
    SameFrame ⟨m, ram⟩ ⟨m', ram⟩ (f * 4096) := by
  refine fun o ho => ⟨rfl, ?_⟩
  have hdiv : (f * 4096 + o) / 4096 = f := frame_div f ho
  refine he.mem _ (by rwa [hdiv]) fun q hq hp heq => ?_
  have hlt := hl q hq
  obtain ⟨j, -, hjt⟩ := h.tables (q / 1024) (by omega) hp
  have hjf : j = f := by rw [← entryOf_div hjt, ← heq, hdiv]
  exact htab _ (by omega) hp (hjf ▸ hjt)

end Pages

end Paging
