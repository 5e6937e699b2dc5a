import Mathlib.Data.List.TakeWhile
import SabakaOS.Fat32.Lookup

namespace Fat32

open Word ByteMemory Prog Chain

def SlotFree (s : Slot) : Prop := s 0 = 0x00 ∨ s 0 = 0xE5

instance (s : Slot) : Decidable (SlotFree s) := inferInstanceAs (Decidable (_ ∨ _))

def freeIndex (V : Vol) (epc : Nat) (l : List Nat) : Option Nat :=
  (dirSlots V epc l).findIdx? (fun s => decide (SlotFree s))

-- The slots in front of the first free one.
def lead (V : Vol) (epc : Nat) (l : List Nat) : List Slot :=
  (dirSlots V epc l).takeWhile (fun s => !decide (SlotFree s))

-- Directory d has the given slot, number k, where the first free one was, and may have got some
-- more slots at its end, none of them in use.
def Listed (N epc : Nat) (V : Vol) (l : List Nat) (s : Slot) (d k : Nat) (V' : Vol) : Prop :=
  k = (lead V epc l).length ∧ ∃ l' more, Link N V' fat32Eof d l' ∧
    dirSlots V' epc l' = lead V epc l ++ s :: ((dirSlots V epc l).drop (k + 1) ++ more) ∧
    ∀ z ∈ more, z 0 = 0x00

def Vol.fill (V : Vol) (x i : Nat) (slot : List UInt8) : Vol :=
  V.setData x (writeBytes (V.data x) (32 * i) slot)

def Vol.grow (V : Vol) (n : Nat) : Vol := (V.setFat n fat32Eof).setData n (fun _ => 0)

def Env.slotFails (E : Env) : Prop :=
  E.ataFails .writeDirEntry .clusterRead ∨ E.ataFails .writeDirEntry .clusterWrite ∨
    E.heapFails .writeDirEntry

-- A directory may get one more cluster, within the volume and cleared.
def Env.CanGrow (E : Env) (V : Vol) : Prop :=
  Room E.limit E.clusters V 1 ∧ ¬E.fatFails .alloc ∧ ¬E.ataFails .extendDir .clusterWrite

-- The directory goes on behind cluster y with the cleared cluster n, whose first slot is filled.
structure Extended (E : Env) (V : Vol) (slot : List UInt8) (y k n : Nat) (r : Except Int Nat)
    (V' : Vol) : Prop where
  ok : E.ok n
  limit : n < E.limit
  free : V.fat n = 0
  result : ∃ V2, (V2 = (V.grow n).setFat y n ∨ (V2 = V.grow n ∧ E.fatFails .writeDirEntry)) ∧
    ((V' = V2.fill n 0 slot ∧
        (r = .ok k ∨ ((∃ c, r = .error c) ∧ E.ataFails .writeDirEntry .clusterWrite))) ∨
      (V' = V2 ∧ (∃ c, r = .error c) ∧ E.slotFails))

inductive Placed (E : Env) (V : Vol) (slot : List UInt8) (base : Nat) (l : List Nat) :
    Except Int Nat → Vol → Prop
  | nospace : (freeIndex V (entriesPerClust E.mount) l = none ∨ E.fatFails .writeDirEntry) →
      spare E.limit E.clusters V = 0 → Placed E V slot base l (.error fat32ErrNospace) V
  | failed {c : Int} : E.slotFails → Placed E V slot base l (.error c) V
  | filled {k x : Nat} {r : Except Int Nat} :
      freeIndex V (entriesPerClust E.mount) l = some k →
      l[k / entriesPerClust E.mount]? = some x →
      (r = .ok (base + k) ∨ ((∃ c, r = .error c) ∧ E.ataFails .writeDirEntry .clusterWrite)) →
      Placed E V slot base l r (V.fill x (k % entriesPerClust E.mount) slot)
  | extended {l1 l2 : List Nat} {y n : Nat} {r : Except Int Nat} {V' : Vol} :
      l = l1 ++ y :: l2 → (l2 = [] ∨ E.fatFails .writeDirEntry) →
      freeIndex V (entriesPerClust E.mount) (l1 ++ [y]) = none →
      Extended E V slot y (base + (l1.length + 1) * entriesPerClust E.mount) n r V' →
      Placed E V slot base l r V'

section Free

variable {V : Vol} {epc x : Nat} {l : List Nat}

theorem freeSlot_eq {buf : Buffer} {n i : Nat} :
    freeSlot buf n i = (((List.range' i n).map (slotOf buf)).findIdx?
      (fun s => decide (SlotFree s))).map (· + i) := by
  induction n generalizing i with
  | zero => rfl
  | succ n ih =>
    unfold freeSlot
    simp only [List.range'_succ, List.map_cons, List.findIdx?_cons]
    by_cases h : slotOf buf i 0 = 0x00 ∨ slotOf buf i 0 = 0xE5
    · rw [if_pos h]
      have hd : decide (SlotFree (slotOf buf i)) = true := decide_eq_true h
      simp [hd]
    · rw [if_neg h, ih]
      have hd : decide (SlotFree (slotOf buf i)) = false := decide_eq_false h
      simp only [hd, Bool.false_eq_true, if_false, Option.map_map]
      congr 1
      funext k
      simp only [Function.comp]
      omega

theorem freeIndex_cons :
    freeIndex V epc (x :: l) = match freeSlot (V.data x) epc 0 with
      | some i => some i
      | none => (freeIndex V epc l).map (· + epc) := by
  have hsplit : dirSlots V epc (x :: l) =
      (List.range' 0 epc).map (slotOf (V.data x)) ++ dirSlots V epc l := rfl
  rw [freeIndex, hsplit, List.findIdx?_append, freeSlot_eq]
  rcases hh : ((List.range' 0 epc).map (slotOf (V.data x))).findIdx?
    (fun s => decide (SlotFree s)) with _ | i
  · simp [freeIndex]
  · simp

theorem dirSlots_getElem? (hepc : 0 < epc) (k : Nat) :
    (dirSlots V epc l)[k]? = l[k / epc]?.map (fun x => slotAt V (x, k % epc)) := by
  induction l generalizing k with
  | nil => simp [dirSlots]
  | cons x l ih =>
    have hsplit : dirSlots V epc (x :: l) =
        (List.range' 0 epc).map (fun i => slotAt V (x, i)) ++ dirSlots V epc l := rfl
    rw [hsplit]
    by_cases hk : k < epc
    · rw [List.getElem?_append_left (by simpa using hk), Nat.div_eq_of_lt hk, Nat.mod_eq_of_lt hk]
      simp [hk]
    · have hdiv : k / epc = (k - epc) / epc + 1 := by
        rw [← Nat.add_div_right _ hepc, Nat.sub_add_cancel (by omega)]
      have hmod : k % epc = (k - epc) % epc := Nat.mod_eq_sub_mod (by omega)
      rw [List.getElem?_append_right (by simpa using hk), hdiv, hmod, List.getElem?_cons_succ, ← ih]
      simp

theorem dirSlots_append (V : Vol) (epc : Nat) (l1 l2 : List Nat) :
    dirSlots V epc (l1 ++ l2) = dirSlots V epc l1 ++ dirSlots V epc l2 := List.flatMap_append

theorem dirSlots_congr {V' : Vol} (h : ∀ x ∈ l, V'.data x = V.data x) :
    dirSlots V' epc l = dirSlots V epc l := by
  induction l with
  | nil => rfl
  | cons x l ih =>
    have hx : (fun i => slotAt V' (x, i)) = fun i => slotAt V (x, i) := by
      funext i
      rw [slotAt, slotAt, h x (by simp)]
    have ih := ih (fun y hy => h y (by simp [hy]))
    simp only [dirSlots, List.flatMap_cons] at ih ⊢
    rw [hx, ih]

theorem freeIndex_free (hepc : 0 < epc) {k : Nat} (h : freeIndex V epc l = some k)
    (hx : l[k / epc]? = some x) : SlotFree (slotAt V (x, k % epc)) := by
  obtain ⟨hlt, hp, -⟩ := List.findIdx?_eq_some_iff_getElem.mp h
  have hget := dirSlots_getElem? (V := V) (l := l) hepc k
  rw [hx, List.getElem?_eq_getElem hlt] at hget
  have hslot : (dirSlots V epc l)[k] = slotAt V (x, k % epc) := Option.some.inj hget
  rw [← hslot]
  exact of_decide_eq_true hp

theorem lead_of_some {k : Nat} (h : freeIndex V epc l = some k) :
    lead V epc l = (dirSlots V epc l).take k ∧ (lead V epc l).length = k := by
  have hidx := List.findIdx?_eq_some_iff_findIdx_eq.mp h
  have htake : lead V epc l = (dirSlots V epc l).take k := by
    rw [lead, List.takeWhile_eq_take_findIdx_not, ← hidx.2]
    simp
  rw [htake, List.length_take]
  exact ⟨rfl, by omega⟩

theorem lead_of_none (h : freeIndex V epc l = none) : lead V epc l = dirSlots V epc l := by
  refine List.takeWhile_eq_self_iff.mpr fun s hs => ?_
  have := List.findIdx?_eq_none_iff.mp h s hs
  simpa using this

theorem lead_not_free {s : Slot} (h : s ∈ lead V epc l) : ¬SlotFree s := by
  simpa using List.mem_takeWhile_imp h

theorem freeSlot_lt {buf : Buffer} {n i k : Nat} (h : freeSlot buf n i = some k) :
    k < i + n := by
  induction n generalizing i with
  | zero => cases h
  | succ n ih =>
    unfold freeSlot at h
    split at h
    · cases h
      omega
    · have := ih h
      omega

theorem freeSlot_congr {b b' : Buffer} {n i : Nat} (h : ∀ j < 32 * (i + n), b j = b' j) :
    freeSlot b n i = freeSlot b' n i := by
  induction n generalizing i with
  | zero => rfl
  | succ n ih =>
    unfold freeSlot
    rw [slotOf_congr h (by omega), ih (fun j hj => h j (by omega))]

end Free

section Write

variable {E : Env} {w : World} {slot : List UInt8} {c e i k n x y fuel : Nat} {l : List Nat}

theorem vol_data_beyond (w : World) (c : Nat) {j : Nat} (hj : E.mount.bytesPerClust ≤ j) :
    (E.vol w).data c j = 0 :=
  if_neg (fun h => absurd h.2 (by omega))

theorem writeDirEntryFrom_here (hE : E.Lawful) (hg : Good E w) (hopen : E.Opens .writeDirEntry l)
    (hc : E.ok c) (hin : c ∈ l ∨ .alloc c 0 ∈ w.trace) (hslot : slot.length = 32)
    (hfree : freeSlot ((E.vol w).data c) (entriesPerClust E.mount) 0 = some i) :
    Runs (writeDirEntryFrom slot (fuel + 1) c k) w (fun r w' => Step E w w' ∧
      ((E.vol w' = (E.vol w).fill c i slot ∧
          (r = .ok (k + i) ∨ ((∃ x, r = .error x) ∧ E.ataFails .writeDirEntry .clusterWrite))) ∨
        (E.vol w' = E.vol w ∧ (∃ x, r = .error x) ∧ E.slotFails))) (fun _ => False) := by
  unfold writeDirEntryFrom
  rw [if_pos (hE.fits.lt_eof hc)]
  refine (clusterRead_runs hE hg hc (hopen.at hin List.suffix_rfl rfl)).then ?_
  rintro r w1 ⟨hs1, hv1, -, ⟨b, rfl, hb⟩ | ⟨rfl, hfail⟩⟩
  · have hvol1 : E.vol w1 = E.vol w := E.vol_congr hv1
    have hepc : 32 * (0 + entriesPerClust E.mount) ≤ E.mount.bytesPerClust := by
      have := hE.fits.epc_eq
      have := hE.fits.bpc
      omega
    have hi := freeSlot_lt hfree
    have hfree' : freeSlot b (entriesPerClust E.mount) 0 = some i := by
      rw [freeSlot_congr (fun j hj => hb j (by omega)), hfree]
    refine Runs.get_bind ?_
    rw [hs1.good.mount]
    simp only [hfree']
    rw [← hvol1] at hb
    refine (clusterWrite_edit hE hs1.good hc (slotEdit_fill i hslot) (by omega) hb
      (hopen.at hin hs1.ext rfl)).then ?_
    rintro ok w2 ⟨hs2, hvol2, hfail2⟩
    rw [hvol1] at hvol2
    refine Runs.pure ⟨hs1.trans hs2, ?_⟩
    cases ok with
    | true => exact .inl ⟨hvol2.resolve_right (fun h => by cases h.1), .inl rfl⟩
    | false =>
      rcases hvol2 with hvol2 | ⟨-, hvol2⟩
      · exact .inl ⟨hvol2, .inr ⟨⟨_, rfl⟩, hfail2 rfl⟩⟩
      · exact .inr ⟨hvol2, ⟨_, rfl⟩, .inr (.inl (hfail2 rfl))⟩
  · have hvol1 : E.vol w1 = E.vol w := E.vol_congr hv1
    exact Runs.pure ⟨hs1, .inr ⟨hvol1, ⟨_, rfl⟩, .inl hfail⟩⟩

theorem grow_runs (hE : E.Lawful) (hg : Good E w) (hopen : E.Opens .writeDirEntry l)
    (hopenX : E.Opens .extendDir l) (hroom : E.CanGrow (E.vol w)) (hy : E.ok y) (hyl : y ∈ l)
    (hslot : slot.length = 32) :
    Runs (do
      let newC ← fatAllocCluster
      if newC = 0 then pure (.error fat32ErrNospace)
      else do
        let _ ← clusterWrite .extendDir newC (fun _ => 0)
        let _ ← fatSet .writeDirEntry y newC
        writeDirEntryFrom slot fuel newC k) w
      (fun r w' => Step E w w' ∧
        ((r = .error fat32ErrNospace ∧ E.vol w' = E.vol w ∧
            spare E.limit E.clusters (E.vol w) = 0) ∨
          ∃ n, Extended E (E.vol w) slot y k n r (E.vol w')))
      (fun w' => Good E w' ∧ fuel = 0) := by
  obtain ⟨hroom, halloc, hext⟩ := hroom
  refine (fatAllocCluster_runs hE hg halloc hroom).then ?_
  rintro n w1 ⟨hs1, ⟨rfl, hv1, hnone⟩ | ⟨hn0, hok, hlim, hfree, hmem1, hvol1⟩⟩
  · rw [if_pos rfl]
    exact Runs.pure ⟨hs1, .inl ⟨rfl, E.vol_congr hv1, hnone⟩⟩
  · rw [if_neg hn0]
    refine (clusterWrite_runs hE hs1.good hok (fun _ => 0)
      (hopenX.at (.inr hmem1) List.suffix_rfl rfl)).then ?_
    rintro r2 w2 ⟨hs2, -, j, -, hvol2, hr2⟩
    have hvol2 : E.vol w2 = (E.vol w).grow n := by
      rw [hvol2, hvol1, Vol.grow]
      congr 1
      funext a
      split
      · rfl
      · rename_i ha
        rcases hr2 with ⟨-, hfull⟩ | ⟨-, hfail⟩
        · have := hE.fits.bpc
          exact vol_data_beyond w n (by omega)
        · exact absurd hfail hext
    have hlt := hE.fits.lt_eof hok
    refine (fatSet_runs hE hs2.good hy (v := n) (by unfold fat32Eof at hlt; omega)
      (hopen.of_mem hyl rfl)).then ?_
    rintro r3 w3 ⟨hs3, -, hfail3, hvol3⟩
    rw [hvol2] at hvol3
    have hV2 : E.vol w3 = ((E.vol w).grow n).setFat y n ∨
        (E.vol w3 = (E.vol w).grow n ∧ E.fatFails .writeDirEntry) :=
      hvol3.imp_right (fun h => ⟨h.2, hfail3 h.1⟩)
    have hdata : (E.vol w3).data n = fun _ => 0 := by
      have hself : ((E.vol w).grow n).data n = fun _ => 0 := Function.update_self ..
      rcases hvol3 with h | ⟨-, h⟩
      · rw [h]
        exact hself
      · rw [h]
        exact hself
    cases fuel with
    | zero => exact Runs.stopped ⟨hs3.good, rfl⟩
    | succ fuel =>
      have hslot0 : freeSlot ((E.vol w3).data n) (entriesPerClust E.mount) 0 = some 0 := by
        obtain ⟨m, hm⟩ := Nat.exists_eq_succ_of_ne_zero hE.fits.epc_pos.ne'
        rw [hm, hdata]
        rfl
      refine (writeDirEntryFrom_here hE hs3.good hopen hok
        (.inr ((hs2.trans hs3).ext.subset hmem1)) hslot hslot0).mono ?_ (fun _ h => h.elim)
      rintro r w4 ⟨hs4, hr4⟩
      exact ⟨((hs1.trans hs2).trans hs3).trans hs4, .inr ⟨n, hok, hlim, hfree, E.vol w3, hV2,
        hr4⟩⟩

theorem freeIndex_full {V : Vol} {epc : Nat} (h : freeSlot (V.data x) epc 0 = none) :
    freeIndex V epc (x :: l) = (freeIndex V epc l).map (· + epc) := by
  rw [freeIndex_cons, h]

theorem Placed.cons {V V' : Vol} {base : Nat} {r : Except Int Nat} (hf : Fits E.mount E.clusters)
    (h : freeSlot (V.data x) (entriesPerClust E.mount) 0 = none)
    (hp : Placed E V slot (base + entriesPerClust E.mount) l r V') :
    Placed E V slot base (x :: l) r V' := by
  cases hp with
  | nospace hnone hspare =>
    refine .nospace (hnone.imp_left (fun hn => ?_)) hspare
    rw [freeIndex_full h, hn]
    rfl
  | failed hfail => exact .failed hfail
  | @filled j z r hidx hz hr =>
    have hpos := hf.epc_pos
    have hmod : (j + entriesPerClust E.mount) % entriesPerClust E.mount =
        j % entriesPerClust E.mount := Nat.add_mod_right ..
    rw [← hmod]
    refine .filled ?_ ?_ (hr.imp_left (fun hr => by rw [hr]; congr 1; omega))
    · rw [freeIndex_full h, hidx]
      rfl
    · rw [Nat.add_div_right _ hpos, List.getElem?_cons_succ]
      exact hz
  | @extended l1 l2 y n r V' hl hl2 hfull hex =>
    refine .extended (show x :: l = (x :: l1) ++ y :: l2 by rw [hl]; rfl) (n := n) hl2 ?_ ?_
    · rw [List.cons_append, freeIndex_full h, hfull]
      rfl
    · have hk : base + entriesPerClust E.mount + (l1.length + 1) * entriesPerClust E.mount =
          base + ((x :: l1).length + 1) * entriesPerClust E.mount := by
        rw [List.length_cons, Nat.add_mul (l1.length + 1) 1, Nat.one_mul]
        omega
      exact hk ▸ hex

theorem writeDirEntryFrom_runs (hE : E.Lawful) (hg : Good E w) (hopen : E.Opens .writeDirEntry l)
    (hopenX : E.Opens .extendDir l) (hc : E.ok c)
    (hl : Link E.clusters (E.vol w) e c l) (he : ¬E.ok e)
    (hend : e = fat32Eof ∨ freeIndex (E.vol w) (entriesPerClust E.mount) l ≠ none)
    (hroom : (freeIndex (E.vol w) (entriesPerClust E.mount) l ≠ none ∧
      ¬E.fatFails .writeDirEntry) ∨ E.CanGrow (E.vol w))
    (hslot : slot.length = 32) :
    Runs (writeDirEntryFrom slot fuel c k) w (fun r w' => Step E w w' ∧
      Placed E (E.vol w) slot k l r (E.vol w')) (fun w' => Good E w' ∧ fuel ≤ l.length) := by
  induction fuel generalizing w c l k with
  | zero => exact Runs.stopped ⟨hg, Nat.zero_le _⟩
  | succ fuel ih =>
    cases l with
    | nil => exact absurd (show c = e from hl) (fun h => he (h ▸ hc))
    | cons x l =>
      obtain ⟨rfl, -, hl⟩ := hl
      have hmem : x ∈ x :: l := List.mem_cons_self ..
      cases hfree : freeSlot ((E.vol w).data x) (entriesPerClust E.mount) 0 with
      | some i =>
        have hi := freeSlot_lt hfree
        rw [Nat.zero_add] at hi
        have hidx : freeIndex (E.vol w) (entriesPerClust E.mount) (x :: l) = some i := by
          rw [freeIndex_cons, hfree]
        have hget : (x :: l)[i / entriesPerClust E.mount]? = some x := by
          rw [Nat.div_eq_of_lt hi]
          rfl
        refine (writeDirEntryFrom_here hE hg hopen hc (.inl hmem) hslot hfree).mono ?_
          (fun _ h => h.elim)
        rintro r w1 ⟨hs1, ⟨hvol1, hr⟩ | ⟨hvol1, ⟨z, rfl⟩, hfail⟩⟩
        · refine ⟨hs1, ?_⟩
          have hfill : Placed E (E.vol w) slot k (x :: l) r _ := .filled hidx hget hr
          rwa [Nat.mod_eq_of_lt hi, ← hvol1] at hfill
        · rw [hvol1]
          exact ⟨hs1, .failed hfail⟩
      | none =>
        have hfull := freeIndex_full (l := l) hfree
        unfold writeDirEntryFrom
        rw [if_pos (hE.fits.lt_eof hc)]
        refine (clusterRead_runs hE hg hc (hopen.of_mem hmem rfl)).then ?_
        rintro r w1 ⟨hs1, hv1, -, ⟨b, rfl, hb⟩ | ⟨rfl, hfail⟩⟩
        · have hvol1 : E.vol w1 = E.vol w := E.vol_congr hv1
          have hepc : 32 * (0 + entriesPerClust E.mount) ≤ E.mount.bytesPerClust := by
            have := hE.fits.epc_eq
            have := hE.fits.bpc
            omega
          have hfree' : freeSlot b (entriesPerClust E.mount) 0 = none := by
            rw [freeSlot_congr (fun j hj => hb j (by omega)), hfree]
          refine Runs.get_bind ?_
          rw [hs1.good.mount]
          simp only [hfree']
          refine (fatGet_runs hE hs1.good hc (hopen.of_mem hmem rfl)).then ?_
          rintro next w2 ⟨hs2, hv2, -, hnext⟩
          have hvol2 : E.vol w2 = E.vol w := by rw [← hvol1, Env.vol, Env.vol, hv2]
          rw [hvol1] at hnext
          have hs := hs1.trans hs2
          -- behind x the directory ends, or its table entry could not be read
          have hgrow : (l = [] ∨ E.fatFails .writeDirEntry) →
              E.CanGrow (E.vol w) → Runs (do
                let newC ← fatAllocCluster
                if newC = 0 then pure (.error fat32ErrNospace)
                else do
                  let _ ← clusterWrite .extendDir newC (fun _ => 0)
                  let _ ← fatSet .writeDirEntry x newC
                  writeDirEntryFrom slot fuel newC (k + entriesPerClust E.mount)) w2
              (fun r w' => Step E w w' ∧ Placed E (E.vol w) slot k (x :: l) r (E.vol w'))
              (fun w' => Good E w' ∧ fuel + 1 ≤ (x :: l).length) := by
            intro hlast hroom1
            rw [← hvol2] at hroom1
            refine (grow_runs hE hs2.good hopen hopenX hroom1 hc hmem hslot).mono ?_
              (fun w' h => ⟨h.1, by simp [h.2]⟩)
            rintro r w3 ⟨hs3, ⟨rfl, hvol3, hspare⟩ | ⟨n, hex⟩⟩
            · rw [hvol2] at hspare
              rw [hvol3, hvol2]
              refine ⟨hs.trans hs3, .nospace (hlast.imp_left (fun h => ?_)) hspare⟩
              rw [hfull, h]
              rfl
            · rw [hvol2] at hex
              refine ⟨hs.trans hs3, .extended (show x :: l = [] ++ x :: l from rfl) (n := n) hlast ?_ ?_⟩
              · rw [List.nil_append, freeIndex_full hfree]
                rfl
              · simpa using hex
          rcases hnext with rfl | ⟨rfl, hfail⟩
          · cases l with
            | nil =>
              have hlast : (E.vol w).fat x = e := hl
              have hnone : freeIndex (E.vol w) (entriesPerClust E.mount) [x] = none := by
                rw [hfull]
                rfl
              rw [hlast, hend.resolve_right (fun h => h hnone), if_pos (by decide)]
              exact hgrow (.inl rfl) (hroom.resolve_left (fun h => h.1 hnone))
            | cons y l =>
              have hok := hl.2.1
              have hlt := hE.fits.lt_eof hok
              rw [if_neg (by omega)]
              have hidx : freeIndex (E.vol w) (entriesPerClust E.mount) (x :: y :: l) ≠ none →
                  freeIndex (E.vol w) (entriesPerClust E.mount) (y :: l) ≠ none := by
                rw [hfull]
                intro h h'
                rw [h'] at h
                exact h rfl
              have hsub : ∀ z ∈ y :: l, z ∈ x :: y :: l := fun z hz => List.mem_cons_of_mem _ hz
              have hrun := ih (k := k + entriesPerClust E.mount) hs2.good (hopen.mono hsub)
                (hopenX.mono hsub) hok (hvol2.symm ▸ hl)
                (hvol2.symm ▸ hend.imp_right hidx)
                (hvol2.symm ▸ hroom.imp_left (And.imp_left hidx))
              refine hrun.mono ?_ (fun w' h => ⟨h.1, by simpa using h.2⟩)
              rintro r w3 ⟨hs3, hp3⟩
              rw [hvol2] at hp3
              exact ⟨hs.trans hs3, hp3.cons hE.fits hfree⟩
          · rw [if_pos (by decide)]
            exact hgrow (.inr hfail) (hroom.resolve_left (fun h => h.2 hfail))
        · have hvol1 : E.vol w1 = E.vol w := E.vol_congr hv1
          rw [← hvol1]
          exact Runs.pure ⟨hs1, .failed (.inl hfail)⟩

theorem padTo_length (n : Nat) (s : List UInt8) : (padTo n s).length = n := by
  simp [padTo]
  omega

theorem newSlot_length (name : List UInt8) (attr : UInt8) (cluster size : Nat) :
    (newSlot name attr cluster size).length = 32 := by
  simp [newSlot, make83, padTo_length, le]

theorem writeDirEntry_runs (hE : E.Lawful) (hg : Good E w) (hopen : E.Opens .writeDirEntry l)
    (hopenX : E.Opens .extendDir l) {dirCluster : Nat}
    (hc : E.ok (dirHead E.mount dirCluster))
    (hl : Link E.clusters (E.vol w) e (dirHead E.mount dirCluster) l) (he : ¬E.ok e)
    (hend : e = fat32Eof ∨ freeIndex (E.vol w) (entriesPerClust E.mount) l ≠ none)
    (hroom : (freeIndex (E.vol w) (entriesPerClust E.mount) l ≠ none ∧
      ¬E.fatFails .writeDirEntry) ∨ E.CanGrow (E.vol w))
    (name : List UInt8) (attr : UInt8) (cluster size : Nat) :
    Runs (writeDirEntry fuel dirCluster name attr cluster size) w (fun r w' => Step E w w' ∧
      Placed E (E.vol w) (newSlot name attr cluster size) 0 l r (E.vol w'))
      (fun w' => Good E w' ∧ fuel ≤ l.length) := by
  unfold writeDirEntry
  refine Runs.get_bind ?_
  refine (kmalloc_runs hg).then ?_
  rintro ok w1 ⟨hs1, hv1, hheap⟩
  have hvol1 : E.vol w1 = E.vol w := E.vol_congr hv1
  cases ok with
  | false =>
    rw [← hvol1]
    exact Runs.pure ⟨hs1, .failed (.inr (.inr (hheap rfl)))⟩
  | true =>
    simp only [Bool.not_true, Bool.false_eq_true, if_false]
    rw [hg.mount]
    rw [← hvol1] at hl hend hroom
    refine (writeDirEntryFrom_runs hE hs1.good hopen hopenX hc hl he hend hroom
      (newSlot_length name attr cluster size)).mono ?_ (fun _ h => h)
    rintro r w2 ⟨hs2, hp⟩
    exact ⟨hs1.trans hs2, hvol1 ▸ hp⟩

end Write

end Fat32
