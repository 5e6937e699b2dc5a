import SabakaOS.Fat32.Driver
import SabakaOS.Fat32.Walks

namespace Fat32

open Word ByteMemory Prog Chain

def dirSlots (V : Vol) (epc : Nat) (l : List Nat) : List Slot :=
  l.flatMap fun c => (List.range' 0 epc).map fun i => slotAt V (c, i)

def pending (lfns : List Slot) (de : Slot) : List Slot :=
  if de 0 ≠ 0xE5 ∧ slotAttr de = attrLfn then (if lfns.length < 20 then de :: lfns else lfns)
  else []

def entryOf (dirCluster k : Nat) (lfns : List Slot) (de : Slot) : Fat32Entry where
  name := slotName lfns de
  attr := slotAttr de
  cluster := slotCluster de
  size := slotSize de
  dirCluster := dirCluster
  dirIndex := k

-- What fat32_readdir reports of a directory's slots, index after index.
def entries (dirCluster : Nat) : List Slot → Nat → List Slot → List Fat32Entry
  | [], _, _ => []
  | de :: rest, k, lfns =>
    if de 0 = 0x00 then []
    else if Names de then entryOf dirCluster k lfns de :: entries dirCluster rest (k + 1) []
    else entries dirCluster rest (k + 1) (pending lfns de)

def listing (V : Vol) (epc dirCluster : Nat) (l : List Nat) : List Fat32Entry :=
  entries dirCluster (dirSlots V epc l) 0 []

def lookup : Option Fat32Entry → Except Int Fat32Entry
  | some e => .ok e
  | none => .error fat32ErrNoent

section Listing

variable {dirCluster index k : Nat} {lfns slots : List Slot} {de : Slot}

theorem not_names_lfn (h : slotAttr de = attrLfn) : ¬Names de := by
  rintro ⟨-, -, hv⟩
  rw [h] at hv
  exact absurd hv (by decide)

theorem entries_length_le : (entries dirCluster slots k lfns).length ≤ slots.length := by
  induction slots generalizing k lfns with
  | nil => simp [entries]
  | cons de rest ih =>
    unfold entries
    split
    · simp
    · split
      · simpa using ih
      · have := @ih (k + 1) (pending lfns de)
        simp only [List.length_cons]
        omega

theorem dirSlots_length (V : Vol) (epc : Nat) (l : List Nat) :
    (dirSlots V epc l).length = l.length * epc := by
  simp [dirSlots, List.length_flatMap]

theorem listing_length_le (V : Vol) (epc : Nat) (l : List Nat) :
    (listing V epc dirCluster l).length ≤ l.length * epc :=
  (entries_length_le).trans (dirSlots_length V epc l).le

theorem slotOf_congr {b b' : Buffer} {i n : Nat} (h : ∀ j < 32 * n, b j = b' j) (hi : i < n) :
    slotOf b i = slotOf b' i := by
  funext j
  unfold slotOf
  split
  · exact h _ (by omega)
  · rfl

theorem entries_skip (h0 : de 0 ≠ 0x00) (hn : ¬Names de) (rest : List Slot) :
    entries dirCluster (de :: rest) k lfns = entries dirCluster rest (k + 1) (pending lfns de) := by
  rw [entries, if_neg h0, if_neg hn]

theorem entries_names (hn : Names de) (rest : List Slot) :
    entries dirCluster (de :: rest) k lfns =
      entryOf dirCluster k lfns de :: entries dirCluster rest (k + 1) [] := by
  rw [entries, if_neg hn.1, if_pos hn]

theorem entries_end (h0 : de 0 = 0x00) (rest : List Slot) :
    entries dirCluster (de :: rest) k lfns = [] := by
  rw [entries, if_pos h0]

-- An entry says which slot it has been read from.
theorem slot_of_mem {f : Fat32Entry} (h : f ∈ entries dirCluster slots k lfns) :
    ∃ s, slots[f.dirIndex - k]? = some s ∧ k ≤ f.dirIndex ∧ Names s ∧
      f.dirCluster = dirCluster ∧ f.attr = slotAttr s ∧ f.cluster = slotCluster s ∧
      f.size = slotSize s := by
  induction slots generalizing k lfns with
  | nil => cases h
  | cons s slots ih =>
    have hlater : ∀ lfns', f ∈ entries dirCluster slots (k + 1) lfns' →
        ∃ t, (s :: slots)[f.dirIndex - k]? = some t ∧ k ≤ f.dirIndex ∧ Names t ∧
          f.dirCluster = dirCluster ∧ f.attr = slotAttr t ∧ f.cluster = slotCluster t ∧
          f.size = slotSize t := by
      intro lfns' hf
      obtain ⟨t, ht, hle, hrest⟩ := ih hf
      refine ⟨t, ?_, Nat.le_of_succ_le hle, hrest⟩
      rwa [show f.dirIndex - k = f.dirIndex - (k + 1) + 1 by omega, List.getElem?_cons_succ]
    unfold entries at h
    split at h
    · cases h
    · split at h
      · rename_i hn
        rcases List.mem_cons.mp h with rfl | h
        · refine ⟨s, ?_, le_rfl, hn, rfl, rfl, rfl, rfl⟩
          rw [entryOf, Nat.sub_self]
          rfl
        · exact hlater _ h
      · exact hlater _ h

-- What a scan of some slots, from st on, says of the entry with the wanted index.
def Agrees (dirCluster index : Nat) (slots : List Slot) (st : Scan) : Scanned → Prop
  | .found e => ∀ rest,
      (entries dirCluster (slots ++ rest) st.rawIdx st.lfns)[index - st.entryIdx]? = some e
  | .noent => ∀ rest,
      (entries dirCluster (slots ++ rest) st.rawIdx st.lfns)[index - st.entryIdx]? = none
  | .next st' => st'.entryIdx ≤ index ∧ (∀ s ∈ slots, s 0 ≠ 0x00) ∧
      ∀ rest, (entries dirCluster (slots ++ rest) st.rawIdx st.lfns)[index - st.entryIdx]? =
        (entries dirCluster rest st'.rawIdx st'.lfns)[index - st'.entryIdx]?

theorem Agrees.cons {st st' : Scan} {r : Scanned} (h : Agrees dirCluster index slots st' r)
    (h0 : de 0 ≠ 0x00)
    (hstep : ∀ rest, (entries dirCluster (de :: rest) st.rawIdx st.lfns)[index - st.entryIdx]? =
      (entries dirCluster rest st'.rawIdx st'.lfns)[index - st'.entryIdx]?) :
    Agrees dirCluster index (de :: slots) st r := by
  cases r with
  | found e => exact fun rest => (hstep _).trans (h rest)
  | noent => exact fun rest => (hstep _).trans (h rest)
  | next st'' =>
    obtain ⟨h1, h2, h3⟩ := h
    refine ⟨h1, fun s hs => ?_, fun rest => (hstep _).trans (h3 rest)⟩
    rcases List.mem_cons.mp hs with rfl | hs
    · exact h0
    · exact h2 s hs

theorem readdirSlots_agrees {buf : Buffer} {n i : Nat} {st : Scan} (hi : st.entryIdx ≤ index) :
    Agrees dirCluster index ((List.range' i n).map (slotOf buf)) st
      (readdirSlots dirCluster index buf n i st) := by
  induction n generalizing i st with
  | zero => exact ⟨hi, by simp, fun rest => rfl⟩
  | succ n ih =>
    unfold readdirSlots
    simp only [List.range'_succ, List.map_cons]
    by_cases h0 : slotOf buf i 0 = 0x00
    · rw [if_pos h0]
      intro rest
      rw [List.cons_append, entries_end h0]
      rfl
    rw [if_neg h0]
    by_cases h5 : slotOf buf i 0 = 0xE5
    · rw [if_pos h5]
      have hskip : ∀ rest, entries dirCluster (slotOf buf i :: rest) st.rawIdx st.lfns =
          entries dirCluster rest (st.rawIdx + 1) [] := fun rest => by
        rw [entries_skip h0 (fun h => h.2.1 h5), pending, if_neg (fun h => h.1 h5)]
      refine Agrees.cons (ih ?_) h0 (fun rest => ?_)
      · exact hi
      · rw [hskip]
    rw [if_neg h5]
    by_cases hl : slotAttr (slotOf buf i) = attrLfn
    · rw [if_pos hl]
      refine Agrees.cons (ih ?_) h0 (fun rest => ?_)
      · exact hi
      · rw [entries_skip h0 (not_names_lfn hl), pending, if_pos ⟨h5, hl⟩]
    rw [if_neg hl]
    cases hv : hasAttr (slotAttr (slotOf buf i)) attrVolumeId with
    | true =>
      rw [if_pos rfl]
      have hskip : ∀ rest, entries dirCluster (slotOf buf i :: rest) st.rawIdx st.lfns =
          entries dirCluster rest (st.rawIdx + 1) [] := fun rest => by
        have hn : ¬Names (slotOf buf i) := by
          rintro ⟨-, -, hv'⟩
          rw [hv] at hv'
          cases hv'
        rw [entries_skip h0 hn, pending, if_neg (fun h => hl h.2)]
      refine Agrees.cons (ih ?_) h0 (fun rest => ?_)
      · exact hi
      · rw [hskip]
    | false =>
      rw [if_neg (by decide)]
      have hn : Names (slotOf buf i) := ⟨h0, h5, hv⟩
      by_cases hidx : st.entryIdx = index
      · rw [if_pos hidx]
        intro rest
        rw [List.cons_append, entries_names hn, hidx, Nat.sub_self]
        rfl
      · rw [if_neg hidx]
        have hlt : st.entryIdx + 1 ≤ index := by omega
        refine Agrees.cons (ih hlt) h0 (fun rest => ?_)
        rw [entries_names hn, show index - st.entryIdx = index - (st.entryIdx + 1) + 1 by omega,
          List.getElem?_cons_succ]

end Listing

section Readdir

variable {E : Env} {w : World} {dirCluster index c e fuel : Nat} {l : List Nat}

theorem readdirSlots_congr {b b' : Buffer} {n i : Nat} {st : Scan}
    (h : ∀ j < 32 * (i + n), b j = b' j) :
    readdirSlots dirCluster index b n i st = readdirSlots dirCluster index b' n i st := by
  induction n generalizing i st with
  | zero => rfl
  | succ n ih =>
    unfold readdirSlots
    rw [slotOf_congr h (by omega)]
    simp only [ih (i := i + 1) (fun j hj => h j (by omega))]

-- The scan needs no cluster behind the chain.
def Within (V : Vol) (epc dirCluster index e : Nat) (l : List Nat) (st : Scan) : Prop :=
  e = fat32Eof ∨ (∃ s ∈ dirSlots V epc l, s 0 = 0x00) ∨
    (entries dirCluster (dirSlots V epc l) st.rawIdx st.lfns)[index - st.entryIdx]? ≠ none

theorem readdirFrom_runs (hE : E.Lawful) (hg : Good E w) (hopen : E.Opens .readdir l)
    (hl : Link E.clusters (E.vol w) e c l) {st : Scan} (hi : st.entryIdx ≤ index)
    (hw : Within (E.vol w) (entriesPerClust E.mount) dirCluster index e l st) :
    Runs (readdirFrom dirCluster index fuel c st) w (fun r w' => Step E w w' ∧ view w' = view w ∧
      (r = lookup (entries dirCluster (dirSlots (E.vol w) (entriesPerClust E.mount) l)
          st.rawIdx st.lfns)[index - st.entryIdx]? ∨
        ((∃ x, r = .error x) ∧ (E.fatFails .readdir ∨ E.ataFails .readdir .clusterRead))))
      (fun w' => Good E w' ∧ fuel ≤ l.length) := by
  induction fuel generalizing w c l st with
  | zero => exact Runs.stopped ⟨hg, Nat.zero_le _⟩
  | succ fuel ih =>
    unfold readdirFrom
    cases l with
    | nil =>
      have hend : c = fat32Eof := by
        rcases hw with h | ⟨s, hs, -⟩ | h
        · exact (show c = e from hl).trans h
        · simp [dirSlots] at hs
        · exact absurd rfl h
      rw [hend, if_neg (by decide)]
      exact Runs.pure ⟨hg.step, rfl, .inl rfl⟩
    | cons x l =>
      obtain ⟨rfl, hok, hl⟩ := hl
      have hrule := fun t (e : Event) => hopen.of_mem (List.mem_cons_self ..) (t := t) (e := e)
      rw [if_pos (hE.fits.lt_eof hok).symm]
      refine (clusterRead_runs hE hg hok (hrule _ _ rfl)).then ?_
      rintro r w1 ⟨hs1, hv1, -, ⟨b, rfl, hb⟩ | ⟨rfl, hfail⟩⟩
      · refine Runs.get_bind ?_
        have hvol1 : E.vol w1 = E.vol w := E.vol_congr hv1
        have hepc : 32 * (0 + entriesPerClust E.mount) ≤ E.mount.bytesPerClust := by
          have := hE.fits.epc_eq
          have := hE.fits.bpc
          omega
        rw [hs1.good.mount, readdirSlots_congr (fun j hj => hb j (by omega))]
        have hslots : dirSlots (E.vol w) (entriesPerClust E.mount) (x :: l) =
            (List.range' 0 (entriesPerClust E.mount)).map (slotOf ((E.vol w).data x)) ++
              dirSlots (E.vol w) (entriesPerClust E.mount) l := rfl
        have hagree := @readdirSlots_agrees dirCluster index ((E.vol w).data x)
          (entriesPerClust E.mount) 0 st hi
        rw [hslots]
        generalize hr : readdirSlots dirCluster index ((E.vol w).data x)
          (entriesPerClust E.mount) 0 st = r at hagree ⊢
        cases r with
        | noent =>
          refine Runs.pure ⟨hs1, hv1, .inl ?_⟩
          rw [hagree]
          rfl
        | found e' =>
          refine Runs.pure ⟨hs1, hv1, .inl ?_⟩
          rw [hagree]
          rfl
        | next st' =>
          obtain ⟨hi', hnz, hrest⟩ := hagree
          refine (fatGet_runs hE hs1.good hok (hrule _ _ rfl)).then ?_
          rintro next w2 ⟨hs2, hv2, -, hnext⟩
          have hvol2 : E.vol w2 = E.vol w := by rw [← hvol1, Env.vol, Env.vol, hv2]
          rw [hvol1] at hnext
          rcases hnext with rfl | ⟨rfl, hfail⟩
          · have hw' : Within (E.vol w) (entriesPerClust E.mount) dirCluster index e l st' := by
              refine hw.imp_right (Or.imp ?_ ?_)
              · rintro ⟨s, hs, h0⟩
                rw [hslots, List.mem_append] at hs
                exact ⟨s, hs.resolve_left (fun h => hnz s h h0), h0⟩
              · rw [hslots, hrest]
                exact id
            rw [← hvol2] at hw'
            refine (ih hs2.good (hopen.mono (fun y hy => List.mem_cons_of_mem _ hy))
              (hvol2 ▸ hl) hi' hw').mono ?_ (fun w' h => ⟨h.1, by simpa using h.2⟩)
            rintro r w3 ⟨hs3, hv3, hr3⟩
            rw [hvol2] at hr3
            rw [hrest]
            exact ⟨(hs1.trans hs2).trans hs3, (hv3.trans hv2).trans hv1, hr3⟩
          · cases fuel with
            | zero => exact Runs.stopped ⟨hs2.good, by simp⟩
            | succ fuel =>
              unfold readdirFrom
              rw [if_neg (by decide)]
              exact Runs.pure ⟨hs1.trans hs2, hv2.trans hv1, .inr ⟨⟨_, rfl⟩, .inl hfail⟩⟩
      · exact Runs.pure ⟨hs1, hv1, .inr ⟨⟨_, rfl⟩, .inr hfail⟩⟩

def Env.listFails (E : Env) : Prop :=
  E.fatFails .readdir ∨ E.ataFails .readdir .clusterRead ∨ E.heapFails .readdir

theorem Env.Quiet.list {E : Env} (h : E.Quiet) : ¬E.listFails := fun hf =>
  hf.elim (h.fat _) fun hf => hf.elim (h.ata _ _) (h.heap _)

theorem fat32Readdir_runs (hE : E.Lawful) (hg : Good E w) (hopen : E.Opens .readdir l)
    (hl : Link E.clusters (E.vol w) e (dirHead E.mount dirCluster) l)
    (hw : Within (E.vol w) (entriesPerClust E.mount) dirCluster index e l scanStart) :
    Runs (fat32Readdir fuel dirCluster index) w (fun r w' => Step E w w' ∧ view w' = view w ∧
      (r = lookup (listing (E.vol w) (entriesPerClust E.mount) dirCluster l)[index]? ∨
        ((∃ x, r = .error x) ∧ E.listFails))) (fun w' => Good E w' ∧ fuel ≤ l.length) := by
  unfold fat32Readdir
  refine Runs.get_bind ?_
  rw [hg.mount, hE.fits.mounted]
  refine (kmalloc_runs hg).then ?_
  rintro ok w1 ⟨hs1, hv1, hheap⟩
  have hvol1 : E.vol w1 = E.vol w := E.vol_congr hv1
  cases ok with
  | false => exact Runs.pure ⟨hs1, hv1, .inr ⟨⟨_, rfl⟩, .inr (.inr (hheap rfl))⟩⟩
  | true =>
    simp only [Bool.not_true, Bool.false_eq_true, if_false]
    refine (readdirFrom_runs hE hs1.good hopen (hvol1 ▸ hl) (Nat.zero_le index)
      (hvol1 ▸ hw)).mono ?_ (fun _ h => h)
    rintro r w2 ⟨hs2, hv2, hr⟩
    rw [hvol1] at hr
    refine ⟨hs1.trans hs2, hv2.trans hv1, hr.imp id (And.imp_right ?_)⟩
    exact fun h => h.elim .inl (fun h => .inr (.inl h))

variable {name : List UInt8} {n i : Nat}

theorem length_le_slots {V : Vol} (hf : Fits E.mount E.clusters) :
    l.length ≤ l.length * entriesPerClust E.mount ∧
      (listing V (entriesPerClust E.mount) dirCluster l).length ≤
        l.length * entriesPerClust E.mount :=
  ⟨Nat.le_mul_of_pos_right _ hf.epc_pos, listing_length_le V _ l⟩

def Skipped (name : List UInt8) (e : Fat32Entry) : Prop :=
  isDots e.name ∨ kstricmp e.name name ≠ 0

instance (e : Fat32Entry) : Decidable (Skipped name e) :=
  inferInstanceAs (Decidable (_ ∨ _))

def Env.Finds (E : Env) (es : List Fat32Entry) (name : List UInt8) : Except Int Fat32Entry → Prop
  | .ok e => ∃ i : Nat, es[i]? = some e ∧ (∀ e' ∈ es.take i, Skipped name e') ∧ ¬Skipped name e
  | .error _ => (∀ e ∈ es, Skipped name e) ∨ E.listFails

-- A walk over the directory meets the driver's own end marker or a slot that was never used.
def Bounded (V : Vol) (epc e : Nat) (l : List Nat) : Prop :=
  e = fat32Eof ∨ ∃ s ∈ dirSlots V epc l, s 0 = 0x00

theorem findFrom_runs (hE : E.Lawful) (hg : Good E w) (hopen : E.Opens .readdir l)
    (hl : Link E.clusters (E.vol w) e (dirHead E.mount dirCluster) l)
    (hend : Bounded (E.vol w) (entriesPerClust E.mount) e l)
    {es : List Fat32Entry} (hes : listing (E.vol w) (entriesPerClust E.mount) dirCluster l = es)
    (hi : i ≤ es.length) (hskip : ∀ e ∈ es.take i, Skipped name e) (hn : fuel ≤ n + i) :
    Runs (findFrom fuel dirCluster name n i) w (fun r w' => Step E w w' ∧ view w' = view w ∧
      E.Finds es name r) (fun w' => Good E w' ∧ fuel ≤ l.length * entriesPerClust E.mount) := by
  have hlen := @length_le_slots E dirCluster l (E.vol w) hE.fits
  rw [hes] at hlen
  induction n generalizing w i with
  | zero => exact Runs.stopped ⟨hg, by omega⟩
  | succ n ih =>
    unfold findFrom
    refine ((fat32Readdir_runs hE hg hopen hl (hend.imp_right .inl)).mono (fun _ _ h => h)
      (fun _ h => ⟨h.1, h.2.trans hlen.1⟩)).bind ?_
    rintro r w1 ⟨hs1, hv1, hr⟩
    have hvol1 : E.vol w1 = E.vol w := E.vol_congr hv1
    rw [hes] at hr
    rcases hr with rfl | ⟨⟨x, rfl⟩, hfail⟩
    · rcases hget : es[i]? with _ | e
      · refine Runs.pure ⟨hs1, hv1, .inl (fun e he => hskip e ?_)⟩
        rwa [List.take_of_length_le (List.getElem?_eq_none_iff.mp hget)]
      · have hgo : Skipped name e → Runs (findFrom fuel dirCluster name n (i + 1)) w1
            (fun r w' => Step E w w' ∧ view w' = view w ∧ E.Finds es name r)
            (fun w' => Good E w' ∧ fuel ≤ l.length * entriesPerClust E.mount) := fun hno => by
          refine (ih hs1.good (hvol1 ▸ hl) (hvol1 ▸ hend) (hvol1 ▸ hes) ?_ (fun e' he' => ?_)
            (by omega)).mono
            (fun r w2 h => ⟨hs1.trans h.1, h.2.1.trans hv1, h.2.2⟩) (fun _ h => h)
          · have := (List.getElem?_eq_some_iff.mp hget).1
            omega
          · rw [List.take_add_one, hget, List.mem_append] at he'
            rcases he' with he' | he'
            · exact hskip e' he'
            · obtain rfl : e' = e := by simpa using he'
              exact hno
        change Runs (if isDots e.name = true then findFrom fuel dirCluster name n (i + 1)
          else if kstricmp e.name name = 0 then pure (.ok e)
          else findFrom fuel dirCluster name n (i + 1)) w1 _ _
        split
        · rename_i hd
          exact hgo (.inl hd)
        · rename_i hd
          split
          · rename_i hk
            refine Runs.pure ⟨hs1, hv1, i, hget, hskip, ?_⟩
            rintro (h | h)
            · exact hd h
            · exact h hk
          · rename_i hk
            exact hgo (.inr hk)
    · exact Runs.pure ⟨hs1, hv1, .inr hfail⟩

theorem fat32Find_ended (hE : E.Lawful) (hg : Good E w) (hopen : E.Opens .readdir l)
    (hl : Link E.clusters (E.vol w) e (dirHead E.mount dirCluster) l)
    (hend : Bounded (E.vol w) (entriesPerClust E.mount) e l) :
    Runs (fat32Find fuel dirCluster name) w (fun r w' => Step E w w' ∧ view w' = view w ∧
      E.Finds (listing (E.vol w) (entriesPerClust E.mount) dirCluster l) name r)
      (fun w' => Good E w' ∧ fuel ≤ l.length * entriesPerClust E.mount) :=
  findFrom_runs hE hg hopen hl hend rfl (Nat.zero_le _) (by simp) le_rfl

theorem fat32Find_runs (hE : E.Lawful) (hg : Good E w) (hopen : E.Opens .readdir l)
    (hl : Link E.clusters (E.vol w) fat32Eof (dirHead E.mount dirCluster) l) :
    Runs (fat32Find fuel dirCluster name) w (fun r w' => Step E w w' ∧ view w' = view w ∧
      E.Finds (listing (E.vol w) (entriesPerClust E.mount) dirCluster l) name r)
      (fun w' => Good E w' ∧ fuel ≤ l.length * entriesPerClust E.mount) :=
  fat32Find_ended hE hg hopen hl (.inl rfl)

-- The scan ends well only where it has met no entry but '.' and '..'.
theorem rmdirScan_lists (hE : E.Lawful) (hg : Good E w) (hopen : E.Opens .readdir l)
    (hl : Link E.clusters (E.vol w) fat32Eof (dirHead E.mount dirCluster) l)
    {es : List Fat32Entry} (hes : listing (E.vol w) (entriesPerClust E.mount) dirCluster l = es)
    (hi : i ≤ es.length) (hdots : ∀ e ∈ es.take i, isDots e.name = true) (hn : fuel ≤ n + i) :
    Runs (rmdirScan fuel dirCluster n i) w (fun r w' => Step E w w' ∧ view w' = view w ∧
      ((r ≠ some fat32Ok ∧ (r = none → ∀ e ∈ es, isDots e.name = true)) ∨ E.listFails))
      (fun w' => Good E w' ∧ fuel ≤ l.length * entriesPerClust E.mount) := by
  have hlen := @length_le_slots E dirCluster l (E.vol w) hE.fits
  rw [hes] at hlen
  induction n generalizing w i with
  | zero => exact Runs.stopped ⟨hg, by omega⟩
  | succ n ih =>
    unfold rmdirScan
    refine ((fat32Readdir_runs hE hg hopen hl (.inl rfl)).mono (fun _ _ h => h)
      (fun _ h => ⟨h.1, h.2.trans hlen.1⟩)).bind ?_
    rintro r w1 ⟨hs1, hv1, hr⟩
    have hvol1 : E.vol w1 = E.vol w := E.vol_congr hv1
    rw [hes] at hr
    rcases hr with rfl | ⟨⟨x, rfl⟩, hfail⟩
    · rcases hget : es[i]? with _ | e
      · refine Runs.pure ⟨hs1, hv1, .inl ⟨by decide, fun _ e he => hdots e ?_⟩⟩
        rwa [List.take_of_length_le (List.getElem?_eq_none_iff.mp hget)]
      · change Runs (if isDots e.name = true then rmdirScan fuel dirCluster n (i + 1)
          else pure (some fat32ErrExist)) w1 _ _
        split
        · rename_i hd
          refine (ih hs1.good (hvol1 ▸ hl) (hvol1 ▸ hes) ?_ (fun e' he' => ?_) (by omega)).mono
            (fun r w2 h => ⟨hs1.trans h.1, h.2.1.trans hv1, h.2.2⟩) (fun _ h => h)
          · have := (List.getElem?_eq_some_iff.mp hget).1
            omega
          · rw [List.take_add_one, hget, List.mem_append] at he'
            rcases he' with he' | he'
            · exact hdots e' he'
            · obtain rfl : e' = e := by simpa using he'
              exact hd
        · exact Runs.pure ⟨hs1, hv1, .inl ⟨by decide, fun h => by cases h⟩⟩
    · exact Runs.pure ⟨hs1, hv1, .inr hfail⟩

end Readdir

end Fat32
