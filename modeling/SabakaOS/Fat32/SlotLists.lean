import SabakaOS.Fat32.Entries

namespace Fat32

open Word ByteMemory Prog Chain

section Listing

variable {dirCluster k : Nat} {lfns slots post : List Slot} {s : Slot} {e : Fat32Entry}

theorem pending_names (h : Names s) : pending lfns s = [] :=
  if_neg (fun hp => not_names_lfn hp.2 h)

theorem entries_append (h : ∀ s ∈ slots, s 0 ≠ 0x00) (post : List Slot) :
    entries dirCluster (slots ++ post) k lfns = entries dirCluster slots k lfns ++
      entries dirCluster post (k + slots.length) (slots.foldl pending lfns) := by
  induction slots generalizing k lfns with
  | nil => rfl
  | cons s slots ih =>
    have h0 := h s (by simp)
    have ih := fun k lfns => @ih k lfns (fun t ht => h t (by simp [ht]))
    rw [List.cons_append, List.foldl_cons, List.length_cons, Nat.add_comm slots.length,
      ← Nat.add_assoc]
    by_cases hn : Names s
    · rw [entries_names hn, entries_names hn, ih, pending_names hn]
      rfl
    · rw [entries_skip h0 hn, entries_skip h0 hn, ih]

theorem le_dirIndex (h : e ∈ entries dirCluster slots k lfns) : k ≤ e.dirIndex := by
  induction slots generalizing k lfns with
  | nil => cases h
  | cons s slots ih =>
    unfold entries at h
    split at h
    · cases h
    · split at h
      · rcases List.mem_cons.mp h with rfl | h
        · exact le_rfl
        · exact (Nat.le_succ k).trans (ih h)
      · exact (Nat.le_succ k).trans (ih h)

theorem entries_ended {more : List Slot} (h : ∀ z ∈ more, z 0 = 0x00) :
    entries dirCluster more k lfns = [] := by
  cases more with
  | nil => rfl
  | cons z more => exact entries_end (h z (by simp)) more

theorem entries_more {more : List Slot} (h : ∀ z ∈ more, z 0 = 0x00) :
    entries dirCluster (slots ++ more) k lfns = entries dirCluster slots k lfns := by
  induction slots generalizing k lfns with
  | nil => exact entries_ended h
  | cons s slots ih =>
    rw [List.cons_append, entries, entries, ih, ih]

theorem entries_dir (c c' : Nat) : entries c slots k lfns =
    (entries c' slots k lfns).map (fun e => { e with dirCluster := c }) := by
  induction slots generalizing k lfns with
  | nil => rfl
  | cons s slots ih =>
    unfold entries
    split
    · rfl
    · split
      · rw [List.map_cons, ih]
        rfl
      · exact ih

end Listing

-- Behind an end mark there are only end marks.
def Ended (slots : List Slot) : Prop := slots.Pairwise fun a b => a 0 = 0x00 → b 0 = 0x00

-- The slot s stands, with number k, where the first free one was.
def Inserted (slots : List Slot) (s : Slot) (k : Nat) (slots' : List Slot) : Prop :=
  k = (slots.takeWhile (fun s => !decide (SlotFree s))).length ∧ ∃ more,
    slots' = slots.takeWhile (fun s => !decide (SlotFree s)) ++ s :: (slots.drop (k + 1) ++ more) ∧
    ∀ z ∈ more, z 0 = 0x00

section Insert

variable {dirCluster k j : Nat} {slots slots' : List Slot} {s t : Slot}

theorem lead_split (slots : List Slot) :
    slots = slots.takeWhile (fun s => !decide (SlotFree s)) ∨
      ∃ t, SlotFree t ∧ slots = slots.takeWhile (fun s => !decide (SlotFree s)) ++
        t :: slots.drop ((slots.takeWhile (fun s => !decide (SlotFree s))).length + 1) := by
  have happ := List.takeWhile_append_dropWhile (p := fun s : Slot => !decide (SlotFree s)) (l := slots)
  cases hd : slots.dropWhile (fun s => !decide (SlotFree s)) with
  | nil =>
    rw [hd, List.append_nil] at happ
    exact .inl happ.symm
  | cons t rest =>
    have hfree := List.head?_dropWhile_not (fun s : Slot => !decide (SlotFree s)) slots
    rw [hd] at hfree happ
    refine .inr ⟨t, by simpa using hfree, ?_⟩
    generalize slots.takeWhile (fun s => !decide (SlotFree s)) = pre at happ ⊢
    subst happ
    rw [List.drop_append, List.drop_of_length_le (Nat.le_succ _), Nat.add_sub_cancel_left]
    rfl

theorem lead_nonzero : ∀ a ∈ slots.takeWhile (fun s => !decide (SlotFree s)), a 0 ≠ 0x00 := by
  intro a ha h0
  have hfree := List.mem_takeWhile_imp ha
  simp only [SlotFree, h0, true_or, decide_true, Bool.not_true] at hfree
  cases hfree

theorem Inserted.free (h : Inserted slots s k slots') (ht : slots[k]? = some t) : SlotFree t := by
  obtain ⟨rfl, -⟩ := h
  rcases lead_split slots with hfull | ⟨t', hfree, hsplit⟩
  · rw [List.getElem?_eq_none (by rw [← hfull])] at ht
    cases ht
  · rw [hsplit] at ht
    rw [List.getElem?_append_right (by rw [← hsplit]), ← hsplit, Nat.sub_self] at ht
    exact Option.some.inj ht ▸ hfree

theorem Inserted.ended (h : Inserted slots s k slots') (hend : Ended slots) (hs : s 0 ≠ 0x00) :
    Ended slots' := by
  obtain ⟨-, more, rfl, hmore⟩ := h
  have hdrop : Ended (slots.drop (k + 1)) := hend.sublist (List.drop_sublist ..)
  refine List.pairwise_append.mpr ⟨?_, ?_, fun a ha b _ h0 => absurd h0 (lead_nonzero a ha)⟩
  · exact hend.sublist (List.takeWhile_sublist _)
  · refine List.pairwise_cons.mpr ⟨fun b _ h0 => absurd h0 hs, ?_⟩
    refine List.pairwise_append.mpr ⟨hdrop, ?_, fun a _ b hb _ => hmore b hb⟩
    exact List.Pairwise.imp_of_mem (fun _ hb _ _ => hmore _ hb) (List.pairwise_of_forall
      (R := fun _ _ => True) (fun _ _ => trivial))

theorem Inserted.getElem? (h : Inserted slots s k slots') (hj : j < slots.length) (hne : j ≠ k) :
    slots'[j]? = slots[j]? := by
  obtain ⟨rfl, more, rfl, -⟩ := h
  rcases lead_split slots with hfull | ⟨t, -, hsplit⟩
  · have hlt : j < (slots.takeWhile (fun s => !decide (SlotFree s))).length := by rwa [← hfull]
    rw [List.getElem?_append_left hlt]
    exact congrArg (·[j]?) hfull.symm
  · conv_rhs => rw [hsplit]
    rcases Nat.lt_or_ge j (slots.takeWhile (fun s => !decide (SlotFree s))).length with hlt | hge
    · rw [List.getElem?_append_left hlt, List.getElem?_append_left hlt]
    · rw [List.getElem?_append_right hge, List.getElem?_append_right hge]
      obtain ⟨i, hi⟩ := Nat.exists_eq_add_of_lt (Nat.lt_of_le_of_ne hge (Ne.symm hne))
      have hsub : j - (slots.takeWhile (fun s => !decide (SlotFree s))).length = i + 1 := by omega
      rw [hsub, List.getElem?_cons_succ, List.getElem?_cons_succ, List.getElem?_append_left]
      rw [List.length_drop]
      omega

theorem Inserted.lists (h : Inserted slots s k slots') (hend : Ended slots)
    (hs : Names s ∨ s 0 = 0xE5) : ∃ before after,
    entries dirCluster slots 0 [] = before ++ after ∧
      entries dirCluster slots' 0 [] = before ++ ((if Names s then [entryOf dirCluster k
        ((slots.takeWhile (fun s => !decide (SlotFree s))).foldl pending []) s] else []) ++
          after) := by
  obtain ⟨hk, more, rfl, hmore⟩ := h
  refine ⟨entries dirCluster (slots.takeWhile (fun s => !decide (SlotFree s))) 0 [],
    entries dirCluster (slots.drop (k + 1)) (k + 1) [], ?_, ?_⟩
  · rcases lead_split slots with hfull | ⟨t, hfree, hsplit⟩
    · have hdrop : slots.drop (k + 1) = [] := by
        refine List.drop_of_length_le ?_
        rw [hk, ← hfull]
        exact Nat.le_succ _
      rw [hdrop, ← hfull]
      exact (List.append_nil _).symm
    · conv_lhs => rw [hsplit]
      rw [entries_append lead_nonzero, Nat.zero_add, ← hk]
      congr 1
      rcases hfree with h0 | h5
      · rw [entries_end h0]
        have hzero : ∀ z ∈ slots.drop (k + 1), z 0 = 0x00 := by
          intro z hz
          rw [Ended, hsplit, ← hk] at hend
          exact (List.pairwise_cons.mp (List.pairwise_append.mp hend).2.1).1 z hz h0
        exact (entries_ended hzero).symm
      · rw [entries_skip (by rw [h5]; decide) (fun hn => hn.2.1 h5), pending,
          if_neg (fun hp => hp.1 h5)]
  · rw [entries_append lead_nonzero, Nat.zero_add, ← hk]
    congr 1
    by_cases hn : Names s
    · rw [entries_names hn, entries_more hmore, if_pos hn]
      rfl
    · have h5 := hs.resolve_left hn
      rw [entries_skip (by rw [h5]; decide) hn, entries_more hmore, pending,
        if_neg (fun hp => hp.1 h5), if_neg hn]
      rfl

end Insert

section Delete

variable {dirCluster k j : Nat} {lfns slots : List Slot} {s t : Slot}

theorem set_split (h : slots[j]? = some s) :
    slots = slots.take j ++ s :: slots.drop (j + 1) ∧
      slots.set j t = slots.take j ++ t :: slots.drop (j + 1) := by
  obtain ⟨hj, rfl⟩ := List.getElem?_eq_some_iff.mp h
  refine ⟨?_, ?_⟩
  · rw [List.getElem_cons_drop, List.take_append_drop]
  · rw [List.set_eq_take_append_cons_drop, if_pos hj]

theorem Ended.delete (hend : Ended slots) (h : slots[j]? = some s) (hs : s 0 ≠ 0x00)
    (ht : t 0 ≠ 0x00) : Ended (slots.set j t) := by
  obtain ⟨hsplit, hset⟩ := set_split (t := t) h
  rw [Ended, hsplit] at hend
  rw [Ended, hset]
  obtain ⟨h1, h2, h3⟩ := List.pairwise_append.mp hend
  refine List.pairwise_append.mpr ⟨h1, ?_, fun a ha b hb => ?_⟩
  · exact List.pairwise_cons.mpr ⟨fun b _ h0 => absurd h0 ht, (List.pairwise_cons.mp h2).2⟩
  · rcases List.mem_cons.mp hb with rfl | hb
    · exact fun h0 => absurd (h3 a ha s (by simp) h0) hs
    · exact h3 a ha b (by simp [hb])

theorem entries_delete (h : ∀ s, slots[j]? = some s → Names s) (ht : t 0 = 0xE5) :
    entries dirCluster (slots.set j t) k lfns =
      (entries dirCluster slots k lfns).filter (fun e => decide (e.dirIndex ≠ k + j)) := by
  induction slots generalizing j k lfns with
  | nil => rfl
  | cons s slots ih =>
    cases j with
    | zero =>
      have hn := h s rfl
      have hlater : ∀ e ∈ entries dirCluster slots (k + 1) [], decide (e.dirIndex ≠ k + 0) = true := by
        intro e he
        have := le_dirIndex he
        exact decide_eq_true (by omega)
      rw [List.set_cons_zero, entries_skip (by rw [ht]; decide) (fun hn => hn.2.1 ht), pending,
        if_neg (fun hp => hp.1 ht), entries_names hn, List.filter_cons_of_neg,
        List.filter_eq_self.mpr hlater]
      simp [entryOf]
    | succ j =>
      have ih := fun lfns => @ih (k + 1) j lfns (fun s hs => h s hs)
      have hkj : k + (j + 1) = k + 1 + j := by omega
      rw [List.set_cons_succ, hkj]
      by_cases h0 : s 0 = 0x00
      · rw [entries_end h0, entries_end h0]
        rfl
      by_cases hn : Names s
      · rw [entries_names hn, entries_names hn, ih, List.filter_cons_of_pos]
        refine decide_eq_true ?_
        change k ≠ k + 1 + j
        omega
      · rw [entries_skip h0 hn, entries_skip h0 hn, ih]

end Delete

end Fat32
