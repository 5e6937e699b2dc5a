import Mathlib.Data.List.Chain
import Mathlib.Tactic.Common

-- Texts made of labels with a separator between them, as in a domain name or a path.
namespace Dotted

variable {α : Type*} {sep : α}

def join (sep : α) (labels : List (List α)) : List α := [sep].intercalate labels

def IsLabel (sep : α) (l : List α) : Prop := l ≠ [] ∧ sep ∉ l

-- No two separators in a row, the text being read as if one stood before it.
def Plain (sep : α) (t : List α) : Prop := (sep :: t).IsChain (fun a b => a = sep → b ≠ sep)

instance [DecidableEq α] (sep : α) (t : List α) : Decidable (Plain sep t) :=
  inferInstanceAs (Decidable (List.IsChain _ _))

-- The text writes these labels, with or without a separator at its end.
def Writes (sep : α) (labels : List (List α)) (t : List α) : Prop :=
  t = join sep labels ∨ t = join sep labels ++ [sep]

theorem join_cons (l : List α) {labels : List (List α)} (h : labels ≠ []) :
    join sep (l :: labels) = l ++ sep :: join sep labels := by
  rw [join, List.intercalate_cons_of_ne_nil h, List.append_assoc]
  rfl

theorem join_singleton (l : List α) : join sep [l] = l := List.intercalate_singleton

-- Each label with its own separator.
theorem join_closed {labels : List (List α)} (h : labels ≠ []) :
    join sep labels ++ [sep] = labels.flatMap (· ++ [sep]) := by
  induction labels with
  | nil => exact absurd rfl h
  | cons l labels ih =>
    cases labels with
    | nil => rw [join_singleton, List.flatMap_singleton]
    | cons l' labels =>
      rw [join_cons l (List.cons_ne_nil _ _), List.flatMap_cons, ← ih (List.cons_ne_nil _ _)]
      simp

section Plain

theorem chain_label {l : List α} (hl : sep ∉ l) (t : List α) (x : α) (hx : x = sep → l ≠ []) :
    (x :: (l ++ sep :: t)).IsChain (fun a b => a = sep → b ≠ sep) ↔ Plain sep t := by
  induction l generalizing x with
  | nil =>
    have hne : x ≠ sep := fun h => hx h rfl
    rw [List.nil_append, List.isChain_cons_cons]
    exact ⟨fun h => h.2, fun h => ⟨fun he => absurd he hne, h⟩⟩
  | cons a l ih =>
    have ha : a ≠ sep := fun h => hl (h ▸ List.mem_cons_self)
    rw [List.cons_append, List.isChain_cons_cons,
      ih (fun h => hl (List.mem_cons_of_mem a h)) a (fun h => absurd h ha)]
    exact ⟨fun h => h.2, fun h => ⟨fun _ => ha, h⟩⟩

theorem plain_label {l : List α} (hl : IsLabel sep l) (t : List α) :
    Plain sep (l ++ sep :: t) ↔ Plain sep t := chain_label hl.2 t sep (fun _ => hl.1)

theorem plain_nil : Plain sep [] := List.isChain_singleton sep

theorem plain_last {l : List α} (hl : sep ∉ l) : Plain sep l := by
  have hchain : ∀ x : α, (x :: l).IsChain (fun a b => a = sep → b ≠ sep) := by
    induction l with
    | nil => exact fun x => List.isChain_singleton x
    | cons a l ih =>
      intro x
      have ha : a ≠ sep := fun h => hl (h ▸ List.mem_cons_self)
      exact List.isChain_cons_cons.mpr
        ⟨fun _ => ha, ih (fun h => hl (List.mem_cons_of_mem a h)) a⟩
  exact hchain sep

theorem not_plain_sep (t : List α) : ¬ Plain sep (sep :: t) :=
  fun h => (List.isChain_cons_cons.mp h).1 rfl rfl

theorem plain_of_writes {labels : List (List α)} (hl : ∀ l ∈ labels, IsLabel sep l) {t : List α}
    (ht : Writes sep labels t) : t = [sep] ∨ Plain sep t := by
  induction labels generalizing t with
  | nil =>
    rcases ht with rfl | rfl
    · exact .inr plain_nil
    · exact .inl rfl
  | cons l labels ih =>
    have hhead := hl l List.mem_cons_self
    have hrest := fun k hk => hl k (List.mem_cons_of_mem l hk)
    right
    cases labels with
    | nil =>
      rw [Writes, join_singleton] at ht
      rcases ht with rfl | rfl
      · exact plain_last hhead.2
      · exact (plain_label hhead []).mpr plain_nil
    | cons k labels =>
      have hjoin : join sep (k :: labels) ≠ [sep] ∧ join sep (k :: labels) ++ [sep] ≠ [sep] := by
        have hk := hrest k List.mem_cons_self
        have hstart : ∃ a u, join sep (k :: labels) = a :: u ∧ a ≠ sep := by
          obtain ⟨a, u, hau⟩ := List.exists_cons_of_ne_nil hk.1
          have ha : a ≠ sep := fun h => hk.2 (by rw [hau, h]; exact List.mem_cons_self)
          cases labels with
          | nil => exact ⟨a, u, by rw [join_singleton, hau], ha⟩
          | cons m labels =>
            exact ⟨a, _, by rw [join_cons k (List.cons_ne_nil _ _), hau, List.cons_append], ha⟩
        obtain ⟨a, u, hau, ha⟩ := hstart
        rw [hau]
        exact ⟨fun h => ha (List.cons_eq_cons.mp h).1, fun h => ha (List.cons_eq_cons.mp h).1⟩
      rw [Writes, join_cons l (List.cons_ne_nil _ _), List.append_assoc, List.cons_append] at ht
      rcases ht with rfl | rfl
      · exact (plain_label hhead _).mpr ((ih hrest (.inl rfl)).resolve_left hjoin.1)
      · exact (plain_label hhead _).mpr ((ih hrest (.inr rfl)).resolve_left hjoin.2)

theorem label_split [DecidableEq α] (t : List α) :
    ∃ l rest, t = l ++ rest ∧ sep ∉ l ∧ (rest = [] ∨ ∃ u, rest = sep :: u) := by
  induction t with
  | nil => exact ⟨[], [], rfl, List.not_mem_nil, .inl rfl⟩
  | cons a t ih =>
    by_cases ha : a = sep
    · exact ⟨[], a :: t, rfl, List.not_mem_nil, .inr ⟨t, by rw [ha]⟩⟩
    · obtain ⟨l, rest, rfl, hl, hrest⟩ := ih
      refine ⟨a :: l, rest, rfl, ?_, hrest⟩
      rintro h
      rcases List.mem_cons.mp h with h | h
      · exact ha h.symm
      · exact hl h

theorem writes_of_plain [DecidableEq α] (t : List α) (h : Plain sep t) :
    ∃ labels, (∀ l ∈ labels, IsLabel sep l) ∧ Writes sep labels t := by
  induction hn : t.length using Nat.strong_induction_on generalizing t with
  | _ n ih =>
    obtain ⟨l, rest, rfl, hl, rfl | ⟨u, rfl⟩⟩ := @label_split _ sep _ t
    · cases l with
      | nil => exact ⟨[], fun _ hk => absurd hk List.not_mem_nil, .inl rfl⟩
      | cons a l =>
        refine ⟨[a :: l], fun k hk => ?_, .inl (by rw [join_singleton, List.append_nil])⟩
        rw [List.mem_singleton.mp hk]
        exact ⟨List.cons_ne_nil a l, hl⟩
    · have hne : l ≠ [] := fun h0 => not_plain_sep u (by rwa [h0] at h)
      have hlabel : IsLabel sep l := ⟨hne, hl⟩
      have hshort : u.length < n := by
        rw [← hn, List.length_append, List.length_cons]
        omega
      obtain ⟨labels, hlabels, hw⟩ := ih u.length hshort u ((plain_label hlabel u).mp h) rfl
      cases labels with
      | nil =>
        refine ⟨[l], fun k hk => List.mem_singleton.mp hk ▸ hlabel, ?_⟩
        rcases hw with rfl | rfl
        · exact .inr (by rw [join_singleton]; rfl)
        · exact absurd ((plain_label hlabel _).mp h) (not_plain_sep [])
      | cons m labels =>
        refine ⟨l :: m :: labels, fun k hk => ?_, ?_⟩
        · rcases List.mem_cons.mp hk with rfl | hk
          · exact hlabel
          · exact hlabels k hk
        · rw [Writes, join_cons l (List.cons_ne_nil _ _)]
          rcases hw with hw | hw
          · exact .inl (by rw [hw])
          · exact .inr (by rw [hw, List.append_assoc, List.cons_append])

theorem writes_iff [DecidableEq α] (t : List α) :
    (∃ labels, (∀ l ∈ labels, IsLabel sep l) ∧ Writes sep labels t) ↔ t = [sep] ∨ Plain sep t := by
  constructor
  · rintro ⟨labels, hl, hw⟩
    exact plain_of_writes hl hw
  · rintro (rfl | h)
    · exact ⟨[], fun _ hk => absurd hk List.not_mem_nil, .inr rfl⟩
    · exact writes_of_plain t h

theorem label_sublist {labels : List (List α)} {t : List α} (hw : Writes sep labels t)
    {l : List α} (hl : l ∈ labels) : l.Sublist t := by
  have hjoin : l.Sublist (join sep labels) := by
    clear hw
    induction labels with
    | nil => exact absurd hl List.not_mem_nil
    | cons k labels ih =>
      cases labels with
      | nil => rw [List.mem_singleton.mp hl, join_singleton]
      | cons m labels =>
        rw [join_cons k (List.cons_ne_nil _ _)]
        rcases List.mem_cons.mp hl with rfl | hl
        · exact List.sublist_append_left _ _
        · exact ((ih hl).cons sep).trans (List.sublist_append_right _ _)
  rcases hw with rfl | rfl
  · exact hjoin
  · exact hjoin.trans (List.sublist_append_left _ _)

end Plain

end Dotted
