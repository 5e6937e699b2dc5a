import Mathlib.Data.Set.Insert
import Mathlib.Logic.Relation

open Relation

-- The nodes D under a root, where R leads from a parent to its children.
structure Rooted {α : Type*} (root : α) (D : Set α) (R : α → α → Prop) : Prop where
  root_mem : root ∈ D
  closed : ∀ {a b}, a ∈ D → R a b → b ∈ D ∧ b ≠ root
  unique : ∀ {a a' b}, a ∈ D → a' ∈ D → R a b → R a' b → a = a'
  reach : ∀ {b}, b ∈ D → ReflTransGen R root b

namespace Rooted

variable {α : Type*} {root a b c n p : α} {D : Set α} {R R' : α → α → Prop}

theorem mem_of_path (h : Rooted root D R) (ha : a ∈ D) (hab : ReflTransGen R a b) : b ∈ D := by
  induction hab with
  | refl => exact ha
  | tail _ hbc ih => exact (h.closed ih hbc).1

-- Along the path from the root, a cycle through a node is one through its parent.
theorem acyclic (h : Rooted root D R) (ha : a ∈ D) : ¬TransGen R a a := by
  have hroot := h.reach ha
  clear ha
  induction hroot with
  | refl =>
    intro hcycle
    obtain ⟨b, hb, hlast⟩ := TransGen.tail'_iff.mp hcycle
    exact (h.closed (h.mem_of_path h.root_mem hb) hlast).2 rfl
  | @tail b c hb hbc ih =>
    intro hcycle
    obtain ⟨b', hcb', hlast⟩ := TransGen.tail'_iff.mp hcycle
    have hbD := h.mem_of_path h.root_mem hb
    have hb'D := h.mem_of_path (h.closed hbD hbc).1 hcb'
    obtain rfl := h.unique hb'D hbD hlast hbc
    exact ih (TransGen.head' hbc hcb')

theorem path_congr (h : Rooted root D R) (hR : ∀ a ∈ D, ∀ b, R a b → R' a b)
    (hb : ReflTransGen R root b) : ReflTransGen R' root b := by
  induction hb with
  | refl => exact .refl
  | tail hb hbc ih => exact ih.tail (hR _ (h.mem_of_path h.root_mem hb) _ hbc)

theorem congr (h : Rooted root D R) (hR : ∀ a ∈ D, ∀ b, R' a b ↔ R a b) : Rooted root D R' where
  root_mem := h.root_mem
  closed ha hab := h.closed ha ((hR _ ha _).mp hab)
  unique ha ha' hab hab' := h.unique ha ha' ((hR _ ha _).mp hab) ((hR _ ha' _).mp hab')
  reach hb := h.path_congr (fun a ha b => (hR a ha b).mpr) (h.reach hb)

-- A new leaf n below p.
theorem insert (h : Rooted root D R) (hp : p ∈ D) (hn : n ∉ D) (hleaf : ∀ b, ¬R' n b)
    (hR : ∀ a ∈ D, ∀ b, R' a b ↔ R a b ∨ (a = p ∧ b = n)) : Rooted root (insert n D) R' where
  root_mem := .inr h.root_mem
  closed := by
    rintro a b (rfl | ha) hab
    · exact absurd hab (hleaf b)
    · rcases (hR a ha b).mp hab with hab | ⟨-, rfl⟩
      · exact ⟨.inr (h.closed ha hab).1, (h.closed ha hab).2⟩
      · exact ⟨.inl rfl, fun hr => hn (hr ▸ h.root_mem)⟩
  unique := by
    rintro a a' b (rfl | ha) (rfl | ha') hab hab'
    · rfl
    · exact absurd hab (hleaf b)
    · exact absurd hab' (hleaf b)
    · rcases (hR a ha b).mp hab with hab | ⟨rfl, rfl⟩
      · refine h.unique ha ha' hab (((hR a' ha' b).mp hab').resolve_right ?_)
        rintro ⟨-, rfl⟩
        exact hn (h.closed ha hab).1
      · rcases (hR a' ha' b).mp hab' with hab' | ⟨rfl, -⟩
        · exact absurd (h.closed ha' hab').1 hn
        · rfl
  reach := by
    have hold : ∀ {b}, b ∈ D → ReflTransGen R' root b := fun hb =>
      h.path_congr (fun a ha b hab => (hR a ha b).mpr (.inl hab)) (h.reach hb)
    rintro b (rfl | hb)
    · exact (hold hp).tail ((hR p hp b).mpr (.inr ⟨rfl, rfl⟩))
    · exact hold hb

-- The leaf c is taken out.
theorem erase (h : Rooted root D R) (hroot : c ≠ root) (hleaf : ∀ b, ¬R c b)
    (hR : ∀ a ∈ D, a ≠ c → ∀ b, R' a b ↔ R a b ∧ b ≠ c) : Rooted root (D \ {c}) R' where
  root_mem := ⟨h.root_mem, Ne.symm hroot⟩
  closed := by
    rintro a b ⟨ha, hac⟩ hab
    obtain ⟨hab, hbc⟩ := (hR a ha hac b).mp hab
    exact ⟨⟨(h.closed ha hab).1, hbc⟩, (h.closed ha hab).2⟩
  unique := by
    rintro a a' b ⟨ha, hac⟩ ⟨ha', hac'⟩ hab hab'
    exact h.unique ha ha' ((hR a ha hac b).mp hab).1 ((hR a' ha' hac' b).mp hab').1
  reach := by
    rintro b ⟨hb, hbc⟩
    have hpath := h.reach hb
    clear hb
    induction hpath with
    | refl => exact .refl
    | @tail x y hx hxy ih =>
      have hxc : x ≠ c := fun hxc => hleaf y (hxc ▸ hxy)
      exact (ih hxc).tail ((hR x (h.mem_of_path h.root_mem hx) hxc y).mpr ⟨hxy, hbc⟩)

end Rooted
