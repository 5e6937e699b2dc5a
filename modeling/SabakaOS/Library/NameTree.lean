import Mathlib.Data.List.Basic
import Mathlib.Tactic.Common

-- A tree of named nodes. A node is named by the names met on the way to it; only nodes of the
-- kind dir have nodes below them.
structure NameTree (ν κ : Type*) (dir : κ) where
  kind : List ν → Option κ
  root : kind [] = some dir
  parent : ∀ s n, (kind (s ++ [n])).isSome → kind s = some dir

namespace NameTree

inductive Move (ν : Type*) where
  | here
  | up
  | down (n : ν)

variable {ν κ : Type*} {dir : κ} (T : NameTree ν κ dir)

def Has (s : List ν) : Prop := (T.kind s).isSome

instance (s : List ν) : Decidable (T.Has s) := inferInstanceAs (Decidable (_ = true))

def step (s : List ν) : Move ν → Option (List ν)
  | .here => some s
  | .up => some s.dropLast
  | .down n => if T.Has (s ++ [n]) then some (s ++ [n]) else none

def follow (s : List ν) (ms : List (Move ν)) : Option (List ν) := ms.foldlM T.step s

-- The moves made before the walk ends never climb above the root.
def Inside : List ν → List (Move ν) → Prop
  | _, [] => True
  | s, .here :: ms => Inside s ms
  | s, .up :: ms => s ≠ [] ∧ Inside s.dropLast ms
  | s, .down n :: ms => T.Has (s ++ [n]) → Inside (s ++ [n]) ms

-- The moves made before the walk ends never go up, and look names up only where look allows it.
def Descends (look : List ν → ν → Prop) : List ν → List (Move ν) → Prop
  | _, [] => True
  | s, .here :: ms => Descends look s ms
  | _, .up :: _ => False
  | s, .down n :: ms => look s n ∧ (T.Has (s ++ [n]) → Descends look (s ++ [n]) ms)

variable {T} {look : List ν → ν → Prop} {s t : List ν} {m : Move ν} {ms ms' : List (Move ν)} {n : ν}

theorem has_root : T.Has [] := by
  rw [Has, T.root]
  rfl

theorem has_parent (h : T.Has (s ++ [n])) : T.Has s := by
  rw [Has, T.parent s n h]
  rfl

theorem has_dropLast (h : T.Has s) : T.Has s.dropLast := by
  rcases List.eq_nil_or_concat s with rfl | ⟨u, n, rfl⟩
  · exact h
  · rw [List.concat_eq_append] at h ⊢
    rw [List.dropLast_concat]
    exact has_parent h

@[simp] theorem follow_nil : T.follow s [] = some s := rfl

theorem follow_cons : T.follow s (m :: ms) = (T.step s m).bind (T.follow · ms) := rfl

theorem follow_append : T.follow s (ms ++ ms') = (T.follow s ms).bind (T.follow · ms') :=
  List.foldlM_append

theorem step_has (h : T.Has s) (ht : T.step s m = some t) : T.Has t := by
  cases m with
  | here => exact Option.some.inj ht ▸ h
  | up => exact Option.some.inj ht ▸ has_dropLast h
  | down n =>
    rw [step] at ht
    split at ht
    · rename_i hn
      exact Option.some.inj ht ▸ hn
    · cases ht

theorem follow_has (h : T.Has s) (ht : T.follow s ms = some t) : T.Has t := by
  induction ms generalizing s with
  | nil => exact Option.some.inj ht ▸ h
  | cons m ms ih =>
    rw [follow_cons] at ht
    obtain ⟨u, hu, ht⟩ := Option.bind_eq_some_iff.mp ht
    exact ih (step_has h hu) ht

theorem inside_step (h : T.Inside s (m :: ms)) (ht : T.step s m = some t) : T.Inside t ms := by
  cases m with
  | here => exact Option.some.inj ht ▸ h
  | up => exact Option.some.inj ht ▸ h.2
  | down n =>
    rw [step] at ht
    split at ht
    · rename_i hn
      exact Option.some.inj ht ▸ h hn
    · cases ht

theorem inside_left (ms' : List (Move ν)) (h : T.Inside s (ms ++ ms')) : T.Inside s ms := by
  induction ms generalizing s with
  | nil => trivial
  | cons m ms ih =>
    cases m with
    | here => exact ih h
    | up => exact ⟨h.1, ih h.2⟩
    | down n => exact fun hn => ih (h hn)

theorem inside_right (h : T.Inside s (ms ++ ms')) (ht : T.follow s ms = some t) :
    T.Inside t ms' := by
  induction ms generalizing s with
  | nil => exact Option.some.inj ht ▸ h
  | cons m ms ih =>
    rw [follow_cons] at ht
    obtain ⟨u, hu, ht⟩ := Option.bind_eq_some_iff.mp ht
    exact ih (inside_step h hu) ht

theorem descends_left (h : T.Descends look s (ms ++ ms')) : T.Descends look s ms := by
  induction ms generalizing s with
  | nil => trivial
  | cons m ms ih =>
    cases m with
    | here => exact ih h
    | up => exact h
    | down n => exact ⟨h.1, fun hn => ih (h.2 hn)⟩

-- A walk that does not descend has a first move that goes up or looks up what it should not.
theorem exists_first (h : ¬T.Descends look s ms) : ∃ ms₁ m ms₂ t, ms = ms₁ ++ m :: ms₂ ∧
    T.Descends look s ms₁ ∧ T.follow s ms₁ = some t ∧ (m = .up ∨ ∃ n, m = .down n ∧ ¬look t n) := by
  induction ms generalizing s with
  | nil => exact absurd trivial h
  | cons m ms ih =>
    cases m with
    | here =>
      obtain ⟨ms₁, m, ms₂, t, rfl, hd, ht, hm⟩ := ih h
      exact ⟨.here :: ms₁, m, ms₂, t, rfl, hd, ht, hm⟩
    | up => exact ⟨[], .up, ms, s, rfl, trivial, rfl, .inl rfl⟩
    | down n =>
      by_cases hl : look s n
      · have hn : T.Has (s ++ [n]) := by
          by_contra hn
          exact h ⟨hl, fun hh => absurd hh hn⟩
        obtain ⟨ms₁, m, ms₂, t, rfl, hd, ht, hm⟩ := ih fun hd => h ⟨hl, fun _ => hd⟩
        refine ⟨.down n :: ms₁, m, ms₂, t, rfl, ⟨hl, fun _ => hd⟩, ?_, hm⟩
        rw [follow_cons, step, if_pos hn]
        exact ht
      · exact ⟨[], .down n, ms, s, rfl, trivial, rfl, .inr ⟨n, rfl, hl⟩⟩

end NameTree
