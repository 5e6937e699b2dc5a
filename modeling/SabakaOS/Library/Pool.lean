import Mathlib.Data.Finset.Card

structure Pool (α : Type*) [DecidableEq α] where
  reserved : Finset α
  held : Finset α
  disjoint : Disjoint reserved held

namespace Pool

variable {α : Type*} [DecidableEq α] (P : Pool α)

def inUse : Finset α := P.reserved ∪ P.held

def used : Nat := P.inUse.card

theorem used_eq : P.used = P.reserved.card + P.held.card :=
  Finset.card_union_of_disjoint P.disjoint

def take (a : α) (h : a ∉ P.inUse) : Pool α where
  reserved := P.reserved
  held := insert a P.held
  disjoint := Finset.disjoint_insert_right.mpr
    ⟨fun hr => h (Finset.mem_union_left _ hr), P.disjoint⟩

def give (a : α) : Pool α where
  reserved := P.reserved
  held := P.held.erase a
  disjoint := P.disjoint.mono_right (Finset.erase_subset a P.held)

@[simp] theorem take_held (a : α) (h : a ∉ P.inUse) : (P.take a h).held = insert a P.held := rfl

@[simp] theorem give_held (a : α) : (P.give a).held = P.held.erase a := rfl

@[simp] theorem take_reserved (a : α) (h : a ∉ P.inUse) : (P.take a h).reserved = P.reserved := rfl

@[simp] theorem give_reserved (a : α) : (P.give a).reserved = P.reserved := rfl

theorem mem_inUse {a : α} : a ∈ P.inUse ↔ a ∈ P.reserved ∨ a ∈ P.held := Finset.mem_union

theorem mem_take {a b : α} (h : a ∉ P.inUse) : b ∈ (P.take a h).inUse ↔ b = a ∨ b ∈ P.inUse := by
  simp only [mem_inUse, take_held, take_reserved, Finset.mem_insert]
  exact or_left_comm

theorem mem_give {a b : α} (h : a ∈ P.held) :
    b ∈ (P.give a).inUse ↔ b ≠ a ∧ b ∈ P.inUse := by
  simp only [mem_inUse, give_held, give_reserved, Finset.mem_erase]
  have hr : a ∉ P.reserved := fun hr => Finset.disjoint_left.mp P.disjoint hr h
  constructor
  · rintro (hb | hb)
    · exact ⟨fun he => hr (he ▸ hb), Or.inl hb⟩
    · exact ⟨hb.1, Or.inr hb.2⟩
  · rintro ⟨hne, hb | hb⟩
    · exact Or.inl hb
    · exact Or.inr ⟨hne, hb⟩

theorem used_take {a : α} (h : a ∉ P.inUse) : (P.take a h).used = P.used + 1 := by
  have hh : a ∉ P.held := fun hm => h (P.mem_inUse.mpr (Or.inr hm))
  rw [used_eq, used_eq, take_held, take_reserved, Finset.card_insert_of_notMem hh, Nat.add_assoc]

theorem used_give {a : α} (h : a ∈ P.held) : (P.give a).used + 1 = P.used := by
  rw [used_eq, used_eq, give_held, give_reserved, Nat.add_assoc,
    Finset.card_erase_add_one h]

end Pool
