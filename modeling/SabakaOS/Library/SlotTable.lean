import Mathlib.Data.List.FinRange
import Mathlib.Data.Fintype.Basic
import Mathlib.Logic.Function.Basic

-- A table of n slots that are searched from the first one on. Where the keys are distinct it is a
-- finite map.
namespace SlotTable

variable {n : Nat} {K V : Type*}

abbrev Table (n : Nat) (K V : Type*) := Fin n → Option (K × V)

def Distinct (t : Table n K V) : Prop :=
  ∀ i j k v w, t i = some (k, v) → t j = some (k, w) → i = j

variable {t t' : Table n K V} {i : Fin n} {k x : K} {v : V} {e : Option (K × V)}

theorem Distinct.sub (hd : Distinct t) (h : ∀ i e, t' i = some e → t i = some e) : Distinct t' :=
  fun i j k v w hi hj => hd i j k v w (h i _ hi) (h j _ hj)

theorem Distinct.put (hd : Distinct t) (h : ∀ j ≠ i, ∀ w, t j ≠ some (k, w)) (v : V) :
    Distinct (Function.update t i (some (k, v))) := by
  intro a b x p q ha hb
  by_cases hai : a = i
  · by_cases hbi : b = i
    · rw [hai, hbi]
    · rw [hai, Function.update_self] at ha
      rw [Function.update_of_ne hbi] at hb
      obtain ⟨rfl, -⟩ := Prod.mk.inj (Option.some.inj ha)
      exact absurd hb (h b hbi q)
  · rw [Function.update_of_ne hai] at ha
    by_cases hbi : b = i
    · rw [hbi, Function.update_self] at hb
      obtain ⟨rfl, -⟩ := Prod.mk.inj (Option.some.inj hb)
      exact absurd ha (h a hai p)
    · rw [Function.update_of_ne hbi] at hb
      exact hd a b x p q ha hb

theorem first_match {α β : Type*} (l : List α) (p : α → Bool) (f : α → β) :
    (l.find? p).map f = l.findSome? fun a => if p a then some (f a) else none := by
  induction l with
  | nil => rfl
  | cons a l ih =>
    rw [List.find?_cons, List.findSome?_cons]
    cases p a with
    | true => rfl
    | false => exact ih

section Lookup

variable [DecidableEq K]

def valueAt (k : K) (e : Option (K × V)) : Option V :=
  e.bind fun e => if e.1 = k then some e.2 else none

def lookup (t : Table n K V) (k : K) : Option V :=
  (List.finRange n).findSome? fun i => valueAt k (t i)

@[simp] theorem valueAt_some : valueAt k e = some v ↔ e = some (k, v) := by
  cases e with
  | none => simp [valueAt]
  | some e =>
    obtain ⟨k', v'⟩ := e
    simp [valueAt]

theorem lookup_none : lookup t k = none ↔ ∀ i v, t i ≠ some (k, v) := by
  rw [lookup, List.findSome?_eq_none_iff]
  simp only [List.mem_finRange, true_implies, Option.eq_none_iff_forall_ne_some, ne_eq,
    valueAt_some]

theorem lookup_some (hd : Distinct t) : lookup t k = some v ↔ ∃ i, t i = some (k, v) := by
  constructor
  · intro h
    obtain ⟨i, -, hi⟩ := List.exists_of_findSome?_eq_some h
    exact ⟨i, valueAt_some.mp hi⟩
  · rintro ⟨i, hi⟩
    cases hl : lookup t k with
    | none => exact absurd hi (lookup_none.mp hl i v)
    | some w =>
      obtain ⟨j, -, hj⟩ := List.exists_of_findSome?_eq_some hl
      obtain rfl := hd i j k v w hi (valueAt_some.mp hj)
      have := hi.symm.trans (valueAt_some.mp hj)
      simp only [Option.some.injEq, Prod.mk.injEq, true_and] at this
      rw [this]

theorem lookup_put_self (hd : Distinct t) (h : ∀ j ≠ i, ∀ w, t j ≠ some (k, w)) :
    lookup (Function.update t i (some (k, v))) k = some v :=
  (lookup_some (hd.put h v)).mpr ⟨i, Function.update_self ..⟩

-- A key is lost where the slot of its entry is taken for another one.
theorem lookup_put_other (hd : Distinct t) (h : ∀ j ≠ i, ∀ w, t j ≠ some (k, w)) (hx : x ≠ k) :
    lookup (Function.update t i (some (k, v))) x =
      if (t i).map Prod.fst = some x then none else lookup t x := by
  have hput := hd.put h v
  split
  · next hi =>
    refine lookup_none.mpr fun j w hj => ?_
    by_cases hji : j = i
    · rw [hji, Function.update_self] at hj
      exact hx (Prod.mk.inj (Option.some.inj hj)).1.symm
    · rw [Function.update_of_ne hji] at hj
      obtain ⟨⟨y, u⟩, hu, rfl⟩ := Option.map_eq_some_iff.mp hi
      exact hji (hd j i y w u hj hu)
  · next hi =>
    refine Option.ext fun w => ?_
    rw [lookup_some hput, lookup_some hd]
    constructor
    · rintro ⟨j, hj⟩
      by_cases hji : j = i
      · rw [hji, Function.update_self] at hj
        exact absurd (Prod.mk.inj (Option.some.inj hj)).1.symm hx
      · rw [Function.update_of_ne hji] at hj
        exact ⟨j, hj⟩
    · rintro ⟨j, hj⟩
      have hji : j ≠ i := by
        rintro rfl
        exact hi (by rw [hj]; rfl)
      exact ⟨j, (Function.update_of_ne hji ..).trans hj⟩

end Lookup

end SlotTable
