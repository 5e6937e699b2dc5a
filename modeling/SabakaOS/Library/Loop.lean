import Mathlib.Data.Nat.Basic
import Mathlib.Logic.Function.Basic

namespace Loop

variable {σ : Type*}

def upto : Nat → (Nat → σ → σ) → σ → σ
  | 0, _, s => s
  | n + 1, f, s => f n (upto n f s)

theorem upto_inv (I : Nat → σ → Prop) {n : Nat} {f : Nat → σ → σ} {s : σ} (h0 : I 0 s)
    (hs : ∀ i t, i < n → I i t → I (i + 1) (f i t)) : I n (upto n f s) := by
  induction n with
  | zero => exact h0
  | succ n ih => exact hs n _ n.lt_succ_self (ih (fun i t hi => hs i t (Nat.lt_succ_of_lt hi)))

section Fill

variable {κ β : Type*} [DecidableEq κ] {n : Nat} {key : Nat → κ} {f : Nat → β} {m : κ → β}

theorem upto_update_other {x : κ} (h : ∀ i < n, x ≠ key i) :
    upto n (fun i m => Function.update m (key i) (f i)) m x = m x := by
  induction n with
  | zero => rfl
  | succ n ih =>
    rw [upto, Function.update_of_ne (h n n.lt_succ_self)]
    exact ih fun i hi => h i (Nat.lt_succ_of_lt hi)

theorem upto_update_self (hk : ∀ i < n, ∀ j < n, key i = key j → i = j) {i : Nat} (hi : i < n) :
    upto n (fun i m => Function.update m (key i) (f i)) m (key i) = f i := by
  induction n with
  | zero => exact absurd hi (Nat.not_lt_zero i)
  | succ n ih =>
    by_cases he : i = n
    · rw [he, upto, Function.update_self]
    · have hne : key i ≠ key n := fun hki => he (hk i hi n n.lt_succ_self hki)
      rw [upto, Function.update_of_ne hne]
      exact ih (fun a ha b hb => hk a (Nat.lt_succ_of_lt ha) b (Nat.lt_succ_of_lt hb)) (by omega)

end Fill

end Loop
