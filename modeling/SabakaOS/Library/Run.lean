import Mathlib.Order.SetNotation

structure System (σ α : Type*) where
  init : σ → Prop
  step : σ → α → σ → Prop

namespace System

variable {σ α : Type*}

inductive Reach (S : System σ α) : σ → Prop
  | start {s : σ} : S.init s → Reach S s
  | next {s s' : σ} {a : α} : Reach S s → S.step s a s' → Reach S s'

structure Invariant (S : System σ α) where
  holds : σ → Prop
  start : ∀ {s}, S.init s → holds s
  step : ∀ {s a s'}, holds s → S.step s a s' → holds s'

theorem Invariant.reach {S : System σ α} (I : S.Invariant) {s : σ} (h : S.Reach s) : I.holds s := by
  induction h with
  | start hs => exact I.start hs
  | next _ ht ih => exact I.step ih ht

def restrict (S : System σ α) (guard : σ → α → Prop) : System σ α where
  init := S.init
  step s a s' := guard s a ∧ S.step s a s'

theorem Reach.of_restrict {S : System σ α} {guard : σ → α → Prop} {s : σ}
    (h : (S.restrict guard).Reach s) : S.Reach s := by
  induction h with
  | start hs => exact .start hs
  | next _ ht ih => exact ih.next ht.2

end System
