import Mathlib.Data.List.Induction

namespace Fold

variable {σ α : Type*} {step : σ → α → σ} {inv : σ → Prop} {fits : σ → α → Prop} {s : σ}

theorem snoc (step : σ → α → σ) (s : σ) (as : List α) (a : α) :
    (as ++ [a]).foldl step s = step (as.foldl step s) a :=
  List.foldl_append

-- A run in which an action only has to fit while the invariant holds keeps the invariant.
theorem inv_of_fits {as : List α} (start : inv s) (keeps : ∀ s a, inv s → fits s a → inv (step s a))
    (h : ∀ pre a, pre ++ [a] <+: as → inv (pre.foldl step s) → fits (pre.foldl step s) a)
    (pre : List α) (hpre : pre <+: as) : inv (pre.foldl step s) := by
  induction pre using List.reverseRecOn with
  | nil => exact start
  | append_singleton pre a ih =>
    have hinv := ih ((List.prefix_append pre [a]).trans hpre)
    rw [snoc]
    exact keeps _ _ hinv (h pre a hpre hinv)

-- Every state of the run is good exactly when each action fits the state before it.
theorem good_iff_fits {good : σ → Prop} (inv : σ → Prop) (as : List α) (start : inv s)
    (keeps : ∀ s a, inv s → fits s a → inv (step s a))
    (breaks : ∀ s a, inv s → ¬fits s a → ¬good (step s a)) (inv_good : ∀ s, inv s → good s) :
    (∀ pre, pre <+: as → good (pre.foldl step s)) ↔
      ∀ pre a, pre ++ [a] <+: as → fits (pre.foldl step s) a := by
  constructor
  · intro hgood
    have hfits (pre : List α) (a : α) (hpre : pre ++ [a] <+: as) (hinv : inv (pre.foldl step s)) :
        fits (pre.foldl step s) a := by
      by_contra hnot
      have hnext := hgood _ hpre
      rw [snoc] at hnext
      exact breaks _ _ hinv hnot hnext
    intro pre a hpre
    have hinv := inv_of_fits start keeps hfits pre ((List.prefix_append pre [a]).trans hpre)
    exact hfits pre a hpre hinv
  · intro hfits pre hpre
    exact inv_good _ (inv_of_fits start keeps (fun pre a h _ => hfits pre a h) pre hpre)

end Fold
