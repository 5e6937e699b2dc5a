import Mathlib.Tactic.Common

-- A program that ends with a result, or is stopped where its loops have used up their turns.
def Prog (σ α : Type) := σ → Option α × σ

namespace Prog

variable {σ α β : Type}

instance : Monad (Prog σ) where
  pure a := fun s => (some a, s)
  bind p f := fun s =>
    match p s with
    | (some a, s') => f a s'
    | (none, s') => (none, s')

def get : Prog σ σ := fun s => (some s, s)

def modify (f : σ → σ) : Prog σ Unit := fun s => (some (), f s)

def stopped : Prog σ α := fun s => (none, s)

def Runs (p : Prog σ α) (s : σ) (Q : α → σ → Prop) (E : σ → Prop) : Prop :=
  match p s with
  | (some a, s') => Q a s'
  | (none, s') => E s'

section Rules

variable {p : Prog σ α} {f : α → Prog σ β} {s s' : σ} {Q R : α → σ → Prop} {T : β → σ → Prop}
  {E F : σ → Prop}

theorem Runs.mono (h : Runs p s Q E) (hq : ∀ a s', Q a s' → R a s') (he : ∀ s', E s' → F s') :
    Runs p s R F := by
  unfold Runs at *
  rcases hp : p s with ⟨_ | a, s'⟩
  · rw [hp] at h
    exact he s' h
  · rw [hp] at h
    exact hq a s' h

theorem Runs.bind (h : Runs p s R E) (hf : ∀ a s', R a s' → Runs (f a) s' T E) :
    Runs (p >>= f) s T E := by
  unfold Runs at *
  change (match (match p s with | (some a, s') => f a s' | (none, s') => (none, s')) with
    | (some a, s') => T a s' | (none, s') => E s')
  rcases hp : p s with ⟨_ | a, s'⟩
  · rw [hp] at h
    exact h
  · rw [hp] at h
    exact hf a s' h

-- A step that always ends needs no account of where the rest may be stopped.
theorem Runs.then (h : Runs p s R (fun _ => False)) (hf : ∀ a s', R a s' → Runs (f a) s' T E) :
    Runs (p >>= f) s T E :=
  (h.mono (fun _ _ hr => hr) (fun _ he => he.elim)).bind hf

theorem Runs.pure {a : α} (h : Q a s) : Runs (pure a : Prog σ α) s Q E := h

theorem Runs.get_bind {f : σ → Prog σ β} (h : Runs (f s) s T E) :
    Runs ((get : Prog σ σ) >>= f) s T E := h

theorem Runs.modify_bind {g : σ → σ} {f : Unit → Prog σ β} (h : Runs (f ()) (g s) T E) :
    Runs (modify g >>= f) s T E := h

theorem Runs.stopped (h : E s) : Runs (stopped : Prog σ α) s Q E := h

theorem Runs.and (h : Runs p s Q E) (h' : Runs p s R F) :
    Runs p s (fun a s' => Q a s' ∧ R a s') (fun s' => E s' ∧ F s') := by
  unfold Runs at *
  rcases hp : p s with ⟨_ | a, s'⟩
  · rw [hp] at h h'
    exact ⟨h, h'⟩
  · rw [hp] at h h'
    exact ⟨h, h'⟩

theorem Runs.result {a : α} (h : Runs p s Q E) (hp : p s = (some a, s')) : Q a s' := by
  unfold Runs at h
  rwa [hp] at h

theorem bind_ended {f : α → Prog σ β} {a : α} (hp : p s = (some a, s')) :
    (p >>= f) s = f a s' := by
  change (match p s with | (some a, s') => f a s' | (none, s') => (none, s')) = f a s'
  rw [hp]

theorem bind_stopped {f : α → Prog σ β} (hp : p s = (none, s')) : (p >>= f) s = (none, s') := by
  change (match p s with | (some a, s') => f a s' | (none, s') => (none, s')) = (none, s')
  rw [hp]

theorem bind_assoc {γ : Type} (p : Prog σ α) (f : α → Prog σ β) (g : β → Prog σ γ) :
    p >>= f >>= g = p >>= fun a => f a >>= g := by
  funext s
  rcases hp : p s with ⟨_ | a, s'⟩
  · rw [bind_stopped hp, bind_stopped (bind_stopped hp)]
  · rw [bind_ended hp]
    rcases hf : f a s' with ⟨_ | b, s''⟩
    · rw [bind_stopped hf, bind_stopped ((bind_ended hp).trans hf)]
    · rw [bind_ended hf, bind_ended ((bind_ended hp).trans hf)]

theorem get_bind (f : σ → Prog σ α) (s : σ) : ((get : Prog σ σ) >>= f) s = f s s := rfl

theorem runs_ended (h : ∀ a s', p s = (some a, s') → Q a s') : Runs p s Q (fun _ => True) := by
  unfold Runs
  rcases hp : p s with ⟨_ | a, s'⟩
  · trivial
  · exact h a s' hp

theorem runs_any (p : Prog σ α) (s : σ) : Runs p s (fun _ _ => True) (fun _ => True) :=
  runs_ended fun _ _ _ => trivial

theorem ended_unique {a b : α} {s₁ s₂ : σ} (h : p s = (some a, s₁)) (h' : p s = (some b, s₂)) :
    a = b :=
  Option.some.inj (congrArg Prod.fst (h.symm.trans h'))

theorem ended_same {a b : α} {s₁ s₂ : σ} (h : p s = (some a, s₁)) (h' : p s = (some b, s₂)) :
    s₁ = s₂ :=
  congrArg Prod.snd (h.symm.trans h')

theorem ended_bind {b : β} (hrun : (p >>= f) s = (some b, s')) :
    ∃ a s₁, p s = (some a, s₁) ∧ f a s₁ = (some b, s') := by
  rcases hp : p s with ⟨_ | a, s₁⟩
  · rw [bind_stopped hp] at hrun
    cases hrun
  · rw [bind_ended hp] at hrun
    exact ⟨a, s₁, rfl, hrun⟩

theorem ended_pure {a b : α} (hrun : (pure a : Prog σ α) s = (some b, s')) : a = b ∧ s = s' := by
  obtain ⟨ha, hs⟩ := Prod.mk.inj hrun
  exact ⟨Option.some.inj ha, hs⟩

theorem bind_pure_state {b : β} (p : Prog σ α) (s : σ) :
    ((p >>= fun _ => (pure b : Prog σ β)) s).2 = (p s).2 := by
  rcases hp : p s with ⟨_ | a, s'⟩
  · rw [bind_stopped hp]
  · rw [bind_ended hp]
    rfl

theorem Runs.ends (h : Runs p s Q (fun _ => False)) : ∃ a s', p s = (some a, s') ∧ Q a s' := by
  unfold Runs at h
  rcases hp : p s with ⟨_ | a, s'⟩
  · rw [hp] at h
    exact h.elim
  · rw [hp] at h
    exact ⟨a, s', rfl, h⟩

end Rules

end Prog
