import Mathlib.Data.Set.Insert
import Mathlib.Data.List.Nodup
import Mathlib.Data.List.Lex
import Mathlib.Logic.Function.Basic
import Mathlib.Tactic.Common

namespace Chain

variable {α : Type*} {next next' : α → α} {ok stop : α → Prop} {c d x n : α} {l l1 l2 : List α}

-- The links met from c on, up to a stop value.
def Path (next : α → α) (ok stop : α → Prop) : α → List α → Prop
  | c, [] => stop c
  | c, x :: l => x = c ∧ ok c ∧ Path next ok stop (next c) l

def Seg (next : α → α) (ok : α → Prop) : α → List α → α → Prop
  | c, [], d => c = d
  | c, x :: l, d => x = c ∧ ok c ∧ Seg next ok (next c) l d

theorem path_append :
    Path next ok stop c (l1 ++ l2) ↔ ∃ d, Seg next ok c l1 d ∧ Path next ok stop d l2 := by
  induction l1 generalizing c with
  | nil => simp [Seg]
  | cons x l ih =>
    simp only [List.cons_append, Path, ih, Seg]
    constructor
    · rintro ⟨hx, hc, d, hs, hp⟩
      exact ⟨d, ⟨hx, hc, hs⟩, hp⟩
    · rintro ⟨d, ⟨hx, hc, hs⟩, hp⟩
      exact ⟨hx, hc, d, hs, hp⟩

theorem Path.ok_of_mem (h : Path next ok stop c l) : ∀ x ∈ l, ok x := by
  induction l generalizing c with
  | nil => exact fun x hx => absurd hx (by simp)
  | cons y l ih =>
    intro x hx
    rcases List.mem_cons.mp hx with rfl | hx
    · exact h.1 ▸ h.2.1
    · exact ih h.2.2 x hx

theorem Path.congr (h : Path next ok stop c l) (hn : ∀ x ∈ l, next' x = next x) :
    Path next' ok stop c l := by
  induction l generalizing c with
  | nil => exact h
  | cons y l ih =>
    obtain ⟨rfl, hok, hp⟩ := h
    refine ⟨rfl, hok, ?_⟩
    rw [hn y (by simp)]
    exact ih hp (fun x hx => hn x (by simp [hx]))

theorem Seg.congr (h : Seg next ok c l d) (hn : ∀ x ∈ l, next' x = next x) :
    Seg next' ok c l d := by
  induction l generalizing c with
  | nil => exact h
  | cons y l ih =>
    obtain ⟨rfl, hok, hp⟩ := h
    refine ⟨rfl, hok, ?_⟩
    rw [hn y (by simp)]
    exact ih hp (fun x hx => hn x (by simp [hx]))

theorem Path.unique (hs : ∀ c, stop c → ¬ok c) (h1 : Path next ok stop c l1)
    (h2 : Path next ok stop c l2) : l1 = l2 := by
  induction l1 generalizing c l2 with
  | nil =>
    cases l2 with
    | nil => rfl
    | cons y l2 => exact absurd h2.2.1 (hs c h1)
  | cons x l1 ih =>
    cases l2 with
    | nil => exact absurd h1.2.1 (hs c h2)
    | cons y l2 => rw [h1.1, h2.1, ih h1.2.2 h2.2.2]

theorem Path.congr_iff (hs : ∀ c, stop c → ¬ok c) (h : Path next ok stop c l1)
    (hn : ∀ x ∈ l1, next' x = next x) : Path next' ok stop c l ↔ Path next ok stop c l := by
  constructor
  · intro hp
    rw [hp.unique hs (h.congr hn)]
    exact h
  · intro hp
    rw [hp.unique hs h]
    exact h.congr hn

theorem Path.suffix (h : Path next ok stop c (l1 ++ x :: l2)) :
    Path next ok stop x (x :: l2) := by
  obtain ⟨d, -, hd⟩ := path_append.mp h
  obtain rfl := hd.1
  exact hd

theorem Path.nodup (hs : ∀ c, stop c → ¬ok c) (h : Path next ok stop c l) : l.Nodup := by
  induction l generalizing c with
  | nil => exact List.nodup_nil
  | cons x l ih =>
    obtain ⟨rfl, hok, hp⟩ := h
    refine List.nodup_cons.mpr ⟨fun hx => ?_, ih hp⟩
    -- the same path would start at both occurrences of x, with two lengths
    obtain ⟨l1, l2, rfl⟩ := List.append_of_mem hx
    have hlen := congrArg List.length (Path.unique hs (show Path next ok stop x
      (x :: (l1 ++ x :: l2)) from ⟨rfl, hok, hp⟩) hp.suffix)
    simp at hlen
    omega

theorem Path.head_mem (h : Path next ok stop c l) (hc : ok c) (hs : ∀ c, stop c → ¬ok c) :
    c ∈ l := by
  cases l with
  | nil => exact absurd hc (hs c h)
  | cons x l =>
    rw [h.1]
    exact List.mem_cons_self ..

theorem Path.next_of_mem (h : Path next ok stop c l) (hx : x ∈ l) : ok (next x) ∨ stop (next x) := by
  induction l generalizing c with
  | nil => exact absurd hx (by simp)
  | cons y l ih =>
    obtain ⟨rfl, -, hp⟩ := h
    rcases List.mem_cons.mp hx with rfl | hx
    · cases l with
      | nil => exact .inr hp
      | cons z l => exact .inl hp.2.1
    · exact ih hp hx

theorem Path.next_at {j : Nat} (h : Path next ok stop c l) (hx : l[j]? = some x) :
    (l[j + 1]? = some (next x) ∧ ok (next x)) ∨ (l.length = j + 1 ∧ stop (next x)) := by
  induction l generalizing c j with
  | nil => cases hx
  | cons y l ih =>
    obtain ⟨rfl, -, hp⟩ := h
    cases j with
    | zero =>
      obtain rfl := Option.some.inj hx
      cases l with
      | nil => exact .inr ⟨rfl, hp⟩
      | cons z l => exact .inl ⟨congrArg some hp.1, hp.2.1⟩
    | succ j =>
      refine (ih hp hx).imp_right (And.imp_left (fun h => ?_))
      rw [List.length_cons, h]

theorem Path.not_mem (h : Path next ok stop c l) (h1 : ¬ok (next x)) (h2 : ¬stop (next x)) :
    x ∉ l :=
  fun hx => (h.next_of_mem hx).elim h1 h2

theorem Path.retarget [DecidableEq α] (hs : ∀ c, stop c → ¬ok c)
    (h : Path next ok stop c (l1 ++ x :: l2)) {ln : List α} (hn : Path next ok stop n ln)
    (hx : x ∉ ln) : Path (Function.update next x n) ok stop c (l1 ++ x :: ln) := by
  have hnodup := h.nodup hs
  obtain ⟨d, hseg, hd⟩ := path_append.mp h
  obtain ⟨rfl, hok, -⟩ := hd
  have hx1 : x ∉ l1 := fun hm => (List.nodup_append.mp hnodup).2.2 x hm x (by simp) rfl
  refine path_append.mpr ⟨x, hseg.congr (fun y hy => ?_), rfl, hok, ?_⟩
  · exact Function.update_of_ne (ne_of_mem_of_not_mem hy hx1) _ _
  · rw [Function.update_self]
    exact hn.congr (fun y hy => Function.update_of_ne (ne_of_mem_of_not_mem hy hx) _ _)

-- Disjoint paths from the heads in H.
structure Forest (next : α → α) (ok stop : α → Prop) (H : Set α) : Prop where
  path : ∀ h ∈ H, ok h ∧ ∃ l, Path next ok stop h l
  apart : ∀ h ∈ H, ∀ h' ∈ H, h ≠ h' → ∀ l l', Path next ok stop h l → Path next ok stop h' l' →
    ∀ x ∈ l, x ∉ l'

namespace Forest

variable {H : Set α}

theorem mono {H' : Set α} (hf : Forest next ok stop H) (hs : H' ⊆ H) :
    Forest next ok stop H' :=
  ⟨fun h hh => hf.path h (hs hh), fun h hh h' hh' => hf.apart h (hs hh) h' (hs hh')⟩

theorem head_eq (hs : ∀ c, stop c → ¬ok c) (hf : Forest next ok stop H) {h h' : α} (hh : h ∈ H)
    (hh' : h' ∈ H) (hp : Path next ok stop h l) (hm : h' ∈ l) : h = h' := by
  by_contra hne
  obtain ⟨hok, l', hp'⟩ := hf.path h' hh'
  exact hf.apart h hh h' hh' hne l l' hp hp' h' hm (hp'.head_mem hok hs)

theorem congr (hf : Forest next ok stop H) (hn : ∀ h ∈ H, ∀ l, Path next ok stop h l →
    ∀ x ∈ l, next' x = next x) (hs : ∀ c, stop c → ¬ok c) : Forest next' ok stop H := by
  have hpath : ∀ h ∈ H, ∀ l, Path next' ok stop h l → Path next ok stop h l := by
    intro h hh l hp
    obtain ⟨-, l0, hp0⟩ := hf.path h hh
    exact (hp0.congr_iff hs (hn h hh l0 hp0)).mp hp
  refine ⟨fun h hh => ?_, fun h hh h' hh' hne l l' hp hp' => ?_⟩
  · obtain ⟨hok, l, hp⟩ := hf.path h hh
    exact ⟨hok, l, hp.congr (hn h hh l hp)⟩
  · exact hf.apart h hh h' hh' hne l l' (hpath h hh l hp) (hpath h' hh' l' hp')

theorem free (hs : ∀ c, stop c → ¬ok c) (hf : Forest next ok stop H) {h : α} (hh : h ∈ H)
    (hp : Path next ok stop h l) (hn : ∀ x, x ∉ l → next' x = next x) :
    Forest next' ok stop (H \ {h}) := by
  refine (hf.mono (fun _ hx => hx.1)).congr (fun h' hh' l' hp' x hx => hn x ?_) hs
  exact hf.apart h' hh'.1 h hh hh'.2 _ _ hp' hp x hx

variable [DecidableEq α]

theorem alloc (hs : ∀ c, stop c → ¬ok c) (hf : Forest next ok stop H) {e : α} (hc : ok c)
    (h1 : ¬ok (next c)) (h2 : ¬stop (next c)) (he : stop e) :
    Forest (Function.update next c e) ok stop (insert c H) := by
  have hkeep : Forest (Function.update next c e) ok stop H := hf.congr (fun h hh l hp x hx =>
    Function.update_of_ne (ne_of_mem_of_not_mem hx (hp.not_mem h1 h2)) _ _) hs
  have hself : Path (Function.update next c e) ok stop c [c] := by
    refine ⟨rfl, hc, ?_⟩
    rw [Function.update_self]
    exact he
  have hnot : ∀ h ∈ H, ∀ l, Path (Function.update next c e) ok stop h l → c ∉ l := by
    intro h hh l hp
    obtain ⟨-, l0, hp0⟩ := hf.path h hh
    have hc0 := hp0.not_mem h1 h2
    rwa [hp.unique hs (hp0.congr (fun x hx =>
      Function.update_of_ne (ne_of_mem_of_not_mem hx hc0) _ _))]
  refine ⟨?_, ?_⟩
  · rintro h (rfl | hh)
    · exact ⟨hc, _, hself⟩
    · exact hkeep.path h hh
  · rintro h hh h' hh' hne l l' hp hp'
    rcases hh with rfl | hh
    · rcases hh' with rfl | hh'
      · exact absurd rfl hne
      · rw [hp.unique hs hself]
        intro x hx
        rw [List.mem_singleton.mp hx]
        exact hnot h' hh' l' hp'
    · rcases hh' with rfl | hh'
      · rw [hp'.unique hs hself]
        exact fun x hx hx' => hnot h hh l hp (List.mem_singleton.mp hx' ▸ hx)
      · exact hkeep.apart h hh h' hh' hne l l' hp hp'

theorem link (hs : ∀ c, stop c → ¬ok c) (hf : Forest next ok stop H) {h : α} (hh : h ∈ H)
    (hn : n ∈ H) (hne : n ≠ h) (hp : Path next ok stop h (l1 ++ x :: l2)) :
    Forest (Function.update next x n) ok stop (H \ {n}) := by
  obtain ⟨hnok, ln, hpn⟩ := hf.path n hn
  have hxn : x ∉ ln := hf.apart h hh n hn hne.symm _ _ hp hpn x (by simp)
  have hnew := hp.retarget hs hpn hxn
  have hkeep : ∀ h' ∈ H \ {n}, h' ≠ h → ∀ l, Path next ok stop h' l →
      Path (Function.update next x n) ok stop h' l := by
    intro h' hh' hne' l hp'
    have hx' : x ∉ l := hf.apart h hh h' hh'.1 (Ne.symm hne') _ _ hp hp' x (by simp)
    exact hp'.congr (fun y hy => Function.update_of_ne (ne_of_mem_of_not_mem hy hx') _ _)
  have hold : ∀ h' ∈ H \ {n}, h' ≠ h → ∀ l, Path (Function.update next x n) ok stop h' l →
      Path next ok stop h' l := by
    intro h' hh' hne' l hp'
    obtain ⟨-, l0, hp0⟩ := hf.path h' hh'.1
    rwa [hp'.unique hs (hkeep h' hh' hne' l0 hp0)]
  have hcross : ∀ h' ∈ H \ {n}, h' ≠ h → ∀ l, Path next ok stop h' l → ∀ y ∈ l1 ++ x :: ln, y ∉ l := by
    intro h' hh' hne' l hp' y hy hyl
    have hcase : y ∈ l1 ++ x :: l2 ∨ y ∈ ln := by
      simp only [List.mem_append, List.mem_cons] at hy ⊢
      tauto
    rcases hcase with hy | hy
    · exact hf.apart h hh h' hh'.1 (Ne.symm hne') _ _ hp hp' y hy hyl
    · exact hf.apart n hn h' hh'.1 (fun he => hh'.2 he.symm) _ _ hpn hp' y hy hyl
  refine ⟨fun h' hh' => ?_, fun a ha b hb hab l l' hpa hpb y hy hy' => ?_⟩
  · by_cases hhe : h' = h
    · rw [hhe]
      exact ⟨(hf.path h hh).1, _, hnew⟩
    · obtain ⟨hok, l, hp'⟩ := hf.path h' hh'.1
      exact ⟨hok, l, hkeep h' hh' hhe l hp'⟩
  · by_cases hah : a = h
    · subst hah
      rw [hpa.unique hs hnew] at hy
      exact hcross b hb (Ne.symm hab) l' (hold b hb (Ne.symm hab) l' hpb) y hy hy'
    · by_cases hbh : b = h
      · subst hbh
        rw [hpb.unique hs hnew] at hy'
        exact hcross a ha hab l (hold a ha hab l hpa) y hy' hy
      · exact hf.apart a ha.1 b hb.1 hab l l' (hold a ha hah l hpa) (hold b hb hbh l' hpb) y hy hy'

end Forest

end Chain
