import Mathlib.Data.List.Basic
import Mathlib.Data.Nat.ModEq
import Mathlib.Logic.Function.Basic
import Mathlib.Tactic.Common

namespace Ring

variable {α : Type*} (cap : Nat)

def contents (buf : Nat → α) (tail len : Nat) : List α :=
  (List.range len).map (fun i => buf ((tail + i) % cap))

def push (buf : Nat → α) (head : Nat) : List α → (Nat → α) × Nat
  | [] => (buf, head)
  | b :: bs => push (Function.update buf head b) ((head + 1) % cap) bs

def pop (buf : Nat → α) (tail : Nat) : Nat → List α × Nat
  | 0 => ([], tail)
  | n + 1 =>
    let r := pop buf ((tail + 1) % cap) n
    (buf tail :: r.1, r.2)

@[simp] theorem contents_length (buf : Nat → α) (tail len : Nat) :
    (contents cap buf tail len).length = len := by simp [contents]

@[simp] theorem contents_zero (buf : Nat → α) (tail : Nat) : contents cap buf tail 0 = [] := rfl

variable {cap}

theorem contents_succ (buf : Nat → α) {tail : Nat} (ht : tail < cap) (len : Nat) :
    contents cap buf tail (len + 1) = buf tail :: contents cap buf ((tail + 1) % cap) len := by
  simp only [contents, List.range_succ_eq_map, List.map_cons, List.map_map, Nat.add_zero,
    Nat.mod_eq_of_lt ht, List.cons.injEq, true_and]
  refine List.map_congr_left (fun i _ => ?_)
  simp only [Function.comp, Nat.succ_eq_add_one, Nat.mod_add_mod]
  congr 2
  omega

theorem contents_snoc (buf : Nat → α) (tail len : Nat) :
    contents cap buf tail (len + 1) =
      contents cap buf tail len ++ [buf ((tail + len) % cap)] := by
  simp [contents, List.range_succ]

theorem mod_inj {cap tail i j : Nat} (hi : i < cap) (hj : j < cap)
    (h : (tail + i) % cap = (tail + j) % cap) : i = j := by
  have h' : tail + i ≡ tail + j [MOD cap] := h
  have := Nat.ModEq.add_left_cancel' tail h'
  rwa [Nat.ModEq, Nat.mod_eq_of_lt hi, Nat.mod_eq_of_lt hj] at this

theorem contents_update (buf : Nat → α) (tail : Nat) {len : Nat} (hl : len < cap) (b : α) :
    contents cap (Function.update buf ((tail + len) % cap) b) tail len =
      contents cap buf tail len := by
  refine List.map_congr_left (fun i hi => ?_)
  have hi := List.mem_range.mp hi
  rw [Function.update_of_ne]
  intro h
  have := mod_inj (by omega) hl h
  omega

theorem push_spec (buf : Nat → α) (tail : Nat) {len : Nat} (bs : List α)
    (h : len + bs.length ≤ cap) :
    contents cap (push cap buf ((tail + len) % cap) bs).1 tail (len + bs.length) =
        contents cap buf tail len ++ bs ∧
      (push cap buf ((tail + len) % cap) bs).2 = (tail + (len + bs.length)) % cap := by
  induction bs generalizing buf len with
  | nil => exact ⟨by simp [push], rfl⟩
  | cons b bs ih =>
    have hl : len < cap := by simp at h; omega
    have hlen : len + (b :: bs).length = len + 1 + bs.length := by simp; omega
    have hnext : ((tail + len) % cap + 1) % cap = (tail + (len + 1)) % cap := by
      rw [Nat.mod_add_mod, Nat.add_assoc]
    obtain ⟨hc, hh⟩ := ih (Function.update buf ((tail + len) % cap) b)
      (show len + 1 + bs.length ≤ cap by omega)
    rw [push, hnext, hlen, hh]
    refine ⟨?_, rfl⟩
    rw [hc, contents_snoc, contents_update buf tail hl, Function.update_self]
    simp

theorem pop_spec (buf : Nat → α) {tail : Nat} (ht : tail < cap) (n k : Nat) :
    contents cap buf tail (n + k) =
        (pop cap buf tail n).1 ++ contents cap buf (pop cap buf tail n).2 k ∧
      (pop cap buf tail n).2 = (tail + n) % cap := by
  induction n generalizing tail with
  | zero => simp [pop, Nat.mod_eq_of_lt ht]
  | succ n ih =>
    obtain ⟨hc, hh⟩ := ih (show (tail + 1) % cap < cap from
      Nat.mod_lt _ (by omega))
    refine ⟨?_, ?_⟩
    · rw [show n + 1 + k = n + k + 1 by omega, contents_succ buf ht, hc]
      rfl
    · rw [pop]
      simp only [hh, Nat.mod_add_mod]
      congr 1
      omega

end Ring
