import Mathlib.Data.Nat.ModEq
import Mathlib.Algebra.BigOperators.Group.List.Basic
import Mathlib.Tactic.Ring

-- Sums with an end-around carry, of numbers up to m; zero is written both as 0 and as m.
namespace OnesComplement

def add (m a b : Nat) : Nat := if a + b ≤ m then a + b else a + b - m

def sum (m : Nat) (words : List Nat) : Nat := words.foldl (add m) 0

def complement (m a : Nat) : Nat := m - a

-- The number up to m that the sum of a total n comes to, 0 for a total of 0 only.
def norm (m n : Nat) : Nat := if n = 0 then 0 else (n - 1) % m + 1

section Norm

variable {m : Nat}

theorem norm_zero : norm m 0 = 0 := rfl

theorem norm_pos {n : Nat} (h : 0 < n) : norm m n = (n - 1) % m + 1 := if_neg (by omega)

theorem norm_of_le {n : Nat} (h : n ≤ m) : norm m n = n := by
  cases n with
  | zero => rfl
  | succ n => rw [norm_pos n.succ_pos, Nat.succ_sub_one, Nat.mod_eq_of_lt h]

theorem norm_le (hm : 0 < m) (n : Nat) : norm m n ≤ m := by
  cases n with
  | zero => exact Nat.zero_le m
  | succ n =>
    rw [norm_pos n.succ_pos]
    exact Nat.mod_lt _ hm

theorem norm_modEq (n : Nat) : norm m n ≡ n [MOD m] := by
  cases n with
  | zero => exact Nat.ModEq.refl 0
  | succ n =>
    rw [norm_pos n.succ_pos]
    exact (Nat.mod_modEq n m).add_right 1

theorem norm_eq_zero {n : Nat} : norm m n = 0 ↔ n = 0 := by
  unfold norm
  split <;> omega

theorem norm_congr {a b : Nat} (h0 : a = 0 ↔ b = 0) (h : a ≡ b [MOD m]) :
    norm m a = norm m b := by
  cases a with
  | zero => rw [h0.mp rfl]
  | succ a =>
    have hb : 0 < b := Nat.pos_of_ne_zero fun hb => Nat.succ_ne_zero a (h0.mpr hb)
    obtain ⟨b, rfl⟩ := Nat.exists_eq_add_of_le' hb
    rw [norm_pos a.succ_pos, norm_pos hb, Nat.succ_sub_one, Nat.succ_sub_one]
    exact congrArg (· + 1) (Nat.ModEq.add_right_cancel' 1 h)

theorem norm_mul (k n : Nat) : norm m (k * norm m n) = norm m (k * n) :=
  norm_congr (by rw [Nat.mul_eq_zero, Nat.mul_eq_zero, norm_eq_zero]) ((norm_modEq n).mul_left k)

theorem norm_multiple {n : Nat} (hn : 0 < n) (h : m ∣ n) : norm m n = m := by
  have hm : 0 < m := Nat.pos_of_dvd_of_pos h hn
  have hsame : norm m n = norm m m :=
    norm_congr (by omega) (((Nat.modEq_zero_iff_dvd).mpr h).trans (by simp [Nat.ModEq]))
  rw [hsame, norm_of_le le_rfl]

end Norm

section Sums

variable {m : Nat}

theorem add_eq_norm {a b : Nat} (ha : a ≤ m) (hb : b ≤ m) : add m a b = norm m (a + b) := by
  unfold add
  split
  · next h => rw [norm_of_le h]
  · next h =>
    have hcarry : norm m (a + b) = norm m (a + b - m) :=
      norm_congr (by omega) ((Nat.modEq_iff_dvd' (by omega)).mpr ⟨1, by omega⟩).symm
    rw [hcarry, norm_of_le (by omega)]

theorem add_norm (hm : 0 < m) (a : Nat) {b : Nat} (hb : b ≤ m) :
    add m (norm m a) b = norm m (a + b) := by
  rw [add_eq_norm (norm_le hm a) hb]
  exact norm_congr (by have := @norm_eq_zero m a; omega) ((norm_modEq a).add_right b)

theorem foldl_add (hm : 0 < m) (words : List Nat) (hw : ∀ w ∈ words, w ≤ m) (a : Nat) :
    words.foldl (add m) (norm m a) = norm m (a + words.sum) := by
  induction words generalizing a with
  | nil => rfl
  | cons w words ih =>
    rw [List.foldl_cons, add_norm hm a (hw w List.mem_cons_self),
      ih (fun v hv => hw v (List.mem_cons_of_mem w hv)), List.sum_cons, Nat.add_assoc]

theorem sum_eq_norm (hm : 0 < m) {words : List Nat} (hw : ∀ w ∈ words, w ≤ m) :
    sum m words = norm m words.sum := by
  have hrun := foldl_add hm words hw 0
  rwa [norm_zero, Nat.zero_add] at hrun

-- One turn of a loop that adds the part of a total above its word to the part inside.
theorem norm_carry (n : Nat) : norm m (n % (m + 1) + n / (m + 1)) = norm m n := by
  have hmod : n = n % (m + 1) + n / (m + 1) + m * (n / (m + 1)) := by
    calc n = n % (m + 1) + (m + 1) * (n / (m + 1)) := (Nat.mod_add_div n (m + 1)).symm
      _ = n % (m + 1) + n / (m + 1) + m * (n / (m + 1)) := by ring
  refine norm_congr ⟨fun h => ?_, fun h => by rw [h]; simp⟩ ?_
  · obtain ⟨hlow, hhigh⟩ := Nat.add_eq_zero_iff.mp h
    rw [hlow, hhigh] at hmod
    exact hmod
  · exact (Nat.modEq_iff_dvd' (hmod.ge.trans' (Nat.le_add_right _ _))).mpr
      ⟨n / (m + 1), Nat.sub_eq_of_eq_add' hmod⟩

-- A total that takes in the complement of what the rest comes to is a zero.
theorem norm_with_complement (hm : 0 < m) (n : Nat) :
    norm m (n + complement m (norm m n)) = m := by
  have hle := norm_le hm n
  have h0 := @norm_eq_zero m n
  refine norm_multiple (by unfold complement; omega) ?_
  refine (Nat.modEq_zero_iff_dvd).mp (((norm_modEq n).symm.add_right _).trans ?_)
  rw [show norm m n + complement m (norm m n) = m by unfold complement; omega]
  simp [Nat.ModEq]

end Sums

section Swap

variable {base : Nat}

-- The two digits of a number, in the other order.
def swap (base x : Nat) : Nat := x / base + base * (x % base)

theorem swap_lt {x : Nat} (h : x < base * base) : swap base x < base * base := by
  have hb : 0 < base := Nat.pos_of_ne_zero fun h0 => by simp [h0] at h
  have hhigh : x / base < base := Nat.div_lt_of_lt_mul h
  have hlow : base * (x % base) ≤ base * (base - 1) :=
    Nat.mul_le_mul_left base (Nat.le_sub_one_of_lt (Nat.mod_lt x hb))
  have hall : base * (base - 1) + base = base * base := by
    rw [← Nat.mul_succ, Nat.succ_eq_add_one, Nat.sub_add_cancel hb]
  unfold swap
  omega

theorem swap_eq_norm {x : Nat} (h : x < base * base) :
    swap base x = norm (base * base - 1) (base * x) := by
  have hb : 0 < base := Nat.pos_of_ne_zero fun h0 => by simp [h0] at h
  have hbb : base * base - 1 + 1 = base * base := Nat.sub_add_cancel (Nat.mul_pos hb hb)
  have hcarry := @norm_carry (base * base - 1) (base * x)
  rw [hbb, Nat.mul_mod_mul_left, Nat.mul_div_mul_left _ _ hb, Nat.add_comm] at hcarry
  exact (norm_of_le (Nat.le_sub_one_of_lt (swap_lt h))).symm.trans hcarry

theorem swap_norm (hb : 1 < base) (n : Nat) :
    swap base (norm (base * base - 1) n) = norm (base * base - 1) (base * n) := by
  have hbb : 1 < base * base := Nat.one_lt_mul_iff.mpr ⟨by omega, by omega, .inl hb⟩
  have hle := @norm_le (base * base - 1) (by omega) n
  rw [swap_eq_norm (by omega), norm_mul]

end Swap

end OnesComplement
