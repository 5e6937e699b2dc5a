import Mathlib.Data.Nat.Digits.Lemmas

-- Numbers written in a base, the most significant digit first and 0 as one digit.
namespace Numeral

variable {b n d : Nat}

def digits (b n : Nat) : List Nat := if n = 0 then [0] else (Nat.digits b n).reverse

def value (b : Nat) (ds : List Nat) : Nat := ds.foldl (fun v d => v * b + d) 0

theorem digits_zero : digits b 0 = [0] := if_pos rfl

theorem digits_of_ne_zero (h : n ≠ 0) : digits b n = (Nat.digits b n).reverse := if_neg h

theorem value_snoc (ds : List Nat) (d : Nat) : value b (ds ++ [d]) = value b ds * b + d :=
  List.foldl_append

theorem value_reverse (ds : List Nat) : value b ds.reverse = Nat.ofDigits b ds := by
  induction ds with
  | nil => rfl
  | cons d ds ih =>
    rw [List.reverse_cons, value_snoc, ih, Nat.ofDigits_cons, Nat.mul_comm, Nat.add_comm]

theorem value_digits (b n : Nat) : value b (digits b n) = n := by
  by_cases hn : n = 0
  · rw [hn, digits_zero]
    simp [value]
  · rw [digits_of_ne_zero hn, value_reverse, Nat.ofDigits_digits]

theorem digit_lt (hb : 1 < b) (h : d ∈ digits b n) : d < b := by
  by_cases hn : n = 0
  · rw [hn, digits_zero, List.mem_singleton] at h
    omega
  · rw [digits_of_ne_zero hn, List.mem_reverse] at h
    exact Nat.digits_lt_base hb h

theorem digits_head (hn : n ≠ 0) : (digits b n).head? ≠ some 0 := by
  have hne : Nat.digits b n ≠ [] := Nat.digits_ne_nil_iff_ne_zero.mpr hn
  rw [digits_of_ne_zero hn, List.head?_reverse, List.getLast?_eq_some_getLast hne, ne_eq,
    Option.some.injEq]
  exact Nat.getLast_digit_ne_zero b hn

theorem digits_length_le {k : Nat} (hb : 1 < b) (hk : 0 < k) (h : n < b ^ k) :
    (digits b n).length ≤ k := by
  by_cases hn : n = 0
  · rw [hn, digits_zero]
    exact hk
  · rw [digits_of_ne_zero hn, List.length_reverse]
    exact (Nat.digits_length_le_iff hb n).mpr h

theorem digits_of_lt (h : n < b) : digits b n = [n] := by
  by_cases hn : n = 0
  · rw [hn, digits_zero]
  · rw [digits_of_ne_zero hn, Nat.digits_of_lt b n hn h, List.reverse_singleton]

-- The last digit comes off the end.
theorem digits_snoc (hb : 1 < b) (h : b ≤ n) : digits b n = digits b (n / b) ++ [n % b] := by
  have hq : n / b ≠ 0 := (Nat.div_pos h (by omega)).ne'
  rw [digits_of_ne_zero (by omega), digits_of_ne_zero hq, Nat.digits_def' hb (by omega),
    List.reverse_cons]

end Numeral
