import SabakaOS.Library.ByteMemory

-- Copying byte by byte, upwards and downwards, between ranges that may overlap.
namespace ByteMemory

variable {m : Nat → UInt8} {dst src n : Nat}

def copyUp (m : Nat → UInt8) (dst src : Nat) : Nat → Nat → UInt8
  | 0 => m
  | n + 1 => copyUp (Function.update m dst (m src)) (dst + 1) (src + 1) n

def copyDown (m : Nat → UInt8) (dst src : Nat) : Nat → Nat → UInt8
  | 0 => m
  | n + 1 => copyDown (Function.update m (dst - 1) (m (src - 1))) (dst - 1) (src - 1) n

theorem copyUp_succ (m : Nat → UInt8) (dst src n : Nat) : copyUp m dst src (n + 1) =
    Function.update (copyUp m dst src n) (dst + n) (copyUp m dst src n (src + n)) := by
  induction n generalizing m dst src with
  | zero => rfl
  | succ n ih =>
    rw [copyUp, ih, copyUp]
    simp only [Nat.add_assoc, Nat.add_comm 1 n]

theorem copyUp_of_not_mem {k : Nat} (h : k < dst ∨ dst + n ≤ k) : copyUp m dst src n k = m k := by
  induction n with
  | zero => rfl
  | succ n ih =>
    rw [copyUp_succ, Function.update_of_ne (by omega)]
    exact ih (by omega)

theorem mod_gap {i : Nat} (h : dst ≤ src ∨ i < dst - src) : i % (dst - src) = i := by
  rcases h with h | h
  · rw [Nat.sub_eq_zero_of_le h, Nat.mod_zero]
  · exact Nat.mod_eq_of_lt h

-- Behind the start of the destination the copy reads bytes that it has put there itself, at the
-- distance of the two ranges. This distance is 0 where dst ≤ src.
theorem copyUp_at {i : Nat} (h : i < n) :
    copyUp m dst src n (dst + i) = m (src + i % (dst - src)) := by
  induction n generalizing i with
  | zero => exact absurd h (Nat.not_lt_zero i)
  | succ n ih =>
    rw [copyUp_succ]
    by_cases hi : i = n
    · rw [hi, Function.update_self]
      by_cases hn : dst ≤ src ∨ n < dst - src
      · rw [mod_gap hn, copyUp_of_not_mem (by omega)]
      · obtain ⟨j, rfl⟩ : ∃ j, n = j + (dst - src) := ⟨n - (dst - src), by omega⟩
        have hback : src + (j + (dst - src)) = dst + j := by omega
        rw [hback, ih (by omega), Nat.add_mod_right]
    · rw [Function.update_of_ne (by omega), ih (by omega)]

-- The byte that turn i reads.
theorem copyUp_read (m : Nat → UInt8) (dst src i : Nat) :
    copyUp m dst src i (src + i) = m (src + i % (dst - src)) := by
  have h : copyUp m dst src (i + 1) (dst + i) = m (src + i % (dst - src)) :=
    copyUp_at (Nat.lt_succ_self i)
  rwa [copyUp_succ, Function.update_self] at h

theorem eq_copy {m' : Nat → UInt8} (hat : ∀ i < n, m' (dst + i) = m (src + i))
    (hkept : ∀ k, k < dst ∨ dst + n ≤ k → m' k = m k) : m' = copy m dst src n := by
  funext k
  by_cases hk : k < dst ∨ dst + n ≤ k
  · rw [hkept k hk, copy_of_not_mem m dst src n hk]
  · obtain ⟨i, rfl⟩ : ∃ i, k = dst + i := ⟨k - dst, by omega⟩
    rw [hat i (by omega), copy_at m dst src (by omega)]

theorem copyUp_eq_copy (h : dst ≤ src ∨ src + n ≤ dst) : copyUp m dst src n = copy m dst src n := by
  refine eq_copy (fun i hi => ?_) fun k hk => copyUp_of_not_mem hk
  rw [copyUp_at hi, mod_gap (by omega)]

theorem copyDown_of_not_mem {k : Nat} (h : k < dst ∨ dst + n ≤ k) :
    copyDown m (dst + n) (src + n) n k = m k := by
  induction n generalizing m with
  | zero => rfl
  | succ n ih =>
    rw [copyDown, ← Nat.add_assoc, ← Nat.add_assoc, Nat.add_sub_cancel, Nat.add_sub_cancel,
      ih (by omega), Function.update_of_ne (by omega)]

-- Going down, no byte is read after it has been overwritten as long as src ≤ dst.
theorem copyDown_at (hle : src ≤ dst ∨ dst + n ≤ src) {i : Nat} (h : i < n) :
    copyDown m (dst + n) (src + n) n (dst + i) = m (src + i) := by
  induction n generalizing m with
  | zero => exact absurd h (Nat.not_lt_zero i)
  | succ n ih =>
    rw [copyDown, ← Nat.add_assoc, ← Nat.add_assoc, Nat.add_sub_cancel, Nat.add_sub_cancel]
    by_cases hi : i = n
    · rw [hi, copyDown_of_not_mem (.inr (Nat.le_refl _)), Function.update_self]
    · rw [ih (by omega) (by omega), Function.update_of_ne (by omega)]

theorem copyDown_eq_copy (h : src ≤ dst ∨ dst + n ≤ src) :
    copyDown m (dst + n) (src + n) n = copy m dst src n :=
  eq_copy (fun _ hi => copyDown_at h hi) fun _ hk => copyDown_of_not_mem hk

end ByteMemory
