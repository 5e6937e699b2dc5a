import Mathlib.Order.Nat
import SabakaOS.Library.Overlap

namespace Kstring

open ByteMemory

section Kmemmove

variable {m : Nat → UInt8}

-- The memory after the call and the pointer that it returns.
def kmemmove (m : Nat → UInt8) (dst src n : Nat) : (Nat → UInt8) × Nat :=
  if dst < src then (copyUp m dst src n, dst) else (copyDown m (dst + n) (src + n) n, dst)

theorem kmemmove_eq_copy (m : Nat → UInt8) (dst src n : Nat) :
    (kmemmove m dst src n).1 = copy m dst src n := by
  unfold kmemmove
  split
  · next h => exact copyUp_eq_copy (.inl h.le)
  · next h => exact copyDown_eq_copy (.inl (Nat.le_of_not_lt h))

theorem kmemmove_moves (m : Nat → UInt8) (dst src n : Nat) :
    (∀ i < n, (kmemmove m dst src n).1 (dst + i) = m (src + i)) ∧
      ∀ k, k < dst ∨ dst + n ≤ k → (kmemmove m dst src n).1 k = m k := by
  rw [kmemmove_eq_copy]
  exact ⟨fun _ hi => copy_at m dst src hi, fun _ hk => copy_of_not_mem m dst src n hk⟩

-- The loop of kmemcpy goes upwards only.
def kmemcpy (m : Nat → UInt8) (dst src n : Nat) : (Nat → UInt8) × Nat := (copyUp m dst src n, dst)

theorem kmemcpy_eq_copy {dst src n : Nat} (h : dst ≤ src ∨ src + n ≤ dst) :
    (kmemcpy m dst src n).1 = copy m dst src n := copyUp_eq_copy h

end Kmemmove

section Kstrncpy

-- written records the addresses stored to, the latest first.
structure Stores where
  mem : Nat → UInt8
  written : List Nat

def Stores.put (s : Stores) (a : Nat) (c : UInt8) : Stores :=
  { mem := Function.update s.mem a c, written := a :: s.written }

-- The first loop: what it has stored, where dst is then and what is left of n.
def copyChars : Nat → Stores → Nat → Nat → Stores × Nat × Nat
  | 0, s, dst, _ => (s, dst, 0)
  | n + 1, s, dst, src =>
    let c := s.mem src
    if c ≠ 0 then copyChars n (s.put dst c) (dst + 1) (src + 1) else (s.put dst c, dst + 1, n + 1)

def fillNul : Nat → Stores → Nat → Stores
  | 0, s, _ => s
  | n + 1, s, dst => fillNul n (s.put dst 0) (dst + 1)

def kstrncpy (m : Nat → UInt8) (dst src n : Nat) : Stores × Nat :=
  let (s, d, left) := copyChars n { mem := m, written := [] } dst src
  (fillNul left s d, dst)

-- The string at src has len characters.
structure IsString (m : Nat → UInt8) (src len : Nat) : Prop where
  chars : ∀ i < len, m (src + i) ≠ 0
  terminated : m (src + len) = 0

-- Exactly the n bytes from dst on are written, the string first and then NUL characters.
structure CopiesExactly (m : Nat → UInt8) (dst src n len : Nat) (s : Stores) : Prop where
  written : ∀ k, k ∈ s.written ↔ dst ≤ k ∧ k < dst + n
  bytes : ∀ i < n, s.mem (dst + i) = if i < min n len then m (src + i) else 0
  kept : ∀ k, k < dst ∨ dst + n ≤ k → s.mem k = m k

-- Where the destination begins inside the n bytes of the source, the copy puts there what is
-- there already.
def Repeats (m : Nat → UInt8) (dst src n : Nat) : Prop :=
  src < dst → ∀ i, dst + i < src + n → m (dst + i) = m (src + i)

variable {m : Nat → UInt8} {dst src n len : Nat} {s : Stores}

theorem repeats_iff : Repeats m dst src n ↔ ∀ i < n, m (src + i % (dst - src)) = m (src + i) := by
  constructor
  · intro h i
    induction i using Nat.strongRecOn with
    | ind i ih =>
      intro hi
      by_cases hgap : dst ≤ src ∨ i < dst - src
      · rw [mod_gap hgap]
      · obtain ⟨j, rfl⟩ : ∃ j, i = j + (dst - src) := ⟨i - (dst - src), by omega⟩
        have hback : src + (j + (dst - src)) = dst + j := by omega
        rw [Nat.add_mod_right, ih j (by omega) (by omega), hback, h (by omega) j (by omega)]
  · intro h hlt i hi
    have hback : dst + i = src + (i + (dst - src)) := by omega
    rw [hback, ← h _ (by omega), Nat.add_mod_right, h i (by omega)]

-- What the first loop has stored after k characters.
def copied (s : Stores) (dst src k : Nat) : Stores :=
  { mem := copyUp s.mem dst src k, written := (List.range' dst k).reverse ++ s.written }

theorem copyChars_skip (k : Nat) (h : ∀ i < k, copyUp s.mem dst src i (src + i) ≠ 0) :
    copyChars (k + n) s dst src = copyChars n (copied s dst src k) (dst + k) (src + k) := by
  induction k generalizing s dst src with
  | zero => simp [copied, copyUp]
  | succ k ih =>
    have hfirst : s.mem src ≠ 0 := h 0 (Nat.succ_pos k)
    have hrest : ∀ i < k, copyUp (s.put dst (s.mem src)).mem (dst + 1) (src + 1) i
        (src + 1 + i) ≠ 0 := by
      intro i hi
      have hi := h (i + 1) (Nat.succ_lt_succ hi)
      rwa [copyUp, Nat.add_comm i 1, ← Nat.add_assoc] at hi
    have hcopied : copied (s.put dst (s.mem src)) (dst + 1) (src + 1) k =
        copied s dst src (k + 1) := by
      simp [copied, Stores.put, copyUp, List.range'_succ]
    rw [Nat.add_right_comm, copyChars]
    simp only [if_pos hfirst]
    rw [ih hrest, hcopied, Nat.add_right_comm dst, Nat.add_right_comm src, Nat.add_assoc dst,
      Nat.add_assoc src]

theorem fillNul_written :
    (fillNul n s dst).written = (List.range' dst n).reverse ++ s.written := by
  induction n generalizing s dst with
  | zero => rfl
  | succ n ih =>
    rw [fillNul, ih, List.range'_succ, List.reverse_cons, List.append_assoc]
    rfl

-- The bytes that the first loop reads come from the string as long as they are before its end.
theorem kstrncpy_full (hs : IsString m src len) (hn : n ≤ len ∨ src < dst ∧ dst ≤ src + len) :
    (kstrncpy m dst src n).1 = copied { mem := m, written := [] } dst src n := by
  have hread : ∀ i < n, copyUp m dst src i (src + i) ≠ 0 := by
    intro i hi
    rw [copyUp_read]
    refine hs.chars _ ?_
    rcases hn with hn | hn
    · exact (Nat.mod_le i _).trans_lt (hi.trans_le hn)
    · exact (Nat.mod_lt i (by omega)).trans_le (by omega)
  have hskip := @copyChars_skip dst src 0 { mem := m, written := [] } n hread
  rw [Nat.add_zero] at hskip
  rw [kstrncpy, hskip]
  rfl

theorem kstrncpy_beyond (hs : IsString m src len) (hn : len < n)
    (ho : dst ≤ src ∨ src + len < dst) :
    dst + n ∈ (kstrncpy m dst src n).1.written := by
  have hread : ∀ i ≤ len, copyUp m dst src i (src + i) = m (src + i) := by
    intro i hi
    rw [copyUp_read, mod_gap (by omega)]
  obtain ⟨k, rfl⟩ : ∃ k, n = len + (k + 1) := ⟨n - len - 1, by omega⟩
  have hend : (copied { mem := m, written := [] } dst src len).mem (src + len) = 0 := by
    rw [← hs.terminated]
    exact hread len le_rfl
  have hchars : ∀ i < len, copyUp m dst src i (src + i) ≠ 0 := by
    intro i hi
    rw [hread i hi.le]
    exact hs.chars i hi
  rw [kstrncpy, copyChars_skip len hchars, copyChars]
  simp only [hend, ne_eq, not_true, if_false]
  rw [fillNul_written]
  refine List.mem_append_left _ (List.mem_reverse.mpr (List.mem_range'_1.mpr ?_))
  omega

theorem kstrncpy_exact_iff (hs : IsString m src len) :
    CopiesExactly m dst src n len (kstrncpy m dst src n).1 ↔ n ≤ len ∧ Repeats m dst src n := by
  rw [repeats_iff]
  constructor
  · intro h
    have hn : n ≤ len := by
      by_contra hlt
      rw [Nat.not_le] at hlt
      by_cases ho : dst ≤ src ∨ src + len < dst
      · have := (h.written (dst + n)).mp (kstrncpy_beyond hs hlt ho)
        omega
      · have hbyte := h.bytes len hlt
        rw [kstrncpy_full hs (.inr (by omega)), if_neg (by omega)] at hbyte
        refine hs.chars (len % (dst - src)) ((Nat.mod_lt _ (by omega)).trans_le (by omega)) ?_
        rw [← hbyte]
        exact (copyUp_at hlt).symm
    refine ⟨hn, fun i hi => ?_⟩
    have hbyte := h.bytes i hi
    rw [kstrncpy_full hs (.inl hn), if_pos (by omega)] at hbyte
    rw [← hbyte]
    exact (copyUp_at hi).symm
  · rintro ⟨hn, hrep⟩
    rw [kstrncpy_full hs (.inl hn)]
    constructor
    · intro k
      simp [copied, List.mem_range'_1]
    · intro i hi
      rw [if_pos (by omega), ← hrep i hi]
      exact copyUp_at hi
    · exact fun k hk => copyUp_of_not_mem hk

-- The string "ab" at address 0, before bytes that are all 255.
def abMemory : Nat → UInt8 := fun k => [97, 98, 0].getD k 255

theorem abMemory_string : IsString abMemory 0 2 := ⟨by decide, rfl⟩

theorem kstrncpy_exact_two : CopiesExactly abMemory 100 0 2 2 (kstrncpy abMemory 100 0 2).1 :=
  (kstrncpy_exact_iff abMemory_string).mpr ⟨le_rfl, fun _ i hi => by omega⟩

-- Five bytes are asked for and six are written.
theorem kstrncpy_one_more : IsString abMemory 0 2 ∧
    ¬CopiesExactly abMemory 100 0 5 2 (kstrncpy abMemory 100 0 5).1 := by
  refine ⟨abMemory_string, fun h => ?_⟩
  have hlast : (kstrncpy abMemory 100 0 5).1.mem 105 = 0 := by decide
  have hkept := h.kept 105 (.inr (by decide))
  rw [hlast] at hkept
  exact absurd hkept (by decide)

end Kstrncpy

end Kstring
