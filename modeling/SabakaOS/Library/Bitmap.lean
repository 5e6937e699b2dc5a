import Mathlib.Logic.Function.Basic
import Mathlib.Data.BitVec

namespace Bitmap

variable {w : Nat}

def set (m : Nat → BitVec w) (i : Nat) : Nat → BitVec w :=
  Function.update m (i / w) (m (i / w) ||| (1#w <<< (i % w)))

def clear (m : Nat → BitVec w) (i : Nat) : Nat → BitVec w :=
  Function.update m (i / w) (m (i / w) &&& ~~~(1#w <<< (i % w)))

def test (m : Nat → BitVec w) (i : Nat) : Bool :=
  m (i / w) &&& (1#w <<< (i % w)) != 0#w

theorem test_eq_bit (hw : 0 < w) (m : Nat → BitVec w) (i : Nat) :
    test m i = (m (i / w)).getLsbD (i % w) := by
  have hi : i % w < w := Nat.mod_lt _ hw
  rw [test, ← BitVec.twoPow_eq, BitVec.and_twoPow]
  cases hb : (m (i / w)).getLsbD (i % w) with
  | false => simp
  | true =>
    simp only [if_true, bne_iff_ne, ne_eq]
    intro h
    have := congrArg (fun b : BitVec w => b.getLsbD (i % w)) h
    simp [hi] at this

theorem index_eq {i j : Nat} (hq : i / w = j / w) (hr : i % w = j % w) : i = j := by
  rw [← Nat.div_add_mod i w, ← Nat.div_add_mod j w, hq, hr]

theorem test_set (hw : 0 < w) (m : Nat → BitVec w) (i j : Nat) :
    test (set m i) j = (test m j || decide (i = j)) := by
  have hj : j % w < w := Nat.mod_lt _ hw
  rw [test_eq_bit hw, test_eq_bit hw, set, ← BitVec.twoPow_eq]
  by_cases hq : j / w = i / w
  · rw [hq, Function.update_self, BitVec.getLsbD_or, BitVec.getLsbD_twoPow]
    have hi : i % w < w := Nat.mod_lt _ hw
    by_cases hr : i % w = j % w
    · have := index_eq hq.symm hr
      simp [this, hj]
    · have : i ≠ j := fun h => hr (by rw [h])
      simp [hr, this]
  · have : i ≠ j := fun h => hq (by rw [h])
    simp [Function.update_of_ne hq, this]

theorem test_clear (hw : 0 < w) (m : Nat → BitVec w) (i j : Nat) :
    test (clear m i) j = (test m j && decide (i ≠ j)) := by
  have hj : j % w < w := Nat.mod_lt _ hw
  rw [test_eq_bit hw, test_eq_bit hw, clear, ← BitVec.twoPow_eq]
  by_cases hq : j / w = i / w
  · rw [hq, Function.update_self, BitVec.getLsbD_and, BitVec.getLsbD_not, BitVec.getLsbD_twoPow]
    by_cases hr : i % w = j % w
    · have := index_eq hq.symm hr
      simp [this]
    · have : i ≠ j := fun h => hr (by rw [h])
      simp [hr, this, hj]
  · have : i ≠ j := fun h => hq (by rw [h])
    simp [Function.update_of_ne hq, this]

end Bitmap
