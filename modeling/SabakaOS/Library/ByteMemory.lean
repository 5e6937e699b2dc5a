import Mathlib.Algebra.Group.Nat.Defs
import Mathlib.Data.List.GetD
import Mathlib.Data.List.Induction
import Mathlib.Logic.Function.Basic
import Mathlib.Tactic.Common

namespace ByteMemory

def readLE (m : Nat → UInt8) : Nat → Nat → Nat
  | 0, _ => 0
  | n + 1, a => (m a).toNat + 256 * readLE m n (a + 1)

def writeLE (m : Nat → UInt8) : Nat → Nat → Nat → Nat → UInt8
  | 0, _, _ => m
  | n + 1, a, v => Function.update (writeLE m n (a + 1) (v / 256)) a (UInt8.ofNat v)

def readBytes (m : Nat → UInt8) (n a : Nat) : List UInt8 := (List.range n).map (fun i => m (a + i))

def writeBytes (m : Nat → UInt8) (a : Nat) (bs : List UInt8) : Nat → UInt8 :=
  fun k => if a ≤ k then bs.getD (k - a) (m k) else m k

def copy (m : Nat → UInt8) (dst src n : Nat) : Nat → UInt8 := writeBytes m dst (readBytes m n src)

theorem readLE_lt (m : Nat → UInt8) (n a : Nat) : readLE m n a < 256 ^ n := by
  induction n generalizing a with
  | zero => simp [readLE]
  | succ n ih =>
    have h1 := ih (a + 1)
    have h2 := (m a).toNat_lt
    rw [readLE, Nat.pow_succ]
    omega

theorem readLE_congr {m m' : Nat → UInt8} {n a : Nat}
    (h : ∀ k, a ≤ k → k < a + n → m' k = m k) : readLE m' n a = readLE m n a := by
  induction n generalizing a with
  | zero => rfl
  | succ n ih =>
    rw [readLE, readLE, h a (by omega) (by omega), ih (fun k h1 h2 => h k (by omega) (by omega))]

theorem writeLE_of_not_mem (m : Nat → UInt8) (n a v : Nat) {k : Nat} (h : k < a ∨ a + n ≤ k) :
    writeLE m n a v k = m k := by
  induction n generalizing a v with
  | zero => rfl
  | succ n ih =>
    rw [writeLE, Function.update_of_ne (by omega), ih _ _ (by omega)]

theorem read_write_same (m : Nat → UInt8) (n a v : Nat) :
    readLE (writeLE m n a v) n a = v % 256 ^ n := by
  induction n generalizing a v with
  | zero => simp [readLE, Nat.mod_one]
  | succ n ih =>
    have htail : readLE (Function.update (writeLE m n (a + 1) (v / 256)) a (UInt8.ofNat v)) n
        (a + 1) = readLE (writeLE m n (a + 1) (v / 256)) n (a + 1) :=
      readLE_congr (fun k h1 _ => Function.update_of_ne (by omega) _ _)
    rw [readLE, writeLE, htail, ih, Function.update_self, UInt8.toNat_ofNat',
      show 256 ^ (n + 1) = 256 * 256 ^ n from Nat.pow_succ', Nat.mod_mul]

theorem read_write_disjoint (m : Nat → UInt8) {n k a b : Nat} (v : Nat)
    (h : b + k ≤ a ∨ a + n ≤ b) : readLE (writeLE m n a v) k b = readLE m k b :=
  readLE_congr (fun _ _ _ => writeLE_of_not_mem m n a v (by omega))

theorem read_update_disjoint (m : Nat → UInt8) {k a b : Nat} (v : UInt8)
    (h : b + k ≤ a ∨ a < b) : readLE (Function.update m a v) k b = readLE m k b :=
  readLE_congr (fun _ _ _ => Function.update_of_ne (by omega) _ _)

@[simp] theorem readBytes_length (m : Nat → UInt8) (n a : Nat) : (readBytes m n a).length = n := by
  simp [readBytes]

theorem writeBytes_eq (m : Nat → UInt8) (a : Nat) (bs : List UInt8) (k : Nat) :
    writeBytes m a bs k = if a ≤ k ∧ k < a + bs.length then bs.getD (k - a) 0 else m k := by
  unfold writeBytes
  by_cases ha : a ≤ k
  · rw [if_pos ha]
    by_cases hk : k < a + bs.length
    · rw [if_pos ⟨ha, hk⟩, List.getD_eq_getElem _ _ (by omega), List.getD_eq_getElem _ _ (by omega)]
    · rw [if_neg (fun h => hk h.2), List.getD_eq_default _ _ (by omega)]
  · rw [if_neg ha, if_neg (fun h => ha h.1)]

theorem writeBytes_of_not_mem (m : Nat → UInt8) (a : Nat) (bs : List UInt8) {k : Nat}
    (h : k < a ∨ a + bs.length ≤ k) : writeBytes m a bs k = m k := by
  unfold writeBytes
  split
  · rw [List.getD_eq_default _ _ (by omega)]
  · rfl

theorem writeBytes_nil (m : Nat → UInt8) (a : Nat) : writeBytes m a [] = m := by
  funext k
  simp [writeBytes]

theorem writeBytes_snoc (m : Nat → UInt8) (a : Nat) (bs : List UInt8) (b : UInt8) :
    writeBytes m a (bs ++ [b]) = Function.update (writeBytes m a bs) (a + bs.length) b := by
  funext k
  by_cases hk : k = a + bs.length
  · subst hk
    rw [Function.update_self, writeBytes, if_pos (Nat.le_add_right a _), Nat.add_sub_cancel_left,
      List.getD_append_right _ _ _ _ (Nat.le_refl _), Nat.sub_self]
    rfl
  · rw [Function.update_of_ne hk, writeBytes_eq, writeBytes_eq, List.length_append,
      List.length_singleton]
    by_cases hin : a ≤ k ∧ k < a + bs.length
    · rw [if_pos (by omega), if_pos hin, List.getD_append _ _ _ _ (by omega)]
    · rw [if_neg (by omega), if_neg hin]

theorem writeBytes_append (m : Nat → UInt8) (a : Nat) (bs cs : List UInt8) :
    writeBytes m a (bs ++ cs) = writeBytes (writeBytes m a bs) (a + bs.length) cs := by
  induction cs using List.reverseRecOn with
  | nil => rw [List.append_nil, writeBytes_nil]
  | append_singleton cs c ih =>
    rw [← List.append_assoc, writeBytes_snoc, writeBytes_snoc, ih, List.length_append,
      Nat.add_assoc]

theorem writeBytes_cons (m : Nat → UInt8) (a : Nat) (b : UInt8) (bs : List UInt8) :
    writeBytes m a (b :: bs) = writeBytes (Function.update m a b) (a + 1) bs := by
  have hone := writeBytes_snoc m a [] b
  rw [writeBytes_nil, List.nil_append, List.length_nil, Nat.add_zero] at hone
  rw [← List.singleton_append, writeBytes_append, hone, List.length_singleton]

theorem writeBytes_update (m : Nat → UInt8) {a k : Nat} {bs : List UInt8} (b : UInt8)
    (h : k < a ∨ a + bs.length ≤ k) :
    writeBytes (Function.update m k b) a bs = Function.update (writeBytes m a bs) k b := by
  funext j
  by_cases hj : j = k
  · rw [hj, writeBytes_of_not_mem _ a bs h, Function.update_self, Function.update_self]
  · rw [Function.update_of_ne hj, writeBytes_eq, writeBytes_eq, Function.update_of_ne hj]

theorem readBytes_append (m : Nat → UInt8) (n k a : Nat) :
    readBytes m (n + k) a = readBytes m n a ++ readBytes m k (a + n) := by
  simp [readBytes, List.range_add, Nat.add_assoc]

theorem readBytes_congr {m m' : Nat → UInt8} {n a : Nat}
    (h : ∀ k, a ≤ k → k < a + n → m' k = m k) : readBytes m' n a = readBytes m n a :=
  List.map_congr_left fun i hi =>
    h (a + i) (Nat.le_add_right a i) (Nat.add_lt_add_left (List.mem_range.mp hi) a)

theorem readBytes_take (m : Nat → UInt8) (n a k : Nat) :
    (readBytes m n a).take k = readBytes m (min k n) a := by
  simp [readBytes, ← List.map_take, List.take_range]

theorem readBytes_drop (m : Nat → UInt8) {n k : Nat} (a : Nat) (h : k ≤ n) :
    (readBytes m n a).drop k = readBytes m (n - k) (a + k) := by
  obtain ⟨j, rfl⟩ := Nat.exists_eq_add_of_le h
  rw [readBytes_append, List.drop_left' (readBytes_length m k a), Nat.add_sub_cancel_left]

theorem readBytes_written (m : Nat → UInt8) (a : Nat) (bs : List UInt8) :
    readBytes (writeBytes m a bs) bs.length a = bs := by
  refine List.ext_getElem (readBytes_length _ _ _) (fun i hi h => ?_)
  simp [readBytes, writeBytes, h]

-- The first n bytes, with bs put over them from byte a on.
theorem readBytes_overwritten {m m' : Nat → UInt8} {n a : Nat} {bs : List UInt8} (ha : a ≤ n)
    (h : ∀ k < max n (a + bs.length), m' k = writeBytes m a bs k) :
    readBytes m' (max n (a + bs.length)) 0 =
      (readBytes m n 0).take a ++ bs ++ (readBytes m n 0).drop (a + bs.length) := by
  have hsize : max n (a + bs.length) = a + bs.length + (n - (a + bs.length)) := by omega
  have hbefore : readBytes (writeBytes m a bs) a 0 = readBytes m a 0 :=
    readBytes_congr fun i _ hi => writeBytes_of_not_mem _ a bs (by omega)
  have hafter : readBytes (writeBytes m a bs) (n - (a + bs.length)) (a + bs.length) =
      readBytes m (n - (a + bs.length)) (a + bs.length) :=
    readBytes_congr fun i hi _ => writeBytes_of_not_mem _ a bs (by omega)
  have htake : (readBytes m n 0).take a = readBytes m a 0 := by
    rw [readBytes_take, Nat.min_eq_left ha]
  have hdrop : (readBytes m n 0).drop (a + bs.length) =
      readBytes m (n - (a + bs.length)) (a + bs.length) := by
    by_cases hn : a + bs.length ≤ n
    · rw [readBytes_drop _ 0 hn, Nat.zero_add]
    · rw [List.drop_eq_nil_of_le (by rw [readBytes_length]; omega), Nat.sub_eq_zero_of_le (by omega)]
      rfl
  rw [readBytes_congr fun k _ hk => h k (by omega), hsize, readBytes_append, readBytes_append,
    Nat.zero_add, Nat.zero_add, readBytes_written, hbefore, hafter, htake, hdrop]

theorem copy_at (m : Nat → UInt8) (dst src : Nat) {n i : Nat} (h : i < n) :
    copy m dst src n (dst + i) = m (src + i) := by
  rw [copy, writeBytes_eq, readBytes_length, if_pos ⟨Nat.le_add_right _ _, by omega⟩,
    Nat.add_sub_cancel_left, List.getD_eq_getElem _ _ (by rwa [readBytes_length])]
  simp [readBytes]

theorem copy_of_not_mem (m : Nat → UInt8) (dst src n : Nat) {k : Nat}
    (h : k < dst ∨ dst + n ≤ k) : copy m dst src n k = m k :=
  writeBytes_of_not_mem _ _ _ (by simpa using h)

end ByteMemory
