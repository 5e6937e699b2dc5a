import Mathlib.Data.BitVec
import Mathlib.Data.List.TakeWhile
import SabakaOS.Fat32.Names
import SabakaOS.Library.Loop
import SabakaOS.Library.Numeral

namespace Kstring

open ByteMemory Fat32 Numeral

section Model

def hex : List UInt8 :=
  [0x30, 0x31, 0x32, 0x33, 0x34, 0x35, 0x36, 0x37, 0x38, 0x39, 0x41, 0x42, 0x43, 0x44, 0x45, 0x46]

def hexDigit (d : Nat) : UInt8 := hex.getD d 0

-- The digits in tmp, the lowest first, with the places of tmp that are left; none past its end.
def digitLoop (base : Nat) : Nat → Nat → List UInt8 → Option (List UInt8)
  | _, 0, tmp => some tmp
  | 0, _ + 1, _ => none
  | left + 1, n + 1, tmp =>
    digitLoop base left ((n + 1) / base) (tmp ++ [hexDigit ((n + 1) % base)])

def putReversed (m : Nat → UInt8) (buf : Nat) (tmp : List UInt8) : Nat → UInt8 :=
  Loop.upto tmp.length
    (fun i m => Function.update m (buf + i) (tmp.getD (tmp.length - 1 - i) 0)) m

-- The memory after the call and the pointer that it returns.
def kuitoa (m : Nat → UInt8) (n buf : Nat) (base : Int) : Option ((Nat → UInt8) × Nat) :=
  if base < 2 ∨ 16 < base then
    some (Function.update (Function.update m buf 0x3F) (buf + 1) 0, buf)
  else if n = 0 then some (Function.update (Function.update m buf 0x30) (buf + 1) 0, buf)
  else (digitLoop base.toNat 34 n []).map fun tmp =>
    (Function.update (putReversed m buf tmp) (buf + tmp.length) 0, buf)

def kitoa (m : Nat → UInt8) (n : BitVec 32) (buf : Nat) (base : Int) :
    Option ((Nat → UInt8) × Nat) :=
  if n.toInt < 0 ∧ base = 10 then
    (kuitoa (Function.update m buf 0x2D) (-n).toNat (buf + 1) base).map fun r => (r.1, buf)
  else (kuitoa m n.toNat buf base).map fun r => (r.1, buf)

def atoiLoop : List UInt8 → BitVec 32 → BitVec 32
  | [], r => r
  | c :: s, r =>
    if 0x30 ≤ c ∧ c ≤ 0x39 then atoiLoop s (r * 10 + BitVec.ofNat 32 (c.toNat - 0x30)) else r

def katoi (s : List UInt8) : BitVec 32 :=
  let neg : Bool := s.head? = some 0x2D
  let r := atoiLoop (if neg then s.tail else s) 0
  if neg then -r else r

-- The do loop from buf[i] downwards; none in front of the buffer.
def u32Loop : Nat → Nat → (Nat → UInt8) → Option ((Nat → UInt8) × Nat)
  | 0, _, _ => none
  | i + 1, value, buf =>
    let buf := Function.update buf i (UInt8.ofNat (0x30 + value % 10))
    if value / 10 = 0 then some (buf, i) else u32Loop i (value / 10) buf

-- The static buffer of 11 bytes and the offset in it that the returned pointer has.
def u32ToStr (buf : Nat → UInt8) (value : Nat) : Option ((Nat → UInt8) × Nat) :=
  u32Loop 10 value (Function.update buf 10 0)

end Model

-- The string text has been stored at a, and nothing else, within size bytes.
structure Prints (m : Nat → UInt8) (a : Nat) (text : List UInt8) (size : Nat)
    (m' : Nat → UInt8) : Prop where
  stored : m' = writeBytes m a (text ++ [0])
  string : isCString text
  fits : text.length + 1 ≤ size

-- What a reader of the string gets back.
theorem Prints.read {m m' : Nat → UInt8} {a size : Nat} {text : List UInt8}
    (h : Prints m a text size m') : cString (readBytes m' size a) = text := by
  obtain ⟨k, rfl⟩ : ∃ k, size = (text ++ [0]).length + k :=
    ⟨size - (text.length + 1), by simp [Nat.add_sub_of_le h.fits]⟩
  have hall : text.takeWhile (· != 0) = text :=
    List.takeWhile_eq_self_iff.mpr fun c hc => bne_iff_ne.mpr (h.string c hc)
  rw [readBytes_append, h.stored, readBytes_written, cString, List.append_assoc,
    List.takeWhile_append, if_pos (by rw [hall]), List.singleton_append, List.takeWhile_cons_of_neg,
    List.append_nil]
  decide

def numeral (base n : Nat) : List UInt8 := (digits base n).map hexDigit

section Digits

variable {m : Nat → UInt8} {base n buf : Nat}

theorem hexDigit_ne_zero {d : Nat} (h : d < 16) : hexDigit d ≠ 0 := by
  have hall : ∀ d < 16, hexDigit d ≠ 0 := by decide
  exact hall d h

theorem hexDigit_decimal {d : Nat} (h : d < 10) : hexDigit d = UInt8.ofNat (0x30 + d) := by
  have hall : ∀ d < 10, hexDigit d = UInt8.ofNat (0x30 + d) := by decide
  exact hall d h

theorem decimal_toNat {d : Nat} (h : d < 10) : (hexDigit d).toNat = 0x30 + d := by
  have hall : ∀ d < 10, (hexDigit d).toNat = 0x30 + d := by decide
  exact hall d h

theorem numeral_string (h2 : 2 ≤ base) (h16 : base ≤ 16) : isCString (numeral base n) := by
  intro c hc
  obtain ⟨d, hd, rfl⟩ := List.mem_map.mp hc
  exact hexDigit_ne_zero ((digit_lt h2 hd).trans_le h16)

theorem numeral_length {k : Nat} (h2 : 2 ≤ base) (hk : 0 < k) (hn : n < base ^ k) :
    (numeral base n).length ≤ k := by
  rw [numeral, List.length_map]
  exact digits_length_le h2 hk hn

theorem digitLoop_eq (h2 : 2 ≤ base) {left : Nat} {tmp : List UInt8}
    (h : (Nat.digits base n).length ≤ left) :
    digitLoop base left n tmp = some (tmp ++ (Nat.digits base n).map hexDigit) := by
  induction left generalizing n tmp with
  | zero =>
    have hnil := List.length_eq_zero_iff.mp (Nat.le_zero.mp h)
    obtain rfl := Nat.digits_eq_nil_iff_eq_zero.mp hnil
    simp [digitLoop]
  | succ left ih =>
    cases n with
    | zero => simp [digitLoop]
    | succ n =>
      rw [Nat.digits_def' h2 n.succ_pos, List.length_cons] at h
      rw [digitLoop, ih (Nat.le_of_succ_le_succ h), Nat.digits_def' h2 n.succ_pos, List.map_cons,
        List.append_assoc]
      rfl

theorem putReversed_eq (m : Nat → UInt8) (buf : Nat) (tmp : List UInt8) :
    putReversed m buf tmp = writeBytes m buf tmp.reverse := by
  have hall : putReversed m buf tmp = writeBytes m buf (tmp.reverse.take tmp.length) := by
    refine Loop.upto_inv (fun k m' => m' = writeBytes m buf (tmp.reverse.take k))
      (writeBytes_nil m buf).symm fun i t hi ht => ?_
    have hlt : i < tmp.reverse.length := by simpa using hi
    have hget : tmp.getD (tmp.length - 1 - i) 0 = tmp.reverse[i] := by
      rw [List.getElem_reverse, List.getD_eq_getElem]
    have hlen : (tmp.reverse.take i).length = i := by simp [hi.le]
    rw [ht, List.take_succ_eq_append_getElem hlt, writeBytes_snoc, hget, hlen]
  rw [hall, ← List.length_reverse, List.take_length]

theorem kuitoa_eq (m : Nat → UInt8) {n : Nat} (buf : Nat) {b : Int} (h2 : 2 ≤ b) (h16 : b ≤ 16)
    (hn : n < 2 ^ 32) :
    kuitoa m n buf b = some (writeBytes m buf (numeral b.toNat n ++ [0]), buf) := by
  have hb : 2 ≤ b.toNat := by omega
  rw [kuitoa, if_neg (by omega)]
  split
  · next h0 =>
    rw [h0, numeral, digits_zero, List.map_singleton, List.singleton_append, writeBytes_cons,
      writeBytes_cons, writeBytes_nil]
    rfl
  · next h0 =>
    have hlen : (Nat.digits b.toNat n).length ≤ 34 :=
      (Nat.digits_length_le_iff hb n).mpr (hn.trans_le
        ((Nat.pow_le_pow_left hb 32).trans (Nat.pow_le_pow_right (by omega) (by decide))))
    have htext : ((Nat.digits b.toNat n).map hexDigit).reverse = numeral b.toNat n := by
      rw [numeral, digits_of_ne_zero h0, List.map_reverse]
    rw [digitLoop_eq hb hlen, List.nil_append, Option.map_some, putReversed_eq, writeBytes_snoc,
      ← htext, List.length_reverse]

theorem kuitoa_prints (m : Nat → UInt8) {n : Nat} (buf : Nat) {b : Int} (h2 : 2 ≤ b) (h16 : b ≤ 16)
    (hn : n < 2 ^ 32) {k : Nat} (hk : 0 < k) (hfits : n < b.toNat ^ k) :
    ∃ m', kuitoa m n buf b = some (m', buf) ∧ Prints m buf (numeral b.toNat n) (k + 1) m' :=
  ⟨_, kuitoa_eq m buf h2 h16 hn, rfl, numeral_string (by omega) (by omega),
    Nat.succ_le_succ (numeral_length (by omega) hk hfits)⟩

end Digits

section Signed

theorem atoiLoop_digits (ds : List Nat) (h : ∀ d ∈ ds, d < 10) (v : Nat) :
    atoiLoop (ds.map hexDigit) (BitVec.ofNat 32 v) =
      BitVec.ofNat 32 (ds.foldl (fun v d => v * 10 + d) v) := by
  induction ds generalizing v with
  | nil => rfl
  | cons d ds ih =>
    have hd := decimal_toNat (h d List.mem_cons_self)
    have hlt := h d List.mem_cons_self
    have hdigit : 0x30 ≤ hexDigit d ∧ hexDigit d ≤ 0x39 := by
      rw [UInt8.le_iff_toNat_le, UInt8.le_iff_toNat_le, hd]
      exact ⟨Nat.le_add_right 48 d, Nat.add_le_add_left (Nat.le_of_lt_succ hlt) 48⟩
    rw [List.map_cons, atoiLoop, if_pos hdigit, hd, Nat.add_sub_cancel_left, List.foldl_cons,
      ← ih (fun d hd => h d (List.mem_cons_of_mem _ hd)), BitVec.ofNat_add, BitVec.ofNat_mul]
    rfl

theorem atoiLoop_numeral (n : Nat) : atoiLoop (numeral 10 n) 0 = BitVec.ofNat 32 n := by
  have h := atoiLoop_digits (digits 10 n) (fun d hd => digit_lt (by decide) hd) 0
  rwa [show (digits 10 n).foldl (fun v d => v * 10 + d) 0 = n from value_digits 10 n] at h

theorem katoi_numeral (n : Nat) : katoi (numeral 10 n) = BitVec.ofNat 32 n := by
  have hhead : (numeral 10 n).head? ≠ some 0x2D := by
    intro h
    have hmem := List.mem_of_mem_head? h
    obtain ⟨d, hd, he⟩ := List.mem_map.mp hmem
    have hnat := decimal_toNat (digit_lt (by decide) hd)
    rw [he] at hnat
    change 45 = 48 + d at hnat
    omega
  simp only [katoi, hhead, decide_false, Bool.false_eq_true, if_false]
  exact atoiLoop_numeral n

theorem katoi_minus (n : Nat) : katoi (0x2D :: numeral 10 n) = -BitVec.ofNat 32 n := by
  simp only [katoi, List.head?_cons, decide_true, if_true, List.tail_cons]
  rw [atoiLoop_numeral]

-- The text of a signed number.
def signedText (n : BitVec 32) : List UInt8 :=
  if n.toInt < 0 then 0x2D :: numeral 10 (-n).toNat else numeral 10 n.toNat

theorem katoi_signedText (n : BitVec 32) : katoi (signedText n) = n := by
  unfold signedText
  split
  · rw [katoi_minus, BitVec.ofNat_toNat, BitVec.setWidth_eq, BitVec.neg_neg]
  · rw [katoi_numeral, BitVec.ofNat_toNat, BitVec.setWidth_eq]

theorem kitoa_prints (m : Nat → UInt8) (n : BitVec 32) (buf : Nat) :
    ∃ m', kitoa m n buf 10 = some (m', buf) ∧ Prints m buf (signedText n) 12 m' := by
  have hten (x : BitVec 32) : x.toNat < 10 ^ 10 := x.isLt.trans (by decide)
  unfold kitoa signedText
  split
  · next h =>
    rw [if_pos h.1]
    obtain ⟨m', hm, hp⟩ := kuitoa_prints (Function.update m buf 0x2D) (buf + 1)
      (show (2 : Int) ≤ 10 by decide) (by decide) (-n).isLt (by decide) (hten (-n))
    refine ⟨m', by rw [hm]; rfl, ?_, ?_, Nat.succ_le_succ hp.fits⟩
    · rw [hp.stored, List.cons_append, writeBytes_cons]
      rfl
    · intro c hc
      rcases List.mem_cons.mp hc with rfl | hc
      · decide
      · exact hp.string c hc
  · next h =>
    rw [if_neg fun hneg => h ⟨hneg, rfl⟩]
    obtain ⟨m', hm, hp⟩ := kuitoa_prints m buf (show (2 : Int) ≤ 10 by decide) (by decide)
      n.isLt (by decide) (hten n)
    exact ⟨m', by rw [hm]; rfl, hp.stored, hp.string, hp.fits.trans (by decide)⟩

end Signed

section Unsigned

theorem numeral_of_lt {n : Nat} (h : n < 10) : numeral 10 n = [UInt8.ofNat (0x30 + n)] := by
  rw [numeral, digits_of_lt h, List.map_singleton, hexDigit_decimal h]

theorem numeral_snoc {n : Nat} (h : 10 ≤ n) :
    numeral 10 n = numeral 10 (n / 10) ++ [UInt8.ofNat (0x30 + n % 10)] := by
  rw [numeral, digits_snoc (by decide) h, List.map_append, List.map_singleton,
    hexDigit_decimal (Nat.mod_lt n (by decide))]
  rfl

theorem u32Loop_eq (buf : Nat → UInt8) {i value : Nat} (h : (numeral 10 value).length ≤ i) :
    u32Loop i value buf = some (writeBytes buf (i - (numeral 10 value).length) (numeral 10 value),
      i - (numeral 10 value).length) := by
  induction i generalizing value buf with
  | zero =>
    by_cases hv : value < 10
    · rw [numeral_of_lt hv] at h
      exact absurd h (by simp)
    · rw [numeral_snoc (Nat.le_of_not_lt hv), List.length_append] at h
      exact absurd h (by simp)
  | succ i ih =>
    rw [u32Loop]
    by_cases hv : value < 10
    · rw [numeral_of_lt hv, List.length_singleton, Nat.add_sub_cancel, writeBytes_cons,
        writeBytes_nil, if_pos (Nat.div_eq_of_lt hv), Nat.mod_eq_of_lt hv]
    · have hten := Nat.le_of_not_lt hv
      rw [numeral_snoc hten, List.length_append, List.length_singleton] at h ⊢
      have hlen := Nat.le_of_succ_le_succ h
      rw [if_neg (by omega), ih _ hlen, Nat.add_sub_add_right, writeBytes_snoc,
        Nat.sub_add_cancel hlen, writeBytes_update _ _ (.inr (Nat.sub_add_cancel hlen).le)]

theorem u32ToStr_prints (buf : Nat → UInt8) {value : Nat} (h : value < 2 ^ 32) :
    ∃ buf' p, u32ToStr buf value = some (buf', p) ∧
      Prints buf p (numeral 10 value) 11 buf' ∧ p + ((numeral 10 value).length + 1) = 11 := by
  have hlen : (numeral 10 value).length ≤ 10 :=
    numeral_length (by decide) (by decide) (h.trans (by decide))
  refine ⟨_, _, u32Loop_eq _ hlen, ⟨?_, numeral_string (by decide) (by decide), ?_⟩, ?_⟩
  · rw [writeBytes_snoc, Nat.sub_add_cancel hlen,
      writeBytes_update _ _ (.inr (Nat.sub_add_cancel hlen).le)]
  · omega
  · omega

-- The digits of the text have the value n, and none of them is a leading zero.
def WritesIn (base n : Nat) (text : List UInt8) : Prop :=
  ∃ ds : List Nat, text = ds.map hexDigit ∧ (∀ d ∈ ds, d < base) ∧ value base ds = n ∧
    (n ≠ 0 → ds.head? ≠ some 0) ∧ (n = 0 → ds = [0])

theorem numeral_writes {base : Nat} (h2 : 2 ≤ base) (n : Nat) :
    WritesIn base n (numeral base n) :=
  ⟨digits base n, rfl, fun _ hd => digit_lt h2 hd, value_digits base n, digits_head,
    fun h => by rw [h, digits_zero]⟩

theorem numbers_printed (m sbuf : Nat → UInt8) (buf : Nat) (n : BitVec 32) (base : Int)
    (h2 : 2 ≤ base) (h16 : base ≤ 16) :
    (∃ text m', kuitoa m n.toNat buf base = some (m', buf) ∧ Prints m buf text 33 m' ∧
        WritesIn base.toNat n.toNat text) ∧
      (∃ text m', kitoa m n buf 10 = some (m', buf) ∧ Prints m buf text 12 m' ∧
        katoi text = n) ∧
      ∃ text m' sbuf' p, kuitoa m n.toNat buf 10 = some (m', buf) ∧ Prints m buf text 11 m' ∧
        u32ToStr sbuf n.toNat = some (sbuf', p) ∧ Prints sbuf p text 11 sbuf' ∧
        p + (text.length + 1) = 11 := by
  have hb : 2 ≤ base.toNat := by omega
  have hbits : n.toNat < base.toNat ^ 32 := n.isLt.trans_le (Nat.pow_le_pow_left hb 32)
  refine ⟨?_, ?_, ?_⟩
  · obtain ⟨m', hm, hp⟩ := kuitoa_prints m buf h2 h16 n.isLt (by decide) hbits
    exact ⟨_, m', hm, hp, numeral_writes hb n.toNat⟩
  · obtain ⟨m', hm, hp⟩ := kitoa_prints m n buf
    exact ⟨_, m', hm, hp, katoi_signedText n⟩
  · obtain ⟨m', hm, hp⟩ := kuitoa_prints m buf (show (2 : Int) ≤ 10 by decide) (by decide) n.isLt
      (show 0 < 10 by decide) (n.isLt.trans (by decide))
    obtain ⟨sbuf', p, hs, hsp, hend⟩ := u32ToStr_prints sbuf n.isLt
    exact ⟨_, m', sbuf', p, hm, hp, hs, hsp, hend⟩

theorem numbers_printed_min :
    ((2 : Int) ≤ 16 ∧ (16 : Int) ≤ 16) ∧
      ∃ text m', kitoa (fun _ => 0) (BitVec.intMin 32) 0 10 = some (m', 0) ∧
        Prints (fun _ => 0) 0 text 12 m' ∧ katoi text = BitVec.intMin 32 :=
  ⟨by decide, (numbers_printed (fun _ => 0) (fun _ => 0) 0 (BitVec.intMin 32) 16 (by decide)
    (by decide)).2.1⟩

end Unsigned

end Kstring
