import SabakaOS.Library.OnesComplement
import SabakaOS.Network.Frame

namespace Checksum

open Word ByteMemory OnesComplement
open Net (leBytes beBytes wordSum)

-- The loops of a checksum over words as they lie in memory, into one 32-bit sum.
def sumWords : List UInt8 → Nat → Nat
  | a :: b :: rest, s => sumWords rest (u32 (s + (a.toNat + 256 * b.toNat)))
  | [a], s => u32 (s + a.toNat)
  | [], s => s

def foldSum (s : Nat) : Nat :=
  if s / 65536 = 0 then s else foldSum (u32 (s % 65536 + s / 65536))
termination_by s
decreasing_by
  have hle : u32 (s % 65536 + s / 65536) ≤ s % 65536 + s / 65536 := Nat.mod_le _ _
  omega

def inverted (s : Nat) : Nat := u16 (4294967295 - s)

def checksumLoop (data : List UInt8) : Nat := inverted (foldSum (sumWords data 0))

def chksum (data : List UInt8) : Nat := checksumLoop data

def ipChecksum (data : List UInt8) : Nat := checksumLoop data

def htons (v : Nat) : Nat := v % 256 * 256 + v / 256 % 256

def pseudoBuf (srcIp dstIp segLen : Nat) : List UInt8 :=
  leBytes 4 srcIp ++ leBytes 4 dstIp ++ [0, 6] ++ leBytes 2 (htons segLen)

def tcpCksum (srcIp dstIp : Nat) (seg : List UInt8) : Nat :=
  inverted (foldSum (sumWords seg (sumWords (pseudoBuf srcIp dstIp seg.length) 0)))

-- A 16-bit field of the data, as the processor stores it.
def stored (data : List UInt8) (off v : Nat) : List UInt8 :=
  data.take off ++ leBytes 2 v ++ data.drop (off + 2)

section Internet

-- The words of the data in network order, an odd last byte padded with zero on its right.
def netWords : List UInt8 → List Nat
  | a :: b :: rest => (256 * a.toNat + b.toNat) :: netWords rest
  | [a] => [256 * a.toNat]
  | [] => []

def internetChecksum (data : List UInt8) : Nat := complement 65535 (sum 65535 (netWords data))

theorem netWords_le (data : List UInt8) : ∀ w ∈ netWords data, w ≤ 65535 := by
  induction data using netWords.induct with
  | case1 a b rest ih =>
    intro w hw
    rcases List.mem_cons.mp hw with rfl | hw
    · have ha := a.toNat_lt
      have hb := b.toNat_lt
      omega
    · exact ih w hw
  | case2 a =>
    intro w hw
    obtain rfl := List.mem_singleton.mp hw
    have ha := a.toNat_lt
    omega
  | case3 => exact fun w hw => absurd hw List.not_mem_nil

theorem internetChecksum_eq (data : List UInt8) :
    internetChecksum data = complement 65535 (norm 65535 (netWords data).sum) :=
  congrArg (complement 65535) (sum_eq_norm (by decide) (netWords_le data))

-- The two orders of the bytes differ by a factor of 256 in the sum.
theorem netWords_swapped (data : List UInt8) :
    norm 65535 (256 * wordSum data) = norm 65535 (netWords data).sum := by
  have hboth : ((wordSum data = 0 ↔ (netWords data).sum = 0)) ∧
      256 * wordSum data ≡ (netWords data).sum [MOD 65535] := by
    induction data using netWords.induct with
    | case1 a b rest ih =>
      obtain ⟨hzero, hmod⟩ := ih
      simp only [wordSum, netWords, List.sum_cons]
      refine ⟨by omega, ?_⟩
      have hword : 256 * (a.toNat + 256 * b.toNat) ≡ 256 * a.toNat + b.toNat [MOD 65535] :=
        ((Nat.modEq_iff_dvd' (by omega)).mpr ⟨b.toNat, by omega⟩).symm
      rw [Nat.mul_add]
      exact hword.add hmod
    | case2 a => exact ⟨by simp only [wordSum, netWords, List.sum_singleton]; omega, rfl⟩
    | case3 => exact ⟨Iff.rfl, rfl⟩
  exact norm_congr (by omega) hboth.2

end Internet

section Sum

theorem wordSum_le (data : List UInt8) : wordSum data ≤ 32768 * data.length := by
  induction data using netWords.induct with
  | case1 a b rest ih =>
    have ha := a.toNat_lt
    have hb := b.toNat_lt
    simp only [wordSum, List.length_cons]
    omega
  | case2 a =>
    have ha := a.toNat_lt
    simp only [wordSum, List.length_cons, List.length_nil]
    omega
  | case3 => exact Nat.le_refl 0

theorem sumWords_exact (data : List UInt8) {s : Nat} (h : s + wordSum data < 4294967296) :
    sumWords data s = s + wordSum data := by
  induction data using netWords.induct generalizing s with
  | case1 a b rest ih =>
    rw [wordSum] at h
    rw [sumWords, u32_of_lt (by omega), ih (by omega), wordSum, Nat.add_assoc]
  | case2 a => exact u32_of_lt h
  | case3 => rfl

theorem wordSum_append (front rest : List UInt8) (h : front.length % 2 = 0) :
    wordSum (front ++ rest) = wordSum front + wordSum rest := by
  induction front using netWords.induct with
  | case1 a b front ih =>
    simp only [List.length_cons] at h
    simp only [List.cons_append, wordSum]
    rw [ih (by omega)]
    omega
  | case2 a => exact absurd h (by simp)
  | case3 => rw [List.nil_append, wordSum, Nat.zero_add]

theorem foldSum_eq_norm {s : Nat} (h : s < 4294967296) : foldSum s = norm 65535 s := by
  induction s using foldSum.induct with
  | case1 s hs =>
    rw [foldSum, if_pos hs, norm_of_le (by omega)]
  | case2 s hs ih =>
    have hsame : u32 (s % 65536 + s / 65536) = s % 65536 + s / 65536 := u32_of_lt (by omega)
    rw [hsame] at ih
    rw [foldSum, if_neg hs, hsame, ih (by omega)]
    exact norm_carry s

theorem inverted_norm (n : Nat) : inverted (norm 65535 n) = complement 65535 (norm 65535 n) := by
  have hle := @norm_le 65535 (by decide) n
  unfold inverted complement u16
  omega

theorem leBytes_two (v : Nat) : leBytes 2 v = [UInt8.ofNat v, UInt8.ofNat (v / 256)] := by
  simp [leBytes, readBytes, writeLE, List.range_succ, Function.update]

theorem wordSum_leBytes {v : Nat} (h : v < 65536) : wordSum (leBytes 2 v) = v := by
  rw [leBytes_two]
  simp only [wordSum, UInt8.toNat_ofNat']
  omega

theorem loop_eq {front data : List UInt8} (heven : front.length % 2 = 0)
    (hfit : wordSum front + wordSum data < 4294967296) :
    inverted (foldSum (sumWords data (sumWords front 0))) =
      complement 65535 (norm 65535 (wordSum (front ++ data))) := by
  have hfront : sumWords front 0 = wordSum front := by
    rw [sumWords_exact front (by omega), Nat.zero_add]
  rw [hfront, sumWords_exact data hfit, foldSum_eq_norm hfit, inverted_norm,
    wordSum_append front data heven]

theorem leBytes_digits (high low : Nat) (h : low < 256) :
    leBytes 2 (256 * high + low) = [UInt8.ofNat low, UInt8.ofNat high] := by
  have hlow : UInt8.ofNat (256 * high + low) = UInt8.ofNat low := by
    apply UInt8.toNat_inj.mp
    simp only [UInt8.toNat_ofNat']
    omega
  rw [leBytes_two, hlow, show (256 * high + low) / 256 = high by omega]

theorem beBytes_digits (high low : Nat) (h : low < 256) :
    beBytes (256 * high + low) = [UInt8.ofNat high, UInt8.ofNat low] := by
  have hle := leBytes_digits high low h
  rw [leBytes_two] at hle
  obtain ⟨hlow, hhigh⟩ := List.cons_eq_cons.mp hle
  rw [beBytes, hlow, (List.cons_eq_cons.mp hhigh).1]

theorem complement_bytes (n : Nat) :
    leBytes 2 (complement 65535 (norm 65535 n)) =
      beBytes (complement 65535 (norm 65535 (256 * n))) := by
  have hle := @norm_le 65535 (by decide) n
  have hswap : swap 256 (norm 65535 n) = norm 65535 (256 * n) := swap_norm (by decide) n
  rw [← hswap]
  generalize norm 65535 n = x at hle ⊢
  have hother : 65535 - x = 256 * (255 - x / 256) + (255 - x % 256) := by omega
  have hswapped : 65535 - swap 256 x = 256 * (255 - x % 256) + (255 - x / 256) := by
    unfold swap
    omega
  rw [complement, hother, leBytes_digits _ _ (by omega), complement, hswapped,
    beBytes_digits _ _ (by omega)]

theorem bytes_agree {front data : List UInt8} (heven : front.length % 2 = 0)
    (hfit : wordSum front + wordSum data < 4294967296) :
    leBytes 2 (inverted (foldSum (sumWords data (sumWords front 0)))) =
      beBytes (internetChecksum (front ++ data)) := by
  rw [loop_eq heven hfit, complement_bytes, netWords_swapped, internetChecksum_eq]

end Sum

section Verify

variable {data : List UInt8} {off : Nat}

theorem stored_length (hin : off + 2 ≤ data.length) (v : Nat) :
    (stored data off v).length = data.length := by
  simp [stored, leBytes_two]
  omega

theorem stored_wordSum (heven : off % 2 = 0) (hin : off + 2 ≤ data.length)
    (hzero : (data.drop off).take 2 = [0, 0]) {v : Nat} (hv : v < 65536) :
    wordSum (stored data off v) = wordSum data + v := by
  have htake : (data.take off).length % 2 = 0 := by
    rw [List.length_take, Nat.min_eq_left (by omega)]
    exact heven
  have hsplit : data = data.take off ++ ([0, 0] ++ data.drop (off + 2)) := by
    rw [← hzero, ← List.drop_drop, List.take_append_drop, List.take_append_drop]
  have hdata : wordSum data = wordSum (data.take off) + wordSum (data.drop (off + 2)) := by
    conv_lhs => rw [hsplit, wordSum_append _ _ htake, wordSum_append _ _ rfl]
    rw [show wordSum [0, 0] = 0 from rfl, Nat.zero_add]
  rw [stored, List.append_assoc, wordSum_append _ _ htake,
    wordSum_append _ _ (by simp [leBytes]), wordSum_leBytes hv, hdata]
  omega

theorem verifies {front : List UInt8} (hfront : front.length % 2 = 0) (heven : off % 2 = 0)
    (hin : off + 2 ≤ data.length) (hzero : (data.drop off).take 2 = [0, 0])
    (hfit : wordSum front + wordSum data + 65535 < 4294967296) :
    inverted (foldSum (sumWords (stored data off
      (inverted (foldSum (sumWords data (sumWords front 0))))) (sumWords front 0))) = 0 := by
  have hvalue := @loop_eq front data hfront (by omega)
  rw [wordSum_append front data hfront] at hvalue
  have hv : complement 65535 (norm 65535 (wordSum front + wordSum data)) ≤ 65535 := Nat.sub_le _ _
  rw [hvalue]
  have hsum := stored_wordSum heven hin hzero (Nat.lt_succ_of_le hv)
  rw [loop_eq hfront (by omega), wordSum_append _ _ hfront, hsum, ← Nat.add_assoc,
    norm_with_complement (by decide)]
  rfl

end Verify

-- No sum on the way takes more than 32 bits, with the words added or the carries folded.
structure Fits (data : List UInt8) (s : Nat) : Prop where
  sums : ∀ n, s + wordSum (data.take n) < 4294967296
  folds : ∀ t < 4294967296, t % 65536 + t / 65536 < 4294967296

theorem fits {data : List UInt8} (hlen : data.length ≤ 65535) {s : Nat} (hs : s ≤ 1000000) :
    Fits data s where
  sums n := by
    have hle := wordSum_le (data.take n)
    have hcut : (data.take n).length ≤ data.length := List.length_take_le' n data
    omega
  folds t ht := by omega

-- The header that a segment's checksum takes in, as it would go over the wire.
def pseudoHeader (srcIp dstIp segLen : Nat) : List UInt8 :=
  leBytes 4 srcIp ++ leBytes 4 dstIp ++ [0, 6] ++ beBytes segLen

theorem leBytes_htons {v : Nat} (h : v < 65536) : leBytes 2 (htons v) = beBytes v := by
  have hnet : htons v = 256 * (v % 256) + v / 256 := by
    unfold htons
    omega
  have hv : v = 256 * (v / 256) + v % 256 := by omega
  rw [hnet, leBytes_digits _ _ (by omega)]
  conv_rhs => rw [hv, beBytes_digits _ _ (by omega)]

theorem pseudoBuf_eq {srcIp dstIp segLen : Nat} (h : segLen < 65536) :
    pseudoBuf srcIp dstIp segLen = pseudoHeader srcIp dstIp segLen := by
  rw [pseudoBuf, leBytes_htons h]
  rfl

theorem pseudoBuf_length (srcIp dstIp segLen : Nat) :
    (pseudoBuf srcIp dstIp segLen).length = 12 := by
  simp [pseudoBuf, leBytes]

-- The shorter form of the loop that the echo reply is built with.
theorem ipChecksum_frame (data : List UInt8) (hlen : data.length ≤ 65535) :
    Net.ipChecksum data = ipChecksum data := by
  have hle := wordSum_le data
  have hfit : wordSum data < 4294967296 := by omega
  have hsum : sumWords data 0 = wordSum data := by
    rw [sumWords_exact data (by omega), Nat.zero_add]
  have hone : norm 65535 (Net.foldCarry (wordSum data)) = norm 65535 (wordSum data) :=
    norm_carry (wordSum data)
  have htwo : norm 65535 (Net.foldCarry (Net.foldCarry (wordSum data))) =
      norm 65535 (Net.foldCarry (wordSum data)) := norm_carry (Net.foldCarry (wordSum data))
  have hsmall : Net.foldCarry (Net.foldCarry (wordSum data)) ≤ 65535 := by
    unfold Net.foldCarry
    omega
  rw [norm_of_le hsmall, hone] at htwo
  rw [Net.ipChecksum, u32_of_lt hfit, htwo, ipChecksum, checksumLoop, hsum, foldSum_eq_norm hfit,
    inverted_norm]
  rfl

theorem checksums_are_internet_checksums (data : List UInt8) (off srcIp dstIp : Nat)
    (hlen : data.length ≤ 65535) (heven : off % 2 = 0) (hin : off + 2 ≤ data.length)
    (hzero : (data.drop off).take 2 = [0, 0]) :
    (leBytes 2 (chksum data) = beBytes (internetChecksum data) ∧
      chksum (stored data off (chksum data)) = 0) ∧
    (leBytes 2 (ipChecksum data) = beBytes (internetChecksum data) ∧
      ipChecksum (stored data off (ipChecksum data)) = 0) ∧
    Fits data 0 ∧
    (leBytes 2 (tcpCksum srcIp dstIp data) =
        beBytes (internetChecksum (pseudoHeader srcIp dstIp data.length ++ data)) ∧
      tcpCksum srcIp dstIp (stored data off (tcpCksum srcIp dstIp data)) = 0) ∧
    Fits (pseudoBuf srcIp dstIp data.length) 0 ∧
    Fits data (sumWords (pseudoBuf srcIp dstIp data.length) 0) := by
  have hle := wordSum_le data
  have hfit : wordSum [] + wordSum data + 65535 < 4294967296 := by
    rw [show wordSum [] = 0 from rfl]
    omega
  have hloop : leBytes 2 (chksum data) = beBytes (internetChecksum data) :=
    @bytes_agree [] data rfl (by omega)
  have hverify : chksum (stored data off (chksum data)) = 0 :=
    @verifies data off [] rfl heven hin hzero hfit
  have hpseudo := pseudoBuf_length srcIp dstIp data.length
  have hple := wordSum_le (pseudoBuf srcIp dstIp data.length)
  have hpsum : sumWords (pseudoBuf srcIp dstIp data.length) 0 =
      wordSum (pseudoBuf srcIp dstIp data.length) := by
    rw [sumWords_exact _ (by omega), Nat.zero_add]
  have htcp : leBytes 2 (tcpCksum srcIp dstIp data) =
      beBytes (internetChecksum (pseudoBuf srcIp dstIp data.length ++ data)) :=
    bytes_agree (by omega) (by omega)
  rw [pseudoBuf_eq (by omega)] at htcp
  have htcpVerify : tcpCksum srcIp dstIp (stored data off (tcpCksum srcIp dstIp data)) = 0 := by
    have hzeroed := @verifies data off (pseudoBuf srcIp dstIp data.length) (by omega) heven hin
      hzero (by omega)
    unfold tcpCksum
    rw [stored_length hin]
    exact hzeroed
  exact ⟨⟨hloop, hverify⟩, ⟨hloop, hverify⟩, fits hlen (Nat.zero_le _), ⟨htcp, htcpVerify⟩,
    fits (by omega) (Nat.zero_le _), fits hlen (by omega)⟩

theorem checksums_of_five_bytes :
    leBytes 2 (chksum [0x45, 0x01, 0, 0, 0x7f]) =
        beBytes (internetChecksum [0x45, 0x01, 0, 0, 0x7f]) ∧
      chksum (stored [0x45, 0x01, 0, 0, 0x7f] 2 (chksum [0x45, 0x01, 0, 0, 0x7f])) = 0 :=
  (checksums_are_internet_checksums [0x45, 0x01, 0, 0, 0x7f] 2 0x0100007f 0x0200007f (by decide)
    (by decide) (by decide) rfl).1

end Checksum
