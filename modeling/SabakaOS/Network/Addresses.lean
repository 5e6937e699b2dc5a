import SabakaOS.Network.DnsResolver
import SabakaOS.Strings.Numbers

namespace Net

open Word ByteMemory Dotted Dns Fat32 Kstring Numeral

section Model

def ntohl (v : Nat) : Nat := htonl v

-- out[pos++] = c, with the memory and pos as the state.
def emit (out : Nat) (s : (Nat → UInt8) × Nat) (c : UInt8) : (Nat → UInt8) × Nat :=
  (Function.update s.1 (out + s.2) c, s.2 + 1)

def putOctet (out o : Nat) (s : (Nat → UInt8) × Nat) : (Nat → UInt8) × Nat :=
  if 100 ≤ o then
    let s := emit out s (UInt8.ofNat (0x30 + o / 100))
    let o := o % 100
    let s := emit out s (UInt8.ofNat (0x30 + o / 10))
    emit out s (UInt8.ofNat (0x30 + o % 10))
  else if 10 ≤ o then
    emit out (emit out s (UInt8.ofNat (0x30 + o / 10))) (UInt8.ofNat (0x30 + o % 10))
  else emit out s (UInt8.ofNat (0x30 + o))

-- The loop from i = 3 down to 0, with i + 1 as the counter.
def octetLoop (out ip : Nat) : Nat → (Nat → UInt8) × Nat → (Nat → UInt8) × Nat
  | 0, s => s
  | i + 1, s =>
    let s := putOctet out (u8 (ip / 2 ^ (i * 8))) s
    octetLoop out ip i (if 0 < i then emit out s dot else s)

def ipToStr (m : Nat → UInt8) (ip out : Nat) : Nat → UInt8 :=
  let s := octetLoop out (ntohl ip) 4 (m, 0)
  Function.update s.1 (out + s.2) 0

end Model

-- The bytes of the address in the order in which they stand in memory and go over the network.
def octetsOf (ip : Nat) : List Nat :=
  [ip % 256, ip / 256 % 256, ip / 65536 % 256, ip / 16777216 % 256]

def dottedText (ip : Nat) : List UInt8 := join dot ((octetsOf ip).map (numeral 10))

section Print

variable {m : Nat → UInt8} {out ip o : Nat} {text : List UInt8} {s : (Nat → UInt8) × Nat}

-- The text has been put out so far.
def Emitted (m : Nat → UInt8) (out : Nat) (text : List UInt8) (s : (Nat → UInt8) × Nat) : Prop :=
  s = (writeBytes m out text, text.length)

theorem Emitted.emit (h : Emitted m out text s) (c : UInt8) :
    Emitted m out (text ++ [c]) (emit out s c) := by
  rw [h, Emitted, Net.emit, writeBytes_snoc, List.length_append, List.length_singleton]

theorem Emitted.putOctet (h : Emitted m out text s) (ho : o < 256) :
    Emitted m out (text ++ numeral 10 o) (putOctet out o s) := by
  unfold Net.putOctet
  split
  · next h100 =>
    have htext : numeral 10 o = [UInt8.ofNat (0x30 + o / 100), UInt8.ofNat (0x30 + o % 100 / 10),
        UInt8.ofNat (0x30 + o % 100 % 10)] := by
      rw [numeral_snoc (by omega), numeral_snoc (by omega), numeral_of_lt (by omega),
        show o / 10 / 10 = o / 100 by omega, show o / 10 % 10 = o % 100 / 10 by omega,
        show o % 100 % 10 = o % 10 by omega]
      rfl
    have h3 := ((h.emit (UInt8.ofNat (0x30 + o / 100))).emit
      (UInt8.ofNat (0x30 + o % 100 / 10))).emit (UInt8.ofNat (0x30 + o % 100 % 10))
    simpa only [htext, List.append_assoc, List.cons_append, List.nil_append] using h3
  · split
    · next h10 =>
      have htext : numeral 10 o = [UInt8.ofNat (0x30 + o / 10), UInt8.ofNat (0x30 + o % 10)] := by
        rw [numeral_snoc h10, numeral_of_lt (by omega)]
        rfl
      have h2 := (h.emit (UInt8.ofNat (0x30 + o / 10))).emit (UInt8.ofNat (0x30 + o % 10))
      simpa only [htext, List.append_assoc, List.cons_append, List.nil_append] using h2
    · next h10 =>
      rw [numeral_of_lt (by omega)]
      exact h.emit _

theorem word_bytes {a b c d : Nat} (ha : a < 256) (hb : b < 256) (hc : c < 256) (hd : d < 256) :
    (a * 16777216 + b * 65536 + c * 256 + d) % 256 = d ∧
      (a * 16777216 + b * 65536 + c * 256 + d) / 256 % 256 = c ∧
      (a * 16777216 + b * 65536 + c * 256 + d) / 65536 % 256 = b ∧
      (a * 16777216 + b * 65536 + c * 256 + d) / 16777216 % 256 = a := by
  omega

theorem htonl_htonl (hip : ip < 2 ^ 32) : htonl (htonl ip) = ip := by
  have hbyte (k : Nat) : k % 256 < 256 := Nat.mod_lt _ (by decide)
  have hsum : ip / 16777216 % 256 * 16777216 + ip / 65536 % 256 * 65536 + ip / 256 % 256 * 256 +
      ip % 256 = ip := by omega
  obtain ⟨h0, h1, h2, h3⟩ := word_bytes (hbyte ip) (hbyte (ip / 256)) (hbyte (ip / 65536))
    (hbyte (ip / 16777216))
  unfold htonl
  rw [h0, h1, h2, h3]
  exact hsum

theorem octet_ntohl (ip : Nat) {i : Nat} (hi : i < 4) :
    u8 (ntohl ip / 2 ^ (i * 8)) = ip / 2 ^ ((3 - i) * 8) % 256 := by
  have hbyte (k : Nat) : k % 256 < 256 := Nat.mod_lt _ (by decide)
  obtain ⟨h0, h1, h2, h3⟩ := word_bytes (hbyte ip) (hbyte (ip / 256)) (hbyte (ip / 65536))
    (hbyte (ip / 16777216))
  unfold u8 ntohl htonl
  interval_cases i
  · simpa using h0
  · exact h1
  · exact h2
  · simpa using h3

theorem dottedText_eq (ip : Nat) : dottedText ip = numeral 10 (ip % 256) ++ dot ::
    (numeral 10 (ip / 256 % 256) ++ dot :: (numeral 10 (ip / 65536 % 256) ++ dot ::
      numeral 10 (ip / 16777216 % 256))) := by
  rw [dottedText, octetsOf]
  simp only [List.map_cons, List.map_nil]
  rw [join_cons _ (List.cons_ne_nil _ _), join_cons _ (List.cons_ne_nil _ _),
    join_cons _ (List.cons_ne_nil _ _), join_singleton]

theorem octetLoop_emitted (m : Nat → UInt8) (ip out : Nat) :
    Emitted m out (dottedText ip) (octetLoop out (ntohl ip) 4 (m, 0)) := by
  have hstart : Emitted m out [] (m, 0) := by
    rw [Emitted, writeBytes_nil]
    rfl
  have hoctet (k : Nat) : ip / 2 ^ k % 256 < 256 := Nat.mod_lt _ (by decide)
  have hall := ((((((hstart.putOctet (hoctet 0)).emit dot).putOctet (hoctet 8)).emit dot).putOctet
    (hoctet 16)).emit dot).putOctet (hoctet 24)
  rw [octetLoop, octetLoop, octetLoop, octetLoop, octetLoop]
  simp only [octet_ntohl ip (show 3 < 4 by decide), octet_ntohl ip (show 2 < 4 by decide),
    octet_ntohl ip (show 1 < 4 by decide), octet_ntohl ip (show 0 < 4 by decide)]
  rw [dottedText_eq]
  simpa using hall

theorem ipToStr_prints (m : Nat → UInt8) (ip out : Nat) :
    Prints m out (dottedText ip) 16 (ipToStr m ip out) := by
  have hbyte (k : Nat) : k % 256 < 256 := Nat.mod_lt _ (by decide)
  refine ⟨?_, ?_, ?_⟩
  · rw [ipToStr, octetLoop_emitted m ip out, writeBytes_snoc]
  · have hstring (k : Nat) : isCString (numeral 10 k) := numeral_string (by decide) (by decide)
    rw [dottedText_eq]
    simp only [isCString, List.mem_append, List.mem_cons]
    rintro c (hc | rfl | hc | rfl | hc | rfl | hc)
    all_goals first | exact hstring _ c hc | decide
  · have hlen (k : Nat) : (numeral 10 (k % 256)).length ≤ 3 :=
      numeral_length (by decide) (by decide) ((hbyte k).trans (by decide))
    have h0 := hlen ip
    have h1 := hlen (ip / 256)
    have h2 := hlen (ip / 65536)
    have h3 := hlen (ip / 16777216)
    rw [dottedText_eq]
    simp only [List.length_append, List.length_cons]
    omega

end Print

section Parse

variable {o ip : Nat} {t : List UInt8}

theorem octet_digits (ds : List Nat) (h : ∀ d ∈ ds, d < 10)
    (ht : ∀ c ∈ t.head?, ¬(48 ≤ c ∧ c ≤ 57)) (v : Nat) :
    octet (ds.map hexDigit ++ t) (u32 v) = (u32 (ds.foldl (fun v d => v * 10 + d) v), t) := by
  induction ds generalizing v with
  | nil =>
    cases t with
    | nil => rfl
    | cons c t => exact if_neg (ht c rfl)
  | cons d ds ih =>
    have hlt := h d List.mem_cons_self
    have hd := decimal_toNat hlt
    have hdigit : 48 ≤ hexDigit d ∧ hexDigit d ≤ 57 := by
      rw [UInt8.le_iff_toNat_le, UInt8.le_iff_toNat_le, hd]
      exact ⟨Nat.le_add_right 48 d, Nat.add_le_add_left (Nat.le_of_lt_succ hlt) 48⟩
    have hnext : u32 (u32 (u32 v * 10) + d) = u32 (v * 10 + d) := by
      unfold u32
      omega
    rw [List.map_cons, List.cons_append, octet, if_pos hdigit, hd, Nat.add_sub_cancel_left, hnext,
      List.foldl_cons]
    exact ih (fun d hd => h d (List.mem_cons_of_mem _ hd)) _

theorem octet_numeral (ho : o < 256) (ht : ∀ c ∈ t.head?, ¬(48 ≤ c ∧ c ≤ 57)) :
    octet (numeral 10 o ++ t) 0 = (o, t) := by
  have h := octet_digits (digits 10 o) (fun d hd => digit_lt (by decide) hd) ht 0
  rwa [show (digits 10 o).foldl (fun v d => v * 10 + d) 0 = o from value_digits 10 o,
    u32_of_lt (ho.trans (by decide))] at h

theorem octets_numeral (ho : o < 256) (left r : Nat) :
    octets (left + 1) (numeral 10 o ++ dot :: t) r = octets left t (u32 (r * 256) + o) := by
  have hdot : ∀ c ∈ (dot :: t).head?, ¬(48 ≤ c ∧ c ≤ 57) := by
    rintro c ⟨⟩
    decide
  rw [octets, octet_numeral ho hdot]
  simp [Nat.mod_eq_of_lt ho]

theorem ipFromStr_dottedText (hip : ip < 2 ^ 32) : ipFromStr (dottedText ip) = ip := by
  have hbyte (k : Nat) : k % 256 < 256 := Nat.mod_lt _ (by decide)
  have hlast (r : Nat) : octets 1 (numeral 10 (ip / 16777216 % 256)) r =
      u32 (r * 256) + ip / 16777216 % 256 := by
    have h := octet_numeral (hbyte (ip / 16777216)) (show ∀ c ∈ ([] : List UInt8).head?, _ by simp)
    rw [List.append_nil] at h
    rw [octets, h]
    simp [octets]
  have hword : octets 4 (dottedText ip) 0 = htonl ip := by
    rw [dottedText_eq, octets_numeral (hbyte ip), octets_numeral (hbyte _),
      octets_numeral (hbyte _), hlast]
    have h0 := hbyte ip
    have h1 := hbyte (ip / 256)
    have h2 := hbyte (ip / 65536)
    unfold u32 htonl
    omega
  rw [ipFromStr, hword, htonl_htonl hip]

theorem ip_round_trip (m : Nat → UInt8) (out : Nat) (hip : ip < 2 ^ 32) :
    Prints m out (dottedText ip) 16 (ipToStr m ip out) ∧
      (∀ o ∈ octetsOf ip, o < 256 ∧ WritesIn 10 o (numeral 10 o)) ∧
      ipFromStr (dottedText ip) = ip ∧
      ∀ other < 2 ^ 32, ipToStr m other out = ipToStr m ip out → other = ip := by
  refine ⟨ipToStr_prints m ip out, fun o ho => ⟨?_, numeral_writes (by decide) o⟩,
    ipFromStr_dottedText hip, fun other hother h => ?_⟩
  · simp only [octetsOf, List.mem_cons, List.not_mem_nil, or_false] at ho
    omega
  · have htext := (ipToStr_prints m other out).read
    rw [h, (ipToStr_prints m ip out).read] at htext
    rw [← ipFromStr_dottedText hother, ← htext, ipFromStr_dottedText hip]

-- 10.0.2.15 as the processor holds it.
theorem ip_round_trip_guest : (251789322 : Nat) < 2 ^ 32 ∧
    Prints (fun _ => 0) 0 (dottedText 251789322) 16 (ipToStr (fun _ => 0) 251789322 0) ∧
      ipFromStr (dottedText 251789322) = 251789322 :=
  ⟨by decide, (ip_round_trip (fun _ => 0) 0 (by decide)).1,
    (ip_round_trip (fun _ => 0) 0 (by decide)).2.2.1⟩

end Parse

end Net
