import SabakaOS.Library.Dotted
import SabakaOS.Network.DnsBounds

namespace Dns

open Word ByteMemory Prog Dotted

-- A name as it goes over the wire: each label behind its length, then the root.
def wire (labels : List (List UInt8)) : List UInt8 :=
  labels.flatMap (fun l => UInt8.ofNat l.length :: l) ++ [0]

structure ValidLabel (l : List UInt8) : Prop where
  nonempty : l ≠ []
  short : l.length ≤ 63
  bytes : ∀ c ∈ l, c ≠ 0 ∧ c ≠ dot

theorem ValidLabel.isLabel {l : List UInt8} (h : ValidLabel l) : IsLabel dot l :=
  ⟨h.nonempty, fun hd => (h.bytes dot hd).2 rfl⟩

theorem wire_cons (l : List UInt8) (labels : List (List UInt8)) :
    wire (l :: labels) = UInt8.ofNat l.length :: (l ++ wire labels) := by
  simp [wire]

section Encode

variable {l rest : List UInt8}

theorem encodeLabels_nil : encodeLabels [] = [] := by
  rw [encodeLabels]
  simp

theorem takeWhile_label (hl : dot ∉ l) (hrest : rest = [] ∨ ∃ u, rest = dot :: u) :
    (l ++ rest).takeWhile (· != dot) = l := by
  rw [List.takeWhile_append_of_pos fun a ha => by
    simp only [bne_iff_ne, ne_eq]
    exact fun h => hl (h ▸ ha)]
  rcases hrest with rfl | ⟨u, rfl⟩
  · simp
  · rw [List.takeWhile_cons_of_neg (by simp), List.append_nil]

theorem encodeLabels_label (hl : IsLabel dot l) (hshort : l.length ≤ 63)
    (hrest : rest = [] ∨ ∃ u, rest = dot :: u) :
    encodeLabels (l ++ rest) = UInt8.ofNat l.length :: (l ++ encodeLabels rest.tail) := by
  have hpos : 0 < l.length := List.length_pos_iff.mpr hl.1
  have hlen : u8 l.length = l.length := Nat.mod_eq_of_lt (by omega)
  have hgo : ¬(l ++ rest = [] ∨ l.length = 0 ∨ 63 < l.length) := by
    rintro (h | h | h)
    · exact hl.1 (List.append_eq_nil_iff.mp h).1
    · omega
    · omega
  rw [encodeLabels]
  simp only [takeWhile_label hl.2 hrest, hlen]
  rw [dif_neg hgo, List.take_left, List.drop_left]
  rcases hrest with rfl | ⟨u, rfl⟩
  · rfl
  · rw [List.head?_cons, if_pos rfl]
    rfl

theorem encodeName_writes {labels : List (List UInt8)} (hl : ∀ l ∈ labels, IsLabel dot l)
    (hshort : ∀ l ∈ labels, l.length ≤ 63) {t : List UInt8} (ht : Writes dot labels t) :
    encodeName t = wire labels := by
  have hlabels : encodeLabels t = labels.flatMap (fun l => UInt8.ofNat l.length :: l) := by
    induction labels generalizing t with
    | nil =>
      rcases ht with rfl | rfl
      · exact encodeLabels_nil
      · rw [encodeLabels]
        simp [join, u8]
    | cons l labels ih =>
      have hhead := hl l List.mem_cons_self
      have h63 := hshort l List.mem_cons_self
      have ih := fun {t} => @ih (fun k hk => hl k (List.mem_cons_of_mem l hk))
        (fun k hk => hshort k (List.mem_cons_of_mem l hk)) t
      have hsplit : ∃ rest, t = l ++ rest ∧ (rest = [] ∨ ∃ u, rest = dot :: u) ∧
          encodeLabels rest.tail = labels.flatMap (fun l => UInt8.ofNat l.length :: l) := by
        cases labels with
        | nil =>
          rw [Writes, join_singleton] at ht
          rcases ht with rfl | rfl
          · exact ⟨[], (List.append_nil t).symm, .inl rfl, encodeLabels_nil⟩
          · exact ⟨[dot], rfl, .inr ⟨[], rfl⟩, encodeLabels_nil⟩
        | cons m labels =>
          rw [Writes, join_cons l (List.cons_ne_nil _ _)] at ht
          rcases ht with rfl | rfl
          · exact ⟨_, rfl, .inr ⟨_, rfl⟩, ih (.inl rfl)⟩
          · rw [List.append_assoc, List.cons_append]
            exact ⟨_, rfl, .inr ⟨_, rfl⟩, ih (.inr rfl)⟩
      obtain ⟨rest, rfl, hrest, htail⟩ := hsplit
      rw [encodeLabels_label hhead h63 hrest, htail, List.flatMap_cons, List.cons_append]
  rw [encodeName, hlabels, wire]

end Encode

section Decode

variable {pktLen outMax : Nat}

-- The text without the dot that the decoder puts behind the last label.
def trimDot (t : List UInt8) : List UInt8 := if t.getLast? = some dot then t.dropLast else t

theorem readBytes_cons (m : Nat → UInt8) (n a : Nat) :
    readBytes m (n + 1) a = m a :: readBytes m n (a + 1) := by
  rw [Nat.add_comm n 1, readBytes_append]
  rfl

theorem readBytes_extended (m : Nat → UInt8) (a : Nat) (bs : List UInt8) :
    readBytes (writeBytes m a bs) (a + bs.length) 0 = readBytes m a 0 ++ bs := by
  rw [readBytes_append, Nat.zero_add, readBytes_written,
    readBytes_congr fun k _ hk => writeBytes_of_not_mem m a bs (by omega)]

theorem dropDot_trims (outPos : Nat) (s : Bufs) :
    Ends (dropDot outPos) s (fun r s' => s'.out = s.out ∧
      readBytes s.out r 0 = trimDot (readBytes s.out outPos 0)) := by
  unfold dropDot
  cases outPos with
  | zero => exact Runs.pure ⟨rfl, rfl⟩
  | succ n =>
    rw [if_pos n.succ_pos]
    have hread : Ends (outByte (n + 1 - 1)) s (fun b s' => s'.out = s.out ∧ b = s.out n) :=
      ⟨rfl, rfl⟩
    refine hread.then fun last s1 h1 => Runs.pure ⟨h1.1, ?_⟩
    have hlast : readBytes s.out (n + 1) 0 = readBytes s.out n 0 ++ [s.out n] := by
      rw [readBytes_append, Nat.zero_add]
      rfl
    rw [h1.2, hlast, trimDot, List.getLast?_concat, List.dropLast_concat]
    by_cases hd : s.out n = dot
    · rw [if_pos hd, if_pos (by rw [hd]), Nat.add_sub_cancel]
    · rw [if_neg hd, if_neg (fun h => hd (Option.some.inj h)), hlast]

theorem small_not_pointer (n : Nat) (h : n ≤ 63) : isPointer (UInt8.ofNat n) = false := by
  have hall : ∀ k < 64, isPointer (UInt8.ofNat k) = false := by decide
  exact hall n (Nat.lt_succ_of_le h)

-- The labels fit, each with its dot and one byte left over; else the decoder gives up.
theorem decodeLoop_wire (hp : pktLen < 65536) (ho : outMax < 65536) (labels : List (List UInt8))
    (hl : ∀ l ∈ labels, ValidLabel l) :
    ∀ (fuel pos outPos : Nat) (s : Bufs), labels.length < fuel → outPos < outMax →
      pos + (wire labels).length ≤ pktLen →
      readBytes s.pkt (wire labels).length pos = wire labels →
      Ends (decodeLoop pktLen outMax fuel pos outPos 0 none) s (fun r s' =>
        let t := readBytes s.out outPos 0 ++ labels.flatMap (· ++ [dot])
        if t.length < outMax then
          r = some (pos + (wire labels).length) ∧
            readBytes s'.out ((trimDot t).length + 1) 0 = trimDot t ++ [0]
        else r = none) := by
  induction labels with
  | nil =>
    intro fuel pos outPos s hfuel hout hend hwire
    obtain ⟨fuel, rfl⟩ := Nat.exists_eq_add_of_lt hfuel
    have hzero : s.pkt pos = 0 := (List.cons_eq_cons.mp hwire).1
    have hpos : pos < pktLen := hend
    rw [show ([] : List (List UInt8)).length + fuel + 1 = fuel + 1 by simp, decodeLoop,
      if_pos hpos]
    have hbyte : Ends (pktByte pos) s (fun b s' => s'.out = s.out ∧ b = s.pkt pos) := ⟨rfl, rfl⟩
    refine hbyte.then fun len s1 h1 => ?_
    rw [if_pos (h1.2.trans hzero)]
    refine (dropDot_trims outPos s1).then fun r s2 h2 => ?_
    refine Runs.modify_bind (Runs.pure ?_)
    rw [h1.1] at h2
    have hkept := readBytes_extended s2.out r [0]
    rw [h2.1, h2.2] at hkept
    have hlen := congrArg List.length h2.2
    rw [readBytes_length] at hlen
    simp only [List.flatMap_nil, List.append_nil, readBytes_length, if_pos hout]
    refine ⟨rfl, ?_⟩
    rw [← hlen, h2.1]
    exact hkept
  | cons l labels ih =>
    intro fuel pos outPos s hfuel hout hend hwire
    obtain ⟨fuel, rfl⟩ := Nat.exists_eq_add_of_lt hfuel
    have hvalid := hl l List.mem_cons_self
    have hlpos : 0 < l.length := List.length_pos_iff.mpr hvalid.nonempty
    have hshort := hvalid.short
    have hsize : (UInt8.ofNat l.length).toNat = l.length := by
      rw [UInt8.toNat_ofNat']
      omega
    rw [wire_cons, List.length_cons, List.length_append] at hend hwire
    rw [readBytes_cons, readBytes_append] at hwire
    obtain ⟨hhead, hrest⟩ := List.cons_eq_cons.mp hwire
    obtain ⟨hlabel, hrest⟩ := List.append_inj hrest (readBytes_length _ _ _)
    rw [show (l :: labels).length + fuel + 1 = (labels.length + 1 + fuel) + 1 by simp, decodeLoop,
      if_pos (by omega)]
    have hbyte : Ends (pktByte pos) s
        (fun b s' => s'.out = s.out ∧ s'.pkt = s.pkt ∧ b = s.pkt pos) := ⟨rfl, rfl, rfl⟩
    refine hbyte.then fun len s1 h1 => ?_
    obtain ⟨hout1, hpkt1, hlen1⟩ := h1
    rw [hhead] at hlen1
    have hne : len ≠ 0 := fun h0 => by
      have hsame := congrArg UInt8.toNat (h0.symm.trans hlen1)
      rw [hsize, UInt8.toNat_zero] at hsame
      omega
    rw [if_neg hne, hlen1, small_not_pointer _ hshort, hsize, u16_of_lt (by omega),
      if_neg (by simp), if_neg (by omega)]
    split
    · next hroom =>
      refine Runs.pure ?_
      simp only [List.flatMap_cons, List.length_append, readBytes_length, List.length_singleton]
      rw [if_neg (by omega)]
      trivial
    · next hroom =>
      rw [u16_of_lt (by omega : outPos + l.length < 65536),
        u16_of_lt (by omega : pos + 1 + l.length < 65536),
        u16_of_lt (by omega : outPos + l.length + 1 < 65536)]
      have hread : Ends (pktBytes (pos + 1) l.length) s1
          (fun bs s' => s'.out = s.out ∧ s'.pkt = s.pkt ∧ bs = l) :=
        ⟨hout1, hpkt1, by rw [hpkt1]; exact hlabel⟩
      refine hread.then fun bs s2 h2 => ?_
      obtain ⟨hout2, hpkt2, rfl⟩ := h2
      refine Runs.modify_bind (Runs.modify_bind ?_)
      have htext : readBytes (writeBytes (writeBytes s.out outPos bs) (outPos + bs.length) [dot])
          (outPos + bs.length + 1) 0 = readBytes s.out outPos 0 ++ bs ++ [dot] :=
        (readBytes_extended _ _ [dot]).trans
          (congrArg (· ++ [dot]) (readBytes_extended s.out outPos bs))
      refine (ih (fun k hk => hl k (List.mem_cons_of_mem bs hk)) _ _ _ _ (by omega) (by omega)
        (by omega) ?_).mono ?_ (fun _ h => h)
      · change readBytes s2.pkt (wire labels).length (pos + 1 + bs.length) = wire labels
        rw [hpkt2]
        exact hrest
      · intro r s' hr
        simp only [hout2, htext, List.flatMap_cons, List.append_assoc] at hr ⊢
        have hafter : pos + 1 + bs.length + (wire labels).length =
            pos + (wire (bs :: labels)).length := by
          rw [wire_cons, List.length_cons, List.length_append]
          omega
        rwa [hafter] at hr

theorem trimDot_closed (labels : List (List UInt8)) :
    trimDot (labels.flatMap (· ++ [dot])) = join dot labels := by
  cases labels with
  | nil => rfl
  | cons l labels =>
    rw [← join_closed (List.cons_ne_nil l labels), trimDot, List.getLast?_concat, if_pos rfl,
      List.dropLast_concat]

theorem closed_length (labels : List (List UInt8)) :
    (labels.flatMap (· ++ [dot])).length < 254 ↔ (join dot labels).length ≤ 252 := by
  cases labels with
  | nil => simp [join]
  | cons l labels =>
    rw [← join_closed (List.cons_ne_nil l labels), List.length_append, List.length_singleton]
    omega

end Decode

section RoundTrip

-- A message with a name behind its header.
def message (header : List UInt8) (name rest : List UInt8) : List UInt8 :=
  header ++ encodeName name ++ rest

def inMemory (bytes : List UInt8) : Nat → UInt8 := fun i => bytes.getD i 0

-- The name comes back, NUL behind it, with the position after what encode_name wrote.
def RoundTrips (fuel : Nat) (header name rest : List UInt8) (out : Nat → UInt8) : Prop :=
  Ends (decodeName fuel (message header name rest).length headerSize (dnsMaxName + 1))
    (fresh (inMemory (message header name rest)) out) (fun r s' =>
      r = some (headerSize + (encodeName name).length) ∧
        readBytes s'.out (name.length + 1) 0 = name ++ [0])

variable {labels : List (List UInt8)} {header rest : List UInt8} {out : Nat → UInt8} {fuel : Nat}

theorem inMemory_read (before bytes after : List UInt8) :
    readBytes (inMemory (before ++ bytes ++ after)) bytes.length before.length = bytes := by
  refine List.ext_getElem (readBytes_length _ _ _) fun i hi h => ?_
  simp only [readBytes, List.getElem_map, List.getElem_range, inMemory]
  rw [List.append_assoc, List.getD_eq_getElem _ _ (by simp; omega),
    List.getElem_append_right (Nat.le_add_right _ _), List.getElem_append_left (by omega)]
  simp

theorem flatMap_length_le (hl : ∀ l ∈ labels, ValidLabel l) :
    labels.length ≤ (wire labels).length := by
  rw [wire, List.length_append, List.length_flatMap]
  refine Nat.le_add_right_of_le ?_
  induction labels with
  | nil => exact Nat.zero_le _
  | cons l labels ih =>
    have hrest := ih fun k hk => hl k (List.mem_cons_of_mem l hk)
    simp only [List.length_cons, List.map_cons, List.sum_cons] at hrest ⊢
    omega

theorem decodeName_text (hl : ∀ l ∈ labels, ValidLabel l) (hh : header.length = 12)
    (hsize : (message header (join dot labels) rest).length < 65536)
    (hfuel : maxTurns (message header (join dot labels) rest).length ≤ fuel) :
    Ends (decodeName fuel (message header (join dot labels) rest).length headerSize
        (dnsMaxName + 1)) (fresh (inMemory (message header (join dot labels) rest)) out)
      (fun r s' => if (join dot labels).length ≤ 252 then
        r = some (headerSize + (encodeName (join dot labels)).length) ∧
          readBytes s'.out ((join dot labels).length + 1) 0 = join dot labels ++ [0]
      else r = none) := by
  have henc : encodeName (join dot labels) = wire labels :=
    encodeName_writes (fun l h => (hl l h).isLabel) (fun l h => (hl l h).short) (.inl rfl)
  have hread := inMemory_read header (wire labels) rest
  rw [hh] at hread
  rw [message, henc] at hsize hfuel ⊢
  have hcount := flatMap_length_le hl
  have hall : (header ++ wire labels ++ rest).length =
      12 + (wire labels).length + rest.length := by
    rw [List.length_append, List.length_append, hh]
  refine (decodeLoop_wire hsize (by decide) labels hl fuel 12 0 _ ?_ (by decide) (by omega)
    hread).mono ?_ (fun _ h => h)
  · unfold maxTurns at hfuel
    omega
  · intro r s' hr
    simp only [readBytes, List.range_zero, List.map_nil, List.nil_append, trimDot_closed] at hr
    simp only [← closed_length]
    exact hr

theorem roundTrips_short (hl : ∀ l ∈ labels, ValidLabel l) (hh : header.length = 12)
    (hsize : (message header (join dot labels) rest).length < 65536)
    (hfuel : maxTurns (message header (join dot labels) rest).length ≤ fuel)
    (hfit : (join dot labels).length ≤ 252) :
    RoundTrips fuel header (join dot labels) rest out :=
  (decodeName_text hl hh hsize hfuel).mono (fun _ _ hr => by rwa [if_pos hfit] at hr)
    (fun _ h => h)

theorem not_roundTrips_long (hl : ∀ l ∈ labels, ValidLabel l) (hh : header.length = 12)
    (hsize : (message header (join dot labels) rest).length < 65536)
    (hfuel : maxTurns (message header (join dot labels) rest).length ≤ fuel)
    (hlong : 252 < (join dot labels).length) :
    ¬ RoundTrips fuel header (join dot labels) rest out := by
  intro h
  obtain ⟨r, s', hr, hpost⟩ := (@decodeName_text labels header rest out fuel hl hh hsize hfuel).ends
  rw [if_neg (by omega)] at hpost
  have hback := h.result hr
  rw [hpost] at hback
  exact absurd hback.1 (by simp)

theorem name_comes_back_iff (hl : ∀ l ∈ labels, ValidLabel l) (hh : header.length = 12)
    (hsize : (message header (join dot labels) rest).length < 65536)
    (hfuel : maxTurns (message header (join dot labels) rest).length ≤ fuel) :
    RoundTrips fuel header (join dot labels) rest out ↔
      (join dot labels).length ≤ dnsMaxName - 1 :=
  ⟨fun h => Nat.le_of_not_lt fun hlong => not_roundTrips_long hl hh hsize hfuel hlong h,
    roundTrips_short hl hh hsize hfuel⟩

theorem short_name_comes_back :
    RoundTrips 400 (List.replicate 12 0) (join dot [[119, 119, 119], [111, 115]]) [0, 1, 0, 1]
        (fun _ => 0) ↔ (join dot [[119, 119, 119], [111, 115]]).length ≤ dnsMaxName - 1 := by
  have hl : ∀ l ∈ [[119, 119, 119], [111, 115]], ValidLabel l := by
    intro l hl
    simp only [List.mem_cons, List.not_mem_nil, or_false] at hl
    rcases hl with rfl | rfl <;> exact ⟨by simp, by simp, by simp [dot]⟩
  have henc : encodeName (join dot [[119, 119, 119], [111, 115]]) =
      wire [[119, 119, 119], [111, 115]] :=
    encodeName_writes (fun l h => (hl l h).isLabel) (fun l h => (hl l h).short) (.inl rfl)
  exact name_comes_back_iff hl rfl (by rw [message, henc]; decide)
    (by rw [message, henc]; decide)

-- Three labels of 63 bytes and one of 61, with three dots.
def longName : List (List UInt8) :=
  [List.replicate 63 97, List.replicate 63 97, List.replicate 63 97, List.replicate 61 97]

theorem longName_valid : ∀ l ∈ longName, ValidLabel l := by
  have hlabel : ∀ n, 0 < n → n ≤ 63 → ValidLabel (List.replicate n (97 : UInt8)) := by
    intro n hpos hn
    refine ⟨by simp; omega, by simp; omega, fun c hc => ?_⟩
    rw [(List.mem_replicate.mp hc).2]
    decide
  intro l hl
  simp only [longName, List.mem_cons, List.not_mem_nil, or_false] at hl
  rcases hl with rfl | rfl | rfl | rfl <;> exact hlabel _ (by decide) (by decide)

theorem longName_length : (join dot longName).length = 253 := by decide +kernel

theorem longName_encoded : encodeName (join dot longName) = wire longName :=
  encodeName_writes (fun l h => (longName_valid l h).isLabel)
    (fun l h => (longName_valid l h).short) (.inl rfl)

theorem longName_message (header rest : List UInt8) :
    (message header (join dot longName) rest).length = header.length + 255 + rest.length := by
  have hwire : (wire longName).length = 255 := by decide +kernel
  rw [message, longName_encoded, List.length_append, List.length_append, hwire]

theorem longest_name_is_lost :
    (∀ l ∈ longName, ValidLabel l) ∧ (join dot longName).length = dnsMaxName ∧
      ¬ RoundTrips 3000 (List.replicate 12 0) (join dot longName) [0, 1, 0, 1] (fun _ => 0) := by
  have hsize : (message (List.replicate 12 0) (join dot longName) [0, 1, 0, 1]).length = 271 :=
    longName_message _ _
  refine ⟨longName_valid, longName_length, ?_⟩
  refine not_roundTrips_long longName_valid List.length_replicate (by omega) ?_ ?_
  · rw [hsize]
    decide
  · rw [longName_length]
    decide

end RoundTrip

end Dns
