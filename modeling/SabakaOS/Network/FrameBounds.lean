import SabakaOS.Network.Frame

namespace Net

open Word ByteMemory Prog

-- Everything read or handed on lies in the L bytes of the frame, and every handler was given
-- all the bytes that are left behind its start.
structure Inside (L : Nat) (s : NetState) : Prop where
  reads : ∀ r ∈ s.reads, r.1 + r.2 ≤ L
  calls : ∀ c ∈ s.calls, c.2.1 + c.2.2 = L

def touched (s : NetState) (off n : Nat) : NetState := { s with reads := (off, n) :: s.reads }

def noted (s : NetState) (h : Handler) (data len : Nat) : NetState :=
  { s with calls := (h, data, len) :: s.calls }

section Run

variable {α β : Type} {L off n : Nat} {s s' : NetState}

theorem inside_touched : Inside L (touched s off n) ↔ off + n ≤ L ∧ Inside L s := by
  constructor
  · intro h
    exact ⟨h.reads (off, n) List.mem_cons_self,
      fun r hr => h.reads r (List.mem_cons_of_mem _ hr), h.calls⟩
  · rintro ⟨hle, h⟩
    refine ⟨fun r hr => ?_, h.calls⟩
    rcases List.mem_cons.mp hr with rfl | hr
    · exact hle
    · exact h.reads r hr

theorem inside_noted {h : Handler} {data len : Nat} :
    Inside L (noted s h data len) ↔ data + len = L ∧ Inside L s := by
  constructor
  · intro hi
    exact ⟨hi.calls (h, data, len) List.mem_cons_self, hi.reads,
      fun c hc => hi.calls c (List.mem_cons_of_mem _ hc)⟩
  · rintro ⟨he, hi⟩
    refine ⟨hi.reads, fun c hc => ?_⟩
    rcases List.mem_cons.mp hc with rfl | hc
    · exact he
    · exact hi.calls c hc

theorem inside_congr (hr : s'.reads = s.reads) (hc : s'.calls = s.calls) :
    Inside L s' ↔ Inside L s :=
  ⟨fun h => ⟨hr ▸ h.reads, hc ▸ h.calls⟩, fun h => ⟨hr.symm ▸ h.reads, hc.symm ▸ h.calls⟩⟩

theorem touch_bind (f : Unit → Rx β) : (touch off n >>= f) s = f () (touched s off n) := rfl

theorem called_bind (h : Handler) (data len : Nat) (f : Unit → Rx β) :
    (called h data len >>= f) s = f () (noted s h data len) := rfl

theorem field_bind (f : Nat → Rx β) :
    (field n off >>= f) s = f (readLE s.frame n off) (touched s off n) := rfl

theorem block_bind (f : List UInt8 → Rx β) :
    (block n off >>= f) s = f (readBytes s.frame n off) (touched s off n) := rfl

theorem netField_bind (f : Nat → Rx β) :
    (netField off >>= f) s = f (be16 s.frame off) (touched s off 2) := rfl

theorem modify_bind (g : NetState → NetState) (f : Unit → Rx β) :
    (Prog.modify g >>= f) s = f () (g s) := rfl

theorem pure_run (a : α) : (pure a : Rx α) s = (some a, s) := rfl

theorem send_inside (pkt : List UInt8) : Inside L (rtl8139Send pkt s).2 ↔ Inside L s :=
  inside_congr rfl rfl

theorem store_inside (ip : Nat) (mac : List UInt8) :
    Inside L (arpCacheStore s ip mac) ↔ Inside L s := inside_congr rfl rfl

theorem ipId_inside : Inside L (nextIpId s) ↔ Inside L s := inside_congr rfl rfl

theorem toTcp_inside (srcIp : Nat) (seg : List UInt8) : Inside L (toTcp srcIp seg s) ↔ Inside L s :=
  inside_congr rfl rfl

theorem callBack_inside (c : Callback) : Inside L (callBack c s) ↔ Inside L s :=
  inside_congr rfl rfl

theorem arpReply_inside {req : Nat} (h : req + arpPacketSize ≤ L) :
    Inside L (arpReply req s).2 ↔ Inside L s := by
  have hsize : arpPacketSize = 28 := rfl
  rw [arpReply, block_bind, field_bind, get_bind, send_inside, inside_touched, inside_touched]
  constructor
  · exact fun hi => hi.2.2
  · exact fun hi => ⟨by omega, by omega, hi⟩

variable {ip data len : Nat}

theorem handleArp_inside (h : data + len = L) :
    Inside L (handleArp data len s).2 ↔ Inside L s := by
  have hsize : arpPacketSize = 28 := rfl
  rw [handleArp, called_bind]
  by_cases hlen : len < arpPacketSize
  · rw [if_pos hlen, pure_run, inside_noted]
    exact and_iff_right h
  rw [if_neg hlen, field_bind, block_bind, modify_bind, netField_bind]
  generalize hs₁ : touched (arpCacheStore _ _ _) (data + 6) 2 = s₁
  have hin : Inside L s₁ ↔ Inside L s := by
    rw [← hs₁, inside_touched, store_inside, inside_touched, inside_touched, inside_noted]
    constructor
    · exact fun hi => hi.2.2.2.2
    · exact fun hi => ⟨by omega, by omega, by omega, h, hi⟩
  split
  · rw [field_bind, get_bind]
    have hin' : Inside L (touched s₁ (data + 24) 4) ↔ Inside L s := by
      rw [inside_touched, hin]
      exact and_iff_right (by omega)
    split
    · rw [arpReply_inside (by omega), hin']
    · exact hin'
  · exact hin

-- A handler that was given another length than what is left has left the frame.
theorem handleIcmp_inside (hip : ip + ipHeaderSize ≤ L) :
    Inside L (handleIcmp ip data len s).2 ↔ data + len = L ∧ Inside L s := by
  have hipSize : ipHeaderSize = 20 := rfl
  have hsize : icmpHeaderSize = 8 := rfl
  rw [handleIcmp, called_bind]
  by_cases hlen : len < icmpHeaderSize
  · rw [if_pos hlen, pure_run, inside_noted]
  rw [if_neg hlen, field_bind]
  generalize hs₁ : touched (noted s .icmp data len) data 1 = s₁
  have hin : Inside L s₁ ↔ data + len = L ∧ Inside L s := by
    rw [← hs₁, inside_touched, inside_noted]
    constructor
    · exact fun hi => hi.2
    · exact fun hi => ⟨by omega, hi⟩
  split
  · exact hin
  rw [get_bind]
  split
  · exact hin
  rw [field_bind, block_bind, block_bind, modify_bind, send_inside]
  rw [ipId_inside, inside_touched, inside_touched, inside_touched, hin]
  constructor
  · exact fun hi => hi.2.2.2
  · intro hi
    have hsub : data + icmpHeaderSize + sub16 len icmpHeaderSize ≤ L := by
      unfold sub16 u16
      omega
    exact ⟨hsub, by omega, by omega, hi⟩

theorem tcpReceive_inside (srcIp : Nat) :
    Inside L (tcpReceive srcIp data len s).2 ↔ data + len = L ∧ Inside L s := by
  have hsize : tcpHeaderSize = 20 := rfl
  rw [tcpReceive, called_bind, get_bind, modify_bind]
  generalize hseg : readBytes (noted s .tcp data len).frame len data = seg
  generalize hs₁ : toTcp srcIp seg (noted s .tcp data len) = s₁
  have hin : Inside L s₁ ↔ data + len = L ∧ Inside L s := by
    rw [← hs₁, toTcp_inside, inside_noted]
  by_cases hlen : len < tcpHeaderSize
  · rw [if_pos hlen]
    exact hin
  rw [if_neg hlen, touch_bind]
  have hin' : Inside L (touched s₁ data tcpHeaderSize) ↔ data + len = L ∧ Inside L s := by
    rw [inside_touched, hin]
    constructor
    · exact fun hi => hi.2
    · exact fun hi => ⟨by omega, hi⟩
  split
  · rename_i hw
    have hle : Tcp.hdrBytes seg ≤ len := by
      simp only [Tcp.wellFormed, Bool.and_eq_true, decide_eq_true_eq] at hw
      have hl : seg.length = len := by rw [← hseg, readBytes_length]
      omega
    change Inside L (touched (touched s₁ data tcpHeaderSize) _ _) ↔ _
    rw [inside_touched, hin']
    constructor
    · exact fun hi => hi.2
    · exact fun hi => ⟨by omega, hi⟩
  · exact hin'

-- What a UDP callback would be given by the length field of the header at data.
def udpFits (s : NetState) (L data : Nat) : Prop :=
  (udpHandler s (be16 s.frame (data + 2))).isSome →
    udpHeaderSize ≤ be16 s.frame (data + 4) ∧ data + be16 s.frame (data + 4) ≤ L

theorem udpFits_touched {off n data : Nat} :
    udpFits (touched s off n) L data ↔ udpFits s L data := Iff.rfl

theorem udpFits_noted {h : Handler} {x len data : Nat} :
    udpFits (noted s h x len) L data ↔ udpFits s L data := Iff.rfl

theorem be16_lt (m : Nat → UInt8) (off : Nat) : be16 m off < 65536 := by
  have h1 := (m off).toNat_lt
  have h2 := (m (off + 1)).toNat_lt
  unfold be16
  omega

theorem handleUdp_inside (hip : ip + ipHeaderSize ≤ L) (hL : L < 65536) :
    Inside L (handleUdp ip data len s).2 ↔
      data + len = L ∧ (udpHeaderSize ≤ len → udpFits s L data) ∧ Inside L s := by
  have hipSize : ipHeaderSize = 20 := rfl
  have hsize : udpHeaderSize = 8 := rfl
  rw [handleUdp, called_bind]
  by_cases hlen : len < udpHeaderSize
  · rw [if_pos hlen, pure_run, inside_noted]
    exact ⟨fun hi => ⟨hi.1, fun h => absurd hlen (by omega), hi.2⟩, fun hi => ⟨hi.1, hi.2.2⟩⟩
  rw [if_neg hlen, netField_bind, netField_bind, netField_bind, get_bind]
  generalize hs₁ : touched (touched (touched _ _ 2) data 2) _ 2 = s₁
  have hin : Inside L s₁ ↔ data + len = L ∧ Inside L s := by
    rw [← hs₁, inside_touched, inside_touched, inside_touched, inside_noted]
    constructor
    · exact fun hi => hi.2.2.2
    · exact fun hi => ⟨by omega, by omega, by omega, hi⟩
  have hhandler : udpHandler s₁ (be16 s.frame (data + 2)) =
      udpHandler s (be16 s.frame (data + 2)) := by
    rw [← hs₁]
    rfl
  have hiff : (udpHandler s₁ (be16 s.frame (data + 2))).isNone = true ↔
      ¬(udpHandler s (be16 s.frame (data + 2))).isSome = true := by
    rw [hhandler]
    cases udpHandler s (be16 s.frame (data + 2)) <;> simp
  split
  · rename_i hu
    rw [pure_run, hin]
    have hf : udpFits s L data := fun h => absurd h (hiff.mp hu)
    exact ⟨fun hi => ⟨hi.1, fun _ => hf, hi.2⟩, fun hi => ⟨hi.1, hi.2.2⟩⟩
  · rename_i hu
    have hsome := not_not.mp (mt hiff.mpr hu)
    rw [field_bind, touch_bind]
    change Inside L (callBack _ (touched (touched s₁ (ip + 12) 4) (data + udpHeaderSize)
      (sub16 (be16 s.frame (data + 4)) udpHeaderSize))) ↔ _
    rw [callBack_inside, inside_touched, inside_touched, hin]
    have hlt := be16_lt s.frame (data + 4)
    have hfit : data + udpHeaderSize + sub16 (be16 s.frame (data + 4)) udpHeaderSize ≤ L ↔
        udpHeaderSize ≤ be16 s.frame (data + 4) ∧ data + be16 s.frame (data + 4) ≤ L := by
      unfold sub16 u16
      omega
    have hf : udpFits s L data ↔ udpHeaderSize ≤ be16 s.frame (data + 4) ∧
        data + be16 s.frame (data + 4) ≤ L := ⟨fun h => h hsome, fun h _ => h⟩
    rw [hfit, hf]
    constructor
    · exact fun hi => ⟨hi.2.2.1, fun _ => hi.1, hi.2.2.2⟩
    · exact fun hi => ⟨hi.2.1 (by omega), by omega, hi.1, hi.2.2⟩

-- The headers take the frame past the checks of net_poll and handle_ip to a protocol.
structure Carries (s : NetState) (L protocol : Nat) : Prop where
  ethernet : ethHeaderSize + ipHeaderSize ≤ L
  type : be16 s.frame 12 = 0x0800
  ihl_ge : 20 ≤ headerLen (readLE s.frame 1 14)
  ihl_le : ethHeaderSize + headerLen (readLE s.frame 1 14) ≤ L
  dst : forUs s (readLE s.frame 4 30) = true
  protocol : readLE s.frame 1 23 = protocol

-- The total length counts all the bytes behind the Ethernet header, and a datagram for a
-- registered port says that it ends inside the frame.
def LengthsAgree (s : NetState) (L : Nat) : Prop :=
  ∀ protocol, protocol = 1 ∨ protocol = 6 ∨ protocol = 17 → Carries s L protocol →
    ethHeaderSize + be16 s.frame 16 = L ∧
      (protocol = 17 →
        ethHeaderSize + headerLen (readLE s.frame 1 14) + udpHeaderSize ≤ L →
        udpFits s L (ethHeaderSize + headerLen (readLE s.frame 1 14)))

theorem agree_iff {protocol : Nat} (hp : protocol = 1 ∨ protocol = 6 ∨ protocol = 17)
    (hc : Carries s L protocol) : LengthsAgree s L ↔
      ethHeaderSize + be16 s.frame 16 = L ∧ (protocol = 17 →
        ethHeaderSize + headerLen (readLE s.frame 1 14) + udpHeaderSize ≤ L →
        udpFits s L (ethHeaderSize + headerLen (readLE s.frame 1 14))) := by
  constructor
  · exact fun h => h protocol hp hc
  · intro h q _ hq
    have he : q = protocol := hq.protocol.symm.trans hc.protocol
    subst he
    exact h

theorem agree_vacuous (h : ∀ protocol, protocol = 1 ∨ protocol = 6 ∨ protocol = 17 →
    ¬Carries s L protocol) : LengthsAgree s L := fun p hp hc => absurd hc (h p hp)

theorem agree_touched : LengthsAgree (touched s off n) L ↔ LengthsAgree s L := by
  constructor
  · intro h p hp hc
    exact h p hp ⟨hc.ethernet, hc.type, hc.ihl_ge, hc.ihl_le, hc.dst, hc.protocol⟩
  · intro h p hp hc
    exact h p hp ⟨hc.ethernet, hc.type, hc.ihl_ge, hc.ihl_le, hc.dst, hc.protocol⟩

theorem headerLen_lt (v : Nat) : headerLen v < 256 := Nat.mod_lt _ (by decide)

theorem plen_left {ihl : Nat} (total : Nat) (hihl : ihl < 256) (hle : ethHeaderSize + ihl ≤ L)
    (hL : L < 65536) (ht : total < 65536) :
    ethHeaderSize + ihl + sub16 total ihl = L ↔ ethHeaderSize + total = L := by
  unfold sub16 u16 ethHeaderSize at *
  omega

theorem handleIp_inside (hL : L < 65536) (h14 : ethHeaderSize ≤ L)
    (ht : be16 s.frame 12 = 0x0800) :
    Inside L (handleIp ethHeaderSize (L - ethHeaderSize) s).2 ↔
      LengthsAgree s L ∧ Inside L s := by
  have heth : ethHeaderSize = 14 := rfl
  have hip : ipHeaderSize = 20 := rfl
  rw [handleIp, called_bind]
  have hin₀ : Inside L (noted s .ip ethHeaderSize (L - ethHeaderSize)) ↔ Inside L s := by
    rw [inside_noted]
    exact and_iff_right (by omega)
  by_cases hlen : L - ethHeaderSize < ipHeaderSize
  · rw [if_pos hlen, pure_run, hin₀,
      and_iff_right (agree_vacuous fun _ _ hc => by have := hc.ethernet; omega)]
  rw [if_neg hlen, field_bind]
  generalize hs₁ : touched (noted s .ip _ _) ethHeaderSize 1 = s₁
  have hin₁ : Inside L s₁ ↔ Inside L s := by
    rw [← hs₁, inside_touched, hin₀]
    exact and_iff_right (by omega)
  have hihl := headerLen_lt (readLE s.frame 1 14)
  split
  · rename_i hchk
    have hchk' : headerLen (readLE s.frame 1 14) < 20 ∨
        L - ethHeaderSize < headerLen (readLE s.frame 1 14) := hchk
    rw [pure_run, hin₁, and_iff_right (agree_vacuous fun _ _ hc => by
      have h1 := hc.ihl_ge
      have h2 := hc.ihl_le
      omega)]
  rename_i hchk
  have hchk' : ¬(headerLen (readLE s.frame 1 14) < 20 ∨
      L - ethHeaderSize < headerLen (readLE s.frame 1 14)) := hchk
  have hframe : s₁.frame = s.frame := by rw [← hs₁]; rfl
  have hus : ∀ dst, forUs (touched s₁ (ethHeaderSize + 16) 4) dst = forUs s dst := by
    intro dst
    rw [← hs₁]
    rfl
  rw [field_bind, get_bind, hus, hframe]
  have hin₂ : Inside L (touched s₁ (ethHeaderSize + 16) 4) ↔ Inside L s := by
    rw [inside_touched, hin₁]
    exact and_iff_right (by omega)
  split
  · rename_i hdst
    have hdst' : (!forUs s (readLE s.frame 4 30)) = true := hdst
    rw [Bool.not_eq_true'] at hdst'
    rw [pure_run, hin₂, and_iff_right (agree_vacuous fun _ _ hc => by
      rw [hc.dst] at hdst'
      cases hdst')]
  rename_i hdst
  have hdst' : ¬(!forUs s (readLE s.frame 4 30)) = true := hdst
  rw [Bool.not_eq_true, Bool.not_eq_false'] at hdst'
  rw [netField_bind, field_bind]
  generalize hs₃ : touched (touched (touched s₁ _ 4) _ 2) _ 1 = s₃
  have hin₃ : Inside L s₃ ↔ Inside L s := by
    rw [← hs₃, inside_touched, inside_touched, hin₂]
    constructor
    · exact fun hi => hi.2.2
    · exact fun hi => ⟨by omega, by omega, hi⟩
  have hcarry : ∀ protocol, readLE s.frame 1 23 = protocol → Carries s L protocol :=
    fun _ hp => ⟨by omega, ht, by omega, by omega, hdst', hp⟩
  have hleft := plen_left (be16 s.frame 16) hihl (by omega) hL (be16_lt _ _)
  have hproto : readLE (touched (touched s₁ (ethHeaderSize + 16) 4) (ethHeaderSize + 2) 2).frame 1
      (ethHeaderSize + 9) = readLE s.frame 1 23 := by
    rw [← hframe]
    rfl
  have htotal : be16 (touched s₁ (ethHeaderSize + 16) 4).frame (ethHeaderSize + 2) =
      be16 s.frame 16 := by
    rw [← hframe]
    rfl
  have hihl' : headerLen (readLE (noted s .ip ethHeaderSize (L - ethHeaderSize)).frame 1
      ethHeaderSize) = headerLen (readLE s.frame 1 14) := rfl
  simp only [hproto, htotal, hihl']
  by_cases h1 : readLE s.frame 1 23 = 1
  · rw [if_pos h1, handleIcmp_inside (by omega), hin₃, hleft, agree_iff (Or.inl rfl) (hcarry 1 h1)]
    simp
  by_cases h6 : readLE s.frame 1 23 = 6
  · rw [if_neg h1, if_pos h6, field_bind, tcpReceive_inside, inside_touched, hin₃, hleft,
      agree_iff (Or.inr (Or.inl rfl)) (hcarry 6 h6)]
    constructor
    · exact fun hi => ⟨⟨hi.1, fun he => absurd he (by decide)⟩, hi.2.2⟩
    · exact fun hi => ⟨hi.1.1, by omega, hi.2⟩
  by_cases h17 : readLE s.frame 1 23 = 17
  · have hfits : udpFits s₃ L (ethHeaderSize + headerLen (readLE s.frame 1 14)) ↔
        udpFits s L (ethHeaderSize + headerLen (readLE s.frame 1 14)) := by
      rw [← hs₃, ← hs₁]
      simp only [udpFits_touched, udpFits_noted]
    rw [if_neg h1, if_neg h6, if_pos h17, handleUdp_inside (by omega) hL, hin₃, hfits,
      agree_iff (Or.inr (Or.inr rfl)) (hcarry 17 h17)]
    constructor
    · rintro ⟨he, hf, hi⟩
      exact ⟨⟨hleft.mp he, fun _ hroom => hf (by omega)⟩, hi⟩
    · rintro ⟨⟨he, hf⟩, hi⟩
      have he' := hleft.mpr he
      exact ⟨he', fun hroom => hf rfl (by omega), hi⟩
  · rw [if_neg h1, if_neg h6, if_neg h17, pure_run, hin₃, and_iff_right (agree_vacuous ?_)]
    rintro p (rfl | rfl | rfl) hc
    · exact h1 hc.protocol
    · exact h6 hc.protocol
    · exact h17 hc.protocol

theorem pollPacket_inside (hL : L < 65536) :
    Inside L (pollPacket L s).2 ↔ LengthsAgree s L ∧ Inside L s := by
  have heth : ethHeaderSize = 14 := rfl
  rw [pollPacket]
  by_cases hlen : L < ethHeaderSize
  · rw [if_pos hlen, pure_run, and_iff_right (agree_vacuous fun _ _ hc => by
      have := hc.ethernet
      omega)]
  have hsub : sub16 L ethHeaderSize = L - ethHeaderSize := by
    unfold sub16 u16
    omega
  rw [if_neg hlen, netField_bind, hsub]
  have hin : Inside L (touched s 12 2) ↔ Inside L s := by
    rw [inside_touched]
    exact and_iff_right (by omega)
  by_cases harp : be16 s.frame 12 = 0x0806
  · rw [if_pos harp, handleArp_inside (by omega), hin, and_iff_right (agree_vacuous fun _ _ hc => by
      have := hc.type
      omega)]
  by_cases hip : be16 s.frame 12 = 0x0800
  · have ht : be16 (touched s 12 2).frame 12 = 0x0800 := hip
    rw [if_neg harp, if_pos hip]
    exact (handleIp_inside hL (by omega) ht).trans (and_congr agree_touched hin)
  · rw [if_neg harp, if_neg hip, pure_run, hin, and_iff_right (agree_vacuous fun _ _ hc =>
      absurd hc.type hip)]

end Run

-- The packet is taken up with nothing read of it yet.
def arriving (s : NetState) (frame : Nat → UInt8) : NetState :=
  { s with frame := frame, reads := [], calls := [] }

theorem frame_bounds (s : NetState) (frame : Nat → UInt8) (L : Nat)
    (h : 0 < L ∧ L ≤ Netq.netQueuePktMax) :
    Inside L (pollPacket L (arriving s frame)).2 ↔ LengthsAgree (arriving s frame) L := by
  have hL : L < 65536 := Nat.lt_of_le_of_lt h.2 (by decide)
  rw [pollPacket_inside hL]
  exact and_iff_left ⟨fun r hr => absurd hr List.not_mem_nil, fun c hc => absurd hc List.not_mem_nil⟩

def quietNet : NetState where
  frame := fun _ => 0
  myIp := 0x0100007F
  netmask := 0xFF
  myMac := List.replicate 6 0
  arpCache := fun _ => { ip := 0, mac := [], valid := false }
  udpHandlers := fun _ => { port := 0, used := false }
  ipId := 1
  tcp := {
    socks := fun _ => Tcp.blankSocket
    myIp := 0x0100007F
    pitTickCount := 0
    pitFrequency := 1000
    kmallocOk := fun _ => true
    sendOk := fun _ => true
    sends := 0
    sent := [] }
  kmallocOk := true
  sent := []
  callbacks := []
  reads := []
  calls := []

-- An echo request of 60 bytes for 255.255.255.255 that claims a total length of n * 256.
def ping (n : UInt8) (i : Nat) : UInt8 :=
  if i = 12 then 8 else if i = 14 then 0x45 else if i = 16 then n else if i = 23 then 1
  else if 30 ≤ i ∧ i < 34 then 0xFF else if i = 34 then 8 else 0

theorem frame_bounds_ping : Inside 60 (pollPacket 60 (arriving quietNet (ping 0))).2 ↔
    LengthsAgree (arriving quietNet (ping 0)) 60 :=
  frame_bounds quietNet (ping 0) 60 (by decide)

theorem carries_ping : Carries (arriving quietNet (ping 0x40)) 60 1 where
  ethernet := by decide
  type := by decide +kernel
  ihl_ge := by decide +kernel
  ihl_le := by decide +kernel
  dst := by decide +kernel
  protocol := by decide +kernel

theorem frame_bounds_fails : ¬∀ (s : NetState) (frame : Nat → UInt8) (L : Nat),
    0 < L ∧ L ≤ Netq.netQueuePktMax → Inside L (pollPacket L (arriving s frame)).2 := by
  intro h
  have hin := h quietNet (ping 0x40) 60 (by decide)
  have hagree := ((pollPacket_inside (by decide)).mp hin).1
  exact absurd (hagree 1 (Or.inl rfl) carries_ping).1 (by decide +kernel)

end Net
