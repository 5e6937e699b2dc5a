import SabakaOS.Network.Checksum
import SabakaOS.Network.Lan

namespace Net

open Word ByteMemory Prog SlotTable

def rtlTxBufSize : Nat := 1536

-- rtl8139_send with the card present: what is too long for its buffers is not sent.
def rtl8139TrySend (pkt : List UInt8) : Rx Bool :=
  if rtlTxBufSize < pkt.length then pure false
  else do
    rtl8139Send pkt
    pure true

def ipFields (frag proto : UInt8) (total id srcIp dstIp checksum : Nat) : List UInt8 :=
  [0x45, 0] ++ beBytes total ++ beBytes id ++ [frag, 0, 64, proto] ++ leBytes 2 checksum ++
    leBytes 4 srcIp ++ leBytes 4 dstIp

def ipHeader (frag proto : UInt8) (total id srcIp dstIp : Nat) : List UInt8 :=
  ipFields frag proto total id srcIp dstIp (ipChecksum (ipFields frag proto total id srcIp dstIp 0))

def ipFrame (dst mac header payload : List UInt8) : List UInt8 :=
  dst ++ mac ++ [0x08, 0x00] ++ header ++ payload

def udpMessage (srcPort dstPort udpLen : Nat) (data : List UInt8) : List UInt8 :=
  beBytes srcPort ++ beBytes dstPort ++ beBytes udpLen ++ [0, 0] ++ data

-- The packet is as long as kmalloc was asked for, also where the lengths wrap around.
def netUdpSend (gatewayIp dstIp srcPort dstPort : Nat) (data : List UInt8) : Rx Bool := do
  let udpLen := u16 (udpHeaderSize + data.length)
  let ipTotal := u16 (ipHeaderSize + udpLen)
  let pktSize := u16 (ethHeaderSize + ipTotal)
  let s ← get
  if !s.kmallocOk then pure false
  else do
    let nextHop := if dstIp &&& s.netmask ≠ s.myIp &&& s.netmask then gatewayIp else dstIp
    let dstMac := (netArpLookup s nextHop).getD (List.replicate 6 0xFF)
    Prog.modify nextIpId
    rtl8139TrySend ((ipFrame dstMac s.myMac (ipHeader 0 17 ipTotal s.ipId s.myIp dstIp)
      (udpMessage srcPort dstPort udpLen data)).take pktSize)

section Header

variable {dst mac payload : List UInt8} {frag proto : UInt8} {total id src dstIp k n v : Nat}
  {m : Nat → UInt8}

theorem ipFields_length (checksum : Nat) :
    (ipFields frag proto total id src dstIp checksum).length = 20 := by
  simp [ipFields, leBytes_length, beBytes]

theorem be16_beBytes (h : readBytes m 2 k = beBytes v) (hv : v < 65536) : be16 m k = v := by
  rw [be16_bytes h, UInt8.toNat_ofNat', UInt8.toNat_ofNat']
  omega

theorem readLE_byte {x : UInt8} (h : readBytes m 1 k = [x]) : readLE m 1 k = x.toNat := by
  obtain ⟨hx, -⟩ := List.cons.inj (h : m (k + 0) :: [] = _)
  rw [readLE, readLE, ← hx]
  rfl

-- The checksum makes the words of the header add up to zero.
theorem ipHeader_verifies : Checksum.ipChecksum (ipHeader frag proto total id src dstIp) = 0 := by
  have hlen : (ipFields frag proto total id src dstIp 0).length = 20 := ipFields_length 0
  have hstored : ∀ c, ipFields frag proto total id src dstIp c =
      Checksum.stored (ipFields frag proto total id src dstIp 0) 10 c := fun _ => rfl
  have hle := Checksum.wordSum_le (ipFields frag proto total id src dstIp 0)
  rw [ipHeader, hstored (ipChecksum _), Checksum.ipChecksum_frame _ (by omega)]
  exact @Checksum.verifies (ipFields frag proto total id src dstIp 0) 10 [] rfl (by decide)
    (by omega) rfl (by rw [show wordSum [] = 0 from rfl]; omega)

theorem readBytes_part {l : List UInt8} (h : readBytes m n k = l) {i j : Nat} (hij : i + j ≤ n) :
    readBytes m j (k + i) = (l.drop i).take j := by
  rw [← h, readBytes_drop m k (by omega), readBytes_take, Nat.min_eq_left (by omega)]

-- A field of a packet, after the fields before it.
theorem field_at (fields : List (List UInt8)) (z : List UInt8) (i k n : Nat) {b : List UInt8}
    (hb : fields[i]? = some b) (hn : b.length = n)
    (hk : ((fields.take i).flatten).length = k) :
    readBytes (frameOf (fields.flatten ++ z)) n k = b := by
  obtain ⟨hi, hget⟩ := List.getElem?_eq_some_iff.mp hb
  have hsplit : fields.flatten ++ z =
      (fields.take i).flatten ++ b ++ ((fields.drop (i + 1)).flatten ++ z) := by
    conv_lhs => rw [← List.take_append_drop i fields, List.drop_eq_getElem_cons hi, hget]
    simp only [List.flatten_append, List.flatten_cons, List.append_assoc]
  rw [hsplit]
  exact frameOf_slice hk hn

-- An IP packet as it arrives, its header without options.
structure IpPacket (m : Nat → UInt8) (proto : UInt8) (total src dstIp : Nat)
    (payload : List UInt8) : Prop where
  type : be16 m 12 = 0x0800
  version : readLE m 1 14 = 0x45
  total : be16 m 16 = total
  protocol : readLE m 1 23 = proto.toNat
  src : readLE m 4 26 = src
  dst : readLE m 4 30 = dstIp
  payload : readBytes m payload.length 34 = payload

theorem ipFrame_packet (z : List UInt8) (hd : dst.length = 6) (hm : mac.length = 6)
    (htotal : total < 65536) (hsrc : src < 2 ^ 32) (hdst : dstIp < 2 ^ 32) :
    IpPacket (frameOf (ipFrame dst mac (ipHeader frag proto total id src dstIp) payload ++ z))
      proto total src dstIp payload := by
  generalize hc : ipChecksum (ipFields frag proto total id src dstIp 0) = checksum
  have hl := leBytes_length 4
  have hl2 := leBytes_length 2
  have hb : ∀ v, (beBytes v).length = 2 := fun _ => rfl
  have hflat : ipFrame dst mac (ipHeader frag proto total id src dstIp) payload =
      [dst, mac, [0x08, 0x00], [0x45], [0], beBytes total, beBytes id, [frag, 0, 64], [proto],
        leBytes 2 checksum, leBytes 4 src, leBytes 4 dstIp, payload].flatten := by
    rw [ipFrame, ipHeader, hc]
    simp only [ipFields, List.flatten_cons, List.flatten_nil, List.append_assoc, List.append_nil,
      List.cons_append, List.nil_append]
  have hat := field_at [dst, mac, [0x08, 0x00], [0x45], [0], beBytes total, beBytes id,
    [frag, 0, 64], [proto], leBytes 2 checksum, leBytes 4 src, leBytes 4 dstIp, payload] z
  rw [← hflat] at hat
  constructor
  · exact be16_bytes (hat 2 12 2 rfl rfl (by simp [hd, hm]))
  · exact readLE_byte (hat 3 14 1 rfl rfl (by simp [hd, hm]))
  · exact be16_beBytes (hat 5 16 2 rfl rfl (by simp [hd, hm])) htotal
  · exact readLE_byte (hat 8 23 1 rfl rfl (by simp [hd, hm, hb]))
  · exact (readLE_leBytes (hat 10 26 4 rfl (hl src) (by simp [hd, hm, hb, hl2]))).trans
      (Nat.mod_eq_of_lt hsrc)
  · exact (readLE_leBytes (hat 11 30 4 rfl (hl dstIp) (by simp [hd, hm, hb, hl2, hl]))).trans
      (Nat.mod_eq_of_lt hdst)
  · exact hat 12 34 _ rfl rfl (by simp [hd, hm, hb, hl2, hl])

end Header

section Receive

variable {proto : UInt8} {total src dstIp srcPort dstPort L : Nat} {payload data : List UInt8}
  {s t u : NetState}

-- The same state but for what was read and which handlers were called.
structure SameNet (s t : NetState) : Prop where
  state : ∃ reads calls, t = { s with reads := reads, calls := calls }

theorem SameNet.refl (s : NetState) : SameNet s s := ⟨_, _, rfl⟩

theorem SameNet.touched (h : SameNet s t) (off n : Nat) : SameNet s (touched t off n) := by
  obtain ⟨reads, calls, rfl⟩ := h
  exact ⟨_, _, rfl⟩

theorem SameNet.noted (h : SameNet s t) (c : Handler) (off n : Nat) :
    SameNet s (noted t c off n) := by
  obtain ⟨reads, calls, rfl⟩ := h
  exact ⟨_, _, rfl⟩

theorem SameNet.trans (h : SameNet s t) (h' : SameNet t u) : SameNet s u := by
  obtain ⟨reads, calls, rfl⟩ := h
  obtain ⟨reads', calls', rfl⟩ := h'
  exact ⟨_, _, rfl⟩

theorem SameNet.frame (h : SameNet s t) : t.frame = s.frame := by
  obtain ⟨reads, calls, rfl⟩ := h
  rfl

theorem SameNet.forUs (h : SameNet s t) (ip : Nat) : forUs t ip = forUs s ip := by
  obtain ⟨reads, calls, rfl⟩ := h
  rfl

theorem SameNet.udpHandler (h : SameNet s t) (port : Nat) :
    udpHandler t port = udpHandler s port := by
  obtain ⟨reads, calls, rfl⟩ := h
  rfl

theorem headerLen_plain : headerLen 0x45 = 20 := rfl

-- The handler that a packet of 20 header bytes gets, with where its payload starts.
def ipHandler (proto : UInt8) (total : Nat) : Rx Unit :=
  if proto.toNat = 1 then handleIcmp 14 34 (sub16 total 20)
  else if proto.toNat = 6 then do
    let srcIp ← field 4 26
    tcpReceive srcIp 34 (sub16 total 20)
  else if proto.toNat = 17 then handleUdp 14 34 (sub16 total 20)
  else pure ()

theorem handleIp_packet (hp : IpPacket s.frame proto total src dstIp payload) {len : Nat}
    (hlen : 20 ≤ len) : ∃ t, SameNet s t ∧ handleIp 14 len s =
      if forUs s dstIp then ipHandler proto total t else (some (), t) := by
  have hsize : ¬len < ipHeaderSize := Nat.not_lt.mpr hlen
  rw [handleIp, called_bind, if_neg hsize, field_bind]
  generalize ht : touched (noted s .ip 14 len) 14 1 = t
  have hst : SameNet s t := ht ▸ ((SameNet.refl s).noted .ip 14 len).touched 14 1
  have hver : readLE (noted s .ip 14 len).frame 1 14 = 0x45 := hp.version
  have hopts : ¬(headerLen 0x45 < 20 ∨ len < headerLen 0x45) := by
    rw [headerLen_plain]
    omega
  rw [hver]
  dsimp only
  rw [if_neg hopts, headerLen_plain, field_bind, get_bind]
  have hdst : readLE t.frame 4 (14 + 16) = dstIp := by
    rw [hst.frame]
    exact hp.dst
  have hst' := hst.touched (14 + 16) 4
  rw [hdst, hst'.forUs]
  by_cases hus : forUs s dstIp
  · have htotal : be16 (touched t (14 + 16) 4).frame (14 + 2) = total := by
      rw [hst'.frame]
      exact hp.total
    have hproto : readLE (touched (touched t (14 + 16) 4) (14 + 2) 2).frame 1 (14 + 9) =
        proto.toNat := by
      rw [(hst'.touched (14 + 2) 2).frame]
      exact hp.protocol
    refine ⟨_, (hst'.touched (14 + 2) 2).touched (14 + 9) 1, ?_⟩
    rw [hus, Bool.not_true, if_neg Bool.false_ne_true, if_pos rfl, netField_bind, field_bind,
      htotal, hproto]
    rfl
  · rw [Bool.not_eq_true] at hus
    refine ⟨_, hst', ?_⟩
    rw [hus, Bool.not_false, if_pos rfl, if_neg Bool.false_ne_true]
    rfl

theorem pollPacket_packet (hp : IpPacket s.frame proto total src dstIp payload) (hL : 34 ≤ L)
    (hlt : L < 65536) : ∃ t, SameNet s t ∧ pollPacket L s =
      if forUs s dstIp then ipHandler proto total t else (some (), t) := by
  have hsize : ethHeaderSize = 14 := rfl
  rw [pollPacket, if_neg (by omega), netField_bind, if_neg (by rw [hp.type]; decide),
    if_pos hp.type]
  have hlen : 20 ≤ sub16 L ethHeaderSize := by
    unfold sub16 u16
    omega
  have hp' : IpPacket (touched s 12 2).frame proto total src dstIp payload := hp
  obtain ⟨t, hst, hrun⟩ := handleIp_packet hp' hlen
  exact ⟨t, ((SameNet.refl s).touched 12 2).trans hst, hrun⟩

-- The callback gets the sender's address and ports and where the data lies.
theorem handleUdp_message (hm : readBytes s.frame (8 + data.length) 34 =
      udpMessage srcPort dstPort (8 + data.length) data) (hsrc : readLE s.frame 4 26 = src)
    (hsp : srcPort < 65536) (hdp : dstPort < 65536) (hlen : 8 + data.length < 65536) :
    ∃ t, SameNet s t ∧ handleUdp 14 34 (8 + data.length) s =
      if (udpHandler s dstPort).isSome then
        (some (), callBack ⟨src, srcPort, dstPort, 42, data.length⟩ t)
      else (some (), t) := by
  have hs : be16 s.frame 34 = srcPort :=
    be16_beBytes (readBytes_part hm (show 0 + 2 ≤ _ by omega)) hsp
  have hd : be16 s.frame (34 + 2) = dstPort :=
    be16_beBytes (readBytes_part hm (show 2 + 2 ≤ _ by omega)) hdp
  have hl : be16 s.frame (34 + 4) = 8 + data.length :=
    be16_beBytes (readBytes_part hm (show 4 + 2 ≤ _ by omega)) hlen
  have hsize : ¬8 + data.length < udpHeaderSize := Nat.not_lt.mpr (Nat.le_add_right 8 _)
  have hplen : sub16 (8 + data.length) udpHeaderSize = data.length := by
    rw [show udpHeaderSize = 8 from rfl, sub16, u16]
    omega
  rw [handleUdp, called_bind, if_neg hsize, netField_bind, netField_bind, netField_bind, get_bind]
  have hports : be16 (noted s .udp 34 (8 + data.length)).frame (34 + 2) = dstPort := hd
  have hsports : be16 (touched (noted s .udp 34 (8 + data.length)) (34 + 2) 2).frame 34 =
    srcPort := hs
  have hlength : be16 (touched (touched (noted s .udp 34 (8 + data.length)) (34 + 2) 2)
    34 2).frame (34 + 4) = 8 + data.length := hl
  rw [hports, hsports, hlength]
  generalize ht : touched (touched (touched (noted s .udp 34 _) (34 + 2) 2) 34 2) (34 + 4) 2 = t
  have hst : SameNet s t :=
    ht ▸ ((((SameNet.refl s).noted .udp 34 _).touched _ _).touched _ _).touched _ _
  rw [hplen, hst.udpHandler]
  by_cases hu : (udpHandler s dstPort).isSome
  · have hnone : ¬(udpHandler s dstPort).isNone = true := by
      rw [← Option.not_isSome, hu]
      exact Bool.false_ne_true
    have hfrom : readLE t.frame 4 (14 + 12) = src := by
      rw [hst.frame]
      exact hsrc
    refine ⟨_, (hst.touched (14 + 12) 4).touched (34 + udpHeaderSize) data.length, ?_⟩
    rw [if_neg hnone, if_pos hu, field_bind, touch_bind, hfrom]
    rfl
  · have hnone : (udpHandler s dstPort).isNone = true := by
      rw [← Option.not_isSome, Bool.not_eq_true']
      exact Bool.not_eq_true _ ▸ hu
    refine ⟨_, hst, ?_⟩
    rw [if_pos hnone, if_neg hu]
    rfl

end Receive

section Send

variable {gatewayIp dstIp srcPort dstPort : Nat} {data : List UInt8} {s : NetState}

def nextHop (gatewayIp : Nat) (s : NetState) (dstIp : Nat) : Nat :=
  if dstIp &&& s.netmask ≠ s.myIp &&& s.netmask then gatewayIp else dstIp

def hopMac (gatewayIp : Nat) (s : NetState) (dstIp : Nat) : List UInt8 :=
  (netArpLookup s (nextHop gatewayIp s dstIp)).getD (List.replicate 6 0xFF)

-- The packet of a datagram whose lengths do not wrap around.
def datagram (gatewayIp : Nat) (s : NetState) (dstIp srcPort dstPort : Nat) (data : List UInt8) :
    List UInt8 :=
  ipFrame (hopMac gatewayIp s dstIp) s.myMac
    (ipHeader 0 17 (28 + data.length) s.ipId s.myIp dstIp)
    (udpMessage srcPort dstPort (8 + data.length) data)

theorem udpMessage_length (udpLen : Nat) :
    (udpMessage srcPort dstPort udpLen data).length = 8 + data.length := by
  simp [udpMessage, beBytes]
  omega

theorem datagram_length (hd : (hopMac gatewayIp s dstIp).length = 6) (hm : s.myMac.length = 6) :
    (datagram gatewayIp s dstIp srcPort dstPort data).length = 42 + data.length := by
  simp only [datagram, ipFrame, ipHeader, List.length_append, udpMessage_length, ipFields_length,
    hd, hm, List.length_cons, List.length_nil]
  omega

-- What fits into the card's buffers is sent; what does not, up to the length from which the
-- lengths wrap around, is refused.
theorem netUdpSend_run (hd : (hopMac gatewayIp s dstIp).length = 6) (hm : s.myMac.length = 6)
    (hk : s.kmallocOk = true) (hlen : data.length < 65494) :
    netUdpSend gatewayIp dstIp srcPort dstPort data s =
      if data.length ≤ 1494 then
        (some true, { nextIpId s with
          sent := datagram gatewayIp s dstIp srcPort dstPort data :: s.sent })
      else (some false, nextIpId s) := by
  have hudp : u16 (udpHeaderSize + data.length) = 8 + data.length := by
    rw [show udpHeaderSize = 8 from rfl, u16]
    omega
  have hip : u16 (ipHeaderSize + (8 + data.length)) = 28 + data.length := by
    rw [show ipHeaderSize = 20 from rfl, u16]
    omega
  have heth : u16 (ethHeaderSize + (28 + data.length)) = 42 + data.length := by
    rw [show ethHeaderSize = 14 from rfl, u16]
    omega
  have hpkt : (datagram gatewayIp s dstIp srcPort dstPort data).length = 42 + data.length :=
    datagram_length hd hm
  unfold netUdpSend
  dsimp only
  rw [hudp, hip, heth, get_bind, hk, Bool.not_true, if_neg Bool.false_ne_true, modify_bind]
  have htake : (ipFrame (hopMac gatewayIp s dstIp) s.myMac
      (ipHeader 0 17 (28 + data.length) s.ipId s.myIp dstIp)
      (udpMessage srcPort dstPort (8 + data.length) data)).take (42 + data.length) =
        datagram gatewayIp s dstIp srcPort dstPort data := List.take_of_length_le (Nat.le_of_eq hpkt)
  change rtl8139TrySend ((ipFrame (hopMac gatewayIp s dstIp) _ _ _).take _) _ = _
  rw [htake, rtl8139TrySend, hpkt, show rtlTxBufSize = 1536 from rfl]
  by_cases hfit : data.length ≤ 1494
  · rw [if_neg (by omega), if_pos hfit]
    rfl
  · rw [if_pos (by omega), if_neg hfit]
    rfl

end Send

namespace Lan

section Datagrams

variable {ι : Type} [DecidableEq ι] {lan lan' : Lan ι} {gatewayIp : Nat} {i j k : ι}
  {srcIp dstIp srcPort dstPort : Nat} {data f : List UInt8} {s : NetState}

def datagramPacket (gatewayIp : Nat) (lan : Lan ι) (i j : ι) (srcPort dstPort : Nat)
    (data : List UInt8) : List UInt8 :=
  onWire (datagram gatewayIp (lan.host i) (lan.host j).myIp srcPort dstPort data)

omit [DecidableEq ι] in
theorem Inv.hopMac_length (h : Inv gatewayIp lan) (i : ι) (dstIp : Nat) :
    (hopMac gatewayIp (lan.host i) dstIp).length = 6 :=
  (h.six i).lookup (h.distinct i) _

omit [DecidableEq ι] in
theorem Inv.datagram_packet (h : Inv gatewayIp lan) (i j : ι) (srcPort dstPort : Nat)
    (hlen : data.length ≤ 1494) :
    IpPacket (frameOf (datagramPacket gatewayIp lan i j srcPort dstPort data)) 17
      (28 + data.length) (lan.host i).myIp (lan.host j).myIp
      (udpMessage srcPort dstPort (8 + data.length) data) :=
  ipFrame_packet _ (h.hopMac_length i _) (h.own i) (by omega) (h.ip i) (h.ip j)

theorem onWire_length (f : List UInt8) (hlen : f.length ≤ 1536) :
    60 ≤ (onWire f).length ∧ (onWire f).length ≤ Netq.netQueuePktMax := by
  rw [onWire, List.length_append, List.length_replicate, show Netq.netQueuePktMax = 1536 from rfl]
  omega

omit [DecidableEq ι] in
theorem Inv.datagramPacket_length (h : Inv gatewayIp lan) (i j : ι) (srcPort dstPort : Nat)
    (hlen : data.length ≤ 1494) :
    42 ≤ (datagramPacket gatewayIp lan i j srcPort dstPort data).length ∧
      (datagramPacket gatewayIp lan i j srcPort dstPort data).length ≤ Netq.netQueuePktMax := by
  have hl : (datagram gatewayIp (lan.host i) (lan.host j).myIp srcPort dstPort data).length =
    42 + data.length := datagram_length (h.hopMac_length i _) (h.own i)
  have hw := onWire_length (datagram gatewayIp (lan.host i) (lan.host j).myIp srcPort dstPort data)
    (by omega)
  exact ⟨Nat.le_trans (by decide) hw.1, hw.2⟩

theorem wire_later (lan : Lan ι) {fs : List (List UInt8)}
    (hfs : ∀ f ∈ fs, be16 (frameOf (onWire f)) 12 ≠ 0x0806) :
    Later lan { lan with wire := fs.map onWire ++ lan.wire } := by
  induction fs with
  | nil => exact Relation.ReflTransGen.refl
  | cons f fs ih =>
    have hrest := ih fun g hg => hfs g (List.mem_cons_of_mem f hg)
    exact Relation.ReflTransGen.tail hrest ⟨.other f, hfs f List.mem_cons_self, rfl⟩

-- A host that sends packets of other types than ARP takes steps of the network.
theorem put_later (hc : s.arpCache = (lan.host i).arpCache) (hip : s.myIp = (lan.host i).myIp)
    (hmac : s.myMac = (lan.host i).myMac)
    (hs : ∀ f ∈ s.sent, be16 (frameOf (onWire f)) 12 ≠ 0x0806) : Later lan (lan.put i s) :=
  Relation.ReflTransGen.tail (wire_later lan hs) ⟨.work i s, hc, hip, hmac, rfl⟩

theorem Inv.sent_later (h : Inv gatewayIp lan) (hk : (lan.host i).kmallocOk = true)
    (hlen : data.length ≤ 1494) {r : Option Bool × NetState}
    (hr : netUdpSend gatewayIp (lan.host j).myIp srcPort dstPort data (lan.host i) = r) :
    r.1 = some true ∧ Later lan (lan.put i r.2) ∧
      datagramPacket gatewayIp lan i j srcPort dstPort data ∈ (lan.put i r.2).wire := by
  rw [netUdpSend_run (h.hopMac_length i _) (h.own i) hk (by omega), if_pos hlen, h.sent i] at hr
  subst hr
  refine ⟨rfl, put_later rfl rfl rfl fun f hf => ?_, List.mem_append_left _ List.mem_cons_self⟩
  have htype : be16 (frameOf (datagramPacket gatewayIp lan i j srcPort dstPort data)) 12 =
    0x0800 := (h.datagram_packet i j srcPort dstPort hlen).type
  rw [List.mem_singleton.mp hf]
  exact fun he => absurd (htype.symm.trans he) (by decide)

-- A datagram has arrived at host k: its callback is called if it is for k and k listens, nothing
-- is sent, and the data lies in the packet as it was sent.
structure Arrived (lan lan' : Lan ι) (k : ι) (srcIp dstIp srcPort dstPort : Nat)
    (data : List UInt8) : Prop where
  callbacks : (lan'.host k).callbacks =
    if forUs (lan.host k) dstIp = true ∧ (udpHandler (lan.host k) dstPort).isSome then
      ⟨srcIp, srcPort, dstPort, 42, data.length⟩ :: (lan.host k).callbacks
    else (lan.host k).callbacks
  data : readBytes (lan'.host k).frame data.length 42 = data
  checksum : Checksum.ipChecksum (readBytes (lan'.host k).frame 20 14) = 0
  wire : lan'.wire = lan.wire
  others : ∀ k', k' ≠ k → lan'.host k' = lan.host k'

theorem polled_datagram (hp : IpPacket (frameOf f) 17 (28 + data.length) srcIp dstIp
      (udpMessage srcPort dstPort (8 + data.length) data)) (hL : 42 ≤ f.length)
    (hlt : f.length < 65536) (hsp : srcPort < 65536) (hdp : dstPort < 65536)
    (hlen : data.length ≤ 1494) : ∃ t, SameNet (arriving s (frameOf f)) t ∧ polled s f =
      if forUs s dstIp = true ∧ (udpHandler s dstPort).isSome then
        callBack ⟨srcIp, srcPort, dstPort, 42, data.length⟩ t
      else t := by
  have hs : IpPacket (arriving s (frameOf f)).frame 17 (28 + data.length) srcIp dstIp
      (udpMessage srcPort dstPort (8 + data.length) data) := hp
  obtain ⟨t, hst, hrun⟩ := pollPacket_packet (L := f.length) hs (by omega) hlt
  rw [polled, hrun]
  have hus : forUs (arriving s (frameOf f)) dstIp = forUs s dstIp := rfl
  rw [hus]
  by_cases hfor : forUs s dstIp
  · have hsub : sub16 (28 + data.length) 20 = 8 + data.length := by
      unfold sub16 u16
      omega
    have hmsg : readBytes t.frame (8 + data.length) 34 =
        udpMessage srcPort dstPort (8 + data.length) data := by
      have := hp.payload
      rw [udpMessage_length] at this
      rwa [hst.frame]
    have hsrc : readLE t.frame 4 26 = srcIp := by
      rw [hst.frame]
      exact hp.src
    obtain ⟨u, htu, hudp⟩ := handleUdp_message hmsg hsrc hsp hdp (by omega)
    have hhandler : udpHandler t dstPort = udpHandler s dstPort := hst.udpHandler dstPort
    have hcall : ipHandler 17 (28 + data.length) t = handleUdp 14 34 (8 + data.length) t := by
      rw [ipHandler, hsub]
      rfl
    rw [if_pos hfor, hcall, hudp, hhandler]
    refine ⟨u, hst.trans htu, ?_⟩
    by_cases hu : (udpHandler s dstPort).isSome
    · rw [if_pos hu, if_pos ⟨hfor, hu⟩]
    · rw [if_neg hu, if_neg fun h => hu h.2]
  · have hnot : ¬(forUs s dstIp = true ∧ (udpHandler s dstPort).isSome = true) :=
      fun h => hfor h.1
    refine ⟨t, hst, ?_⟩
    rw [if_neg hfor, if_neg hnot]

-- The header bytes of a packet are its header.
theorem header_read (z : List UInt8) {dst mac header payload : List UInt8} (hd : dst.length = 6)
    (hm : mac.length = 6) (hh : header.length = 20) :
    readBytes (frameOf (ipFrame dst mac header payload ++ z)) 20 14 = header := by
  rw [ipFrame, List.append_assoc]
  exact frameOf_slice (by simp [hd, hm]) hh

theorem message_data {m : Nat → UInt8} (hm : readBytes m (8 + data.length) 34 =
    udpMessage srcPort dstPort (8 + data.length) data) : readBytes m data.length 42 = data := by
  have hpart := readBytes_part (j := data.length) hm (show 8 + data.length ≤ _ from le_rfl)
  have hdrop : (udpMessage srcPort dstPort (8 + data.length) data).drop 8 = data := rfl
  rw [hdrop, List.take_length] at hpart
  exact hpart

theorem Inv.arrived (h : Inv gatewayIp lan) (hsent : (lan'.host k).sent = []) (i j : ι)
    (hsp : srcPort < 65536) (hdp : dstPort < 65536) (hlen : data.length ≤ 1494) :
    Arrived lan' (lan'.put k (polled (lan'.host k)
      (datagramPacket gatewayIp lan i j srcPort dstPort data))) k (lan.host i).myIp
        (lan.host j).myIp srcPort dstPort data := by
  have hp := h.datagram_packet i j srcPort dstPort hlen
  obtain ⟨hl, hl'⟩ := h.datagramPacket_length i j srcPort dstPort hlen
  have hmax : Netq.netQueuePktMax = 1536 := rfl
  obtain ⟨t, hst, hpolled⟩ := polled_datagram (s := lan'.host k) hp hl (by omega) hsp hdp hlen
  have hmsg := hp.payload
  rw [udpMessage_length] at hmsg
  have hhead : readBytes (frameOf (datagramPacket gatewayIp lan i j srcPort dstPort data)) 20 14 =
      ipHeader 0 17 (28 + data.length) (lan.host i).ipId (lan.host i).myIp (lan.host j).myIp :=
    header_read _ (h.hopMac_length i _) (h.own i) (ipFields_length _)
  generalize datagramPacket gatewayIp lan i j srcPort dstPort data = f at *
  obtain ⟨reads, calls, ht⟩ := hst.state
  have hframe : (polled (lan'.host k) f).frame = frameOf f := by
    rw [hpolled]
    split
    · rw [ht]
      rfl
    · rw [ht]
      rfl
  have hnone : (polled (lan'.host k) f).sent = [] := by
    rw [hpolled, ← hsent]
    split
    · rw [ht]
      rfl
    · rw [ht]
      rfl
  refine ⟨?_, ?_, ?_, ?_, fun k' hk' => put_of_ne hk'⟩
  · rw [put_self]
    change (polled (lan'.host k) f).callbacks = _
    rw [hpolled]
    split
    · rw [ht]
      rfl
    · rw [ht]
      rfl
  · rw [put_self]
    change readBytes (polled (lan'.host k) f).frame _ _ = _
    rw [hframe]
    exact message_data hmsg
  · rw [put_self]
    change Checksum.ipChecksum (readBytes (polled (lan'.host k) f).frame _ _) = _
    rw [hframe, hhead]
    exact ipHeader_verifies
  · change (polled (lan'.host k) f).sent.map onWire ++ lan'.wire = lan'.wire
    rw [hnone]
    rfl

def sentHi : Option Bool × NetState :=
  netUdpSend 0x0202000A (twoHosts.host false).myIp 12345 7 [104, 105] (twoHosts.host true)

end Datagrams

end Lan

end Net
