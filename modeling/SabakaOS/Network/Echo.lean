import SabakaOS.Network.IpPackets

namespace Net

open Word ByteMemory Prog SlotTable

def icmpFields (type : UInt8) (rest : List UInt8) (checksum : Nat) : List UInt8 :=
  [type, 0] ++ leBytes 2 checksum ++ rest

def icmpMessage (type : UInt8) (rest : List UInt8) : List UInt8 :=
  icmpFields type rest (ipChecksum (icmpFields type rest 0))

def pingRest (seq : Nat) : List UInt8 :=
  [0x5A, 0xB4] ++ beBytes seq ++ (List.range 32).map UInt8.ofNat

-- One turn of the loop of cmd_ping; its sums take in whole words only, as all lengths are even.
def pingTurn (dstIp seq : Nat) (dstMac : List UInt8) : Rx Unit := do
  let s ← get
  rtl8139Send (ipFrame dstMac s.myMac (ipHeader 0 1 60 (u16 (200 + seq)) s.myIp dstIp)
    (icmpMessage 8 (pingRest seq)))

def pingFrom (dstIp : Nat) (dstMac : List UInt8) : List Nat → Rx Unit
  | [] => pure ()
  | seq :: rest => do
    pingTurn dstIp seq dstMac
    pingFrom dstIp dstMac rest

def cmdPing (dstIp : Nat) : Rx Unit := do
  let s ← get
  if !s.kmallocOk then pure ()
  else pingFrom dstIp ((netArpLookup s dstIp).getD (List.replicate 6 0xFF)) [0, 1, 2, 3]

section Echo

variable {type : UInt8} {total src dstIp : Nat} {rest f : List UInt8} {s t : NetState}

theorem icmpMessage_length : (icmpMessage type rest).length = 4 + rest.length := by
  simp [icmpMessage, icmpFields, leBytes_length]
  omega

theorem icmpMessage_verifies (h : rest.length ≤ 65000) :
    Checksum.ipChecksum (icmpMessage type rest) = 0 := by
  have hlen : (icmpFields type rest 0).length = 4 + rest.length := by
    simp [icmpFields, leBytes_length]
    omega
  have hstored : ∀ c, icmpFields type rest c = Checksum.stored (icmpFields type rest 0) 2 c :=
    fun _ => rfl
  have hle := Checksum.wordSum_le (icmpFields type rest 0)
  rw [icmpMessage, hstored (ipChecksum _), Checksum.ipChecksum_frame _ (by omega)]
  exact @Checksum.verifies (icmpFields type rest 0) 2 [] rfl (by decide) (by omega) rfl
    (by rw [show wordSum [] = 0 from rfl]; omega)

-- The answer of a host to an echo request with these bytes behind its checksum.
def echoFrame (s : NetState) (srcIp : Nat) (rest : List UInt8) : List UInt8 :=
  ipFrame ((netArpLookup s srcIp).getD (List.replicate 6 0xFF)) s.myMac
    (ipHeader 0 1 (24 + rest.length) s.ipId s.myIp srcIp) (icmpMessage 0 rest)

theorem echoFrame_length {srcIp : Nat}
    (hd : ((netArpLookup s srcIp).getD (List.replicate 6 0xFF)).length = 6)
    (hm : s.myMac.length = 6) : (echoFrame s srcIp rest).length = 38 + rest.length := by
  simp only [echoFrame, ipFrame, ipHeader, List.length_append, icmpMessage_length, ipFields_length,
    hd, hm, List.length_cons, List.length_nil]
  omega

-- What is not a request is dropped.
theorem handleIcmp_other (hm : readBytes s.frame (4 + rest.length) 34 = icmpMessage type rest)
    (htype : type ≠ 8) (hrest : 4 ≤ rest.length) :
    ∃ t, SameNet s t ∧ handleIcmp 14 34 (4 + rest.length) s = (some (), t) := by
  have hsize : ¬4 + rest.length < icmpHeaderSize := by
    rw [show icmpHeaderSize = 8 from rfl]
    omega
  have hbyte : readLE s.frame 1 34 = type.toNat :=
    readLE_byte (readBytes_part (j := 1) hm (show 0 + 1 ≤ _ by omega))
  have hne : type.toNat ≠ 8 := fun h => htype (UInt8.toNat_inj.mp h)
  rw [handleIcmp, called_bind, if_neg hsize, field_bind]
  have hread : readLE (noted s .icmp 34 (4 + rest.length)).frame 1 34 = type.toNat := hbyte
  rw [hread, if_pos hne]
  exact ⟨_, ((SameNet.refl s).noted .icmp 34 _).touched 34 1, rfl⟩

theorem handleIcmp_request (hm : readBytes s.frame (4 + rest.length) 34 = icmpMessage 8 rest)
    (hsrc : readLE s.frame 4 26 = src) (hk : s.kmallocOk = true) (hrest : 4 ≤ rest.length)
    (hlen : rest.length ≤ 1498)
    (hd : ((netArpLookup s src).getD (List.replicate 6 0xFF)).length = 6)
    (hmac : s.myMac.length = 6) :
    ∃ t, SameNet s t ∧ handleIcmp 14 34 (4 + rest.length) s =
      (some (), { nextIpId t with sent := echoFrame s src rest :: t.sent }) := by
  have hsize : ¬4 + rest.length < icmpHeaderSize := by
    rw [show icmpHeaderSize = 8 from rfl]
    omega
  have hbyte : readLE s.frame 1 34 = 8 :=
    readLE_byte (readBytes_part (j := 1) hm (show 0 + 1 ≤ _ by omega))
  have hid : readBytes s.frame 4 (34 + 4) = rest.take 4 :=
    readBytes_part hm (show 4 + 4 ≤ _ by omega)
  have hplen : sub16 (4 + rest.length) icmpHeaderSize = rest.length - 4 := by
    rw [show icmpHeaderSize = 8 from rfl, sub16, u16]
    omega
  have hload : readBytes s.frame (rest.length - 4) (34 + 8) = rest.drop 4 := by
    rw [readBytes_part hm (show 8 + (rest.length - 4) ≤ _ by omega)]
    exact List.take_of_length_le (by rw [List.length_drop, icmpMessage_length]; omega)
  have htotal : u16 (ipHeaderSize + (4 + rest.length)) = 24 + rest.length := by
    rw [show ipHeaderSize = 20 from rfl, u16]
    omega
  have hpkt : u16 (ethHeaderSize + (24 + rest.length)) = 38 + rest.length := by
    rw [show ethHeaderSize = 14 from rfl, u16]
    omega
  rw [handleIcmp, called_bind, if_neg hsize, field_bind]
  have hread : readLE (noted s .icmp 34 (4 + rest.length)).frame 1 34 = 8 := hbyte
  generalize ht : touched (noted s .icmp 34 (4 + rest.length)) 34 1 = t
  have hst : SameNet s t := ht ▸ ((SameNet.refl s).noted .icmp 34 _).touched 34 1
  rw [hread, if_neg (not_not.mpr rfl), htotal]
  dsimp only
  rw [hpkt, get_bind]
  have hk' : t.kmallocOk = true := by
    rw [← ht]
    exact hk
  have hfrom : readLE t.frame 4 (14 + 12) = src := by
    rw [hst.frame]
    exact hsrc
  have hst₁ := hst.touched (14 + 12) 4
  have hids : readBytes (touched t (14 + 12) 4).frame 4 (34 + 4) = rest.take 4 := by
    rw [hst₁.frame, hid]
  have hst₂ := hst₁.touched (34 + 4) 4
  have hloads : readBytes (touched (touched t (14 + 12) 4) (34 + 4) 4).frame
      (sub16 (4 + rest.length) icmpHeaderSize) (34 + icmpHeaderSize) = rest.drop 4 := by
    rw [hst₂.frame, hplen]
    exact hload
  rw [hk', Bool.not_true, if_neg Bool.false_ne_true, field_bind, block_bind, block_bind,
    modify_bind, hfrom, hids, hloads, List.take_append_drop]
  have hframe : (netArpLookup t src).getD (List.replicate 6 0xFF) ++ t.myMac ++ [0x08, 0x00] ++
      echoIp t src (24 + rest.length) ++ echoIcmp rest = echoFrame s src rest := by
    rw [← ht]
    rfl
  rw [hframe, List.take_of_length_le (Nat.le_of_eq (echoFrame_length hd hmac))]
  exact ⟨_, hst₂.touched _ _, rfl⟩

theorem icmpHandler (t : NetState) (hlen : rest.length ≤ 1498) :
    ipHandler 1 (24 + rest.length) t = handleIcmp 14 34 (4 + rest.length) t := by
  have hsub : sub16 (24 + rest.length) 20 = 4 + rest.length := by
    unfold sub16 u16
    omega
  have hone : (1 : UInt8).toNat = 1 := rfl
  rw [ipHandler, if_pos hone, hsub]

variable (hp : IpPacket s.frame 1 (24 + rest.length) src dstIp (icmpMessage type rest))
include hp

theorem IpPacket.icmp (hst : SameNet s t) :
    readBytes t.frame (4 + rest.length) 34 = icmpMessage type rest := by
  have := hp.payload
  rwa [icmpMessage_length, ← hst.frame] at this

theorem pollPacket_reply {L : Nat} (hL : 42 ≤ L) (hlt : L < 65536) (htype : type ≠ 8)
    (hrest : 4 ≤ rest.length) (hlen : rest.length ≤ 1498) :
    ∃ t, SameNet s t ∧ pollPacket L s = (some (), t) := by
  obtain ⟨t, hst, hrun⟩ := pollPacket_packet hp (by omega) hlt
  rw [hrun]
  by_cases hus : forUs s dstIp
  · obtain ⟨u, htu, hicmp⟩ := handleIcmp_other (hp.icmp hst) htype hrest
    rw [if_pos hus, icmpHandler t hlen, hicmp]
    exact ⟨u, hst.trans htu, rfl⟩
  · rw [if_neg hus]
    exact ⟨t, hst, rfl⟩

theorem pollPacket_request {L : Nat} (hL : 42 ≤ L) (hlt : L < 65536) (htype : type = 8)
    (hus : forUs s dstIp = true) (hk : s.kmallocOk = true) (hrest : 4 ≤ rest.length)
    (hlen : rest.length ≤ 1498)
    (hd : ((netArpLookup s src).getD (List.replicate 6 0xFF)).length = 6)
    (hmac : s.myMac.length = 6) : ∃ t, SameNet s t ∧ pollPacket L s =
      (some (), { nextIpId t with sent := echoFrame s src rest :: t.sent }) := by
  subst htype
  obtain ⟨t, hst, hrun⟩ := pollPacket_packet hp (by omega) hlt
  have hsrc : readLE t.frame 4 26 = src := by
    rw [hst.frame]
    exact hp.src
  have hmsg := hp.icmp hst
  obtain ⟨reads, calls, rfl⟩ := hst.state
  obtain ⟨u, htu, hicmp⟩ := handleIcmp_request hmsg hsrc hk hrest hlen hd hmac
  rw [hrun, if_pos hus, icmpHandler _ hlen, hicmp]
  exact ⟨u, hst.trans htu, rfl⟩

end Echo

namespace Lan

section Pings

variable {ι : Type} [DecidableEq ι] {lan lan' : Lan ι} {gatewayIp : Nat} {i j k : ι}
  {seq : Nat} {rest : List UInt8}

def pingFrame (s : NetState) (dstIp seq : Nat) : List UInt8 :=
  ipFrame ((netArpLookup s dstIp).getD (List.replicate 6 0xFF)) s.myMac
    (ipHeader 0 1 60 (u16 (200 + seq)) s.myIp dstIp) (icmpMessage 8 (pingRest seq))

def pingPacket (lan : Lan ι) (i j : ι) (seq : Nat) : List UInt8 :=
  onWire (pingFrame (lan.host i) (lan.host j).myIp seq)

def echoPacket (lan : Lan ι) (i j : ι) (rest : List UInt8) : List UInt8 :=
  onWire (echoFrame (lan.host j) (lan.host i).myIp rest)

theorem cmdPing_run {s : NetState} (hk : s.kmallocOk = true) (dstIp : Nat) :
    cmdPing dstIp s = (some (), { s with
      sent := pingFrame s dstIp 3 :: pingFrame s dstIp 2 :: pingFrame s dstIp 1 ::
        pingFrame s dstIp 0 :: s.sent }) := by
  have hrun : cmdPing dstIp s =
      pingFrom dstIp ((netArpLookup s dstIp).getD (List.replicate 6 0xFF)) [0, 1, 2, 3] s := by
    rw [cmdPing, get_bind, hk, Bool.not_true, if_neg Bool.false_ne_true]
  exact hrun.trans rfl

omit [DecidableEq ι] in
theorem Inv.lookup_length (h : Inv gatewayIp lan) (i : ι) (ip : Nat) :
    ((netArpLookup (lan.host i) ip).getD (List.replicate 6 0xFF)).length = 6 :=
  (h.six i).lookup (h.distinct i) ip

theorem pingRest_length (seq : Nat) : (pingRest seq).length = 36 := rfl

theorem pingRest_bounds (seq : Nat) :
    4 ≤ (pingRest seq).length ∧ (pingRest seq).length ≤ 1498 := by
  rw [pingRest_length]
  decide

omit [DecidableEq ι] in
theorem Inv.ping_packet (h : Inv gatewayIp lan) (i j : ι) (seq : Nat) :
    IpPacket (frameOf (pingPacket lan i j seq)) 1 (24 + (pingRest seq).length)
      (lan.host i).myIp (lan.host j).myIp (icmpMessage 8 (pingRest seq)) :=
  ipFrame_packet _ (h.lookup_length i _) (h.own i) (by decide) (h.ip i) (h.ip j)

omit [DecidableEq ι] in
theorem Inv.echo_packet (h : Inv gatewayIp lan) (i j : ι) (hlen : rest.length ≤ 1498) :
    IpPacket (frameOf (echoPacket lan i j rest)) 1 (24 + rest.length) (lan.host j).myIp
      (lan.host i).myIp (icmpMessage 0 rest) :=
  ipFrame_packet _ (h.lookup_length j _) (h.own j) (by omega) (h.ip j) (h.ip i)

omit [DecidableEq ι] in
theorem Inv.ping_length (h : Inv gatewayIp lan) (i j : ι) (seq : Nat) :
    60 ≤ (pingPacket lan i j seq).length ∧
      (pingPacket lan i j seq).length ≤ Netq.netQueuePktMax := by
  refine onWire_length _ ?_
  simp only [pingFrame, ipFrame, ipHeader, List.length_append, icmpMessage_length, ipFields_length,
    h.lookup_length i, h.own i, List.length_cons, List.length_nil, pingRest_length]
  decide

omit [DecidableEq ι] in
theorem Inv.echo_length (h : Inv gatewayIp lan) (i j : ι) (hlen : rest.length ≤ 1498) :
    60 ≤ (echoPacket lan i j rest).length ∧
      (echoPacket lan i j rest).length ≤ Netq.netQueuePktMax := by
  refine onWire_length _ ?_
  rw [echoFrame_length (h.lookup_length j _) (h.own j)]
  omega

-- The four requests of a ping are on the wire.
theorem Inv.ping_later (h : Inv gatewayIp lan) (i j : ι) (hk : (lan.host i).kmallocOk = true) :
    Later lan (lan.put i (cmdPing (lan.host j).myIp (lan.host i)).2) ∧ ∀ seq < 4,
      pingPacket lan i j seq ∈ (lan.put i (cmdPing (lan.host j).myIp (lan.host i)).2).wire := by
  rw [cmdPing_run hk, h.sent i]
  have htype : ∀ seq, be16 (frameOf (onWire (pingFrame (lan.host i) (lan.host j).myIp seq))) 12 ≠
      0x0806 := fun seq he => by
    have := (h.ping_packet i j seq).type.symm.trans he
    cases this
  refine ⟨put_later rfl rfl rfl fun f hf => ?_, fun seq hseq => List.mem_append_left _ ?_⟩
  · simp only [List.mem_cons, List.not_mem_nil, or_false] at hf
    rcases hf with rfl | rfl | rfl | rfl
    · exact htype 3
    · exact htype 2
    · exact htype 1
    · exact htype 0
  · refine List.mem_map_of_mem ?_
    have : seq = 0 ∨ seq = 1 ∨ seq = 2 ∨ seq = 3 := by omega
    rcases this with rfl | rfl | rfl | rfl <;> simp

-- A packet that leaves the host as it was and is not answered.
structure Ignored (lan lan' : Lan ι) (k : ι) (f : List UInt8) : Prop where
  host : SameNet (arriving (lan.host k) (frameOf f)) (lan'.host k)
  wire : lan'.wire = lan.wire
  others : ∀ k', k' ≠ k → lan'.host k' = lan.host k'

-- The reply to an echo request with these bytes behind its checksum.
structure EchoReply (f : List UInt8) (srcIp dstIp : Nat) (rest : List UInt8) : Prop where
  packet : IpPacket (frameOf f) 1 (24 + rest.length) srcIp dstIp (icmpMessage 0 rest)
  header : Checksum.ipChecksum (readBytes (frameOf f) 20 14) = 0
  message : Checksum.ipChecksum (readBytes (frameOf f) (4 + rest.length) 34) = 0

omit [DecidableEq ι] in
theorem Inv.echo_reply (h : Inv gatewayIp lan) (i j : ι) (hlen : rest.length ≤ 1498) :
    EchoReply (echoPacket lan i j rest) (lan.host j).myIp (lan.host i).myIp rest := by
  have hp := h.echo_packet i j hlen
  have hmsg := hp.icmp (SameNet.refl { lan.host j with frame := frameOf (echoPacket lan i j rest) })
  have hhead : readBytes (frameOf (echoPacket lan i j rest)) 20 14 =
      ipHeader 0 1 (24 + rest.length) (lan.host j).ipId (lan.host j).myIp (lan.host i).myIp :=
    header_read _ (h.lookup_length j _) (h.own j) (ipFields_length _)
  refine ⟨hp, ?_, ?_⟩
  · rw [hhead]
    exact ipHeader_verifies
  · change readBytes (frameOf (echoPacket lan i j rest)) (4 + rest.length) 34 = _ at hmsg
    rw [hmsg]
    exact icmpMessage_verifies (by omega)

-- Delivered to j, a request of i puts exactly the reply on the wire.
theorem Inv.ping_echoed (h : Inv gatewayIp lan) (hkept : Kept lan lan') (h' : Inv gatewayIp lan')
    (hk : (lan'.host j).kmallocOk = true) :
    (lan'.put j (polled (lan'.host j) (pingPacket lan i j seq))).wire =
      echoPacket lan' i j (pingRest seq) :: lan'.wire := by
  obtain ⟨hl, hl'⟩ := h.ping_length i j seq
  have hmax : Netq.netQueuePktMax = 1536 := rfl
  have hp : IpPacket (arriving (lan'.host j) (frameOf (pingPacket lan i j seq))).frame 1
      (24 + (pingRest seq).length) (lan.host i).myIp (lan.host j).myIp
      (icmpMessage 8 (pingRest seq)) := h.ping_packet i j seq
  have hus : forUs (arriving (lan'.host j) (frameOf (pingPacket lan i j seq)))
      (lan.host j).myIp = true := by
    have hip : (arriving (lan'.host j) (frameOf (pingPacket lan i j seq))).myIp =
      (lan.host j).myIp := hkept.ip j
    rw [forUs, hip, beq_self_eq_true, Bool.true_or, Bool.true_or]
  obtain ⟨hrest, hlen⟩ := pingRest_bounds seq
  obtain ⟨t, hst, hrun⟩ := pollPacket_request (L := (pingPacket lan i j seq).length) hp (by omega)
    (by omega) rfl hus hk hrest hlen (h'.lookup_length j _) (h'.own j)
  have hsent : t.sent = [] := by
    obtain ⟨reads, calls, rfl⟩ := hst.state
    exact h'.sent j
  change (polled (lan'.host j) (pingPacket lan i j seq)).sent.map onWire ++ lan'.wire = _
  rw [polled, hrun, hsent, echoPacket, hkept.ip i]
  rfl

theorem SameNet.unsent {s t : NetState} (h : SameNet s t) (hs : s.sent = []) :
    SameNet s { t with sent := [] } := by
  obtain ⟨reads, calls, rfl⟩ := h.state
  exact ⟨reads, calls,
    congrArg (fun l => { s with reads := reads, calls := calls, sent := l }) hs.symm⟩

-- A reply is never answered, whoever gets it.
theorem Inv.echo_ignored (h : Inv gatewayIp lan) (h' : Inv gatewayIp lan') (i j k : ι)
    (hrest : 4 ≤ rest.length) (hlen : rest.length ≤ 1498) :
    Ignored lan' (lan'.put k (polled (lan'.host k) (echoPacket lan i j rest))) k
      (echoPacket lan i j rest) := by
  obtain ⟨hl, hl'⟩ := h.echo_length i j hlen
  have hmax : Netq.netQueuePktMax = 1536 := rfl
  have hp : IpPacket (arriving (lan'.host k) (frameOf (echoPacket lan i j rest))).frame 1
      (24 + rest.length) (lan.host j).myIp (lan.host i).myIp (icmpMessage 0 rest) :=
    h.echo_packet i j hlen
  obtain ⟨t, hst, hrun⟩ := pollPacket_reply (L := (echoPacket lan i j rest).length) hp (by omega)
    (by omega) (by decide) hrest hlen
  have hpolled : polled (lan'.host k) (echoPacket lan i j rest) = t := by rw [polled, hrun]
  have hsent : t.sent = [] := by
    obtain ⟨reads, calls, rfl⟩ := hst.state
    exact h'.sent k
  refine ⟨?_, ?_, fun k' hk' => put_of_ne hk'⟩
  · rw [put_self, hpolled]
    exact SameNet.unsent hst (h'.sent k)
  · change (polled (lan'.host k) (echoPacket lan i j rest)).sent.map onWire ++ lan'.wire = _
    rw [hpolled, hsent]
    rfl

def pinging : Lan Bool :=
  twoHosts.put true (cmdPing (twoHosts.host false).myIp (twoHosts.host true)).2

end Pings

end Lan

end Net
