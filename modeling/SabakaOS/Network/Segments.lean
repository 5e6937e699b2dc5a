import SabakaOS.Network.IpPackets
import SabakaOS.Network.TcpSender

namespace Segments

open Word ByteMemory
open Net (leBytes beBytes)
open Tcp

def beBytes4 (v : Nat) : List UInt8 := beBytes (v / 65536) ++ beBytes v

def tcpFields (seg : Segment) (checksum : Nat) : List UInt8 :=
  beBytes seg.srcPort ++ beBytes seg.dstPort ++ beBytes4 seg.seq ++ beBytes4 seg.ackSeq ++
    [0x50, seg.flags] ++ beBytes seg.window ++ leBytes 2 checksum ++ [0, 0] ++ seg.payload

-- The segment as tcp_send_raw writes it into its packet.
def tcpBytes (seg : Segment) : List UInt8 :=
  tcpFields seg (Checksum.tcpCksum seg.srcIp seg.dstIp (tcpFields seg 0))

def segmentFrame (dstMac mac : List UInt8) (id : Nat) (seg : Segment) : List UInt8 :=
  Net.ipFrame dstMac mac (Net.ipHeader 0x40 6 (40 + seg.payload.length) id seg.srcIp seg.dstIp)
    (tcpBytes seg)

-- The fields have the widths of the header, and the payload is at most one TCP_MSS.
structure Sized (seg : Segment) : Prop where
  srcIp : seg.srcIp < 2 ^ 32
  dstIp : seg.dstIp < 2 ^ 32
  srcPort : seg.srcPort < 65536
  dstPort : seg.dstPort < 65536
  seq : seg.seq < 2 ^ 32
  ackSeq : seg.ackSeq < 2 ^ 32
  payload : seg.payload.length ≤ tcpMss

-- What tcp_receive reads in the bytes of a segment.
structure Parses (bytes : List UInt8) (seg : Segment) : Prop where
  wellFormed : wellFormed bytes = true
  srcPort : ntohs bytes 0 = seg.srcPort
  dstPort : ntohs bytes 2 = seg.dstPort
  seq : segSeq bytes = seg.seq
  ackSeq : segAck bytes = seg.ackSeq
  flags : segFlags bytes = seg.flags
  payload : segPayload bytes = seg.payload

section Wire

variable {seg : Segment}

theorem tcpFields_length (checksum : Nat) :
    (tcpFields seg checksum).length = 20 + seg.payload.length := by
  simp [tcpFields, beBytes4, beBytes, Net.leBytes_length]
  omega

theorem digits {v : Nat} (h : v < 65536) :
    (UInt8.ofNat (v / 256)).toNat * 256 + (UInt8.ofNat v).toNat = v := by
  rw [UInt8.toNat_ofNat', UInt8.toNat_ofNat']
  omega

theorem digits4 {v : Nat} (h : v < 2 ^ 32) :
    ((UInt8.ofNat (v / 65536 / 256)).toNat * 256 + (UInt8.ofNat (v / 65536)).toNat) * 65536 +
      ((UInt8.ofNat (v / 256)).toNat * 256 + (UInt8.ofNat v).toNat) = v := by
  simp only [UInt8.toNat_ofNat']
  omega

theorem hdrBytes_tcpBytes : hdrBytes (tcpBytes seg) = 20 := by
  have hbyte : byteAt (tcpBytes seg) 12 = 0x50 := rfl
  rw [hdrBytes, hbyte]
  rfl

theorem tcpBytes_parses (h : Sized seg) : Parses (tcpBytes seg) seg where
  wellFormed := by
    have hlen : (tcpBytes seg).length = 20 + seg.payload.length := tcpFields_length _
    rw [wellFormed, hlen, hdrBytes_tcpBytes]
    simp
  srcPort := digits h.srcPort
  dstPort := digits h.dstPort
  seq := digits4 h.seq
  ackSeq := digits4 h.ackSeq
  flags := rfl
  payload := by
    rw [segPayload, hdrBytes_tcpBytes]
    rfl

theorem tcpBytes_verifies (h : Sized seg) :
    Checksum.tcpCksum seg.srcIp seg.dstIp (tcpBytes seg) = 0 := by
  have hlen : (tcpFields seg 0).length = 20 + seg.payload.length := tcpFields_length 0
  have hle := Checksum.wordSum_le (tcpFields seg 0)
  have hstored : ∀ c, tcpFields seg c = Checksum.stored (tcpFields seg 0) 16 c := fun _ => rfl
  have hmss := Nat.le_trans h.payload (show tcpMss ≤ 1460 from le_rfl)
  have hpre := Checksum.pseudoBuf_length seg.srcIp seg.dstIp (tcpFields seg 0).length
  have hple := Checksum.wordSum_le
    (Checksum.pseudoBuf seg.srcIp seg.dstIp (tcpFields seg 0).length)
  have hin : 16 + 2 ≤ (tcpFields seg 0).length := by omega
  have hzeroed := @Checksum.verifies (tcpFields seg 0) 16
    (Checksum.pseudoBuf seg.srcIp seg.dstIp (tcpFields seg 0).length) (by omega) (by decide) hin
    rfl (by omega)
  rw [tcpBytes, hstored (Checksum.tcpCksum _ _ _)]
  unfold Checksum.tcpCksum
  rw [Checksum.stored_length hin]
  exact hzeroed

end Wire

-- What net_poll has done with the packet of a segment: the stack has received the segment if it
-- is for this host, and nothing else has changed.
structure Handed (s s' : Net.NetState) (f : List UInt8) (seg : Segment) : Prop where
  tcp : s'.tcp = if Net.forUs s seg.dstIp then tcpReceive s.tcp seg.srcIp (tcpBytes seg) else s.tcp
  others : ∃ reads calls, s' = { s with
    frame := Net.frameOf f, tcp := s'.tcp, reads := reads, calls := calls }
  parses : Parses (tcpBytes seg) seg
  header : Checksum.ipChecksum (readBytes (Net.frameOf f) 20 14) = 0
  segment : Checksum.tcpCksum seg.srcIp seg.dstIp
    (readBytes (Net.frameOf f) (20 + seg.payload.length) 34) = 0

section Arrival

variable {seg : Segment} {dstMac mac f : List UInt8} {id : Nat} {s t : Net.NetState}

-- The calls of tcp_receive beside the stack only record what is read.
theorem tcpReceive_run (srcIp data len : Nat) : ∃ u, Net.SameNet (Net.toTcp srcIp
      (readBytes s.frame len data) s) u ∧ (Net.tcpReceive srcIp data len s).2 = u := by
  rw [Net.tcpReceive, Net.called_bind, Prog.get_bind, Net.modify_bind]
  generalize hu : Net.toTcp srcIp _ (Net.noted s .tcp data len) = u
  have hsame : Net.SameNet (Net.toTcp srcIp (readBytes s.frame len data) s) u :=
    hu ▸ ⟨_, _, rfl⟩
  split
  · exact ⟨u, hsame, rfl⟩
  · rw [Net.touch_bind]
    split
    · exact ⟨_, (hsame.touched _ _).touched _ _, rfl⟩
    · exact ⟨_, hsame.touched _ _, rfl⟩

theorem segment_arrives (h : Sized seg) (hd : dstMac.length = 6) (hm : mac.length = 6)
    (hf : f = Net.onWire (segmentFrame dstMac mac id seg)) :
    f.length ≤ Netq.netQueuePktMax ∧ Handed s (Net.Lan.polled s f) f seg := by
  have hload := Nat.le_trans h.payload (show tcpMss ≤ 1460 from le_rfl)
  have hlen : (tcpBytes seg).length = 20 + seg.payload.length := tcpFields_length _
  have hframe : (segmentFrame dstMac mac id seg).length = 54 + seg.payload.length := by
    simp only [segmentFrame, Net.ipFrame, Net.ipHeader, List.length_append, Net.ipFields_length,
      hlen, hd, hm, List.length_cons, List.length_nil]
    omega
  have hmax : Netq.netQueuePktMax = 1536 := rfl
  have hwire := Net.Lan.onWire_length (segmentFrame dstMac mac id seg) (by omega)
  rw [← hf] at hwire
  have hp : Net.IpPacket (Net.arriving s (Net.frameOf f)).frame 6 (40 + seg.payload.length)
      seg.srcIp seg.dstIp (tcpBytes seg) :=
    hf ▸ Net.ipFrame_packet _ hd hm (by omega) h.srcIp h.dstIp
  have hhead : readBytes (Net.frameOf f) 20 14 =
      Net.ipHeader 0x40 6 (40 + seg.payload.length) id seg.srcIp seg.dstIp :=
    hf ▸ Net.Lan.header_read _ hd hm (Net.ipFields_length _)
  have hbytes : readBytes (Net.frameOf f) (20 + seg.payload.length) 34 = tcpBytes seg := by
    have := hp.payload
    rwa [hlen] at this
  obtain ⟨t, hst, hrun⟩ := Net.pollPacket_packet (L := f.length) hp (by omega) (by omega)
  have hus : Net.forUs (Net.arriving s (Net.frameOf f)) seg.dstIp = Net.forUs s seg.dstIp := rfl
  have hstate : ∃ reads calls, Net.Lan.polled s f = { s with
      frame := Net.frameOf f
      tcp := if Net.forUs s seg.dstIp then tcpReceive s.tcp seg.srcIp (tcpBytes seg) else s.tcp
      reads := reads
      calls := calls } := by
    rw [Net.Lan.polled, hrun, hus]
    by_cases hfor : Net.forUs s seg.dstIp
    · have hsub : Net.sub16 (40 + seg.payload.length) 20 = 20 + seg.payload.length := by
        unfold Net.sub16 u16
        omega
      have hsrc : readLE t.frame 4 26 = seg.srcIp := by
        rw [hst.frame]
        exact hp.src
      have hseg : readBytes t.frame (20 + seg.payload.length) 34 = tcpBytes seg := by
        rw [hst.frame]
        exact hbytes
      have hcall : Net.ipHandler 6 (40 + seg.payload.length) t =
          Net.tcpReceive seg.srcIp 34 (20 + seg.payload.length) (Net.touched t 26 4) := by
        have hsix : (6 : UInt8).toNat = 6 := rfl
        rw [Net.ipHandler, hsix, if_neg (by decide), if_pos rfl, Net.field_bind, hsrc, hsub]
      rw [if_pos hfor, if_pos hfor, hcall]
      obtain ⟨u, hu, hrun'⟩ :=
        tcpReceive_run (s := Net.touched t 26 4) seg.srcIp 34 (20 + seg.payload.length)
      rw [hrun']
      have hread : readBytes (Net.touched t 26 4).frame (20 + seg.payload.length) 34 =
        tcpBytes seg := hseg
      rw [hread] at hu
      obtain ⟨reads, calls, rfl⟩ := hu.state
      obtain ⟨reads', calls', rfl⟩ := hst.state
      exact ⟨reads, calls, rfl⟩
    · rw [if_neg hfor, if_neg hfor]
      obtain ⟨reads, calls, rfl⟩ := hst.state
      exact ⟨reads, calls, rfl⟩
  obtain ⟨reads, calls, hstate⟩ := hstate
  refine ⟨hwire.2, ?_, ⟨reads, calls, ?_⟩, tcpBytes_parses h, ?_, ?_⟩
  · rw [hstate]
  · rw [hstate]
  · rw [hhead]
    exact Net.ipHeader_verifies
  · rw [hbytes]
    exact tcpBytes_verifies h

def synSegment : Segment where
  srcIp := 0x0F02000A
  dstIp := 0x0100007F
  srcPort := 49152
  dstPort := 80
  seq := 7
  ackSeq := 0
  flags := tcpFlagSyn
  window := tcpWindow
  payload := []

theorem synSegment_sized : Sized synSegment where
  srcIp := by decide
  dstIp := by decide
  srcPort := by decide
  dstPort := by decide
  seq := by decide
  ackSeq := by decide
  payload := by decide

def synPacket : List UInt8 :=
  Net.onWire (segmentFrame (List.replicate 6 0xFF) (List.replicate 6 1) 0x6000 synSegment)

theorem segment_arrives_syn : synPacket.length ≤ Netq.netQueuePktMax ∧
    Handed Net.quietNet (Net.Lan.polled Net.quietNet synPacket) synPacket synSegment :=
  segment_arrives synSegment_sized rfl rfl rfl

end Arrival

end Segments
