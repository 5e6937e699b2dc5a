import SabakaOS.Library.ByteMemory
import SabakaOS.Library.Prog
import SabakaOS.Network.Queue
import SabakaOS.Network.Tcp

namespace Net

open Word ByteMemory Prog

def ethHeaderSize : Nat := 14

def arpPacketSize : Nat := 28

def ipHeaderSize : Nat := 20

def icmpHeaderSize : Nat := 8

def udpHeaderSize : Nat := 8

def tcpHeaderSize : Nat := 20

structure ArpEntry where
  ip : Nat
  mac : List UInt8
  valid : Bool

structure UdpHandler where
  port : Nat
  used : Bool

inductive Handler where
  | arp
  | ip
  | icmp
  | udp
  | tcp
  deriving DecidableEq

-- What a registered UDP callback is called with; data is where its bytes start in the frame.
structure Callback where
  srcIp : Nat
  srcPort : Nat
  dstPort : Nat
  data : Nat
  len : Nat

-- frame is pkt.data with what lies behind it in memory. reads and calls record the ranges of the
-- frame that are read or handed on, and the handlers with the start and length they are given.
structure NetState where
  frame : Nat → UInt8
  myIp : Nat
  netmask : Nat
  myMac : List UInt8
  arpCache : Fin 16 → ArpEntry
  udpHandlers : Fin 8 → UdpHandler
  ipId : Nat
  tcp : Tcp.TcpStack
  kmallocOk : Bool
  sent : List (List UInt8)
  callbacks : List Callback
  reads : List (Nat × Nat)
  calls : List (Handler × Nat × Nat)

abbrev Rx (α : Type) := Prog NetState α

def touch (off n : Nat) : Rx Unit := Prog.modify fun s => { s with reads := (off, n) :: s.reads }

def called (h : Handler) (data len : Nat) : Rx Unit :=
  Prog.modify fun s => { s with calls := (h, data, len) :: s.calls }

def field (n off : Nat) : Rx Nat := do
  touch off n
  let s ← get
  pure (readLE s.frame n off)

def block (n off : Nat) : Rx (List UInt8) := do
  touch off n
  let s ← get
  pure (readBytes s.frame n off)

-- ntohs of a field.
def be16 (m : Nat → UInt8) (off : Nat) : Nat := (m off).toNat * 256 + (m (off + 1)).toNat

def netField (off : Nat) : Rx Nat := do
  touch off 2
  let s ← get
  pure (be16 s.frame off)

def sub16 (a b : Nat) : Nat := u16 (a + 65536 - b)

def leBytes (n v : Nat) : List UInt8 := readBytes (writeLE (fun _ => 0) n 0 v) n 0

def beBytes (v : Nat) : List UInt8 := [UInt8.ofNat (v / 256), UInt8.ofNat v]

def wordSum : List UInt8 → Nat
  | a :: b :: rest => a.toNat + 256 * b.toNat + wordSum rest
  | [a] => a.toNat
  | [] => 0

def foldCarry (sum : Nat) : Nat := sum % 65536 + sum / 65536

-- The loop that folds the carries of a 32-bit sum ends after two turns at most.
def ipChecksum (data : List UInt8) : Nat := 65535 - foldCarry (foldCarry (u32 (wordSum data)))

def arpCacheStore (s : NetState) (ip : Nat) (mac : List UInt8) : NetState :=
  let known := (List.finRange 16).find? fun i => (s.arpCache i).valid && (s.arpCache i).ip == ip
  let free := (List.finRange 16).find? fun i => !(s.arpCache i).valid
  let slot := known.getD (free.getD 0)
  { s with arpCache := Function.update s.arpCache slot { ip := ip, mac := mac, valid := true } }

def netArpLookup (s : NetState) (ip : Nat) : Option (List UInt8) :=
  ((List.finRange 16).find? fun i => (s.arpCache i).valid && (s.arpCache i).ip == ip).map
    fun i => (s.arpCache i).mac

def rtl8139Send (pkt : List UInt8) : Rx Unit := Prog.modify fun s => { s with sent := pkt :: s.sent }

def arpReply (req : Nat) : Rx Unit := do
  let senderMac ← block 6 (req + 8)
  let senderIp ← field 4 (req + 14)
  let s ← get
  rtl8139Send (senderMac ++ s.myMac ++ [0x08, 0x06] ++
    [0x00, 0x01, 0x08, 0x00, 6, 4, 0x00, 0x02] ++ s.myMac ++ leBytes 4 s.myIp ++ senderMac ++
    leBytes 4 senderIp)

def handleArp (data len : Nat) : Rx Unit := do
  called .arp data len
  if len < arpPacketSize then pure ()
  else do
    let senderIp ← field 4 (data + 14)
    let senderMac ← block 6 (data + 8)
    Prog.modify fun s => arpCacheStore s senderIp senderMac
    let opcode ← netField (data + 6)
    if opcode = 1 then do
      let targetIp ← field 4 (data + 24)
      let s ← get
      if targetIp = s.myIp then arpReply data else pure ()
    else pure ()

def echoIp (s : NetState) (srcIp ipTotal : Nat) : List UInt8 :=
  let header (checksum : Nat) := [0x45, 0] ++ beBytes ipTotal ++ beBytes s.ipId ++ [0, 0, 64, 1] ++
    leBytes 2 checksum ++ leBytes 4 s.myIp ++ leBytes 4 srcIp
  header (ipChecksum (header 0))

def echoIcmp (rest : List UInt8) : List UInt8 :=
  let message (checksum : Nat) := [0, 0] ++ leBytes 2 checksum ++ rest
  message (ipChecksum (message 0))

def nextIpId (s : NetState) : NetState := { s with ipId := u16 (s.ipId + 1) }

def handleIcmp (ip data len : Nat) : Rx Unit := do
  called .icmp data len
  if len < icmpHeaderSize then pure ()
  else do
    let type ← field 1 data
    if type ≠ 8 then pure ()
    else do
      let ipTotal := u16 (ipHeaderSize + len)
      let pktSize := u16 (ethHeaderSize + ipTotal)
      let s ← get
      if !s.kmallocOk then pure ()
      else do
        let srcIp ← field 4 (ip + 12)
        let idSeq ← block 4 (data + 4)
        let payload ← block (sub16 len icmpHeaderSize) (data + icmpHeaderSize)
        Prog.modify nextIpId
        let dst := (netArpLookup s srcIp).getD (List.replicate 6 0xFF)
        rtl8139Send ((dst ++ s.myMac ++ [0x08, 0x00] ++ echoIp s srcIp ipTotal ++
          echoIcmp (idSeq ++ payload)).take pktSize)

def udpHandler (s : NetState) (dstPort : Nat) : Option (Fin 8) :=
  (List.finRange 8).find? fun i => (s.udpHandlers i).used && (s.udpHandlers i).port == dstPort

def callBack (c : Callback) (s : NetState) : NetState := { s with callbacks := c :: s.callbacks }

def handleUdp (ip data len : Nat) : Rx Unit := do
  called .udp data len
  if len < udpHeaderSize then pure ()
  else do
    let dstPort ← netField (data + 2)
    let srcPort ← netField data
    let length ← netField (data + 4)
    let plen := sub16 length udpHeaderSize
    let s ← get
    if (udpHandler s dstPort).isNone then pure ()
    else do
      let srcIp ← field 4 (ip + 12)
      touch (data + udpHeaderSize) plen
      Prog.modify (callBack ⟨srcIp, srcPort, dstPort, data + udpHeaderSize, plen⟩)

def toTcp (srcIp : Nat) (seg : List UInt8) (s : NetState) : NetState :=
  { s with tcp := Tcp.tcpReceive s.tcp srcIp seg }

-- The ranges that tcp_receive reads: its header, and the payload that the states may copy.
def tcpReceive (srcIp data len : Nat) : Rx Unit := do
  called .tcp data len
  let s ← get
  let seg := readBytes s.frame len data
  Prog.modify (toTcp srcIp seg)
  if len < tcpHeaderSize then pure ()
  else do
    touch data tcpHeaderSize
    if Tcp.wellFormed seg then touch (data + Tcp.hdrBytes seg) (len - Tcp.hdrBytes seg)
    else pure ()

def headerLen (verIhl : Nat) : Nat := u8 (verIhl % 16 * 4)

def broadcast (s : NetState) : Nat := s.myIp ||| (s.netmask ^^^ 0xFFFFFFFF)

def forUs (s : NetState) (dstIp : Nat) : Bool :=
  dstIp == s.myIp || dstIp == broadcast s || dstIp == 0xFFFFFFFF

def handleIp (data len : Nat) : Rx Unit := do
  called .ip data len
  if len < ipHeaderSize then pure ()
  else do
    let verIhl ← field 1 data
    let ihl := headerLen verIhl
    if ihl < 20 ∨ len < ihl then pure ()
    else do
      let dstIp ← field 4 (data + 16)
      let s ← get
      if !forUs s dstIp then pure ()
      else do
        let totalLen ← netField (data + 2)
        let payload := data + ihl
        let plen := sub16 totalLen ihl
        let protocol ← field 1 (data + 9)
        if protocol = 1 then handleIcmp data payload plen
        else if protocol = 6 then do
          let srcIp ← field 4 (data + 12)
          tcpReceive srcIp payload plen
        else if protocol = 17 then handleUdp data payload plen
        else pure ()

-- One turn of the loop of net_poll; len is pkt.len.
def pollPacket (len : Nat) : Rx Unit := do
  if len < ethHeaderSize then pure ()
  else do
    let type ← netField 12
    let payload := ethHeaderSize
    let plen := sub16 len ethHeaderSize
    if type = 0x0806 then handleArp payload plen
    else if type = 0x0800 then handleIp payload plen
    else pure ()

end Net
