import Mathlib.Data.Fin.Basic
import Mathlib.Logic.Function.Basic
import SabakaOS.Library.Word
import SabakaOS.Library.Ring

namespace Tcp

open Word

def tcpFlagFin : UInt8 := 0x01

def tcpFlagSyn : UInt8 := 0x02

def tcpFlagRst : UInt8 := 0x04

def tcpFlagPsh : UInt8 := 0x08

def tcpFlagAck : UInt8 := 0x10

def has (flags mask : UInt8) : Bool := flags &&& mask != 0

def tcpMaxSockets : Nat := 8

def tcpRecvBuf : Nat := 8192

def tcpRetxBuf : Nat := 2048

def tcpMss : Nat := 1460

def tcpWindow : Nat := tcpRecvBuf

def tcpRetxTimeoutMs : Nat := 1000

def tcpMaxRetx : Nat := 6

def tcpTimewaitMs : Nat := 4000

inductive TcpState where
  | closed
  | synSent
  | established
  | finWait1
  | finWait2
  | closeWait
  | lastAck
  | timeWait
  deriving DecidableEq, Repr

structure TcpSocket where
  state : TcpState
  retxCount : Nat
  localPort : Nat
  remotePort : Nat
  remoteIp : Nat
  sndNxt : Nat
  sndUna : Nat
  rcvNxt : Nat
  retxBuf : List UInt8
  retxLen : Nat
  retxFlags : UInt8
  retxSeq : Nat
  retxDeadline : Nat
  recvBuf : Nat → UInt8
  recvHead : Nat
  recvTail : Nat
  recvLen : Nat
  timewaitDeadline : Nat
  used : Bool

-- The TCP header and payload handed to rtl8139_send.
structure Segment where
  srcIp : Nat
  dstIp : Nat
  srcPort : Nat
  dstPort : Nat
  seq : Nat
  ackSeq : Nat
  flags : UInt8
  window : Nat
  payload : List UInt8

-- kmallocOk and sendOk answer the calls made by the n-th tcp_send_raw.
structure TcpStack where
  socks : Fin 8 → TcpSocket
  myIp : Nat
  pitTickCount : Nat
  pitFrequency : Nat
  kmallocOk : Nat → Bool
  sendOk : Nat → Bool
  sends : Nat
  sent : List Segment

def seqGt (a b : Nat) : Bool := 0 < sub32 a b && sub32 a b < 2147483648

def seqGte (a b : Nat) : Bool := sub32 a b < 2147483648

def pitUptimeMs (t : TcpStack) : Nat := u32 (t.pitTickCount * 1000) / t.pitFrequency

def blankSocket : TcpSocket :=
  { state := .closed, retxCount := 0, localPort := 0, remotePort := 0, remoteIp := 0, sndNxt := 0
    sndUna := 0, rcvNxt := 0, retxBuf := [], retxLen := 0, retxFlags := 0, retxSeq := 0
    retxDeadline := 0, recvBuf := fun _ => 0, recvHead := 0, recvTail := 0, recvLen := 0
    timewaitDeadline := 0, used := false }

def freeSock (s : TcpSocket) : TcpSocket := { s with state := .closed, used := false }

def saveRetxFields (t : TcpStack) (s : TcpSocket) (flags : UInt8) (payload : List UInt8) : TcpSocket :=
  let copy := if payload.length < tcpRetxBuf then payload.length else tcpRetxBuf
  { s with
    retxSeq := s.sndNxt
    retxFlags := flags
    retxBuf := if 0 < copy then payload.take copy else s.retxBuf
    retxLen := copy
    retxCount := 0
    retxDeadline := u32 (pitUptimeMs t + tcpRetxTimeoutMs) }

def seqAdvance (flags : UInt8) (payload : List UInt8) : Nat :=
  payload.length + (if has flags tcpFlagSyn then 1 else 0) +
    (if has flags tcpFlagFin then 1 else 0)

def tcpSendRaw (t : TcpStack) (s : TcpSocket) (flags : UInt8) (payload : List UInt8)
    (saveRetx : Bool) : Bool × TcpSocket × TcpStack :=
  let next := { t with sends := t.sends + 1 }
  if !t.kmallocOk t.sends then (false, s, next)
  else if !t.sendOk t.sends then (false, s, next)
  else
    let seg : Segment :=
      { srcIp := t.myIp
        dstIp := s.remoteIp
        srcPort := s.localPort
        dstPort := s.remotePort
        seq := s.sndNxt
        ackSeq := if has flags tcpFlagAck then s.rcvNxt else 0
        flags := flags
        window := tcpWindow
        payload := payload }
    let advance := seqAdvance flags payload
    let s := if saveRetx && decide (0 < advance) then saveRetxFields t s flags payload else s
    (true, { s with sndNxt := u32 (s.sndNxt + advance) }, { next with sent := seg :: t.sent })

def tcpSendAck (t : TcpStack) (s : TcpSocket) : TcpSocket × TcpStack :=
  (tcpSendRaw t s tcpFlagAck [] false).2

def tcpSendRstFor (t : TcpStack) (dstIp dstPort srcPort seq : Nat) : TcpStack :=
  (tcpSendRaw t { blankSocket with
    remoteIp := dstIp
    localPort := srcPort
    remotePort := dstPort
    sndNxt := seq
    rcvNxt := 0 } tcpFlagRst [] false).2.2

def doRetransmit (t : TcpStack) (s : TcpSocket) : TcpSocket × TcpStack :=
  if s.retxLen = 0 ∧ !has s.retxFlags (tcpFlagSyn ||| tcpFlagFin) then (s, t)
  else
    let s := { s with retxCount := u8 (s.retxCount + 1) }
    if tcpMaxRetx < s.retxCount then (freeSock s, t)
    else
      let r := tcpSendRaw t { s with sndNxt := s.retxSeq } s.retxFlags (s.retxBuf.take s.retxLen)
        false
      let nextTo := u32 (tcpRetxTimeoutMs * 2 ^ s.retxCount)
      let nextTo := if 32000 < nextTo then 32000 else nextTo
      ({ r.2.1 with retxDeadline := u32 (pitUptimeMs r.2.2 + nextTo) }, r.2.2)

def setSock (t : TcpStack) (i : Fin 8) (s : TcpSocket) : TcpStack :=
  { t with socks := Function.update t.socks i s }

def tickSock (t : TcpStack) (now : Nat) (s : TcpSocket) : TcpSocket × TcpStack :=
  if !s.used then (s, t)
  else if s.state = .timeWait then
    (if s.timewaitDeadline ≤ now then freeSock s else s, t)
  else if s.retxDeadline ≠ 0 ∧ s.retxDeadline ≤ now then
    if seqGt s.sndNxt s.sndUna then doRetransmit t s else ({ s with retxDeadline := 0 }, t)
  else (s, t)

def tcpTick (t : TcpStack) : TcpStack :=
  let now := pitUptimeMs t
  (List.finRange 8).foldl (fun t i =>
    let r := tickSock t now (t.socks i)
    setSock r.2 i r.1) t

def byteAt (seg : List UInt8) (i : Nat) : Nat := (seg.getD i 0).toNat

def ntohs (seg : List UInt8) (i : Nat) : Nat := byteAt seg i * 256 + byteAt seg (i + 1)

def ntohl (seg : List UInt8) (i : Nat) : Nat := ntohs seg i * 65536 + ntohs seg (i + 2)

def hdrBytes (seg : List UInt8) : Nat := u8 (byteAt seg 12 / 16 * 4)

def segFlags (seg : List UInt8) : UInt8 := seg.getD 13 0

def segSeq (seg : List UInt8) : Nat := ntohl seg 4

def segAck (seg : List UInt8) : Nat := ntohl seg 8

def segPayload (seg : List UInt8) : List UInt8 := seg.drop (hdrBytes seg)

def wellFormed (seg : List UInt8) : Bool :=
  20 ≤ seg.length && 20 ≤ hdrBytes seg && hdrBytes seg ≤ seg.length

def findSock (t : TcpStack) (srcIp srcPort dstPort : Nat) : Option (Fin 8) :=
  (List.finRange 8).find? (fun i => (t.socks i).used && (t.socks i).state != .closed &&
    (t.socks i).remoteIp == srcIp && (t.socks i).remotePort == srcPort &&
    (t.socks i).localPort == dstPort)

def ackUpdate (s : TcpSocket) (segAck : Nat) : TcpSocket :=
  if seqGt segAck s.sndUna && seqGte s.sndNxt segAck then
    let s := { s with sndUna := segAck }
    if s.sndUna = s.sndNxt then { s with retxDeadline := 0, retxLen := 0, retxCount := 0 } else s
  else s

-- The copy loop that TCP_ESTABLISHED and TCP_FIN_WAIT_2 both contain.
def acceptPayload (s : TcpSocket) (payload : List UInt8) : TcpSocket :=
  let space := sub32 tcpRecvBuf s.recvLen
  let copy := u16 (if payload.length < space then payload.length else space)
  let r := Ring.push tcpRecvBuf s.recvBuf s.recvHead (payload.take copy)
  { s with
    recvBuf := r.1
    recvHead := r.2
    recvLen := u32 (s.recvLen + copy)
    rcvNxt := u32 (s.rcvNxt + copy) }

def enterTimeWait (t : TcpStack) (s : TcpSocket) : TcpSocket × TcpStack :=
  let s := { s with rcvNxt := u32 (s.rcvNxt + 1) }
  let r := tcpSendAck t s
  ({ r.1 with
    state := .timeWait
    timewaitDeadline := u32 (pitUptimeMs r.2 + tcpTimewaitMs) }, r.2)

def receiveEstablished (t : TcpStack) (s : TcpSocket) (seg : List UInt8) : TcpSocket × TcpStack :=
  let r :=
    if 0 < (segPayload seg).length ∧ segSeq seg = s.rcvNxt then
      tcpSendAck t (acceptPayload s (segPayload seg))
    else (s, t)
  if has (segFlags seg) tcpFlagFin then
    let r := tcpSendAck r.2 { r.1 with rcvNxt := u32 (r.1.rcvNxt + 1) }
    (tcpSendRaw r.2 { r.1 with state := .lastAck } (tcpFlagFin ||| tcpFlagAck) [] true).2
  else r

def receiveFinWait1 (t : TcpStack) (s : TcpSocket) (seg : List UInt8) : TcpSocket × TcpStack :=
  let s := if has (segFlags seg) tcpFlagAck then { s with state := .finWait2 } else s
  if has (segFlags seg) tcpFlagFin then enterTimeWait t s else (s, t)

def receiveFinWait2 (t : TcpStack) (s : TcpSocket) (seg : List UInt8) : TcpSocket × TcpStack :=
  let s :=
    if 0 < (segPayload seg).length ∧ segSeq seg = s.rcvNxt then acceptPayload s (segPayload seg)
    else s
  if has (segFlags seg) tcpFlagFin then enterTimeWait t s else (s, t)

def receiveSynSent (t : TcpStack) (s : TcpSocket) (srcIp srcPort dstPort : Nat) (seg : List UInt8) :
    TcpSocket × TcpStack :=
  if segFlags seg &&& (tcpFlagSyn ||| tcpFlagAck) = tcpFlagSyn ||| tcpFlagAck then
    if segAck seg ≠ s.sndNxt then
      (freeSock s, tcpSendRstFor t srcIp srcPort dstPort (segAck seg))
    else
      tcpSendAck t { s with
        rcvNxt := u32 (segSeq seg + 1)
        sndUna := segAck seg
        state := .established
        retxDeadline := 0 }
  else (s, t)

def receiveSock (t : TcpStack) (s : TcpSocket) (srcIp srcPort dstPort : Nat) (seg : List UInt8) :
    TcpSocket × TcpStack :=
  if has (segFlags seg) tcpFlagRst then (freeSock s, t)
  else
    let s := if has (segFlags seg) tcpFlagAck then ackUpdate s (segAck seg) else s
    match s.state with
    | .synSent => receiveSynSent t s srcIp srcPort dstPort seg
    | .established => receiveEstablished t s seg
    | .finWait1 => receiveFinWait1 t s seg
    | .finWait2 => receiveFinWait2 t s seg
    | .lastAck => (if has (segFlags seg) tcpFlagAck then freeSock s else s, t)
    | .timeWait => if has (segFlags seg) tcpFlagFin then enterTimeWait t s else (s, t)
    | _ => (s, t)

def tcpReceive (t : TcpStack) (srcIp : Nat) (seg : List UInt8) : TcpStack :=
  if !wellFormed seg then t
  else
    let srcPort := ntohs seg 0
    let dstPort := ntohs seg 2
    match findSock t srcIp srcPort dstPort with
    | none =>
      if !has (segFlags seg) tcpFlagRst then tcpSendRstFor t srcIp srcPort dstPort (segAck seg)
      else t
    | some i =>
      let r := receiveSock t (t.socks i) srcIp srcPort dstPort seg
      setSock r.2 i r.1

-- The result, the bytes stored in buf, and the state after the call.
def tcpRecv (t : TcpStack) (i : Fin 8) (maxlen : Nat) : Int × List UInt8 × TcpStack :=
  let s := t.socks i
  if !s.used then (-1, [], t)
  else if s.recvLen = 0 then (0, [], t)
  else
    let n := u16 (if s.recvLen < maxlen then s.recvLen else maxlen)
    let r := Ring.pop tcpRecvBuf s.recvBuf s.recvTail n
    (n, r.1, setSock t i { s with recvTail := r.2, recvLen := sub32 s.recvLen n })

inductive Irq where
  | receive (srcIp : Nat) (seg : List UInt8)
  | tick
  | clock (ticks : Nat)

def irq (t : TcpStack) : Irq → TcpStack
  | .receive srcIp seg => tcpReceive t srcIp seg
  | .tick => tcpTick t
  | .clock ticks => { t with pitTickCount := u32 (t.pitTickCount + ticks) }

-- What tcp_close does before it starts to wait, and what it does once the wait is over.
def tcpCloseBegin (t : TcpStack) (i : Fin 8) : TcpStack :=
  if (t.socks i).used ∧ (t.socks i).state = .established then
    let r := (tcpSendRaw t { t.socks i with state := .finWait1 } (tcpFlagFin ||| tcpFlagAck) []
      true).2
    setSock r.2 i r.1
  else t

def tcpCloseEnd (t : TcpStack) (i : Fin 8) : TcpStack :=
  if (t.socks i).state ≠ .timeWait then setSock t i (freeSock (t.socks i)) else t

def closeWaitOver (deadline : Nat) (i : Fin 8) (t : TcpStack) : Bool :=
  deadline ≤ pitUptimeMs t || !(t.socks i).used || (t.socks i).state == .timeWait ||
    (t.socks i).state == .closed

-- none while the loop still waits after the given interrupts.
def closeWait (deadline : Nat) (i : Fin 8) (t : TcpStack) : List Irq → Option TcpStack
  | [] => if closeWaitOver deadline i t then some t else none
  | e :: es => if closeWaitOver deadline i t then some t else closeWait deadline i (irq t e) es

def tcpClose (t : TcpStack) (i : Fin 8) (irqs : List Irq) : Option TcpStack :=
  if !(t.socks i).used then some t
  else if (t.socks i).state = .established then
    let b := tcpCloseBegin t i
    (closeWait (u32 (pitUptimeMs b + 4000)) i b irqs).map (tcpCloseEnd · i)
  else some (tcpCloseEnd t i)

end Tcp
