import SabakaOS.Network.Segments

namespace Segments

open Word Tcp

-- No socket has got further than its SYN, and there is nothing but a SYN to send again.
structure Waiting (s : TcpSocket) : Prop where
  state : s.state = .closed ∨ s.state = .synSent
  retxFlags : s.retxFlags = 0 ∨ s.retxFlags = tcpFlagSyn
  retxLen : s.retxLen = 0

def Bare (seg : Segment) : Prop := seg.flags = tcpFlagSyn ∨ seg.flags = tcpFlagRst

-- A call has left all sockets waiting, and sent bare segments only.
structure StaysWaiting (t t' : TcpStack) : Prop where
  socks : (∀ j, Waiting (t.socks j)) → ∀ j, Waiting (t'.socks j)
  sent : (∀ j, Waiting (t.socks j)) → ∃ segs, t'.sent = segs ++ t.sent ∧ ∀ seg ∈ segs, Bare seg

section Calls

variable {t t' t'' : TcpStack} {s : TcpSocket} {flags : UInt8}

theorem StaysWaiting.of_eq (hs : (∀ j, Waiting (t.socks j)) → ∀ j, Waiting (t'.socks j))
    (h : t'.sent = t.sent) : StaysWaiting t t' :=
  ⟨hs, fun _ => ⟨[], h, fun _ hf => absurd hf List.not_mem_nil⟩⟩

theorem StaysWaiting.refl (t : TcpStack) : StaysWaiting t t := .of_eq id rfl

theorem StaysWaiting.trans (h : StaysWaiting t t') (h' : StaysWaiting t' t'') :
    StaysWaiting t t'' := by
  refine ⟨fun hw => h'.socks (h.socks hw), fun hw => ?_⟩
  obtain ⟨segs, he, hb⟩ := h.sent hw
  obtain ⟨segs', he', hb'⟩ := h'.sent (h.socks hw)
  refine ⟨segs' ++ segs, by rw [he', he, List.append_assoc], fun seg hseg => ?_⟩
  exact (List.mem_append.mp hseg).elim (hb' seg) (hb seg)

theorem waiting_setSock (hw : ∀ j, Waiting (t.socks j)) {j : Fin 8} (hs : Waiting s) (k : Fin 8) :
    Waiting ((setSock t j s).socks k) := by
  by_cases hk : k = j
  · subst hk
    rw [setSock_self]
    exact hs
  · rw [setSock_of_ne t hk]
    exact hw k

theorem StaysWaiting.setSock (j : Fin 8) (hs : Waiting (t.socks j) → Waiting s) :
    StaysWaiting t (setSock t j s) :=
  .of_eq (fun hw => waiting_setSock hw (hs (hw j))) rfl

theorem Waiting.free (h : Waiting s) : Waiting (freeSock s) := ⟨.inl rfl, h.retxFlags, h.retxLen⟩

-- What tcp_send_raw emits has the flags it was called with.
theorem sendRaw_stays (hb : flags = tcpFlagSyn ∨ flags = tcpFlagRst) (s : TcpSocket)
    (payload : List UInt8) (save : Bool) :
    StaysWaiting t (tcpSendRaw t s flags payload save).2.2 := by
  have he := tcpSendRaw_emits t s flags payload save
  refine ⟨fun hw => by rw [he.socks]; exact hw, fun _ => ⟨_, he.sent, fun seg hseg => ?_⟩⟩
  split at hseg
  · rw [List.mem_singleton.mp hseg]
    exact hb
  · cases hseg

theorem rstFor_stays (dstIp dstPort srcPort seq : Nat) :
    StaysWaiting t (tcpSendRstFor t dstIp dstPort srcPort seq) := sendRaw_stays (.inr rfl) _ _ _

-- A SYN sent, saved or not, leaves nothing but a SYN to send again.
theorem sendSyn_waiting (hs : Waiting s) (hf : flags = tcpFlagSyn) (save : Bool) :
    Waiting (tcpSendRaw t s flags [] save).2.1 := by
  rw [tcpSendRaw_eq, hf]
  split
  · refine ⟨?_, ?_, ?_⟩
    · unfold advanced
      split <;> exact hs.state
    · unfold advanced
      split
      · exact .inr rfl
      · exact hs.retxFlags
    · unfold advanced
      split
      · rfl
      · exact hs.retxLen
  · exact hs

theorem retransmit_stays (hs : Waiting s) :
    Waiting (doRetransmit t s).1 ∧ StaysWaiting t (doRetransmit t s).2 := by
  have hload : s.retxBuf.take s.retxLen = [] := by rw [hs.retxLen, List.take_zero]
  unfold doRetransmit
  rcases hs.retxFlags with hf | hf
  · rw [if_pos ⟨hs.retxLen, by rw [hf]; decide⟩]
    exact ⟨hs, .refl t⟩
  · rw [if_neg (fun h => by rw [hf] at h; exact absurd h.2 (by decide))]
    dsimp only
    have hcount : Waiting { s with retxCount := u8 (s.retxCount + 1) } :=
      ⟨hs.state, hs.retxFlags, hs.retxLen⟩
    split
    · exact ⟨hcount.free, .refl t⟩
    · rw [hload]
      have hagain : Waiting { s with retxCount := u8 (s.retxCount + 1), sndNxt := s.retxSeq } :=
        ⟨hs.state, hs.retxFlags, hs.retxLen⟩
      have hsent := sendSyn_waiting (t := t) hagain hf false
      exact ⟨⟨hsent.state, hsent.retxFlags, hsent.retxLen⟩, sendRaw_stays (.inl hf) _ _ _⟩

theorem StaysWaiting.put {r : TcpSocket × TcpStack} (j : Fin 8)
    (h : Waiting (t.socks j) → Waiting r.1 ∧ StaysWaiting t r.2) :
    StaysWaiting t (Tcp.setSock r.2 j r.1) :=
  ⟨fun hw => waiting_setSock ((h (hw j)).2.socks hw) (h (hw j)).1,
    fun hw => (h (hw j)).2.sent hw⟩

theorem turn_stays (j : Fin 8) : StaysWaiting t (tickTurn t j) := by
  refine StaysWaiting.put j fun hs => ?_
  unfold tickSock
  split
  · exact ⟨hs, .refl t⟩
  · split
    · split
      · exact ⟨hs.free, .refl t⟩
      · exact ⟨hs, .refl t⟩
    · split
      · split
        · exact retransmit_stays hs
        · exact ⟨⟨hs.state, hs.retxFlags, hs.retxLen⟩, .refl t⟩
      · exact ⟨hs, .refl t⟩

theorem connectBegin_stays (n : Net) (dstIp dstPort : Nat) :
    StaysWaiting n.tcp (tcpConnectBegin n dstIp dstPort).2.tcp := by
  unfold tcpConnectBegin
  split
  · exact .refl _
  · next i hi =>
    dsimp only
    generalize hp : nextEphemeral _ _ = p
    generalize ht : Tcp.setSock n.tcp i { blankSocket with used := true, remoteIp := dstIp } = t
    have hblank : StaysWaiting n.tcp t :=
      ht ▸ StaysWaiting.setSock i fun _ => ⟨.inl rfl, .inl rfl, rfl⟩
    generalize hq : ({ blankSocket with
      used := true
      remoteIp := dstIp
      localPort := p.1
      remotePort := dstPort
      sndNxt := initialSeq (pitUptimeMs t) p.1
      sndUna := initialSeq (pitUptimeMs t) p.1
      state := .synSent } : TcpSocket) = q
    have hopen : Waiting q := hq ▸ ⟨.inr rfl, .inl rfl, rfl⟩
    have hsent := sendSyn_waiting (t := t) hopen rfl true
    have hstays : StaysWaiting t (tcpSendRaw t q tcpFlagSyn [] true).2.2 :=
      sendRaw_stays (.inl rfl) _ _ _
    split
    · exact hblank.trans (hstays.trans (StaysWaiting.setSock i fun _ => hsent))
    · exact hblank.trans (hstays.trans (StaysWaiting.setSock i fun _ => hsent.free))

theorem receive_stays {seg : Segment} (hb : Bare seg) (srcIp : Nat) :
    StaysWaiting t (tcpReceive t srcIp (tcpBytes seg)) := by
  have hflags : segFlags (tcpBytes seg) = seg.flags := rfl
  unfold tcpReceive
  split
  · exact .refl t
  dsimp only
  split
  · split
    · exact rstFor_stays _ _ _ _
    · exact .refl t
  · next i hi =>
    refine StaysWaiting.put i fun hs => ?_
    unfold receiveSock
    rw [hflags]
    rcases hb with hf | hf
    · rw [hf, if_neg (by decide), if_neg (by decide)]
      dsimp only
      rcases hs.state with hst | hst
      · rw [hst]
        exact ⟨hs, .refl t⟩
      · rw [hst]
        dsimp only
        rw [receiveSynSent, hflags, hf, if_neg (by decide)]
        exact ⟨hs, .refl t⟩
    · rw [hf, if_pos (by decide)]
      exact ⟨hs.free, .refl t⟩

-- Every call but a chunk of tcp_send, which has tested for an open connection before.
theorem call_stays (n : Net) {c : Call} (hr : ∀ srcIp seg, c ≠ .receive srcIp seg)
    (hc : ∀ j data, c ≠ .chunk j data) : StaysWaiting n.tcp (call n c).tcp := by
  cases c with
  | receive srcIp seg => exact absurd rfl (hr srcIp seg)
  | turn j => exact turn_stays j
  | clock ticks => exact .of_eq id rfl
  | connectBegin dstIp dstPort => exact connectBegin_stays n dstIp dstPort
  | connectEnd j =>
    change StaysWaiting n.tcp (tcpConnectEnd n.tcp j).2
    unfold tcpConnectEnd
    split
    · exact StaysWaiting.setSock j Waiting.free
    · exact .refl _
  | chunk j data => exact absurd rfl (hc j data)
  | recv j maxlen =>
    change StaysWaiting n.tcp (tcpRecv n.tcp j maxlen).2.2
    unfold tcpRecv
    dsimp only
    split
    · exact .refl _
    · split
      · exact .refl _
      · exact StaysWaiting.setSock j fun hs => ⟨hs.state, hs.retxFlags, hs.retxLen⟩
  | closeBegin j =>
    change StaysWaiting n.tcp (tcpCloseBegin n.tcp j)
    by_cases hopen : (n.tcp.socks j).state = .established
    · refine ⟨fun hw => ?_, fun hw => ?_⟩
      · rcases (hw j).state with h | h <;> rw [h] at hopen <;> cases hopen
      · rcases (hw j).state with h | h <;> rw [h] at hopen <;> cases hopen
    · rw [tcpCloseBegin, if_neg fun h => hopen h.2]
      exact .refl _
  | closeEnd j =>
    change StaysWaiting n.tcp (tcpCloseEnd n.tcp j)
    unfold tcpCloseEnd
    split
    · exact StaysWaiting.setSock j Waiting.free
    · exact .refl _

def resetFor (t : TcpStack) (seg : Segment) : Segment where
  srcIp := t.myIp
  dstIp := seg.srcIp
  srcPort := seg.dstPort
  dstPort := seg.srcPort
  seq := seg.ackSeq
  ackSeq := 0
  flags := tcpFlagRst
  window := tcpWindow
  payload := []

-- A SYN that no socket waits for is answered by a RST to where it came from.
theorem syn_refused {seg : Segment} (h : Sized seg) (hf : seg.flags = tcpFlagSyn)
    (hnone : findSock t seg.srcIp seg.srcPort seg.dstPort = none)
    (hk : sendWorks t t.sends = true) :
    (tcpReceive t seg.srcIp (tcpBytes seg)).sent = resetFor t seg :: t.sent := by
  have hp := tcpBytes_parses h
  rw [tcpReceive, hp.wellFormed, Bool.not_true, if_neg Bool.false_ne_true, hp.srcPort, hp.dstPort]
  dsimp only
  rw [hnone, hp.flags, hf, if_pos (by decide), hp.ackSeq, tcpSendRstFor, tcpSendRaw_eq, if_pos hk]
  rfl

-- A RST for a socket closes it.
theorem reset_frees {seg : Segment} (h : Sized seg) (hf : seg.flags = tcpFlagRst) {j : Fin 8}
    (hj : findSock t seg.srcIp seg.srcPort seg.dstPort = some j) :
    (tcpReceive t seg.srcIp (tcpBytes seg)).socks j = freeSock (t.socks j) := by
  have hp := tcpBytes_parses h
  rw [tcpReceive, hp.wellFormed, Bool.not_true, if_neg Bool.false_ne_true, hp.srcPort, hp.dstPort]
  dsimp only
  rw [hj]
  dsimp only
  rw [receiveSock, hp.flags, hf, if_pos (by decide), setSock_self]

end Calls

-- Hosts that all run this kernel, and every segment that one of them has sent. sending marks the
-- sockets on which tcp_send has passed its test of the state.
structure Peers (ι : Type) where
  host : ι → Net
  sending : ι → Fin 8 → Prop
  wire : List Segment

namespace Peers

inductive Move (ι : Type) where
  | call (i : ι) (c : Call)
  | sendBegin (i : ι) (j : Fin 8)
  | sendEnd (i : ι) (j : Fin 8)
  | deliver (i : ι) (seg : Segment)

section System

variable {ι : Type} [DecidableEq ι] {p p' : Peers ι} {i : ι}

def put (p : Peers ι) (i : ι) (n : Net) : Peers ι where
  host := Function.update p.host i n
  sending := p.sending
  wire := newSegments (p.host i).tcp n.tcp ++ p.wire

-- The calls of a host come in any order, and a segment may get lost, come late, many times and
-- to any host.
def step (p : Peers ι) : Move ι → Peers ι → Prop
  | .call i c, p' =>
    (∀ srcIp seg, c ≠ .receive srcIp seg) ∧ (∀ j data, c = .chunk j data → p.sending i j) ∧
      p' = p.put i (Tcp.call (p.host i) c)
  | .sendBegin i j, p' =>
    ((p.host i).tcp.socks j).used = true ∧ ((p.host i).tcp.socks j).state = .established ∧
      p' = { p with sending := fun i' j' => p.sending i' j' ∨ (i' = i ∧ j' = j) }
  | .sendEnd i j, p' =>
    p' = { p with sending := fun i' j' => p.sending i' j' ∧ ¬(i' = i ∧ j' = j) }
  | .deliver i seg, p' =>
    seg ∈ p.wire ∧ p' = p.put i (Tcp.call (p.host i) (.receive seg.srcIp (tcpBytes seg)))

-- All hosts after tcp_init.
structure Start (p : Peers ι) : Prop where
  socks : ∀ i j, (p.host i).tcp.socks j = blankSocket
  sending : ∀ i j, ¬p.sending i j
  wire : p.wire = []

def network (ι : Type) [DecidableEq ι] : System (Peers ι) (Move ι) where
  init := Start
  step := step

structure Inv (p : Peers ι) : Prop where
  socks : ∀ i j, Waiting ((p.host i).tcp.socks j)
  sending : ∀ i j, ¬p.sending i j
  wire : ∀ seg ∈ p.wire, Bare seg

theorem newSegments_append {t t' : TcpStack} {segs : List Segment}
    (h : t'.sent = segs ++ t.sent) : newSegments t t' = segs := by
  rw [newSegments, h, List.length_append, Nat.add_sub_cancel, List.take_left]

theorem put_self (n : Net) : (p.put i n).host i = n := Function.update_self ..

theorem put_of_ne {k : ι} (h : k ≠ i) (n : Net) : (p.put i n).host k = p.host k :=
  Function.update_of_ne h ..

theorem Inv.put (h : Inv p) {n : Net} (hn : StaysWaiting (p.host i).tcp n.tcp) :
    Inv (p.put i n) := by
  refine ⟨fun k j => ?_, h.sending, fun seg hseg => ?_⟩
  · by_cases hk : k = i
    · subst hk
      rw [put_self]
      exact hn.socks (h.socks k) j
    · rw [put_of_ne hk]
      exact h.socks k j
  · obtain ⟨segs, hsent, hbare⟩ := hn.sent (h.socks i)
    have hnew := newSegments_append hsent
    rcases List.mem_append.mp hseg with hseg | hseg
    · exact hbare seg (hnew ▸ hseg)
    · exact h.wire seg hseg

def invariant (ι : Type) [DecidableEq ι] : (network ι).Invariant where
  holds := Inv
  start h := by
    refine ⟨fun i j => ?_, h.sending, fun seg hseg => ?_⟩
    · rw [h.socks i j]
      exact ⟨.inl rfl, .inl rfl, rfl⟩
    · rw [h.wire] at hseg
      cases hseg
  step := by
    rintro p (⟨i, c⟩ | ⟨i, j⟩ | ⟨i, j⟩ | ⟨i, seg⟩) p' h ht
    · obtain ⟨hr, hc, rfl⟩ := ht
      exact h.put (call_stays _ hr fun j data he => h.sending i j (hc j data he))
    · obtain ⟨-, hopen, -⟩ := ht
      rcases (h.socks i j).state with hst | hst <;> rw [hst] at hopen <;> cases hopen
    · obtain rfl := ht
      exact ⟨h.socks, fun i' j' hs => h.sending i' j' hs.1, h.wire⟩
    · obtain ⟨hseg, rfl⟩ := ht
      exact h.put (receive_stays (h.wire seg hseg) _)

-- There is no passive open.
structure NeverOpen (p : Peers ι) : Prop where
  state : ∀ i j, ((p.host i).tcp.socks j).state = .closed ∨
    ((p.host i).tcp.socks j).state = .synSent
  connect : ∀ i j, (tcpConnectEnd (p.host i).tcp j).1 = none
  wire : ∀ seg ∈ p.wire, Bare seg
  refused : ∀ i, ∀ seg ∈ p.wire, Sized seg → seg.flags = tcpFlagSyn →
    findSock (p.host i).tcp seg.srcIp seg.srcPort seg.dstPort = none →
      sendWorks (p.host i).tcp (p.host i).tcp.sends = true → ∃ p',
        step p (.deliver i seg) p' ∧ p'.wire = resetFor (p.host i).tcp seg :: p.wire
  freed : ∀ i j, ∀ seg ∈ p.wire, Sized seg → seg.flags = tcpFlagRst →
    findSock (p.host i).tcp seg.srcIp seg.srcPort seg.dstPort = some j → ∃ p',
      step p (.deliver i seg) p' ∧ ((p'.host i).tcp.socks j).used = false

def bootHost : Net where
  tcp := Net.quietNet.tcp
  nextPort := 49152

def booted : Peers Bool where
  host := fun _ => bootHost
  sending := fun _ _ => False
  wire := []

def connecting : Peers Bool := booted.put true (Tcp.call bootHost (.connectBegin 0x0100007F 80))

end System

end Peers

end Segments
