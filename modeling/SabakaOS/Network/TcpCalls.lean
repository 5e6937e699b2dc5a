import SabakaOS.Network.TcpStream

namespace Tcp

open Word

structure Net where
  tcp : TcpStack
  nextPort : Nat

def allocSock (t : TcpStack) : Option (Fin 8) :=
  (List.finRange 8).find? (fun i => !(t.socks i).used)

def portUsed (t : TcpStack) (p : Nat) : Bool :=
  (List.finRange 8).any (fun i => (t.socks i).used && (t.socks i).localPort == p)

-- The port and the new s_next_port, with the tries that are left.
def nextEphemeralFrom (t : TcpStack) : Nat → Nat → Nat × Nat
  | 0, p => (p, u16 (p + 1))
  | tries + 1, p =>
    let after := if 65535 ≤ p then 49152 else p + 1
    if portUsed t p then nextEphemeralFrom t tries after else (p, after)

def nextEphemeral (t : TcpStack) (nextPort : Nat) : Nat × Nat := nextEphemeralFrom t 16384 nextPort

def initialSeq (uptime port : Nat) : Nat :=
  u32 (uptime * 7919) ^^^ u32 (port * 65536) ^^^ 0xDEAD0000

-- tcp_connect up to its wait: the socket, or none when there is none or the SYN was not sent.
def tcpConnectBegin (n : Net) (dstIp dstPort : Nat) : Option (Fin 8) × Net :=
  match allocSock n.tcp with
  | none => (none, n)
  | some i =>
    let t := setSock n.tcp i { blankSocket with used := true, remoteIp := dstIp }
    let p := nextEphemeral t n.nextPort
    let seq := initialSeq (pitUptimeMs t) p.1
    let r := tcpSendRaw t { blankSocket with
      used := true
      remoteIp := dstIp
      localPort := p.1
      remotePort := dstPort
      sndNxt := seq
      sndUna := seq
      state := .synSent } tcpFlagSyn [] true
    if r.1 then (some i, { tcp := setSock r.2.2 i r.2.1, nextPort := p.2 })
    else (none, { tcp := setSock r.2.2 i (freeSock r.2.1), nextPort := p.2 })

def tcpConnectEnd (t : TcpStack) (i : Fin 8) : Option (Fin 8) × TcpStack :=
  if (t.socks i).state ≠ .established then (none, setSock t i (freeSock (t.socks i)))
  else (some i, t)

def connectWaitOver (deadline : Nat) (i : Fin 8) (t : TcpStack) : Bool :=
  deadline ≤ pitUptimeMs t || (t.socks i).state == .established || !(t.socks i).used ||
    (t.socks i).state == .closed

def connectWait (deadline : Nat) (i : Fin 8) (t : TcpStack) : List Irq → Option TcpStack
  | [] => if connectWaitOver deadline i t then some t else none
  | e :: es =>
    if connectWaitOver deadline i t then some t else connectWait deadline i (irq t e) es

def tcpConnect (n : Net) (dstIp dstPort timeoutMs : Nat) (irqs : List Irq) :
    Option (Option (Fin 8) × Net) :=
  let b := tcpConnectBegin n dstIp dstPort
  match b.1 with
  | none => some (none, b.2)
  | some i =>
    (connectWait (u32 (pitUptimeMs b.2.tcp + timeoutMs)) i b.2.tcp irqs).map (fun t =>
      ((tcpConnectEnd t i).1, { b.2 with tcp := (tcpConnectEnd t i).2 }))

def sendChunk (t : TcpStack) (i : Fin 8) (chunk : List UInt8) : Bool × TcpStack :=
  let r := tcpSendRaw t (t.socks i) (tcpFlagAck ||| tcpFlagPsh) chunk true
  (r.1, setSock r.2.2 i r.2.1)

inductive Waited where
  | next (t : TcpStack) (irqs : List Irq)
  | gone (t : TcpStack)

-- One look of tcp_send's wait loop: what it does without another sti; hlt; cli.
def sendLook (deadline : Nat) (i : Fin 8) (t : TcpStack) (irqs : List Irq) : Option Waited :=
  if deadline ≤ pitUptimeMs t then some (.next t irqs)
  else if (t.socks i).sndUna = (t.socks i).sndNxt then some (.next t irqs)
  else if !(t.socks i).used then some (.gone t)
  else none

def sendWait (deadline : Nat) (i : Fin 8) (t : TcpStack) : List Irq → Option Waited
  | [] => sendLook deadline i t []
  | e :: es =>
    match sendLook deadline i t (e :: es) with
    | some w => some w
    | none => sendWait deadline i (irq t e) es

-- The loop of tcp_send; it looks at used only while it waits, and never again at the state.
def sendLoop (t : TcpStack) (i : Fin 8) (sent : Nat) (data : List UInt8) (irqs : List Irq) :
    Option (Int × TcpStack) :=
  if h : data = [] then some (sent, t)
  else
    let r := sendChunk t i (data.take tcpMss)
    if r.1 then
      let sent := sent + (data.take tcpMss).length
      match sendWait (u32 (pitUptimeMs r.2 + tcpRetxTimeoutMs * 3)) i r.2 irqs with
      | none => none
      | some (.gone t') => some (sent, t')
      | some (.next t' irqs') => sendLoop t' i sent (data.drop tcpMss) irqs'
    else some (if 0 < sent then sent else -1, r.2)
termination_by data.length
decreasing_by
  have := List.length_pos_iff.mpr h
  rw [List.length_drop, tcpMss]
  omega

def tcpSend (t : TcpStack) (i : Fin 8) (data : List UInt8) (irqs : List Irq) :
    Option (Int × TcpStack) :=
  if !(t.socks i).used ∨ (t.socks i).state ≠ .established then some (-1, t)
  else sendLoop t i 0 data irqs

-- One turn of the loop of tcp_tick.
def tickTurn (t : TcpStack) (j : Fin 8) : TcpStack :=
  let r := tickSock t (pitUptimeMs t) (t.socks j)
  setSock r.2 j r.1

inductive Call where
  | receive (srcIp : Nat) (seg : List UInt8)
  | turn (j : Fin 8)
  | clock (ticks : Nat)
  | connectBegin (dstIp dstPort : Nat)
  | connectEnd (j : Fin 8)
  | chunk (j : Fin 8) (data : List UInt8)
  | recv (j : Fin 8) (maxlen : Nat)
  | closeBegin (j : Fin 8)
  | closeEnd (j : Fin 8)

def callTcp (t : TcpStack) : Call → TcpStack
  | .receive srcIp seg => tcpReceive t srcIp seg
  | .turn j => tickTurn t j
  | .clock ticks => { t with pitTickCount := u32 (t.pitTickCount + ticks) }
  | .connectBegin _ _ => t
  | .connectEnd j => (tcpConnectEnd t j).2
  | .chunk j data => (sendChunk t j data).2
  | .recv j maxlen => (tcpRecv t j maxlen).2.2
  | .closeBegin j => tcpCloseBegin t j
  | .closeEnd j => tcpCloseEnd t j

def call (n : Net) : Call → Net
  | .connectBegin dstIp dstPort => (tcpConnectBegin n dstIp dstPort).2
  | c => { n with tcp := callTcp n.tcp c }

-- tcp_send never passes an empty chunk or one above TCP_MSS.
def Call.sized : Call → Prop
  | .chunk _ data => 0 < data.length ∧ data.length ≤ tcpMss
  | _ => True

def Call.opens : Call → Bool
  | .connectBegin _ _ => true
  | _ => false

-- The run is the life of one connection: no call puts another one into slot i.
def Call.keeps (i : Fin 8) (n : Net) : Call → Prop
  | .connectBegin _ _ => allocSock n.tcp ≠ some i
  | _ => True

def sendWorks (t : TcpStack) (n : Nat) : Bool := t.kmallocOk n && t.sendOk n

def rawSegment (t : TcpStack) (s : TcpSocket) (flags : UInt8) (payload : List UInt8) : Segment :=
  { srcIp := t.myIp
    dstIp := s.remoteIp
    srcPort := s.localPort
    dstPort := s.remotePort
    seq := s.sndNxt
    ackSeq := if has flags tcpFlagAck then s.rcvNxt else 0
    flags := flags
    window := tcpWindow
    payload := payload }

-- What a successful tcp_send_raw leaves in the socket.
def advanced (t : TcpStack) (s : TcpSocket) (flags : UInt8) (payload : List UInt8)
    (saveRetx : Bool) : TcpSocket :=
  let s' := if saveRetx && decide (0 < seqAdvance flags payload) then
    saveRetxFields t s flags payload else s
  { s' with sndNxt := u32 (s.sndNxt + seqAdvance flags payload) }

section Sending

variable (t : TcpStack) (s : TcpSocket) (flags : UInt8) (payload : List UInt8) (save : Bool)

theorem tcpSendRaw_eq : tcpSendRaw t s flags payload save =
    if sendWorks t t.sends then
      (true, advanced t s flags payload save,
        { t with sends := t.sends + 1, sent := rawSegment t s flags payload :: t.sent })
    else (false, s, { t with sends := t.sends + 1 }) := by
  unfold tcpSendRaw sendWorks
  cases t.kmallocOk t.sends with
  | false => rfl
  | true =>
    cases t.sendOk t.sends with
    | false => rfl
    | true =>
      simp only [advanced, rawSegment, Bool.not_true, Bool.false_eq_true, if_false, Bool.and_self,
        if_true]
      split
      · rfl
      · rfl

theorem tcpSendRaw_works (h : sendWorks t t.sends = true) : tcpSendRaw t s flags payload save =
    (true, advanced t s flags payload save,
      { t with sends := t.sends + 1, sent := rawSegment t s flags payload :: t.sent }) := by
  rw [tcpSendRaw_eq, if_pos h]

theorem tcpSendRaw_fails (h : sendWorks t t.sends = false) :
    tcpSendRaw t s flags payload save = (false, s, { t with sends := t.sends + 1 }) := by
  rw [tcpSendRaw_eq, h]
  rfl

end Sending

-- Nothing of the stack but the transmit log and the count of calls.
structure Emits (t t' : TcpStack) (segs : List Segment) : Prop where
  stack : t' = { t with sends := t'.sends, sent := segs ++ t.sent }

theorem Emits.refl (t : TcpStack) : Emits t t [] := ⟨rfl⟩

theorem Emits.trans {t t' t'' : TcpStack} {segs segs' : List Segment} (h : Emits t t' segs)
    (h' : Emits t' t'' segs') : Emits t t'' (segs' ++ segs) := by
  constructor
  rw [h'.stack, h.stack, List.append_assoc]

theorem Emits.sent {t t' : TcpStack} {segs : List Segment} (h : Emits t t' segs) :
    t'.sent = segs ++ t.sent := by
  rw [h.stack]

theorem Emits.socks {t t' : TcpStack} {segs : List Segment} (h : Emits t t' segs) :
    t'.socks = t.socks := by
  rw [h.stack]

theorem Emits.uptime {t t' : TcpStack} {segs : List Segment} (h : Emits t t' segs) :
    pitUptimeMs t' = pitUptimeMs t := by
  rw [h.stack]
  rfl

theorem tcpSendRaw_emits (t : TcpStack) (s : TcpSocket) (flags : UInt8) (payload : List UInt8)
    (save : Bool) : Emits t (tcpSendRaw t s flags payload save).2.2
      (if sendWorks t t.sends then [rawSegment t s flags payload] else []) := by
  rw [tcpSendRaw_eq]
  split
  · exact ⟨rfl⟩
  · exact ⟨rfl⟩

theorem doRetransmit_emits (t : TcpStack) (s : TcpSocket) :
    ∃ segs, Emits t (doRetransmit t s).2 segs := by
  unfold doRetransmit
  simp only
  split
  · exact ⟨[], .refl t⟩
  split
  · exact ⟨[], .refl t⟩
  · exact ⟨_, tcpSendRaw_emits ..⟩

theorem tickSock_emits (t : TcpStack) (now : Nat) (s : TcpSocket) :
    ∃ segs, Emits t (tickSock t now s).2 segs := by
  unfold tickSock
  split
  · exact ⟨[], .refl t⟩
  split
  · exact ⟨[], .refl t⟩
  split
  · split
    · exact doRetransmit_emits t s
    · exact ⟨[], .refl t⟩
  · exact ⟨[], .refl t⟩

theorem setSock_uptime (t : TcpStack) (i : Fin 8) (s : TcpSocket) :
    pitUptimeMs (setSock t i s) = pitUptimeMs t := rfl

theorem tickTurn_uptime (t : TcpStack) (j : Fin 8) : pitUptimeMs (tickTurn t j) = pitUptimeMs t := by
  obtain ⟨segs, h⟩ := tickSock_emits t (pitUptimeMs t) (t.socks j)
  rw [tickTurn, setSock_uptime, h.uptime]

theorem tick_foldl_turns (js : List (Fin 8)) (t : TcpStack) {now : Nat} (h : now = pitUptimeMs t) :
    js.foldl (fun t j =>
      let r := tickSock t now (t.socks j)
      setSock r.2 j r.1) t = js.foldl tickTurn t := by
  induction js generalizing t with
  | nil => rfl
  | cons j js ih =>
    subst h
    exact ih (tickTurn t j) (tickTurn_uptime t j).symm

theorem tcpTick_eq_turns (t : TcpStack) : tcpTick t = (List.finRange 8).foldl tickTurn t :=
  tick_foldl_turns _ t rfl

section Calls

variable {n : Net} {t t' : TcpStack} {i : Fin 8}

def calls (n : Net) (cs : List Call) : Net := cs.foldl call n

theorem calls_append (n : Net) (cs cs' : List Call) : calls n (cs ++ cs') = calls (calls n cs) cs' :=
  List.foldl_append

-- Every function of tcp.cpp is a sequence of calls, tcp_connect with a connectBegin first.
def Called (n n' : Net) : Prop :=
  ∃ cs : List Call, (∀ c ∈ cs, c.sized ∧ c.opens = false) ∧ calls n cs = n'

theorem Called.refl (n : Net) : Called n n := ⟨[], List.forall_mem_nil _, rfl⟩

theorem Called.of_call (n : Net) (c : Call) (h : c.sized ∧ c.opens = false) : Called n (call n c) :=
  ⟨[c], List.forall_mem_singleton.mpr h, rfl⟩

theorem Called.trans {n n' n'' : Net} (h : Called n n') (h' : Called n' n'') : Called n n'' := by
  obtain ⟨cs, hs, rfl⟩ := h
  obtain ⟨cs', hs', rfl⟩ := h'
  exact ⟨cs ++ cs', List.forall_mem_append.mpr ⟨hs, hs'⟩, calls_append n cs cs'⟩

theorem turns_called (js : List (Fin 8)) (n : Net) :
    Called n { n with tcp := js.foldl tickTurn n.tcp } := by
  induction js generalizing n with
  | nil => exact .refl n
  | cons j js ih => exact (Called.of_call n (.turn j) ⟨trivial, rfl⟩).trans (ih _)

theorem irq_called (n : Net) (e : Irq) : Called n { n with tcp := irq n.tcp e } := by
  cases e with
  | receive srcIp seg => exact .of_call n (.receive srcIp seg) ⟨trivial, rfl⟩
  | tick =>
    rw [irq, tcpTick_eq_turns]
    exact turns_called _ n
  | clock ticks => exact .of_call n (.clock ticks) ⟨trivial, rfl⟩

theorem closeWait_called {deadline : Nat} (irqs : List Irq) (n : Net)
    (h : closeWait deadline i n.tcp irqs = some t') : Called n { n with tcp := t' } := by
  induction irqs generalizing n with
  | nil =>
    simp only [closeWait, Option.ite_none_right_eq_some, Option.some.injEq] at h
    rw [← h.2]
    exact .refl n
  | cons e es ih =>
    rw [closeWait] at h
    split at h
    · rw [← Option.some.inj h]
      exact .refl n
    · exact (irq_called n e).trans (ih { n with tcp := irq n.tcp e } h)

theorem tcpClose_called (irqs : List Irq) (n : Net) (h : tcpClose n.tcp i irqs = some t') :
    Called n { n with tcp := t' } := by
  unfold tcpClose at h
  split at h
  · rw [← Option.some.inj h]
    exact .refl n
  split at h
  · obtain ⟨w, hw, rfl⟩ := Option.map_eq_some_iff.mp h
    have hbegin := Called.of_call n (.closeBegin i) ⟨trivial, rfl⟩
    have hwait := closeWait_called irqs (call n (.closeBegin i)) hw
    exact (hbegin.trans hwait).trans (.of_call { n with tcp := w } (.closeEnd i) ⟨trivial, rfl⟩)
  · rw [← Option.some.inj h]
    exact .of_call n (.closeEnd i) ⟨trivial, rfl⟩

theorem connectWait_called {deadline : Nat} (irqs : List Irq) (n : Net)
    (h : connectWait deadline i n.tcp irqs = some t') : Called n { n with tcp := t' } := by
  induction irqs generalizing n with
  | nil =>
    simp only [connectWait, Option.ite_none_right_eq_some, Option.some.injEq] at h
    rw [← h.2]
    exact .refl n
  | cons e es ih =>
    rw [connectWait] at h
    split at h
    · rw [← Option.some.inj h]
      exact .refl n
    · exact (irq_called n e).trans (ih { n with tcp := irq n.tcp e } h)

theorem tcpConnect_called {dstIp dstPort timeoutMs : Nat} (irqs : List Irq) (n : Net)
    {r : Option (Fin 8)} {n' : Net}
    (h : tcpConnect n dstIp dstPort timeoutMs irqs = some (r, n')) :
    Called (call n (.connectBegin dstIp dstPort)) n' := by
  unfold tcpConnect at h
  simp only at h
  split at h
  · rw [← (Prod.mk.inj (Option.some.inj h)).2]
    exact .refl _
  · rename_i i _
    obtain ⟨w, hw, he⟩ := Option.map_eq_some_iff.mp h
    rw [← (Prod.mk.inj he).2]
    have hwait := connectWait_called irqs (call n (.connectBegin dstIp dstPort)) hw
    exact hwait.trans
      (.of_call { (tcpConnectBegin n dstIp dstPort).2 with tcp := w } (.connectEnd i) ⟨trivial, rfl⟩)

theorem sendLook_stack {deadline : Nat} {irqs : List Irq} {w : Waited}
    (h : sendLook deadline i t irqs = some w) : w = .next t irqs ∨ w = .gone t := by
  unfold sendLook at h
  split at h
  · exact .inl (Option.some.inj h).symm
  split at h
  · exact .inl (Option.some.inj h).symm
  split at h
  · exact .inr (Option.some.inj h).symm
  · cases h

def Waited.stack : Waited → TcpStack
  | .next t _ => t
  | .gone t => t

theorem sendWait_called {deadline : Nat} (irqs : List Irq) (n : Net) {w : Waited}
    (h : sendWait deadline i n.tcp irqs = some w) : Called n { n with tcp := w.stack } := by
  induction irqs generalizing n with
  | nil =>
    rcases sendLook_stack h with rfl | rfl
    · exact .refl n
    · exact .refl n
  | cons e es ih =>
    rw [sendWait] at h
    split at h
    · rename_i w' hlook
      obtain rfl := Option.some.inj h
      rcases sendLook_stack hlook with rfl | rfl
      · exact .refl n
      · exact .refl n
    · exact (irq_called n e).trans (ih { n with tcp := irq n.tcp e } h)

theorem take_mss_sized (i : Fin 8) {data : List UInt8} (h : data ≠ []) :
    (Call.chunk i (data.take tcpMss)).sized := by
  have := List.length_pos_iff.mpr h
  rw [Call.sized, List.length_take, tcpMss]
  omega

theorem sendLoop_called (sent : Nat) (data : List UInt8) (irqs : List Irq) (n : Net) {r : Int}
    (h : sendLoop n.tcp i sent data irqs = some (r, t')) : Called n { n with tcp := t' } := by
  induction hlen : data.length using Nat.strong_induction_on generalizing n sent data irqs with
  | _ len ih =>
    rw [sendLoop] at h
    split at h
    · rw [← (Prod.mk.inj (Option.some.inj h)).2]
      exact .refl n
    · rename_i hne
      have hpos := List.length_pos_iff.mpr hne
      have hchunk := Called.of_call n (.chunk i (data.take tcpMss)) ⟨take_mss_sized i hne, rfl⟩
      simp only at h
      split at h
      · split at h
        · cases h
        · rename_i w hw
          rw [← (Prod.mk.inj (Option.some.inj h)).2]
          exact hchunk.trans
            (sendWait_called irqs (call n (.chunk i (data.take tcpMss))) hw)
        · rename_i w irqs' hw
          have hwait := sendWait_called irqs (call n (.chunk i (data.take tcpMss))) hw
          refine (hchunk.trans hwait).trans
            (ih (data.drop tcpMss).length ?_ _ _ irqs' { n with tcp := w } h rfl)
          rw [List.length_drop, tcpMss]
          omega
      · rw [← (Prod.mk.inj (Option.some.inj h)).2]
        exact hchunk

theorem tcpSend_called (data : List UInt8) (irqs : List Irq) (n : Net) {r : Int}
    (h : tcpSend n.tcp i data irqs = some (r, t')) : Called n { n with tcp := t' } := by
  unfold tcpSend at h
  split at h
  · rw [← (Prod.mk.inj (Option.some.inj h)).2]
    exact .refl n
  · exact sendLoop_called 0 data irqs n h

end Calls

theorem setSock_eta (t : TcpStack) (i : Fin 8) : setSock t i (t.socks i) = t := by
  rw [setSock, Function.update_eq_self]

theorem tcpConnectBegin_socks {n : Net} {i : Fin 8} {dstIp dstPort : Nat} (h : allocSock n.tcp ≠ some i) :
    ((tcpConnectBegin n dstIp dstPort).2).tcp.socks i = n.tcp.socks i := by
  unfold tcpConnectBegin
  split
  · rfl
  · rename_i j hj
    have hij : i ≠ j := by
      rintro rfl
      exact h hj
    simp only
    split
    · simp only [setSock_of_ne _ hij]
      rw [(tcpSendRaw_kept ..).2.2, setSock_of_ne _ hij]
    · simp only [setSock_of_ne _ hij]
      rw [(tcpSendRaw_kept ..).2.2, setSock_of_ne _ hij]

theorem tcpReceive_unmatched {t : TcpStack} {i : Fin 8} {srcIp : Nat} {seg : List UInt8}
    (hm : ¬ matchesSock t i srcIp seg) : (tcpReceive t srcIp seg).socks i = t.socks i := by
  unfold tcpReceive
  split
  · rfl
  rename_i hw
  simp only
  split
  · split
    · exact congrFun (tcpSendRstFor_socks ..) i
    · rfl
  · rename_i j hj
    have hij : i ≠ j := by
      rintro rfl
      exact hm ⟨by simpa using hw, hj⟩
    rw [setSock_of_ne _ hij, receiveSock_socks]

end Tcp
