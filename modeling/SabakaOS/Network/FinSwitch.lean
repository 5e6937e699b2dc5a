import SabakaOS.Network.Retransmission

namespace Tcp

open Word

-- moves has socket i before and after each segment without RST that came once a FIN was sent.
structure Closer where
  tx : Tx
  moves : List (TcpSocket × TcpSocket)

def finSegment (i : Fin 8) (x : Tx) : Call → Prop
  | .receive srcIp seg => matchesSock x.net.tcp i srcIp seg ∧
      has (segFlags seg) tcpFlagRst = false ∧ .fin ∈ x.space
  | _ => False

instance (i : Fin 8) (x : Tx) (c : Call) : Decidable (finSegment i x c) := by
  unfold finSegment
  split
  · infer_instance
  · infer_instance

def movesBy (i : Fin 8) (x : Tx) (c : Call) : List (TcpSocket × TcpSocket) :=
  if finSegment i x c then [(x.net.tcp.socks i, (call x.net c).tcp.socks i)] else []

def switch (i : Fin 8) (y : Closer) (c : Call) : Closer :=
  { tx := transmit i y.tx c, moves := movesBy i y.tx c ++ y.moves }

def closer (i : Fin 8) : System Closer Call where
  init y := (sender i).init y.tx ∧ y.moves = []
  step y c y' := c.sized ∧ c.keeps i y.tx.net ∧ y' = switch i y c

def closing (s : TcpSocket) : Prop := s.state = .finWait1 ∨ s.state = .lastAck

-- What tcp_tick goes by when it retransmits.
structure SameTimer (s s' : TcpSocket) : Prop where
  state : s'.state = s.state
  used : s'.used = s.used
  buf : s'.retxBuf = s.retxBuf
  len : s'.retxLen = s.retxLen
  flags : s'.retxFlags = s.retxFlags
  seq : s'.retxSeq = s.retxSeq
  deadline : s'.retxDeadline = s.retxDeadline
  count : s'.retxCount = s.retxCount

structure FinKept (s s' : TcpSocket) : Prop where
  finWait2 : s.state = .finWait1 → s'.state = .finWait2 → s'.sndUna = s'.sndNxt
  closed : s.state = .lastAck → s'.state = .closed → s'.sndUna = s'.sndNxt
  pending : closing s → s'.sndUna ≠ s'.sndNxt → SameTimer s s'

def FinLaw (y : Closer) : Prop := ∀ m ∈ y.moves, FinKept m.1 m.2

-- The segments that make the switch leave TCP_FIN_WAIT_1 or TCP_LAST_ACK.
def leaves (s : TcpSocket) (seg : List UInt8) : Prop :=
  match s.state with
  | .finWait1 => has (segFlags seg) tcpFlagAck = true ∨ has (segFlags seg) tcpFlagFin = true
  | .lastAck => has (segFlags seg) tcpFlagAck = true
  | _ => False

def covers (s : TcpSocket) (seg : List UInt8) : Prop :=
  s.sndUna = s.sndNxt ∨ has (segFlags seg) tcpFlagAck = true ∧ segAck seg = s.sndNxt ∧
    seqGt s.sndNxt s.sndUna = true

def coversFin (i : Fin 8) (y : Closer) : Call → Prop
  | .receive srcIp seg => finSegment i y.tx (.receive srcIp seg) →
      leaves (y.tx.net.tcp.socks i) seg → covers (y.tx.net.tcp.socks i) seg
  | _ => True

section Segments

variable {t : TcpStack} {s : TcpSocket} {seg : List UInt8}

theorem seqGte_self (a : Nat) : seqGte a a = true := by
  unfold seqGte sub32
  rw [decide_eq_true_eq]
  omega

theorem ackUpdate_covers (s : TcpSocket) (a : Nat) :
    (ackUpdate s a).sndUna = s.sndNxt ↔
      s.sndUna = s.sndNxt ∨ a = s.sndNxt ∧ seqGt s.sndNxt s.sndUna = true := by
  unfold ackUpdate
  by_cases hok : (seqGt a s.sndUna && seqGte s.sndNxt a) = true
  · have hne : s.sndUna ≠ s.sndNxt := by
      intro he
      simp only [seqGt, seqGte, he, Bool.and_eq_true, decide_eq_true_eq] at hok
      unfold sub32 at hok
      omega
    have hgt : a = s.sndNxt → seqGt s.sndNxt s.sndUna = true := by
      rintro rfl
      exact (Bool.and_eq_true_iff.mp hok).1
    have huna : (if (a = s.sndNxt) then
        { s with sndUna := a, retxDeadline := 0, retxLen := 0, retxCount := 0 }
        else { s with sndUna := a }).sndUna = a := by
      split
      · rfl
      · rfl
    rw [if_pos hok]
    change (if (a = s.sndNxt) then _ else _ : TcpSocket).sndUna = s.sndNxt ↔ _
    rw [huna, or_iff_right hne, and_iff_left_of_imp hgt]
  · rw [if_neg hok]
    refine (or_iff_left ?_).symm
    rintro ⟨rfl, hgt⟩
    exact hok (by rw [hgt, seqGte_self]; rfl)

theorem ackUpdate_nxt (s : TcpSocket) (a : Nat) : (ackUpdate s a).sndNxt = s.sndNxt := by
  unfold ackUpdate
  split
  · dsimp only
    split
    · rfl
    · rfl
  · rfl

theorem ackField_covers (s : TcpSocket) (seg : List UInt8) :
    (ackField s seg).sndUna = s.sndNxt ↔ covers s seg := by
  unfold ackField covers
  cases has (segFlags seg) tcpFlagAck with
  | false => simp
  | true => simpa using ackUpdate_covers s (segAck seg)

theorem ackField_state (s : TcpSocket) (seg : List UInt8) : (ackField s seg).state = s.state := by
  unfold ackField
  split
  · exact (ackUpdate_kept ..).2
  · rfl

theorem ackField_nxt (s : TcpSocket) (seg : List UInt8) :
    (ackField s seg).sndNxt = s.sndNxt := by
  unfold ackField
  split
  · exact ackUpdate_nxt ..
  · rfl

theorem enterTimeWait_una (t : TcpStack) (hs : s.sndNxt < 4294967296) :
    (enterTimeWait t s).1.state = .timeWait ∧ (enterTimeWait t s).1.sndUna = s.sndUna ∧
      (enterTimeWait t s).1.sndNxt = s.sndNxt := by
  have hq := (enterTimeWait_quiet t hs).same
  exact ⟨rfl, hq.una, hq.nxt⟩

-- What the blocks after the ACK processing do to a socket whose FIN is out.
structure Processed (s : TcpSocket) (seg : List UInt8) (s' : TcpSocket) : Prop where
  una : s'.sndUna = (ackField s seg).sndUna
  nxt : s'.sndNxt = s.sndNxt
  left : leaves s seg → s'.state ≠ s.state
  stays : ¬leaves s seg → s' = s

theorem ackField_none (hack : has (segFlags seg) tcpFlagAck = false) : ackField s seg = s := by
  rw [ackField, hack]
  rfl

theorem finWait1_processed (t : TcpStack) (hs : s.sndNxt < 4294967296)
    (hst : s.state = .finWait1) :
    Processed s seg (receiveFinWait1 t (ackField s seg) seg).1 := by
  have hnxt := ackField_nxt s seg
  have hleaves : leaves s seg ↔ has (segFlags seg) tcpFlagAck = true ∨
      has (segFlags seg) tcpFlagFin = true := by rw [leaves, hst]
  rw [receiveFinWait1]
  cases hfin : has (segFlags seg) tcpFlagFin with
  | true =>
    have hw : ∀ u : TcpSocket, u.sndUna = (ackField s seg).sndUna → u.sndNxt = s.sndNxt →
        Processed s seg (enterTimeWait t u).1 := by
      intro u hu hn
      obtain ⟨h1, h2, h3⟩ := enterTimeWait_una t (hn.trans_lt hs)
      have hne : (enterTimeWait t u).1.state ≠ s.state := by
        rw [h1, hst]
        exact TcpState.noConfusion
      exact ⟨h2.trans hu, h3.trans hn, fun _ => hne, absurd (hleaves.mpr (.inr hfin))⟩
    cases has (segFlags seg) tcpFlagAck with
    | true => exact hw _ rfl hnxt
    | false => exact hw _ rfl hnxt
  | false =>
    cases hack : has (segFlags seg) tcpFlagAck with
    | true =>
      have hne : TcpState.finWait2 ≠ s.state := by
        rw [hst]
        exact TcpState.noConfusion
      exact ⟨rfl, hnxt, fun _ => hne, absurd (hleaves.mpr (.inl hack))⟩
    | false =>
      have hno : ¬leaves s seg := by
        rw [hleaves, hack, hfin]
        decide
      exact ⟨rfl, hnxt, fun h => absurd h hno, fun _ => ackField_none hack⟩

theorem lastAck_processed (hst : s.state = .lastAck) :
    Processed s seg (if has (segFlags seg) tcpFlagAck then freeSock (ackField s seg)
      else ackField s seg) := by
  have hnxt := ackField_nxt s seg
  have hleaves : leaves s seg ↔ has (segFlags seg) tcpFlagAck = true := by rw [leaves, hst]
  cases hack : has (segFlags seg) tcpFlagAck with
  | true =>
    have hne : TcpState.closed ≠ s.state := by
      rw [hst]
      exact TcpState.noConfusion
    exact ⟨rfl, hnxt, fun _ => hne, absurd (hleaves.mpr hack)⟩
  | false =>
    have hno : ¬leaves s seg := by
      rw [hleaves, hack]
      decide
    exact ⟨rfl, hnxt, fun h => absurd h hno, fun _ => ackField_none hack⟩

theorem receiveSock_processed (t : TcpStack) (a b c : Nat) (hs : s.sndNxt < 4294967296)
    (hrst : has (segFlags seg) tcpFlagRst = false) (hc : closing s) :
    Processed s seg (receiveSock t s a b c seg).1 := by
  have hst := ackField_state s seg
  rw [receiveSock_eq t s a b c hrst, receiveByState]
  rcases hc with hc | hc
  · rw [hst, hc]
    exact finWait1_processed t hs hc
  · rw [hst, hc]
    exact lastAck_processed hc

theorem leaves_closing (h : leaves s seg) : closing s := by
  unfold leaves at h
  split at h
  · exact .inl ‹_›
  · exact .inr ‹_›
  · exact h.elim

theorem finKept_iff (t : TcpStack) (a b c : Nat) (hs : s.sndNxt < 4294967296)
    (hrst : has (segFlags seg) tcpFlagRst = false) :
    FinKept s (receiveSock t s a b c seg).1 ↔ (leaves s seg → covers s seg) := by
  by_cases hc : closing s
  · have hp := receiveSock_processed t a b c hs hrst hc
    have hcov : (receiveSock t s a b c seg).1.sndUna = (receiveSock t s a b c seg).1.sndNxt ↔
        covers s seg := by rw [hp.una, hp.nxt, ackField_covers]
    constructor
    · intro h hl
      by_contra hno
      exact hp.left hl (h.pending hc (mt hcov.mp hno)).state
    · intro h
      by_cases hl : leaves s seg
      · have he := hcov.mpr (h hl)
        exact ⟨fun _ _ => he, fun _ _ => he, fun _ hne => absurd he hne⟩
      · rw [hp.stays hl]
        exact ⟨fun h1 h2 => TcpState.noConfusion (h1.symm.trans h2),
          fun h1 h2 => TcpState.noConfusion (h1.symm.trans h2),
          fun _ _ => ⟨rfl, rfl, rfl, rfl, rfl, rfl, rfl, rfl⟩⟩
  · exact iff_of_true ⟨fun h => absurd (.inl h) hc, fun h => absurd (.inr h) hc,
      fun h => absurd h hc⟩ fun h => absurd (leaves_closing h) hc

end Segments

section Ranges

variable {t : TcpStack} {s : TcpSocket} {i : Fin 8} {n : Net}

structure Ranged (s : TcpSocket) : Prop where
  nxt : s.sndNxt < 4294967296
  seq : s.retxSeq < 4294967296

theorem Ranged.ack (h : Ranged s) (a : Nat) : Ranged (ackUpdate s a) := by
  refine ⟨(ackUpdate_nxt s a).trans_lt h.nxt, ?_⟩
  unfold ackUpdate
  split
  · dsimp only
    split
    · exact h.seq
    · exact h.seq
  · exact h.seq

theorem Ranged.send (h : Ranged s) (t : TcpStack) (flags : UInt8) (payload : List UInt8)
    (save : Bool) : Ranged (tcpSendRaw t s flags payload save).2.1 := by
  cases hw : sendWorks t t.sends with
  | false =>
    rw [tcpSendRaw_fails _ _ _ _ _ hw]
    exact h
  | true =>
    rw [tcpSendRaw_works _ _ _ _ _ hw]
    refine ⟨u32_lt _, ?_⟩
    change (if (save && decide (0 < seqAdvance flags payload)) = true then
      saveRetxFields t s flags payload else s).retxSeq < 4294967296
    split
    · exact h.nxt
    · exact h.seq

theorem Ranged.same {s' : TcpSocket} (h : Ranged s) (hn : s'.sndNxt = s.sndNxt)
    (hs : s'.retxSeq = s.retxSeq) : Ranged s' :=
  ⟨hn.trans_lt h.nxt, hs.trans_lt h.seq⟩

theorem Ranged.sendAck (h : Ranged s) (t : TcpStack) : Ranged (tcpSendAck t s).1 :=
  h.send t tcpFlagAck [] false

theorem Ranged.timeWait (h : Ranged s) (t : TcpStack) : Ranged (enterTimeWait t s).1 := by
  have hnext : Ranged { s with rcvNxt := u32 (s.rcvNxt + 1) } := h.same rfl rfl
  exact (hnext.sendAck t).same rfl rfl

theorem Ranged.established (h : Ranged s) (t : TcpStack) (seg : List UInt8) :
    Ranged (receiveEstablished t s seg).1 := by
  have hdata : Ranged (if 0 < (segPayload seg).length ∧ segSeq seg = s.rcvNxt then
      tcpSendAck t (acceptPayload s (segPayload seg)) else (s, t)).1 := by
    have haccept : Ranged (acceptPayload s (segPayload seg)) := h.same rfl rfl
    split
    · exact haccept.sendAck t
    · exact h
  rw [receiveEstablished]
  dsimp only
  split
  · have hfin : ∀ u : TcpSocket, Ranged u → ∀ t', Ranged (tcpSendRaw (tcpSendAck t' { u with
        rcvNxt := u32 (u.rcvNxt + 1) }).2 { (tcpSendAck t' { u with
          rcvNxt := u32 (u.rcvNxt + 1) }).1 with state := .lastAck }
        (tcpFlagFin ||| tcpFlagAck) [] true).2.1 := by
      intro u hu t'
      have hnext : Ranged { u with rcvNxt := u32 (u.rcvNxt + 1) } := hu.same rfl rfl
      have hlast : Ranged { (tcpSendAck t' { u with rcvNxt := u32 (u.rcvNxt + 1) }).1 with
          state := .lastAck } := (hnext.sendAck t').same rfl rfl
      exact hlast.send _ _ _ _
    exact hfin _ hdata _
  · exact hdata

theorem Ranged.finWait1 (h : Ranged s) (t : TcpStack) (seg : List UInt8) :
    Ranged (receiveFinWait1 t s seg).1 := by
  have hstate : Ranged (if has (segFlags seg) tcpFlagAck then { s with state := .finWait2 }
      else s) := by
    split
    · exact h.same rfl rfl
    · exact h
  rw [receiveFinWait1]
  cases has (segFlags seg) tcpFlagFin with
  | true => exact hstate.timeWait t
  | false => exact hstate

theorem Ranged.finWait2 (h : Ranged s) (t : TcpStack) (seg : List UInt8) :
    Ranged (receiveFinWait2 t s seg).1 := by
  have hdata : Ranged (if 0 < (segPayload seg).length ∧ segSeq seg = s.rcvNxt then
      acceptPayload s (segPayload seg) else s) := by
    split
    · exact h.same rfl rfl
    · exact h
  rw [receiveFinWait2]
  cases has (segFlags seg) tcpFlagFin with
  | true => exact hdata.timeWait t
  | false => exact hdata

theorem Ranged.synSent (h : Ranged s) (t : TcpStack) (a b c : Nat) (seg : List UInt8) :
    Ranged (receiveSynSent t s a b c seg).1 := by
  rw [receiveSynSent]
  split
  · split
    · exact h.same rfl rfl
    · have hopen : Ranged { s with
          rcvNxt := u32 (segSeq seg + 1)
          sndUna := segAck seg
          state := .established
          retxDeadline := 0 } := h.same rfl rfl
      exact hopen.sendAck t
  · exact h

theorem Ranged.receive (h : Ranged s) (t : TcpStack) (a b c : Nat) (seg : List UInt8) :
    Ranged (receiveSock t s a b c seg).1 := by
  have hack : Ranged (if has (segFlags seg) tcpFlagAck then ackUpdate s (segAck seg) else s) := by
    split
    · exact h.ack _
    · exact h
  rw [receiveSock]
  split
  · exact h.same rfl rfl
  · dsimp only
    generalize (if has (segFlags seg) tcpFlagAck then ackUpdate s (segAck seg) else s) = u at hack ⊢
    split
    · exact hack.synSent ..
    · exact hack.established ..
    · exact hack.finWait1 ..
    · exact hack.finWait2 ..
    · dsimp only
      split
      · exact hack.same rfl rfl
      · exact hack
    · split
      · exact hack.timeWait _
      · exact hack
    · exact hack

theorem Ranged.tick (h : Ranged s) (t : TcpStack) (now : Nat) : Ranged (tickSock t now s).1 := by
  have hre : Ranged (doRetransmit t s).1 := by
    rw [doRetransmit]
    split
    · exact h
    · dsimp only
      split
      · exact h.same rfl rfl
      · have hback : Ranged { s with retxCount := u8 (s.retxCount + 1), sndNxt := s.retxSeq } :=
          ⟨h.seq, h.seq⟩
        exact (hback.send t s.retxFlags (s.retxBuf.take s.retxLen) false).same rfl rfl
  rw [tickSock]
  split
  · exact h
  split
  · split
    · exact h.same rfl rfl
    · exact h
  split
  · split
    · exact hre
    · exact h.same rfl rfl
  · exact h

theorem setSock_ranged (h : Ranged (t.socks i)) (j : Fin 8) {t' : TcpStack} {s' : TcpSocket}
    (ht : t'.socks = t.socks) (hs : i = j → Ranged s') : Ranged ((setSock t' j s').socks i) := by
  by_cases hij : i = j
  · subst hij
    rw [setSock_self]
    exact hs rfl
  · rw [setSock_of_ne _ hij, ht]
    exact h

theorem tcpReceive_matched {srcIp : Nat} {seg : List UInt8} (hm : matchesSock n.tcp i srcIp seg) :
    (call n (.receive srcIp seg)).tcp.socks i =
      (receiveSock n.tcp (n.tcp.socks i) srcIp (ntohs seg 0) (ntohs seg 2) seg).1 := by
  simp only [call, callTcp, tcpReceive, hm.1, hm.2, Bool.not_true, Bool.false_eq_true, if_false]
  exact setSock_self ..

theorem call_ranged (h : Ranged (n.tcp.socks i)) (c : Call) (hk : c.keeps i n) :
    Ranged ((call n c).tcp.socks i) := by
  cases c with
  | receive srcIp seg =>
    by_cases hm : matchesSock n.tcp i srcIp seg
    · rw [tcpReceive_matched hm]
      exact h.receive ..
    · rw [show (call n (.receive srcIp seg)).tcp.socks i = n.tcp.socks i from
        tcpReceive_unmatched hm]
      exact h
  | turn j =>
    refine setSock_ranged h j (tickSock_kept ..).2 ?_
    rintro rfl
    exact h.tick _ _
  | clock ticks => exact h
  | connectBegin dstIp dstPort =>
    change Ranged ((tcpConnectBegin n dstIp dstPort).2.tcp.socks i)
    rw [tcpConnectBegin_socks hk]
    exact h
  | connectEnd j =>
    change Ranged ((tcpConnectEnd n.tcp j).2.socks i)
    rw [tcpConnectEnd]
    split
    · exact setSock_ranged h j rfl (by rintro rfl; exact h.same rfl rfl)
    · exact h
  | chunk j data =>
    refine setSock_ranged h j (tcpSendRaw_kept ..).2.2 ?_
    rintro rfl
    exact h.send _ _ _ _
  | recv j maxlen =>
    change Ranged ((tcpRecv n.tcp j maxlen).2.2.socks i)
    rw [tcpRecv]
    dsimp only
    split
    · exact h
    split
    · exact h
    · exact setSock_ranged h j rfl (by rintro rfl; exact h.same rfl rfl)
  | closeBegin j =>
    change Ranged ((tcpCloseBegin n.tcp j).socks i)
    rw [tcpCloseBegin]
    split
    · refine setSock_ranged h j (tcpSendRaw_kept ..).2.2 ?_
      rintro rfl
      have hstate : Ranged { n.tcp.socks i with state := .finWait1 } := h.same rfl rfl
      exact hstate.send _ _ _ _
    · exact h
  | closeEnd j =>
    change Ranged ((tcpCloseEnd n.tcp j).socks i)
    rw [tcpCloseEnd]
    split
    · exact setSock_ranged h j rfl (by rintro rfl; exact h.same rfl rfl)
    · exact h

end Ranges

section Runs

variable {i : Fin 8} {y y' : Closer} {c : Call}

theorem connect_ranged {n n' : Net} {dstIp dstPort : Nat}
    (h : tcpConnectBegin n dstIp dstPort = (some i, n')) : Ranged (n'.tcp.socks i) := by
  have hs := connect_sending True h
  obtain ⟨acked, hle, hu, -, hsaved⟩ := hs.saved
  refine ⟨hs.nxt_lt, ?_⟩
  rcases hsaved with rfl | ⟨k, -, -, -, hseq, -⟩
  · rw [List.length_singleton] at hu
    unfold u32 at hu
    omega
  · rw [hseq]
    exact u32_lt _

def rangedInvariant (i : Fin 8) : (closer i).Invariant where
  holds y := Ranged (y.tx.net.tcp.socks i)
  start := by
    rintro y ⟨⟨n, dstIp, dstPort, hconn, -, -⟩, -⟩
    exact connect_ranged hconn
  step := by
    rintro y c y' h ⟨-, hkeeps, rfl⟩
    exact call_ranged h c hkeeps

theorem movesBy_kept (h : Ranged (y.tx.net.tcp.socks i)) (c : Call) :
    (∀ m ∈ movesBy i y.tx c, FinKept m.1 m.2) ↔ coversFin i y c := by
  rw [movesBy]
  by_cases hf : finSegment i y.tx c
  · rw [if_pos hf, List.forall_mem_singleton]
    cases c with
    | receive srcIp seg =>
      rw [tcpReceive_matched hf.1, finKept_iff _ _ _ _ h.nxt hf.2.1]
      exact ⟨fun hc _ => hc, fun hc => hc hf⟩
    | _ => exact hf.elim
  · rw [if_neg hf]
    refine iff_of_true (List.forall_mem_nil _) ?_
    cases c with
    | receive srcIp seg => exact fun hm => absurd hm hf
    | _ => trivial

theorem switch_law (h : Ranged (y.tx.net.tcp.socks i)) (c : Call) :
    FinLaw (switch i y c) ↔ FinLaw y ∧ coversFin i y c := by
  rw [FinLaw, switch, List.forall_mem_append, movesBy_kept h c, and_comm]
  rfl

theorem fin_pending_until_acknowledged (i : Fin 8) :
    (∀ y, ((closer i).restrict (coversFin i)).Reach y → FinLaw y) ∧
      ∀ y c y', (closer i).Reach y → (closer i).step y c y' → FinLaw y' → coversFin i y c := by
  constructor
  · intro y h
    induction h with
    | start hi =>
      rw [FinLaw, hi.2]
      exact List.forall_mem_nil _
    | next h ht ih =>
      obtain ⟨hc, -, -, rfl⟩ := ht
      exact (switch_law ((rangedInvariant i).reach h.of_restrict) _).mpr ⟨ih, hc⟩
  · rintro y c y' h ⟨-, -, rfl⟩ hlaw
    exact ((switch_law ((rangedInvariant i).reach h) c).mp hlaw).2

-- A socket that has connected and then sent its FIN.
def closedEarly : Closer :=
  switch 0 (switch 0 ⟨connecting (fun _ => true), []⟩ (.receive 1 synAck)) (.closeBegin 0)

-- The acknowledgement of what came before the FIN, and the one of the FIN.
def oldAck : List UInt8 :=
  [0, 80, 192, 0, 0, 0, 0, 1, 0x1E, 0xAD, 0, 1, 0x50, 0x10, 0, 0, 0, 0, 0, 0]

def finAck : List UInt8 :=
  [0, 80, 192, 0, 0, 0, 0, 1, 0x1E, 0xAD, 0, 2, 0x50, 0x10, 0, 0, 0, 0, 0, 0]

theorem closer_next (h : (closer i).Reach y) (c : Call) (hsized : c.sized)
    (hkeeps : c.keeps i y.tx.net) : (closer i).Reach (switch i y c) :=
  h.next ⟨hsized, hkeeps, rfl⟩

theorem covered_next (h : ((closer i).restrict (coversFin i)).Reach y) (c : Call)
    (hc : coversFin i y c) (hsized : c.sized) (hkeeps : c.keeps i y.tx.net) :
    ((closer i).restrict (coversFin i)).Reach (switch i y c) :=
  h.next ⟨hc, hsized, hkeeps, rfl⟩

theorem connecting_start : (closer 0).Reach ⟨connecting (fun _ => true), []⟩ :=
  .start ⟨connecting_init _ (by decide +kernel), rfl⟩

theorem fin_acknowledged_switches : FinLaw (switch 0 closedEarly (.receive 1 finAck)) ∧
    ((switch 0 closedEarly (.receive 1 finAck)).tx.net.tcp.socks 0).state = .finWait2 := by
  have h0 : ((closer 0).restrict (coversFin 0)).Reach ⟨connecting (fun _ => true), []⟩ :=
    .start ⟨connecting_init _ (by decide +kernel), rfl⟩
  have h1 := covered_next h0 (.receive 1 synAck)
    (fun hf => absurd hf.2.2 (by decide +kernel)) trivial trivial
  have h2 := covered_next h1 (.closeBegin 0) trivial trivial trivial
  have h3 := covered_next h2 (.receive 1 finAck) (fun _ _ => .inr (by decide +kernel)) trivial
    trivial
  exact ⟨(fin_pending_until_acknowledged 0).1 _ h3, by decide +kernel⟩

theorem fin_unacknowledged_fails : ¬∀ i y, (closer i).Reach y → FinLaw y := by
  intro h
  have h1 := closer_next connecting_start (.receive 1 synAck) trivial trivial
  have h2 := closer_next h1 (.closeBegin 0) trivial trivial
  have h3 := closer_next h2 (.receive 1 oldAck) trivial trivial
  have hmove : movesBy 0 closedEarly.tx (.receive 1 oldAck) = [_] := if_pos (by decide +kernel)
  have hkept := h 0 _ h3 _ (List.mem_append_left _ (hmove ▸ List.mem_singleton_self _))
  exact absurd (hkept.finWait2 (by decide +kernel) (by decide +kernel)) (by decide +kernel)

end Runs

end Tcp
