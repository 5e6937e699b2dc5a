import SabakaOS.Network.TcpCalls

namespace Tcp

open Word

inductive SeqUnit where
  | syn
  | byte (b : UInt8)
  | fin
  deriving DecidableEq

def SeqUnit.isByte : SeqUnit → Bool
  | .byte _ => true
  | _ => false

def unitsOf (flags : UInt8) (payload : List UInt8) : List SeqUnit :=
  (if has flags tcpFlagSyn then [.syn] else []) ++ payload.map .byte ++
    (if has flags tcpFlagFin then [.fin] else [])

-- The transmit log has its latest segment first.
def emitted (segs : List Segment) : List SeqUnit :=
  segs.reverse.flatMap (fun seg => unitsOf seg.flags seg.payload)

def savedUnits (s : TcpSocket) : List SeqUnit := unitsOf s.retxFlags (s.retxBuf.take s.retxLen)

def actsOn (i : Fin 8) (t : TcpStack) : Call → Bool
  | .receive srcIp seg => decide (matchesSock t i srcIp seg)
  | .turn j => j == i
  | .clock _ => false
  | .connectBegin _ _ => false
  | .connectEnd j => j == i
  | .chunk j _ => j == i
  | .recv j _ => j == i
  | .closeBegin j => j == i
  | .closeEnd j => j == i

def newSegments (t t' : TcpStack) : List Segment := t'.sent.take (t'.sent.length - t.sent.length)

-- The sequence space that the call transmits on socket i for the first time.
def firstUnits (i : Fin 8) (n : Net) (c : Call) : List SeqUnit :=
  match c with
  | .turn _ => []
  | c => if actsOn i n.tcp c then emitted (newSegments n.tcp (call n c).tcp) else []

structure Tx where
  net : Net
  iss : Nat
  space : List SeqUnit

def transmit (i : Fin 8) (x : Tx) (c : Call) : Tx :=
  { x with net := call x.net c, space := x.space ++ firstUnits i x.net c }

def sender (i : Fin 8) : System Tx Call where
  init x := ∃ n dstIp dstPort, tcpConnectBegin n dstIp dstPort = (some i, x.net) ∧
    x.iss = (x.net.tcp.socks i).sndUna ∧ x.space = [.syn]
  step x c x' := c.sized ∧ c.keeps i x.net ∧ x' = transmit i x c

-- What tcp_receive does with the ACK field before it looks at the state.
def ackField (s : TcpSocket) (seg : List UInt8) : TcpSocket :=
  if has (segFlags seg) tcpFlagAck then ackUpdate s (segAck seg) else s

-- What it does then, with the ACK field already taken in.
def receiveByState (t : TcpStack) (s : TcpSocket) (srcIp srcPort dstPort : Nat)
    (seg : List UInt8) : TcpSocket × TcpStack :=
  match s.state with
  | .synSent => receiveSynSent t s srcIp srcPort dstPort seg
  | .established => receiveEstablished t s seg
  | .finWait1 => receiveFinWait1 t s seg
  | .finWait2 => receiveFinWait2 t s seg
  | .lastAck => (if has (segFlags seg) tcpFlagAck then freeSock s else s, t)
  | .timeWait => if has (segFlags seg) tcpFlagFin then enterTimeWait t s else (s, t)
  | _ => (s, t)

theorem receiveSock_eq (t : TcpStack) (s : TcpSocket) (srcIp srcPort dstPort : Nat)
    {seg : List UInt8} (hrst : has (segFlags seg) tcpFlagRst = false) :
    receiveSock t s srcIp srcPort dstPort seg =
      receiveByState t (ackField s seg) srcIp srcPort dstPort seg := by
  rw [receiveSock, hrst, if_neg Bool.false_ne_true]
  rfl

-- The tcp_send_raw of the FIN with which an established socket answers a FIN.
def finReplyIndex (t : TcpStack) (s : TcpSocket) (seg : List UInt8) : Nat :=
  t.sends + (if 0 < (segPayload seg).length ∧ segSeq seg = s.rcvNxt then 2 else 1)

-- The socket just before the call sends new sequence space, and how much of it.
def firstSend (i : Fin 8) (t : TcpStack) : Call → Option (TcpSocket × Nat)
  | .receive srcIp seg =>
    if matchesSock t i srcIp seg ∧ has (segFlags seg) tcpFlagRst = false ∧
        has (segFlags seg) tcpFlagFin = true ∧ (t.socks i).state = .established ∧
        sendWorks t (finReplyIndex t (t.socks i) seg) then some (ackField (t.socks i) seg, 1)
    else none
  | .chunk j data => if j = i ∧ sendWorks t t.sends then some (t.socks i, data.length) else none
  | .closeBegin j =>
    if j = i ∧ (t.socks i).used ∧ (t.socks i).state = .established ∧ sendWorks t t.sends then
      some (t.socks i, 1)
    else none
  | _ => none

def resends (now : Nat) (s : TcpSocket) : Bool :=
  s.used && s.state != .timeWait && decide (s.retxDeadline ≠ 0 ∧ s.retxDeadline ≤ now) &&
    seqGt s.sndNxt s.sndUna &&
    !decide (s.retxLen = 0 ∧ !has s.retxFlags (tcpFlagSyn ||| tcpFlagFin)) &&
    decide (u8 (s.retxCount + 1) ≤ tcpMaxRetx)

def resendWorks (i : Fin 8) (t : TcpStack) : Call → Prop
  | .turn j => j = i → resends (pitUptimeMs t) (t.socks i) = true → sendWorks t t.sends = true
  | _ => True

def inRoom (i : Fin 8) (t : TcpStack) (c : Call) : Prop :=
  ∀ p ∈ firstSend i t c, sub32 p.1.sndNxt p.1.sndUna + p.2 < 2147483648

def allAcknowledged (i : Fin 8) (t : TcpStack) (c : Call) : Prop :=
  ∀ p ∈ firstSend i t c, p.1.sndUna = p.1.sndNxt

def opening (q : TcpState) : Prop := q = .synSent ∨ q = .established

-- whole: the saved segment reaches back to snd_una.
structure Sending (whole : Prop) (iss : Nat) (space : List SeqUnit) (s : TcpSocket) : Prop where
  nxt : s.sndNxt = u32 (iss + space.length)
  saved : ∃ acked ≤ space.length, s.sndUna = u32 (iss + acked) ∧
    space.length - acked < 2147483648 ∧ (acked = space.length ∨
      ∃ k ≤ space.length, (whole → k ≤ acked) ∧ space.length - k < 2147483648 ∧
        s.retxSeq = u32 (iss + k) ∧ savedUnits s = space.drop k)
  syns : space.count .syn = 1
  fins : space.count .fin ≤ 1
  closing : .fin ∈ space → ¬ opening s.state

structure SameSend (s s' : TcpSocket) : Prop where
  nxt : s'.sndNxt = s.sndNxt
  una : s'.sndUna = s.sndUna
  seq : s'.retxSeq = s.retxSeq
  units : savedUnits s' = savedUnits s
  opened : opening s'.state → opening s.state

theorem SameSend.refl (s : TcpSocket) : SameSend s s := ⟨rfl, rfl, rfl, rfl, id⟩

theorem SameSend.trans {s s' s'' : TcpSocket} (h : SameSend s s') (h' : SameSend s' s'') :
    SameSend s s'' where
  nxt := h'.nxt.trans h.nxt
  una := h'.una.trans h.una
  seq := h'.seq.trans h.seq
  units := h'.units.trans h.units
  opened e := h.opened (h'.opened e)

theorem unitsOf_length (flags : UInt8) (payload : List UInt8) :
    (unitsOf flags payload).length = seqAdvance flags payload := by
  unfold unitsOf seqAdvance
  cases has flags tcpFlagSyn with
  | false =>
    cases has flags tcpFlagFin with
    | false => simp
    | true => simp
  | true =>
    cases has flags tcpFlagFin with
    | false => simp
    | true => simp

theorem unitsOf_ack : unitsOf tcpFlagAck [] = [] := by decide

theorem unitsOf_rst : unitsOf tcpFlagRst [] = [] := by decide

theorem unitsOf_chunk (data : List UInt8) :
    unitsOf (tcpFlagAck ||| tcpFlagPsh) data = data.map .byte := by
  have hsyn : has (tcpFlagAck ||| tcpFlagPsh) tcpFlagSyn = false := by decide
  have hfin : has (tcpFlagAck ||| tcpFlagPsh) tcpFlagFin = false := by decide
  simp [unitsOf, hsyn, hfin]

theorem unitsOf_count_syn (flags : UInt8) (payload : List UInt8) :
    (unitsOf flags payload).count .syn = if has flags tcpFlagSyn then 1 else 0 := by
  have hmap : (payload.map SeqUnit.byte).count .syn = 0 := List.count_eq_zero.mpr (by simp)
  unfold unitsOf
  rw [List.count_append, List.count_append, hmap]
  cases has flags tcpFlagSyn with
  | false => cases has flags tcpFlagFin <;> rfl
  | true => cases has flags tcpFlagFin <;> rfl

theorem unitsOf_count_fin (flags : UInt8) (payload : List UInt8) :
    (unitsOf flags payload).count .fin = if has flags tcpFlagFin then 1 else 0 := by
  have hmap : (payload.map SeqUnit.byte).count .fin = 0 := List.count_eq_zero.mpr (by simp)
  unfold unitsOf
  rw [List.count_append, List.count_append, hmap]
  cases has flags tcpFlagSyn with
  | false => cases has flags tcpFlagFin <;> rfl
  | true => cases has flags tcpFlagFin <;> rfl

theorem emitted_append (segs segs' : List Segment) :
    emitted (segs' ++ segs) = emitted segs ++ emitted segs' := by
  rw [emitted, List.reverse_append, List.flatMap_append]
  rfl

theorem emitted_singleton (seg : Segment) : emitted [seg] = unitsOf seg.flags seg.payload := by
  simp [emitted]

theorem newSegments_of_emits {t t' : TcpStack} {segs : List Segment} (h : Emits t t' segs) :
    newSegments t t' = segs := by
  rw [newSegments, h.sent, List.length_append, Nat.add_sub_cancel, List.take_left]

-- No sequence space is sent for the first time.
structure Quiet (t : TcpStack) (s : TcpSocket) (r : TcpSocket × TcpStack) : Prop where
  same : SameSend s r.1
  emits : ∃ segs, Emits t r.2 segs ∧ emitted segs = []

theorem Quiet.of_same {s s' : TcpSocket} (t : TcpStack) (h : SameSend s s') : Quiet t s (s', t) :=
  ⟨h, [], .refl t, rfl⟩

theorem Quiet.trans {t : TcpStack} {s : TcpSocket} {r r' : TcpSocket × TcpStack}
    (h : Quiet t s r) (h' : Quiet r.2 r.1 r') : Quiet t s r' := by
  obtain ⟨segs, he, hu⟩ := h.emits
  obtain ⟨segs', he', hu'⟩ := h'.emits
  refine ⟨h.same.trans h'.same, segs' ++ segs, he.trans he', ?_⟩
  rw [emitted_append, hu, hu', List.append_nil]

theorem freeSock_same (s : TcpSocket) : SameSend s (freeSock s) :=
  ⟨rfl, rfl, rfl, rfl, fun h => by simp [freeSock, opening] at h⟩

theorem acceptPayload_same (s : TcpSocket) (payload : List UInt8) :
    SameSend s (acceptPayload s payload) := ⟨rfl, rfl, rfl, rfl, id⟩

section Quiet

variable {t : TcpStack} {s : TcpSocket}

theorem tcpSendAck_quiet (t : TcpStack) (hs : s.sndNxt < 4294967296) : Quiet t s (tcpSendAck t s) := by
  cases hw : sendWorks t t.sends with
  | false =>
    rw [tcpSendAck, tcpSendRaw_fails _ _ _ _ _ hw]
    exact ⟨.refl s, [], ⟨rfl⟩, rfl⟩
  | true =>
    rw [tcpSendAck, tcpSendRaw_works _ _ _ _ _ hw]
    refine ⟨⟨u32_of_lt hs, rfl, rfl, rfl, id⟩, [rawSegment t s tcpFlagAck []], ⟨rfl⟩, ?_⟩
    exact (emitted_singleton _).trans unitsOf_ack

theorem enterTimeWait_quiet (t : TcpStack) (hs : s.sndNxt < 4294967296) :
    Quiet t s (enterTimeWait t s) := by
  obtain ⟨hk, he⟩ := tcpSendAck_quiet (s := { s with rcvNxt := u32 (s.rcvNxt + 1) }) t hs
  exact ⟨⟨hk.nxt, hk.una, hk.seq, hk.units, fun h => by simp [enterTimeWait, opening] at h⟩, he⟩

theorem receiveFinWait1_quiet (t : TcpStack) (hs : s.sndNxt < 4294967296) (seg : List UInt8) :
    Quiet t s (receiveFinWait1 t s seg) := by
  unfold receiveFinWait1
  simp only
  have hack : SameSend s (if has (segFlags seg) tcpFlagAck then { s with state := .finWait2 }
      else s) := by
    split
    · exact ⟨rfl, rfl, rfl, rfl, fun h => by simp [opening] at h⟩
    · exact .refl s
  split
  · exact (Quiet.of_same t hack).trans (enterTimeWait_quiet t (by rw [hack.nxt]; exact hs))
  · exact .of_same t hack

theorem receiveFinWait2_quiet (t : TcpStack) (hs : s.sndNxt < 4294967296) (seg : List UInt8) :
    Quiet t s (receiveFinWait2 t s seg) := by
  unfold receiveFinWait2
  simp only
  have hdata : SameSend s (if 0 < (segPayload seg).length ∧ segSeq seg = s.rcvNxt then
      acceptPayload s (segPayload seg) else s) := by
    split
    · exact acceptPayload_same s _
    · exact .refl s
  split
  · exact (Quiet.of_same t hdata).trans (enterTimeWait_quiet t (by rw [hdata.nxt]; exact hs))
  · exact .of_same t hdata

theorem tcpSendRstFor_emits (t : TcpStack) (dstIp dstPort srcPort seq : Nat) :
    ∃ segs, Emits t (tcpSendRstFor t dstIp dstPort srcPort seq) segs ∧ emitted segs = [] := by
  refine ⟨_, tcpSendRaw_emits .., ?_⟩
  split
  · exact (emitted_singleton _).trans unitsOf_rst
  · rfl

end Quiet

section Invariant

variable {whole : Prop} {iss : Nat} {space : List SeqUnit} {s s' : TcpSocket} {t : TcpStack}

theorem Sending.nxt_lt (h : Sending whole iss space s) : s.sndNxt < 4294967296 := by
  rw [h.nxt]
  exact u32_lt _

theorem Sending.same (h : Sending whole iss space s) (hk : SameSend s s') :
    Sending whole iss space s' where
  nxt := hk.nxt.trans h.nxt
  saved := by
    rw [hk.una, hk.seq, hk.units]
    exact h.saved
  syns := h.syns
  fins := h.fins
  closing hf ho := h.closing hf (hk.opened ho)

theorem Sending.allAcked (h : Sending whole iss space s) (hn : s'.sndNxt = s.sndNxt)
    (hu : s'.sndUna = s.sndNxt) (ho : opening s'.state → opening s.state) :
    Sending whole iss space s' where
  nxt := hn.trans h.nxt
  saved := ⟨space.length, le_rfl, hu.trans h.nxt, by omega, .inl rfl⟩
  syns := h.syns
  fins := h.fins
  closing hf hs := h.closing hf (ho hs)

theorem Sending.ack (h : Sending whole iss space s) (a : Nat) (ha : a < 4294967296) :
    Sending whole iss space (ackUpdate s a) := by
  unfold ackUpdate
  split
  · rename_i hok
    simp only [seqGt, seqGte, Bool.and_eq_true, decide_eq_true_eq] at hok
    by_cases hall : a = s.sndNxt
    · rw [if_pos hall]
      exact h.allAcked rfl hall id
    · rw [if_neg hall]
      obtain ⟨acked, hle, hu, hlt, hcov⟩ := h.saved
      have hnxt := h.nxt
      -- The ACK number lies between snd_una and snd_nxt, which are less than 2^31 apart.
      have hd : a = u32 (iss + (acked + sub32 a s.sndUna)) ∧
          acked + sub32 a s.sndUna ≤ space.length := by
        obtain ⟨⟨hpos, hlt1⟩, hlt2⟩ := hok
        rw [hu, hnxt] at *
        unfold sub32 u32 at *
        omega
      refine ⟨hnxt, ⟨_, hd.2, hd.1, by omega, .inr ?_⟩, h.syns, h.fins, h.closing⟩
      rcases hcov with rfl | ⟨k, hk, hw, hrest⟩
      · exfalso
        refine hall (hd.1.trans ?_)
        rw [hnxt, Nat.le_antisymm hd.2 (Nat.le_add_right _ _)]
      · exact ⟨k, hk, fun w => (hw w).trans (Nat.le_add_right _ _), hrest⟩
  · exact h

-- The state after a function that may send sequence space for the first time.
def Sent (whole : Prop) (iss : Nat) (space : List SeqUnit) (t : TcpStack)
    (r : TcpSocket × TcpStack) : Prop :=
  ∃ segs, Emits t r.2 segs ∧ Sending whole iss (space ++ emitted segs) r.1

theorem Sending.quiet (h : Sending whole iss space s) {r : TcpSocket × TcpStack}
    (hq : Quiet t s r) : Sent whole iss space t r := by
  obtain ⟨segs, he, hu⟩ := hq.emits
  refine ⟨segs, he, ?_⟩
  rw [hu, List.append_nil]
  exact h.same hq.same

theorem Sent.after {r r' : TcpSocket × TcpStack} (hq : Quiet t s r) (h : Sent whole iss space r.2 r') :
    Sent whole iss space t r' := by
  obtain ⟨segs, he, hu⟩ := hq.emits
  obtain ⟨segs', he', h'⟩ := h
  refine ⟨segs' ++ segs, he.trans he', ?_⟩
  rw [emitted_append, hu, List.nil_append]
  exact h'

theorem advanced_units {flags : UInt8} {payload : List UInt8} (hadv : 0 < seqAdvance flags payload)
    (hlen : payload.length ≤ tcpMss) :
    savedUnits (advanced t s flags payload true) = unitsOf flags payload := by
  have hcopy : payload.length < tcpRetxBuf := Nat.lt_of_le_of_lt hlen (by decide)
  have hsave : advanced t s flags payload true =
      { saveRetxFields t s flags payload with
        sndNxt := u32 (s.sndNxt + seqAdvance flags payload) } := by
    simp only [advanced, Bool.true_and, decide_eq_true hadv, if_true]
  have hbuf : (if 0 < payload.length then payload.take payload.length else s.retxBuf).take
      payload.length = payload := by
    split
    · rw [List.take_length, List.take_length]
    · rename_i hzero
      rw [List.length_eq_zero_iff.mp (by omega : payload.length = 0)]
      rfl
  rw [hsave]
  simp only [savedUnits, saveRetxFields, if_pos hcopy, hbuf]

theorem advanced_seq {flags : UInt8} {payload : List UInt8} (hadv : 0 < seqAdvance flags payload) :
    (advanced t s flags payload true).retxSeq = s.sndNxt ∧
      (advanced t s flags payload true).sndUna = s.sndUna ∧
      (advanced t s flags payload true).state = s.state := by
  simp only [advanced, Bool.true_and, decide_eq_true hadv, if_true]
  exact ⟨rfl, rfl, rfl⟩

theorem Sending.first (h : Sending whole iss space s) {flags : UInt8} {payload : List UInt8}
    (hadv : 0 < seqAdvance flags payload) (hlen : payload.length ≤ tcpMss)
    (hroom : sendWorks t t.sends = true →
      sub32 s.sndNxt s.sndUna + seqAdvance flags payload < 2147483648)
    (hwhole : whole → sendWorks t t.sends = true → s.sndUna = s.sndNxt)
    (hsyn : has flags tcpFlagSyn = false)
    (hfin : has flags tcpFlagFin = true → .fin ∉ space ∧ ¬ opening s.state) :
    Sent whole iss space t (tcpSendRaw t s flags payload true).2 := by
  cases hw : sendWorks t t.sends with
  | false =>
    rw [tcpSendRaw_fails _ _ _ _ _ hw]
    refine ⟨[], ⟨rfl⟩, ?_⟩
    rw [show emitted [] = [] from rfl, List.append_nil]
    exact h
  | true =>
    rw [tcpSendRaw_works _ _ _ _ _ hw]
    refine ⟨[rawSegment t s flags payload], ⟨rfl⟩, ?_⟩
    rw [show emitted [rawSegment t s flags payload] = unitsOf flags payload from
      emitted_singleton _]
    obtain ⟨hseq, huna, hstate⟩ := advanced_seq (t := t) (s := s) hadv
    obtain ⟨acked, hle, hu, hlt, -⟩ := h.saved
    have hroom := hroom hw
    have hout : sub32 s.sndNxt s.sndUna = space.length - acked := by
      rw [hu, h.nxt]
      exact sub32_u32 _ hle (by omega)
    refine ⟨?_, ⟨acked, ?_, huna.trans hu, ?_, .inr ⟨space.length, ?_, fun hwh => ?_, ?_, ?_, ?_⟩⟩,
      ?_, ?_, fun hmem => ?_⟩
    · change u32 (s.sndNxt + seqAdvance flags payload) = _
      rw [List.length_append, unitsOf_length, h.nxt, u32_add, Nat.add_assoc]
    · rw [List.length_append]
      omega
    · rw [List.length_append, unitsOf_length]
      omega
    · rw [List.length_append]
      omega
    · have heq := hwhole hwh hw
      rw [hu, h.nxt] at heq
      unfold u32 at heq
      omega
    · rw [List.length_append, unitsOf_length]
      omega
    · exact hseq.trans h.nxt
    · rw [advanced_units hadv hlen, List.drop_left]
    · rw [List.count_append, unitsOf_count_syn, hsyn, h.syns]
      rfl
    · rw [List.count_append, unitsOf_count_fin]
      split
      · rename_i hf
        rw [List.count_eq_zero.mpr (hfin hf).1]
      · exact h.fins
    · rw [hstate]
      rcases List.mem_append.mp hmem with hm | hm
      · exact h.closing hm
      · cases hf : has flags tcpFlagFin with
        | true => exact (hfin hf).2
        | false =>
          have hzero := unitsOf_count_fin flags payload
          rw [hf] at hzero
          exact absurd hm (List.count_eq_zero.mp hzero)

theorem Sending.sent (h : Sending whole iss space s) (t : TcpStack) :
    Sent whole iss space t (s, t) :=
  h.quiet (.of_same t (.refl s))

-- A retransmission that goes out takes snd_nxt back to retx_seq and forward again to its old value.
theorem Sending.resend (h : Sending whole iss space s) (hun : s.sndUna ≠ s.sndNxt)
    (hw : ¬(s.retxLen = 0 ∧ !has s.retxFlags (tcpFlagSyn ||| tcpFlagFin)) →
      u8 (s.retxCount + 1) ≤ tcpMaxRetx → sendWorks t t.sends = true) :
    Sending whole iss space (doRetransmit t s).1 ∧ (doRetransmit t s).1.sndNxt = s.sndNxt := by
  unfold doRetransmit
  simp only
  split
  · exact ⟨h, rfl⟩
  rename_i hsome
  split
  · have hk : SameSend s (freeSock { s with retxCount := u8 (s.retxCount + 1) }) :=
      ⟨rfl, rfl, rfl, rfl, (freeSock_same s).opened⟩
    exact ⟨h.same hk, rfl⟩
  · rename_i hcount
    rw [tcpSendRaw_works _ _ _ _ _ (hw hsome (Nat.le_of_not_lt hcount))]
    obtain ⟨acked, -, hu, -, hcov⟩ := h.saved
    have hback : u32 (s.retxSeq + seqAdvance s.retxFlags (s.retxBuf.take s.retxLen)) = s.sndNxt := by
      rcases hcov with rfl | ⟨k, hk, -, -, hseq, hunits⟩
      · exact absurd (hu.trans h.nxt.symm) hun
      · have hlen := congrArg List.length hunits
        rw [savedUnits, unitsOf_length, List.length_drop] at hlen
        rw [hseq, hlen, h.nxt]
        unfold u32
        omega
    exact ⟨h.same ⟨hback, rfl, rfl, rfl, id⟩, hback⟩

theorem Sending.tick (h : Sending whole iss space s) (now : Nat)
    (hw : resends now s = true → sendWorks t t.sends = true) :
    Sending whole iss space (tickSock t now s).1 ∧ (tickSock t now s).1.sndNxt = s.sndNxt := by
  unfold tickSock
  split
  · exact ⟨h, rfl⟩
  rename_i hused
  split
  · split
    · exact ⟨h.same (freeSock_same s), rfl⟩
    · exact ⟨h, rfl⟩
  rename_i hstate
  split
  · rename_i hdue
    split
    · rename_i hgt
      refine h.resend ?_ fun hsome hcount => hw ?_
      · intro he
        rw [he] at hgt
        unfold seqGt sub32 at hgt
        simp only [Bool.and_eq_true, decide_eq_true_eq] at hgt
        omega
      · have hsaved : decide (s.retxLen = 0 ∧
            !has s.retxFlags (tcpFlagSyn ||| tcpFlagFin)) = false := decide_eq_false hsome
        have hopen : s.used = true := by simpa using hused
        rw [resends, hopen, bne_iff_ne.mpr hstate, decide_eq_true hdue, hgt, hsaved,
          decide_eq_true hcount]
        rfl
    · exact ⟨h.same ⟨rfl, rfl, rfl, rfl, id⟩, rfl⟩
  · exact ⟨h, rfl⟩

theorem tcpSendAck_sends (t : TcpStack) (s : TcpSocket) : (tcpSendAck t s).2.sends = t.sends + 1 := by
  rw [tcpSendAck, tcpSendRaw_eq]
  split
  · rfl
  · rfl

theorem Emits.works {t' : TcpStack} {segs : List Segment} (h : Emits t t' segs) (n : Nat) :
    sendWorks t' n = sendWorks t n := by
  rw [h.stack]
  rfl

theorem Sending.receiveEstablished (h : Sending whole iss space s) (seg : List UInt8)
    (hst : s.state = .established)
    (hroom : has (segFlags seg) tcpFlagFin = true → sendWorks t (finReplyIndex t s seg) = true →
      sub32 s.sndNxt s.sndUna + 1 < 2147483648)
    (hwhole : whole → has (segFlags seg) tcpFlagFin = true →
      sendWorks t (finReplyIndex t s seg) = true → s.sndUna = s.sndNxt) :
    Sent whole iss space t (receiveEstablished t s seg) := by
  have hnofin : .fin ∉ space := fun hm => h.closing hm (.inr hst)
  unfold Tcp.receiveEstablished
  simp only
  set r := if 0 < (segPayload seg).length ∧ segSeq seg = s.rcvNxt then
      tcpSendAck t (acceptPayload s (segPayload seg)) else (s, t) with hr
  have hdata : Quiet t s r ∧ r.2.sends + 1 = finReplyIndex t s seg := by
    rw [hr, finReplyIndex]
    split
    · have hq := (Quiet.of_same t (acceptPayload_same s (segPayload seg))).trans
        (tcpSendAck_quiet t h.nxt_lt)
      exact ⟨hq, by rw [tcpSendAck_sends]⟩
    · exact ⟨.of_same t (.refl s), rfl⟩
  obtain ⟨hq, hindex⟩ := hdata
  have hnxt : r.1.sndNxt < 4294967296 := by
    rw [hq.same.nxt]
    exact h.nxt_lt
  split
  · rename_i hfin
    set a := tcpSendAck r.2 { r.1 with rcvNxt := u32 (r.1.rcvNxt + 1) } with ha
    have hack : Quiet r.2 r.1 a := by
      have hq := tcpSendAck_quiet (s := { r.1 with rcvNxt := u32 (r.1.rcvNxt + 1) }) r.2 hnxt
      exact ⟨⟨hq.same.nxt, hq.same.una, hq.same.seq, hq.same.units, hq.same.opened⟩, hq.emits⟩
    have hboth := hq.trans hack
    obtain ⟨segs, he, hnone⟩ := hboth.emits
    have hworks : sendWorks a.2 a.2.sends = sendWorks t (finReplyIndex t s seg) := by
      rw [he.works, ← hindex, ha, tcpSendAck_sends]
    have hlast : Quiet t s ({ a.1 with state := .lastAck }, a.2) :=
      ⟨⟨hboth.same.nxt, hboth.same.una, hboth.same.seq, hboth.same.units,
        fun ho => by simp [opening] at ho⟩, segs, he, hnone⟩
    refine Sent.after hlast ((h.same hlast.same).first (by decide) (by decide) ?_ ?_ (by decide) ?_)
    · intro hw
      rw [hworks] at hw
      rw [hlast.same.nxt, hlast.same.una]
      exact hroom hfin hw
    · intro hwh hw
      rw [hworks] at hw
      rw [hlast.same.nxt, hlast.same.una]
      exact hwhole hwh hfin hw
    · exact fun _ => ⟨hnofin, by simp [opening]⟩
  · exact h.quiet hq

theorem ackField_kept (s : TcpSocket) (seg : List UInt8) :
    Kept s (ackField s seg) ∧ (ackField s seg).state = s.state := by
  unfold ackField
  split
  · exact ackUpdate_kept s _
  · exact ⟨.refl s, rfl⟩

theorem ntohs_lt (seg : List UInt8) (i : Nat) : ntohs seg i < 65536 := by
  have h1 : (seg.getD i 0).toNat < 256 := (seg.getD i 0).toNat_lt
  have h2 : (seg.getD (i + 1) 0).toNat < 256 := (seg.getD (i + 1) 0).toNat_lt
  unfold ntohs byteAt
  omega

theorem segAck_lt (seg : List UInt8) : segAck seg < 4294967296 := by
  have h1 := ntohs_lt seg 8
  have h2 := ntohs_lt seg (8 + 2)
  unfold segAck ntohl
  omega

theorem Sending.ackField (h : Sending whole iss space s) (seg : List UInt8) :
    Sending whole iss space (ackField s seg) := by
  unfold Tcp.ackField
  split
  · exact h.ack _ (segAck_lt seg)
  · exact h

theorem Sending.receiveSynSent (h : Sending whole iss space s) (seg : List UInt8)
    (hst : s.state = .synSent) (srcIp srcPort dstPort : Nat) :
    Sent whole iss space t (receiveSynSent t s srcIp srcPort dstPort seg) := by
  unfold Tcp.receiveSynSent
  split
  · split
    · obtain ⟨segs, he, hnone⟩ := tcpSendRstFor_emits t srcIp srcPort dstPort (segAck seg)
      exact h.quiet ⟨freeSock_same s, segs, he, hnone⟩
    · rename_i heq
      rw [not_not] at heq
      set s' : TcpSocket := { s with
        rcvNxt := u32 (segSeq seg + 1)
        sndUna := segAck seg
        state := .established
        retxDeadline := 0 } with hs'
      have h' : Sending whole iss space s' := h.allAcked rfl heq fun _ => .inl hst
      exact h'.quiet (tcpSendAck_quiet t h'.nxt_lt)
  · exact h.sent t

theorem Sending.receiveSock (h : Sending whole iss space s) (seg : List UInt8)
    (srcIp srcPort dstPort : Nat)
    (hroom : has (segFlags seg) tcpFlagRst = false → has (segFlags seg) tcpFlagFin = true →
      s.state = .established → sendWorks t (finReplyIndex t s seg) = true →
      sub32 (Tcp.ackField s seg).sndNxt (Tcp.ackField s seg).sndUna + 1 < 2147483648)
    (hwhole : whole → has (segFlags seg) tcpFlagRst = false →
      has (segFlags seg) tcpFlagFin = true → s.state = .established →
      sendWorks t (finReplyIndex t s seg) = true →
      (Tcp.ackField s seg).sndUna = (Tcp.ackField s seg).sndNxt) :
    Sent whole iss space t (receiveSock t s srcIp srcPort dstPort seg) := by
  by_cases hrst : has (segFlags seg) tcpFlagRst = true
  · rw [Tcp.receiveSock, if_pos hrst]
    exact h.quiet (.of_same t (freeSock_same s))
  rw [Bool.not_eq_true] at hrst
  have hu := h.ackField seg
  obtain ⟨hkept, hstate⟩ := ackField_kept s seg
  have hindex : finReplyIndex t (Tcp.ackField s seg) seg = finReplyIndex t s seg := by
    rw [finReplyIndex, finReplyIndex, hkept.nxt]
  rw [receiveSock_eq t s srcIp srcPort dstPort hrst, receiveByState]
  cases hq : (Tcp.ackField s seg).state with
  | synSent => exact hu.receiveSynSent seg hq srcIp srcPort dstPort
  | established =>
    rw [hstate] at hq
    refine hu.receiveEstablished seg (hstate.trans hq) ?_ ?_
    · rw [hindex]
      exact fun hf hw => hroom hrst hf hq hw
    · rw [hindex]
      exact fun hwh hf hw => hwhole hwh hrst hf hq hw
  | finWait1 => exact hu.quiet (receiveFinWait1_quiet t hu.nxt_lt seg)
  | finWait2 => exact hu.quiet (receiveFinWait2_quiet t hu.nxt_lt seg)
  | lastAck =>
    dsimp only
    split
    · exact hu.quiet (.of_same t (freeSock_same _))
    · exact hu.sent t
  | timeWait =>
    dsimp only
    split
    · exact hu.quiet (enterTimeWait_quiet t hu.nxt_lt)
    · exact hu.sent t
  | closed => exact hu.sent t
  | closeWait => exact hu.sent t

end Invariant

end Tcp
