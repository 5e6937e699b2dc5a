import SabakaOS.Network.TcpSender

namespace Tcp

open Word

def finSeq (seg : List UInt8) : Nat := u32 (segSeq seg + (segPayload seg).length)

def ackNumbers (segs : List Segment) : List Nat :=
  (segs.filter (fun seg => has seg.flags tcpFlagAck)).map Segment.ackSeq

-- appended counts the bytes put into recv_buf; fins has, for each FIN that was consumed, its
-- sequence number and the rcv_nxt that it found; acks has every ACK number sent.
structure Rx where
  net : Net
  appended : Nat
  fins : List (Nat × Nat)
  acks : List Nat

def appendedBy (i : Fin 8) (n : Net) (c : Call) : Nat :=
  match c with
  | .receive _ _ => sub32 ((call n c).tcp.socks i).recvLen (n.tcp.socks i).recvLen
  | _ => 0

def finsBy (i : Fin 8) (n : Net) (c : Call) : List (Nat × Nat) :=
  match c with
  | .receive srcIp seg =>
    if finProcessed n.tcp i (.receive srcIp seg) then
      [(finSeq seg, sub32 ((call n c).tcp.socks i).rcvNxt 1)]
    else []
  | _ => []

def acksBy (i : Fin 8) (n : Net) (c : Call) : List Nat :=
  if actsOn i n.tcp c then ackNumbers (newSegments n.tcp (call n c).tcp) else []

def accept (i : Fin 8) (x : Rx) (c : Call) : Rx :=
  { net := call x.net c
    appended := x.appended + appendedBy i x.net c
    fins := finsBy i x.net c ++ x.fins
    acks := acksBy i x.net c ++ x.acks }

-- The run starts with the socket as the SYN-ACK with sequence number irs has left it.
def receiver (irs : Nat) (i : Fin 8) : System Rx Call where
  init x := (x.net.tcp.socks i).used = true ∧ (x.net.tcp.socks i).state = .established ∧
    (x.net.tcp.socks i).rcvNxt = u32 (irs + 1) ∧ (x.net.tcp.socks i).recvLen = 0 ∧
    x.appended = 0 ∧ x.fins = [] ∧ x.acks = []
  step x c x' := c.sized ∧ c.keeps i x.net ∧ x' = accept i x c

structure RcvLaw (irs : Nat) (i : Fin 8) (x : Rx) : Prop where
  nxt : (x.net.tcp.socks i).rcvNxt =
    u32 (irs + 1 + x.appended + (if x.fins = [] then 0 else 1))
  once : x.fins.length ≤ 1
  inOrder : ∀ p ∈ x.fins, p.1 = p.2
  acks : ∀ a ∈ x.acks, (∃ m ≤ x.appended, a = u32 (irs + 1 + m)) ∨
    (x.fins ≠ [] ∧ a = u32 (irs + 1 + x.appended + 1))

-- The FIN is next in order once the code has taken what it takes of the segment's payload.
def finNext (s : TcpSocket) (seg : List UInt8) : Prop :=
  match s.state with
  | .established =>
    if 0 < (segPayload seg).length ∧ segSeq seg = s.rcvNxt then
      (segPayload seg).length ≤ sub32 tcpRecvBuf s.recvLen
    else finSeq seg = s.rcvNxt
  | .finWait1 => finSeq seg = s.rcvNxt
  | .finWait2 =>
    if 0 < (segPayload seg).length ∧ segSeq seg = s.rcvNxt then
      (segPayload seg).length ≤ sub32 tcpRecvBuf s.recvLen
    else finSeq seg = s.rcvNxt
  | .timeWait => False
  | _ => True

def finInOrder (i : Fin 8) (x : Rx) : Call → Prop
  | .receive srcIp seg => matchesSock x.net.tcp i srcIp seg →
      has (segFlags seg) tcpFlagRst = false → has (segFlags seg) tcpFlagFin = true →
      finNext (x.net.tcp.socks i) seg
  | _ => True

theorem synAck_established (t : TcpStack) (s : TcpSocket) (srcIp srcPort dstPort : Nat)
    (seg : List UInt8) (hflags : segFlags seg &&& (tcpFlagSyn ||| tcpFlagAck) =
      tcpFlagSyn ||| tcpFlagAck) (hack : segAck seg = s.sndNxt) :
    (receiveSynSent t s srcIp srcPort dstPort seg).1.state = .established ∧
      (receiveSynSent t s srcIp srcPort dstPort seg).1.rcvNxt = u32 (segSeq seg + 1) ∧
      (receiveSynSent t s srcIp srcPort dstPort seg).1.recvLen = s.recvLen := by
  unfold receiveSynSent
  rw [if_pos hflags, if_neg (not_not.mpr hack)]
  obtain ⟨hk, hs, -⟩ := sendAck_kept t { s with
    rcvNxt := u32 (segSeq seg + 1)
    sndUna := segAck seg
    state := .established
    retxDeadline := 0 }
  exact ⟨hs, hk.nxt, hk.len⟩

structure Taking (irs m : Nat) (f : Bool) (s : TcpSocket) : Prop where
  nxt : s.rcvNxt = u32 (irs + 1 + m + f.toNat)
  len_le : s.recvLen ≤ tcpRecvBuf
  opened : s.state ≠ .synSent
  finished : f = true → s.state = .lastAck ∨ s.state = .timeWait ∨ s.state = .closed

def AckOk (irs m : Nat) (f : Bool) (a : Nat) : Prop :=
  (∃ m' ≤ m, a = u32 (irs + 1 + m')) ∨ (f = true ∧ a = u32 (irs + 1 + m + 1))

section Taking

variable {irs m m' : Nat} {f f' : Bool} {s s' : TcpSocket} {t : TcpStack}

theorem AckOk.mono {a : Nat} (h : AckOk irs m f a) (hm : m ≤ m') (hf : f = true → f' = true) :
    AckOk irs m' f' a := by
  rcases h with ⟨k, hk, rfl⟩ | ⟨hfin, rfl⟩
  · exact .inl ⟨k, hk.trans hm, rfl⟩
  · rcases Nat.lt_or_eq_of_le hm with hlt | rfl
    · exact .inl ⟨m + 1, hlt, rfl⟩
    · exact .inr ⟨hf hfin, rfl⟩

theorem Taking.ackOk (h : Taking irs m f s) : AckOk irs m f s.rcvNxt := by
  rw [h.nxt]
  cases f with
  | false => exact .inl ⟨m, le_rfl, rfl⟩
  | true => exact .inr ⟨rfl, rfl⟩

theorem Taking.kept (h : Taking irs m f s) (k : Kept s s') : Taking irs m f s' := by
  refine ⟨k.nxt.trans h.nxt, by rw [k.len]; exact h.len_le, ?_, fun hf => ?_⟩
  · rcases k.state with e | e
    · rw [e]
      exact h.opened
    · rw [e]
      decide
  · rcases k.state with e | e
    · rw [e]
      exact h.finished hf
    · exact .inr (.inr e)

theorem Taking.open_fin (h : Taking irs m f s) (h1 : s.state ≠ .lastAck)
    (h2 : s.state ≠ .timeWait) (h3 : s.state ≠ .closed) : f = false := by
  cases f with
  | false => rfl
  | true => rcases h.finished rfl with e | e | e <;> contradiction

theorem Taking.setState (h : Taking irs m false s) {q : TcpState} (hq : q ≠ .synSent) :
    Taking irs m false { s with state := q } :=
  ⟨h.nxt, h.len_le, hq, fun hf => by cases hf⟩

theorem Taking.finish (h : Taking irs m false s) {q : TcpState}
    (hq : q = .lastAck ∨ q = .timeWait) :
    Taking irs m true { s with rcvNxt := u32 (s.rcvNxt + 1), state := q } := by
  refine ⟨?_, h.len_le, ?_, fun _ => hq.imp_right .inl⟩
  · change u32 (s.rcvNxt + 1) = u32 (irs + 1 + m + 1)
    rw [h.nxt, Bool.toNat_false, Nat.add_zero, u32_add]
  · rcases hq with rfl | rfl
    · exact fun e => by cases e
    · exact fun e => by cases e

-- The bytes that the copy loop puts into recv_buf.
def copied (s : TcpSocket) (seg : List UInt8) : Nat :=
  if 0 < (segPayload seg).length ∧ segSeq seg = s.rcvNxt then
    min (segPayload seg).length (sub32 tcpRecvBuf s.recvLen)
  else 0

theorem copied_le (s : TcpSocket) (seg : List UInt8) (h : s.recvLen ≤ tcpRecvBuf) :
    s.recvLen + copied s seg ≤ tcpRecvBuf := by
  have hspace : sub32 tcpRecvBuf s.recvLen = tcpRecvBuf - s.recvLen := sub32_of_le (by decide) h
  unfold copied
  rw [hspace]
  split <;> omega

theorem Taking.accept (h : Taking irs m false s) {seg : List UInt8}
    (hc : 0 < (segPayload seg).length ∧ segSeq seg = s.rcvNxt) :
    Taking irs (m + copied s seg) false (acceptPayload s (segPayload seg)) ∧
      (acceptPayload s (segPayload seg)).recvLen = s.recvLen + copied s seg := by
  have hle := copied_le s seg h.len_le
  have hcopy : u16 (if (segPayload seg).length < sub32 tcpRecvBuf s.recvLen then
      (segPayload seg).length else sub32 tcpRecvBuf s.recvLen) = copied s seg := by
    have hmin : (if (segPayload seg).length < sub32 tcpRecvBuf s.recvLen then
        (segPayload seg).length else sub32 tcpRecvBuf s.recvLen) = copied s seg := by
      rw [copied, if_pos hc]
      split <;> omega
    rw [hmin]
    unfold tcpRecvBuf at hle
    exact u16_of_lt (by omega)
  have hlen : (acceptPayload s (segPayload seg)).recvLen = s.recvLen + copied s seg := by
    change u32 (s.recvLen + u16 _) = _
    rw [hcopy]
    unfold tcpRecvBuf at hle
    exact u32_of_lt (by omega)
  refine ⟨⟨?_, by rw [hlen]; exact hle, h.opened, fun hf => by cases hf⟩, hlen⟩
  change u32 (s.rcvNxt + u16 _) = _
  rw [hcopy, h.nxt, Bool.toNat_false, Nat.add_zero, u32_add, Nat.add_assoc (irs + 1)]
  rfl

-- The state and the ACK numbers after a function of the receive path.
def Took (irs m : Nat) (f : Bool) (t : TcpStack) (r : TcpSocket × TcpStack) : Prop :=
  ∃ segs, Emits t r.2 segs ∧ (∀ a ∈ ackNumbers segs, AckOk irs m f a) ∧ Taking irs m f r.1

theorem ackNumbers_append (segs segs' : List Segment) :
    ackNumbers (segs ++ segs') = ackNumbers segs ++ ackNumbers segs' := by
  rw [ackNumbers, List.filter_append, List.map_append]
  rfl

theorem Taking.took (h : Taking irs m f s) (t : TcpStack) : Took irs m f t (s, t) :=
  ⟨[], .refl t, List.forall_mem_nil _, h⟩

theorem tcpSendRaw_acks (t : TcpStack) (s : TcpSocket) (flags : UInt8) (payload : List UInt8)
    (save : Bool) : ∃ segs, Emits t (tcpSendRaw t s flags payload save).2.2 segs ∧
      ∀ a ∈ ackNumbers segs, a = s.rcvNxt := by
  refine ⟨_, tcpSendRaw_emits t s flags payload save, fun a ha => ?_⟩
  obtain ⟨seg, hseg, rfl⟩ := List.mem_map.mp ha
  obtain ⟨hmem, hflag⟩ := List.mem_filter.mp hseg
  split at hmem
  · obtain rfl := List.mem_singleton.mp hmem
    simp only [rawSegment] at hflag ⊢
    rw [if_pos hflag]
  · cases hmem

theorem Took.send {r : TcpSocket × TcpStack} (hr : Took irs m f t r) (flags : UInt8)
    (payload : List UInt8) (save : Bool) {u u' : TcpSocket} (hu : AckOk irs m' f' u.rcvNxt)
    (hm : m ≤ m') (hf : f = true → f' = true) (hu' : Taking irs m' f' u') :
    Took irs m' f' t (u', (tcpSendRaw r.2 u flags payload save).2.2) := by
  obtain ⟨segs, he, ha, -⟩ := hr
  obtain ⟨segs', he', ha'⟩ := tcpSendRaw_acks r.2 u flags payload save
  refine ⟨segs' ++ segs, he.trans he', fun a hmem => ?_, hu'⟩
  rw [ackNumbers_append, List.mem_append] at hmem
  rcases hmem with hmem | hmem
  · rw [ha' a hmem]
    exact hu
  · exact (ha a hmem).mono hm hf

theorem finish_ackOk (h : Taking irs m false s) : AckOk irs m true (u32 (s.rcvNxt + 1)) := by
  refine .inr ⟨rfl, ?_⟩
  rw [h.nxt, Bool.toNat_false, Nat.add_zero, u32_add]

theorem Taking.timeWait (h : Taking irs m false s) (t : TcpStack) :
    Took irs m true t (enterTimeWait t s) ∧ (enterTimeWait t s).1.recvLen = s.recvLen ∧
      (enterTimeWait t s).1.rcvNxt = u32 (s.rcvNxt + 1) := by
  obtain ⟨hk, hst, -⟩ := sendAck_kept t { s with rcvNxt := u32 (s.rcvNxt + 1) }
  refine ⟨?_, hk.len, hk.nxt⟩
  refine (h.took t).send _ _ _ (finish_ackOk h) le_rfl (fun _ => rfl) ?_
  exact (h.finish (q := .timeWait) (.inr rfl)).kept
    ⟨hk.buf, hk.head, hk.tail, hk.len, hk.nxt, .inl rfl⟩

-- What the FIN branches leave: the sequence number that the FIN took is the one before rcv_nxt.
structure Received (irs m : Nat) (f : Bool) (s : TcpSocket) (seg : List UInt8) (fin : Bool)
    (taken : Nat) (t : TcpStack) (r : TcpSocket × TcpStack) : Prop where
  took : Took irs (m + taken) (f || fin) t r
  len : r.1.recvLen = s.recvLen + taken
  next : fin = true → f = false ∧ r.1.rcvNxt = u32 (irs + 1 + (m + taken) + 1) ∧
    (finNext s seg → finSeq seg = u32 (irs + 1 + (m + taken)))

theorem finSeq_of_copied (h : Taking irs m false s) {seg : List UInt8}
    (hn : if 0 < (segPayload seg).length ∧ segSeq seg = s.rcvNxt then
        (segPayload seg).length ≤ sub32 tcpRecvBuf s.recvLen
      else finSeq seg = s.rcvNxt) :
    finSeq seg = u32 (irs + 1 + (m + copied s seg)) := by
  have hnxt : s.rcvNxt = u32 (irs + 1 + m) := h.nxt
  unfold copied
  split
  · rename_i hc
    rw [if_pos hc] at hn
    rw [min_eq_left hn, finSeq, hc.2, hnxt, u32_add, Nat.add_assoc (irs + 1)]
  · rename_i hc
    rw [if_neg hc] at hn
    rw [hn, hnxt]
    rfl

theorem Taking.receiveEstablished (h : Taking irs m false s) (hst : s.state = .established)
    (t : TcpStack) (seg : List UInt8) :
    Received irs m false s seg (has (segFlags seg) tcpFlagFin) (copied s seg) t
      (receiveEstablished t s seg) := by
  unfold Tcp.receiveEstablished
  simp only
  set r := if 0 < (segPayload seg).length ∧ segSeq seg = s.rcvNxt then
      tcpSendAck t (acceptPayload s (segPayload seg)) else (s, t) with hr
  have hdata : Took irs (m + copied s seg) false t r ∧ r.1.recvLen = s.recvLen + copied s seg := by
    rw [hr]
    split
    · rename_i hc
      obtain ⟨ha, hlen⟩ := h.accept hc
      obtain ⟨hk, -, -⟩ := sendAck_kept t (acceptPayload s (segPayload seg))
      have hsent := (h.took t).send tcpFlagAck [] false ha.ackOk (Nat.le_add_right _ _) id
        (ha.kept hk)
      exact ⟨hsent, hk.len.trans hlen⟩
    · rename_i hc
      rw [copied, if_neg hc]
      exact ⟨h.took t, rfl⟩
  obtain ⟨hr', hlen⟩ := hdata
  have hr1 : Taking irs (m + copied s seg) false r.1 := by
    obtain ⟨-, -, -, hr1⟩ := hr'
    exact hr1
  have hnxt : u32 (r.1.rcvNxt + 1) = u32 (irs + 1 + (m + copied s seg) + 1) := by
    rw [hr1.nxt, Bool.toNat_false, Nat.add_zero, u32_add]
  split
  · rename_i hfin
    rw [hfin]
    set u : TcpSocket := { r.1 with rcvNxt := u32 (r.1.rcvNxt + 1) } with hu
    obtain ⟨hk, -, -⟩ := sendAck_kept r.2 u
    set a := tcpSendAck r.2 u with ha
    have hlast : Taking irs (m + copied s seg) true { a.1 with state := .lastAck } :=
      (hr1.finish (q := .lastAck) (.inl rfl)).kept
        ⟨hk.buf, hk.head, hk.tail, hk.len, hk.nxt, .inl rfl⟩
    obtain ⟨hk', -, -⟩ := tcpSendRaw_kept a.2 { a.1 with state := .lastAck }
      (tcpFlagFin ||| tcpFlagAck) [] true
    have hack : Took irs (m + copied s seg) true t ({ a.1 with state := .lastAck }, a.2) :=
      hr'.send tcpFlagAck [] false (finish_ackOk hr1) le_rfl (fun _ => rfl) hlast
    refine ⟨hack.send _ _ _ hlast.ackOk le_rfl id (hlast.kept hk'), ?_, fun _ => ⟨rfl, ?_, ?_⟩⟩
    · exact hk'.len.trans (hk.len.trans hlen)
    · exact hk'.nxt.trans (hk.nxt.trans hnxt)
    · intro hn
      rw [finNext, hst] at hn
      exact finSeq_of_copied h hn
  · rename_i hfin
    rw [Bool.not_eq_true] at hfin
    rw [hfin]
    exact ⟨hr', hlen, fun hf => by cases hf⟩

theorem Taking.receiveFinWait1 (h : Taking irs m false s) (hst : s.state = .finWait1)
    (t : TcpStack) (seg : List UInt8) :
    Received irs m false s seg (has (segFlags seg) tcpFlagFin) 0 t (receiveFinWait1 t s seg) := by
  unfold Tcp.receiveFinWait1
  simp only
  set u := if has (segFlags seg) tcpFlagAck then { s with state := .finWait2 } else s with hu
  have hack : Taking irs m false u ∧ u.recvLen = s.recvLen ∧ u.rcvNxt = s.rcvNxt := by
    rw [hu]
    split
    · exact ⟨h.setState (by decide), rfl, rfl⟩
    · exact ⟨h, rfl, rfl⟩
  obtain ⟨hack, hlen, hnxt⟩ := hack
  split
  · rename_i hfin
    rw [hfin]
    obtain ⟨htook, hlen', hnxt'⟩ := hack.timeWait t
    refine ⟨htook, hlen'.trans hlen, fun _ => ⟨rfl, ?_, fun hn => ?_⟩⟩
    · rw [hnxt', hack.nxt, Bool.toNat_false, Nat.add_zero, u32_add]
      rfl
    · rw [finNext, hst] at hn
      exact hn.trans h.nxt
  · rename_i hfin
    rw [Bool.not_eq_true] at hfin
    rw [hfin]
    exact ⟨hack.took t, hlen, fun hf => by cases hf⟩

theorem Taking.receiveFinWait2 (h : Taking irs m false s) (hst : s.state = .finWait2)
    (t : TcpStack) (seg : List UInt8) :
    Received irs m false s seg (has (segFlags seg) tcpFlagFin) (copied s seg) t
      (receiveFinWait2 t s seg) := by
  unfold Tcp.receiveFinWait2
  simp only
  set u := if 0 < (segPayload seg).length ∧ segSeq seg = s.rcvNxt then
      acceptPayload s (segPayload seg) else s with hu
  have hdata : Taking irs (m + copied s seg) false u ∧ u.recvLen = s.recvLen + copied s seg := by
    rw [hu]
    split
    · rename_i hc
      exact h.accept hc
    · rename_i hc
      rw [copied, if_neg hc]
      exact ⟨h, rfl⟩
  obtain ⟨hdata, hlen⟩ := hdata
  split
  · rename_i hfin
    rw [hfin]
    obtain ⟨htook, hlen', hnxt'⟩ := hdata.timeWait t
    refine ⟨htook, hlen'.trans hlen, fun _ => ⟨rfl, ?_, fun hn => ?_⟩⟩
    · rw [hnxt', hdata.nxt, Bool.toNat_false, Nat.add_zero, u32_add]
    · rw [finNext, hst] at hn
      exact finSeq_of_copied h hn
  · rename_i hfin
    rw [Bool.not_eq_true] at hfin
    rw [hfin]
    exact ⟨hdata.took t, hlen, fun hf => by cases hf⟩

theorem finNext_kept (hk : Kept s s') (hst : s'.state = s.state) (seg : List UInt8) :
    finNext s' seg = finNext s seg := by
  unfold finNext
  rw [hst, hk.nxt, hk.len]

theorem Received.of_kept {seg : List UInt8} {fin : Bool} {taken : Nat} {r : TcpSocket × TcpStack}
    (h : Received irs m f s' seg fin taken t r) (hk : Kept s s') (hst : s'.state = s.state) :
    Received irs m f s seg fin taken t r := by
  refine ⟨h.took, h.len.trans (by rw [hk.len]), fun hf => ?_⟩
  obtain ⟨hf', hnxt, hseq⟩ := h.next hf
  exact ⟨hf', hnxt, fun hn => hseq (by rw [finNext_kept hk hst]; exact hn)⟩

theorem Taking.still (h : Taking irs m f s) (t : TcpStack) (hk : Kept s s') (seg : List UInt8) :
    Received irs m f s seg false 0 t (s', t) := by
  refine ⟨?_, hk.len, fun hf => by cases hf⟩
  rw [Bool.or_false]
  exact (h.kept hk).took t

theorem Taking.receiveSock (h : Taking irs m f s) (seg : List UInt8) (srcIp srcPort dstPort : Nat)
    (hn : has (segFlags seg) tcpFlagRst = false → has (segFlags seg) tcpFlagFin = true →
      finNext s seg) (t : TcpStack) :
    ∃ taken, Received irs m f s seg (!has (segFlags seg) tcpFlagRst &&
      has (segFlags seg) tcpFlagFin && takesFin s.state) taken t
      (receiveSock t s srcIp srcPort dstPort seg) := by
  by_cases hrst : has (segFlags seg) tcpFlagRst = true
  · rw [Tcp.receiveSock, if_pos hrst, hrst]
    exact ⟨0, h.still t (freeSock_kept s) seg⟩
  rw [Bool.not_eq_true] at hrst
  rw [receiveSock_eq t s srcIp srcPort dstPort hrst, hrst, Bool.not_false, Bool.true_and,
    receiveByState]
  have hn := hn hrst
  obtain ⟨hk, hst⟩ := ackField_kept s seg
  have hu := h.kept hk
  have hopen : (ackField s seg).state = .established ∨ (ackField s seg).state = .finWait1 ∨
      (ackField s seg).state = .finWait2 → f = false := by
    rintro (e | e | e)
    all_goals exact hu.open_fin (by rw [e]; decide) (by rw [e]; decide) (by rw [e]; decide)
  cases hq : (ackField s seg).state with
  | synSent => exact absurd hq hu.opened
  | established =>
    obtain rfl := hopen (.inl hq)
    rw [← hst, hq, takesFin, Bool.and_true]
    exact ⟨_, (hu.receiveEstablished hq t seg).of_kept hk hst⟩
  | finWait1 =>
    obtain rfl := hopen (.inr (.inl hq))
    rw [← hst, hq, takesFin, Bool.and_true]
    exact ⟨_, (hu.receiveFinWait1 hq t seg).of_kept hk hst⟩
  | finWait2 =>
    obtain rfl := hopen (.inr (.inr hq))
    rw [← hst, hq, takesFin, Bool.and_true]
    exact ⟨_, (hu.receiveFinWait2 hq t seg).of_kept hk hst⟩
  | lastAck =>
    rw [← hst, hq, show takesFin .lastAck = false from rfl, Bool.and_false]
    refine ⟨0, h.still t ?_ seg⟩
    split
    · exact hk.trans (freeSock_kept _)
    · exact hk
  | timeWait =>
    rw [← hst, hq, takesFin, Bool.and_true]
    cases hfin : has (segFlags seg) tcpFlagFin with
    | false => exact ⟨0, h.still t hk seg⟩
    | true =>
      have hno := hn hfin
      rw [finNext, ← hst, hq] at hno
      exact hno.elim
  | closed =>
    rw [← hst, hq, show takesFin .closed = false from rfl, Bool.and_false]
    exact ⟨0, h.still t hk seg⟩
  | closeWait =>
    rw [← hst, hq, show takesFin .closeWait = false from rfl, Bool.and_false]
    exact ⟨0, h.still t hk seg⟩

end Taking

section Runs

variable {irs : Nat} {i : Fin 8} {x : Rx}

-- What the run remembers, beside the socket.
structure Receiving (irs : Nat) (i : Fin 8) (x : Rx) : Prop where
  taking : Taking irs x.appended (!x.fins.isEmpty) (x.net.tcp.socks i)
  once : x.fins.length ≤ 1
  inOrder : ∀ p ∈ x.fins, p.1 = p.2
  acks : ∀ a ∈ x.acks, AckOk irs x.appended (!x.fins.isEmpty) a

theorem emits_acks {n : Net} {c : Call} {t' : TcpStack} {segs : List Segment}
    (h : Emits n.tcp t' segs) (hsent : (call n c).tcp.sent = t'.sent) :
    ∀ a ∈ acksBy i n c, a ∈ ackNumbers segs := by
  intro a ha
  unfold acksBy at ha
  split at ha
  · rw [newSegments, hsent] at ha
    rwa [← newSegments_of_emits h]
  · cases ha

theorem Receiving.of_taking (h : Receiving irs i x) {c : Call}
    (ht : Taking irs x.appended (!x.fins.isEmpty) ((call x.net c).tcp.socks i))
    (happ : appendedBy i x.net c = 0) (hfins : finsBy i x.net c = [])
    (hacks : ∀ a ∈ acksBy i x.net c, a = (x.net.tcp.socks i).rcvNxt) :
    Receiving irs i (accept i x c) := by
  have happ' : (accept i x c).appended = x.appended := by rw [accept, happ, Nat.add_zero]
  have hfins' : (accept i x c).fins = x.fins := by rw [accept, hfins, List.nil_append]
  refine ⟨?_, by rw [hfins']; exact h.once, by rw [hfins']; exact h.inOrder, fun a ha => ?_⟩
  · rw [happ', hfins']
    exact ht
  · rw [happ', hfins']
    rcases List.mem_append.mp ha with ha | ha
    · rw [hacks a ha]
      exact h.taking.ackOk
    · exact h.acks a ha

theorem receive_matched (h : Receiving irs i x) {srcIp : Nat} {seg : List UInt8}
    (hm : matchesSock x.net.tcp i srcIp seg) (hn : finInOrder i x (.receive srcIp seg)) :
    Receiving irs i (accept i x (.receive srcIp seg)) := by
  set s := x.net.tcp.socks i with hs
  obtain ⟨taken, hrec⟩ := h.taking.receiveSock seg srcIp (ntohs seg 0) (ntohs seg 2) (hn hm)
    x.net.tcp
  set r := receiveSock x.net.tcp s srcIp (ntohs seg 0) (ntohs seg 2) seg with hr
  have hcall : (call x.net (.receive srcIp seg)).tcp = setSock r.2 i r.1 := by
    simp only [call, callTcp, tcpReceive, hm.1, hm.2, Bool.not_true, Bool.false_eq_true, if_false,
      hr, hs]
  have hsock : (call x.net (.receive srcIp seg)).tcp.socks i = r.1 := by rw [hcall, setSock_self]
  set fin := !has (segFlags seg) tcpFlagRst && has (segFlags seg) tcpFlagFin &&
    takesFin s.state with hfin
  have hproc : finProcessed x.net.tcp i (.receive srcIp seg) = fin := by
    rw [finProcessed, decide_eq_true hm, Bool.true_and]
  obtain ⟨segs, he, hacks, htaking⟩ := hrec.took
  have happ : appendedBy i x.net (.receive srcIp seg) = taken := by
    have hle := htaking.len_le
    rw [hrec.len] at hle
    unfold tcpRecvBuf at hle
    rw [appendedBy, hsock, hrec.len, sub32_of_le (by omega) (Nat.le_add_right _ _),
      Nat.add_sub_cancel_left]
  have hfins : (accept i x (.receive srcIp seg)).fins =
      (if fin then [(finSeq seg, sub32 r.1.rcvNxt 1)] else []) ++ x.fins := by
    rw [accept, finsBy, hproc, hsock]
  have hempty : (!(accept i x (.receive srcIp seg)).fins.isEmpty) = (!x.fins.isEmpty || fin) := by
    rw [hfins]
    cases fin with
    | false => simp
    | true => simp
  have happ' : (accept i x (.receive srcIp seg)).appended = x.appended + taken := by
    rw [accept, happ]
  refine ⟨?_, ?_, ?_, fun a ha => ?_⟩
  · rw [happ', hempty]
    change Taking irs _ _ ((call x.net (.receive srcIp seg)).tcp.socks i)
    rw [hsock]
    exact htaking
  · rw [hfins]
    cases hf : fin with
    | false => exact h.once
    | true =>
      have hnone : x.fins = [] := by simpa using (hrec.next hf).1
      rw [hnone]
      rfl
  · rw [hfins]
    cases hf : fin with
    | false => exact h.inOrder
    | true =>
      obtain ⟨hnone, hnxt, hseq⟩ := hrec.next hf
      have hnone : x.fins = [] := by simpa using hnone
      have hflags : has (segFlags seg) tcpFlagRst = false ∧ has (segFlags seg) tcpFlagFin = true := by
        rw [hfin] at hf
        simp only [Bool.and_eq_true, Bool.not_eq_true'] at hf
        exact hf.1
      rw [hnone, if_pos rfl, List.append_nil, List.forall_mem_singleton, hnxt,
        hseq (hn hm hflags.1 hflags.2)]
      unfold sub32 u32
      omega
  · rw [happ', hempty]
    have hsent : (call x.net (.receive srcIp seg)).tcp.sent = r.2.sent := by rw [hcall]; rfl
    rcases List.mem_append.mp ha with ha | ha
    · exact hacks a (emits_acks he hsent a ha)
    · exact (h.acks a ha).mono (Nat.le_add_right _ _) fun hf => by rw [hf, Bool.true_or]

theorem acksBy_of_not_acts {n : Net} {c : Call} (h : actsOn i n.tcp c = false) :
    acksBy i n c = [] := by
  rw [acksBy, h]
  rfl

theorem Receiving.of_untouched (h : Receiving irs i x) {c : Call}
    (hs : (call x.net c).tcp.socks i = x.net.tcp.socks i) (hacts : actsOn i x.net.tcp c = false)
    (happ : appendedBy i x.net c = 0) (hfins : finsBy i x.net c = []) :
    Receiving irs i (accept i x c) := by
  refine h.of_taking (by rw [hs]; exact h.taking) happ hfins fun a ha => ?_
  rw [acksBy_of_not_acts hacts] at ha
  cases ha

theorem receive_unmatched (h : Receiving irs i x) {srcIp : Nat} {seg : List UInt8}
    (hm : ¬ matchesSock x.net.tcp i srcIp seg) :
    Receiving irs i (accept i x (.receive srcIp seg)) := by
  have hsock : (call x.net (.receive srcIp seg)).tcp.socks i = x.net.tcp.socks i :=
    tcpReceive_unmatched hm
  refine h.of_untouched hsock (decide_eq_false hm) ?_ ?_
  · rw [appendedBy, hsock]
    unfold sub32
    omega
  · rw [finsBy, finProcessed, decide_eq_false hm]
    rfl

theorem doRetransmit_acks (t : TcpStack) (s : TcpSocket) :
    ∃ segs, Emits t (doRetransmit t s).2 segs ∧ ∀ a ∈ ackNumbers segs, a = s.rcvNxt := by
  unfold doRetransmit
  simp only
  split
  · exact ⟨[], .refl t, List.forall_mem_nil _⟩
  split
  · exact ⟨[], .refl t, List.forall_mem_nil _⟩
  · exact tcpSendRaw_acks ..

theorem tickSock_acks (t : TcpStack) (now : Nat) (s : TcpSocket) :
    ∃ segs, Emits t (tickSock t now s).2 segs ∧ ∀ a ∈ ackNumbers segs, a = s.rcvNxt := by
  unfold tickSock
  split
  · exact ⟨[], .refl t, List.forall_mem_nil _⟩
  split
  · exact ⟨[], .refl t, List.forall_mem_nil _⟩
  split
  · split
    · exact doRetransmit_acks t s
    · exact ⟨[], .refl t, List.forall_mem_nil _⟩
  · exact ⟨[], .refl t, List.forall_mem_nil _⟩

theorem Receiving.of_sock (h : Receiving irs i x) {c : Call} (j : Fin 8)
    {r : TcpSocket × TcpStack} (hcall : (call x.net c).tcp = setSock r.2 j r.1)
    (hacts : actsOn i x.net.tcp c = (j == i)) (hc : ∀ srcIp seg, c ≠ .receive srcIp seg)
    (hr : ∃ segs, Emits x.net.tcp r.2 segs ∧
      ∀ a ∈ ackNumbers segs, a = (x.net.tcp.socks j).rcvNxt)
    (ht : i = j → Taking irs x.appended (!x.fins.isEmpty) r.1) : Receiving irs i (accept i x c) := by
  obtain ⟨segs, he, ha⟩ := hr
  have happ : appendedBy i x.net c = 0 := by
    unfold appendedBy
    split
    · exact absurd rfl (hc _ _)
    · rfl
  have hfins : finsBy i x.net c = [] := by
    unfold finsBy
    split
    · exact absurd rfl (hc _ _)
    · rfl
  by_cases hij : i = j
  · subst hij
    refine h.of_taking ?_ happ hfins fun a hmem => ha a ?_
    · rw [hcall, setSock_self]
      exact ht rfl
    · exact emits_acks he (by rw [hcall]; rfl) a hmem
  · refine h.of_untouched ?_ ?_ happ hfins
    · rw [hcall, setSock_of_ne _ hij, he.socks]
    · rw [hacts, beq_eq_false_iff_ne]
      exact Ne.symm hij

theorem none_sent (t : TcpStack) (s : TcpSocket) :
    ∃ segs, Emits t t segs ∧ ∀ a ∈ ackNumbers segs, a = s.rcvNxt :=
  ⟨[], .refl t, List.forall_mem_nil _⟩

theorem recv_receiving (h : Receiving irs i x) (j : Fin 8) (maxlen : Nat) :
    Receiving irs i (accept i x (.recv j maxlen)) := by
  have hfields : ∃ s', (call x.net (.recv j maxlen)).tcp = setSock x.net.tcp j s' ∧
      s'.rcvNxt = (x.net.tcp.socks j).rcvNxt ∧ s'.state = (x.net.tcp.socks j).state ∧
      ((x.net.tcp.socks j).recvLen ≤ tcpRecvBuf → s'.recvLen ≤ tcpRecvBuf) := by
    change ∃ s', (tcpRecv x.net.tcp j maxlen).2.2 = setSock x.net.tcp j s' ∧ _
    unfold tcpRecv
    simp only
    split
    · exact ⟨_, (setSock_eta x.net.tcp j).symm, rfl, rfl, id⟩
    split
    · exact ⟨_, (setSock_eta x.net.tcp j).symm, rfl, rfl, id⟩
    · refine ⟨_, rfl, rfl, rfl, fun hle => ?_⟩
      change sub32 (x.net.tcp.socks j).recvLen _ ≤ tcpRecvBuf
      unfold tcpRecvBuf at *
      rw [sub32_of_le (by omega) (by unfold u16; split <;> omega)]
      omega
  obtain ⟨s', hcall, hnxt, hst, hlen⟩ := hfields
  refine h.of_sock (r := (s', x.net.tcp)) j hcall rfl (by simp) (none_sent _ _) fun hij => ?_
  subst hij
  have ht := h.taking
  exact ⟨hnxt.trans ht.nxt, hlen ht.len_le, by rw [hst]; exact ht.opened,
    by rw [hst]; exact ht.finished⟩

theorem closeBegin_receiving (h : Receiving irs i x) (j : Fin 8) :
    Receiving irs i (accept i x (.closeBegin j)) := by
  by_cases hopen : (x.net.tcp.socks j).used ∧ (x.net.tcp.socks j).state = .established
  · refine h.of_sock (r := (tcpSendRaw x.net.tcp { x.net.tcp.socks j with state := .finWait1 }
      (tcpFlagFin ||| tcpFlagAck) [] true).2) j ?_ rfl (by simp) (tcpSendRaw_acks ..) fun hij => ?_
    · simp only [call, callTcp, tcpCloseBegin, if_pos hopen]
    · subst hij
      have ht := h.taking
      have hf := ht.open_fin (by rw [hopen.2]; decide) (by rw [hopen.2]; decide)
        (by rw [hopen.2]; decide)
      rw [hf] at ht ⊢
      exact (ht.setState (q := .finWait1) (by decide)).kept (tcpSendRaw_kept ..).1
  · refine h.of_sock (r := (x.net.tcp.socks j, x.net.tcp)) j ?_ rfl (by simp) (none_sent _ _)
      fun hij => by rw [← hij]; exact h.taking
    simp only [call, callTcp, tcpCloseBegin, if_neg hopen]
    exact (setSock_eta x.net.tcp j).symm

theorem freeing_receiving (h : Receiving irs i x) {c : Call} (j : Fin 8) (p : Prop) [Decidable p]
    (hcall : (call x.net c).tcp =
      if p then setSock x.net.tcp j (freeSock (x.net.tcp.socks j)) else x.net.tcp)
    (hacts : actsOn i x.net.tcp c = (j == i)) (hc : ∀ srcIp seg, c ≠ .receive srcIp seg) :
    Receiving irs i (accept i x c) := by
  by_cases hp : p
  · refine h.of_sock (r := (freeSock (x.net.tcp.socks j), x.net.tcp)) j ?_ hacts hc
      (none_sent _ _) fun hij => ?_
    · rw [hcall, if_pos hp]
    · subst hij
      exact h.taking.kept (freeSock_kept _)
  · refine h.of_sock (r := (x.net.tcp.socks j, x.net.tcp)) j ?_ hacts hc (none_sent _ _)
      fun hij => by rw [← hij]; exact h.taking
    rw [hcall, if_neg hp]
    exact (setSock_eta x.net.tcp j).symm

theorem accept_receiving (h : Receiving irs i x) {c : Call} (hkeeps : c.keeps i x.net)
    (hn : finInOrder i x c) : Receiving irs i (accept i x c) := by
  cases c with
  | receive srcIp seg =>
    by_cases hm : matchesSock x.net.tcp i srcIp seg
    · exact receive_matched h hm hn
    · exact receive_unmatched h hm
  | turn j =>
    refine h.of_sock j rfl rfl (by simp) (tickSock_acks ..) fun hij => ?_
    subst hij
    exact h.taking.kept (tickSock_kept ..).1
  | clock ticks => exact h.of_untouched rfl rfl rfl rfl
  | connectBegin dstIp dstPort =>
    exact h.of_untouched (tcpConnectBegin_socks hkeeps) rfl rfl rfl
  | connectEnd j =>
    refine freeing_receiving h j ((x.net.tcp.socks j).state ≠ .established) ?_ rfl (by simp)
    simp only [call, callTcp, tcpConnectEnd]
    split
    · rfl
    · rfl
  | chunk j data =>
    refine h.of_sock j rfl rfl (by simp) (tcpSendRaw_acks ..) fun hij => ?_
    subst hij
    exact h.taking.kept (tcpSendRaw_kept ..).1
  | recv j maxlen => exact recv_receiving h j maxlen
  | closeBegin j => exact closeBegin_receiving h j
  | closeEnd j =>
    exact freeing_receiving h j ((x.net.tcp.socks j).state ≠ .timeWait) rfl rfl (by simp)

def finInvariant (irs : Nat) (i : Fin 8) : ((receiver irs i).restrict (finInOrder i)).Invariant where
  holds := Receiving irs i
  start := by
    rintro x ⟨-, hst, hnxt, hlen, happ, hfins, hacks⟩
    refine ⟨⟨?_, by rw [hlen]; decide, by rw [hst]; decide, fun hf => ?_⟩, by rw [hfins]; decide,
      by rw [hfins]; exact List.forall_mem_nil _, by rw [hacks]; exact List.forall_mem_nil _⟩
    · rw [hnxt, happ, hfins]
      rfl
    · rw [hfins] at hf
      exact nomatch hf
  step := by
    rintro x c x' h ⟨hn, -, hkeeps, rfl⟩
    exact accept_receiving h hkeeps hn

theorem received_in_order (h : ((receiver irs i).restrict (finInOrder i)).Reach x) :
    RcvLaw irs i x := by
  have hr : Receiving irs i x := (finInvariant irs i).reach h
  refine ⟨?_, hr.once, hr.inOrder, fun a ha => ?_⟩
  · rw [hr.taking.nxt]
    cases hf : x.fins with
    | nil => rfl
    | cons p ps => rfl
  · refine (hr.acks a ha).imp_right fun hfin => ⟨?_, hfin.2⟩
    simpa using hfin.1

def opened (irs : Nat) : Rx :=
  { net := { tcp := establishedStack irs, nextPort := 49152 }
    appended := 0
    fins := []
    acks := [] }

-- A FIN with sequence number 9 and no payload.
def finAt9 : List UInt8 := [0, 0, 0, 0, 0, 0, 0, 9, 0, 0, 0, 0, 0x50, 0x11, 0, 0, 0, 0, 0, 0]

theorem opened_init (irs : Nat) : (receiver irs 0).init (opened irs) :=
  ⟨rfl, rfl, rfl, rfl, rfl, rfl, rfl⟩

theorem finNext_opened : finNext (established 8) finAt9 := by
  change if 0 < (segPayload finAt9).length ∧ segSeq finAt9 = 9 then
    (segPayload finAt9).length ≤ sub32 tcpRecvBuf 0 else finSeq finAt9 = 9
  decide +kernel

theorem received_in_order_fin : RcvLaw 8 0 (accept 0 (opened 8) (.receive 0 finAt9)) := by
  have h0 : ((receiver 8 0).restrict (finInOrder 0)).Reach (opened 8) := .start (opened_init 8)
  have hfin : finInOrder 0 (opened 8) (.receive 0 finAt9) := fun _ _ _ => finNext_opened
  exact received_in_order (h0.next ⟨hfin, trivial, trivial, rfl⟩)

-- The byte 8 is still missing when the FIN that follows it arrives.
theorem received_in_order_fails :
    ¬ ∀ (irs : Nat) (i : Fin 8) (x : Rx), (receiver irs i).Reach x → RcvLaw irs i x := by
  intro h
  have h0 : (receiver 7 0).Reach (opened 7) := .start (opened_init 7)
  have hsized : (Call.receive 0 finAt9).sized := trivial
  have h1 : (receiver 7 0).Reach (accept 0 (opened 7) (.receive 0 finAt9)) :=
    h0.next ⟨hsized, trivial, rfl⟩
  exact absurd (h 7 0 _ h1).inOrder (by decide +kernel)

end Runs

end Tcp
