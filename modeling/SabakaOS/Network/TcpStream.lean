import SabakaOS.Library.Run
import SabakaOS.Network.Tcp

namespace Tcp

open Word

structure State where
  tcp : TcpStack
  got : List UInt8
  fin : Bool

inductive Act where
  | irq (e : Irq)
  | recv (j : Fin 8) (maxlen : Nat)
  | closeBegin (j : Fin 8)
  | closeEnd (j : Fin 8)

def matchesSock (t : TcpStack) (i : Fin 8) (srcIp : Nat) (seg : List UInt8) : Prop :=
  wellFormed seg = true ∧ findSock t srcIp (ntohs seg 0) (ntohs seg 2) = some i

instance (t : TcpStack) (i : Fin 8) (srcIp : Nat) (seg : List UInt8) :
    Decidable (matchesSock t i srcIp seg) := by
  unfold matchesSock
  infer_instance

def takesFin : TcpState → Bool
  | .established => true
  | .finWait1 => true
  | .finWait2 => true
  | .timeWait => true
  | _ => false

def finProcessed (t : TcpStack) (i : Fin 8) : Irq → Bool
  | .receive srcIp seg => decide (matchesSock t i srcIp seg) &&
      !has (segFlags seg) tcpFlagRst && has (segFlags seg) tcpFlagFin &&
      takesFin (t.socks i).state
  | _ => false

-- got collects what tcp_recv returned for socket i, fin remembers that it processed a FIN.
def exec (i : Fin 8) (x : State) : Act → State
  | .irq e => { x with tcp := irq x.tcp e, fin := x.fin || finProcessed x.tcp i e }
  | .recv j maxlen =>
    let r := tcpRecv x.tcp j maxlen
    { x with tcp := r.2.2, got := if j = i then x.got ++ r.2.1 else x.got }
  | .closeBegin j => { x with tcp := tcpCloseBegin x.tcp j }
  | .closeEnd j => { x with tcp := tcpCloseEnd x.tcp j }

def sliceOf (irs : Nat) (S : List UInt8) (seg : List UInt8) : Prop :=
  segPayload seg ≠ [] → ∃ o, o + (segPayload seg).length ≤ S.length ∧
    segPayload seg = (S.drop o).take (segPayload seg).length ∧ segSeq seg = u32 (irs + 1 + o)

def fromPeer (irs : Nat) (S : List UInt8) (i : Fin 8) (x : State) : Act → Prop
  | .irq (.receive srcIp seg) => matchesSock x.tcp i srcIp seg → sliceOf irs S seg
  | _ => True

def connection (irs : Nat) (i : Fin 8) : System State Act where
  init x := (x.tcp.socks i).used = true ∧ (x.tcp.socks i).state = .established ∧
    (x.tcp.socks i).rcvNxt = u32 (irs + 1) ∧ (x.tcp.socks i).recvHead = 0 ∧
    (x.tcp.socks i).recvTail = 0 ∧ (x.tcp.socks i).recvLen = 0 ∧ x.got = [] ∧ x.fin = false
  step x a x' := x' = exec i x a

def buffered (s : TcpSocket) : List UInt8 :=
  Ring.contents tcpRecvBuf s.recvBuf s.recvTail s.recvLen

structure Feed (irs : Nat) (S got : List UInt8) (fin : Bool) (s : TcpSocket) : Prop where
  len_le : s.recvLen ≤ tcpRecvBuf
  tail_lt : s.recvTail < tcpRecvBuf
  head_eq : s.recvHead = (s.recvTail + s.recvLen) % tcpRecvBuf
  taken : ∃ n ≤ S.length, got ++ buffered s = S.take n ∧
    (fin = false → s.rcvNxt = u32 (irs + 1 + n))
  opened : s.state ≠ .synSent
  finished : fin = true → s.state = .lastAck ∨ s.state = .timeWait ∨ s.state = .closed

structure Kept (s s' : TcpSocket) : Prop where
  buf : s'.recvBuf = s.recvBuf
  head : s'.recvHead = s.recvHead
  tail : s'.recvTail = s.recvTail
  len : s'.recvLen = s.recvLen
  nxt : s'.rcvNxt = s.rcvNxt
  state : s'.state = s.state ∨ s'.state = .closed

theorem Kept.refl (s : TcpSocket) : Kept s s := ⟨rfl, rfl, rfl, rfl, rfl, .inl rfl⟩

theorem Kept.trans {s s' s'' : TcpSocket} (h : Kept s s') (h' : Kept s' s'') : Kept s s'' where
  buf := h'.buf.trans h.buf
  head := h'.head.trans h.head
  tail := h'.tail.trans h.tail
  len := h'.len.trans h.len
  nxt := h'.nxt.trans h.nxt
  state := h'.state.elim (fun e => h.state.imp e.trans e.trans) .inr

theorem freeSock_kept (s : TcpSocket) : Kept s (freeSock s) := ⟨rfl, rfl, rfl, rfl, rfl, .inr rfl⟩

theorem tcpSendRaw_kept (t : TcpStack) (s : TcpSocket) (flags : UInt8) (payload : List UInt8)
    (save : Bool) : Kept s (tcpSendRaw t s flags payload save).2.1 ∧
      (tcpSendRaw t s flags payload save).2.1.state = s.state ∧
      (tcpSendRaw t s flags payload save).2.2.socks = t.socks := by
  unfold tcpSendRaw saveRetxFields
  simp only
  split
  · exact ⟨Kept.refl s, rfl, rfl⟩
  split
  · exact ⟨Kept.refl s, rfl, rfl⟩
  split
  · exact ⟨⟨rfl, rfl, rfl, rfl, rfl, .inl rfl⟩, rfl, rfl⟩
  · exact ⟨⟨rfl, rfl, rfl, rfl, rfl, .inl rfl⟩, rfl, rfl⟩

theorem ackUpdate_kept (s : TcpSocket) (a : Nat) :
    Kept s (ackUpdate s a) ∧ (ackUpdate s a).state = s.state := by
  unfold ackUpdate
  simp only
  split
  · split
    · exact ⟨⟨rfl, rfl, rfl, rfl, rfl, .inl rfl⟩, rfl⟩
    · exact ⟨⟨rfl, rfl, rfl, rfl, rfl, .inl rfl⟩, rfl⟩
  · exact ⟨Kept.refl s, rfl⟩

theorem doRetransmit_kept (t : TcpStack) (s : TcpSocket) :
    Kept s (doRetransmit t s).1 ∧ (doRetransmit t s).2.socks = t.socks := by
  unfold doRetransmit
  simp only
  split
  · exact ⟨Kept.refl s, rfl⟩
  split
  · exact ⟨⟨rfl, rfl, rfl, rfl, rfl, .inr rfl⟩, rfl⟩
  · obtain ⟨hk, -, hs⟩ := tcpSendRaw_kept t { s with
      retxCount := u8 (s.retxCount + 1)
      sndNxt := s.retxSeq } s.retxFlags (s.retxBuf.take s.retxLen) false
    exact ⟨⟨hk.buf, hk.head, hk.tail, hk.len, hk.nxt, hk.state⟩, hs⟩

theorem tickSock_kept (t : TcpStack) (now : Nat) (s : TcpSocket) :
    Kept s (tickSock t now s).1 ∧ (tickSock t now s).2.socks = t.socks := by
  unfold tickSock
  split
  · exact ⟨Kept.refl s, rfl⟩
  split
  · split
    · exact ⟨freeSock_kept s, rfl⟩
    · exact ⟨Kept.refl s, rfl⟩
  split
  · split
    · exact doRetransmit_kept t s
    · exact ⟨⟨rfl, rfl, rfl, rfl, rfl, .inl rfl⟩, rfl⟩
  · exact ⟨Kept.refl s, rfl⟩

theorem setSock_self (t : TcpStack) (i : Fin 8) (s : TcpSocket) : (setSock t i s).socks i = s :=
  Function.update_self ..

theorem setSock_of_ne (t : TcpStack) {i j : Fin 8} (h : i ≠ j) (s : TcpSocket) :
    (setSock t j s).socks i = t.socks i :=
  Function.update_of_ne h ..

theorem tick_foldl_kept (now : Nat) (i : Fin 8) (is : List (Fin 8)) (t : TcpStack) :
    Kept (t.socks i) ((is.foldl (fun t j =>
      let r := tickSock t now (t.socks j)
      setSock r.2 j r.1) t).socks i) := by
  induction is generalizing t with
  | nil => exact Kept.refl _
  | cons j is ih =>
    refine Kept.trans ?_ (ih _)
    obtain ⟨hk, hs⟩ := tickSock_kept t now (t.socks j)
    by_cases h : i = j
    · subst h
      rw [setSock_self]
      exact hk
    · rw [setSock_of_ne _ h, hs]
      exact Kept.refl _

theorem tcpTick_kept (t : TcpStack) (i : Fin 8) : Kept (t.socks i) ((tcpTick t).socks i) :=
  tick_foldl_kept _ i _ t

section Feeding

variable {irs : Nat} {S got : List UInt8} {fin : Bool} {s s' : TcpSocket}

theorem Feed.kept (h : Feed irs S got fin s) (k : Kept s s') : Feed irs S got fin s' := by
  refine ⟨by rw [k.len]; exact h.len_le, by rw [k.tail]; exact h.tail_lt,
    by rw [k.head, k.tail, k.len]; exact h.head_eq, ?_, ?_, fun hf => ?_⟩
  · rw [buffered, k.buf, k.tail, k.len, k.nxt]
    exact h.taken
  · rcases k.state with e | e
    · rw [e]
      exact h.opened
    · rw [e]
      decide
  · rcases k.state with e | e
    · rw [e]
      exact h.finished hf
    · exact .inr (.inr e)

theorem Feed.setState (h : Feed irs S got fin s) {q : TcpState} (hq : q ≠ .synSent)
    (hf : fin = true → q = .lastAck ∨ q = .timeWait ∨ q = .closed) :
    Feed irs S got fin { s with state := q } :=
  ⟨h.len_le, h.tail_lt, h.head_eq, h.taken, hq, hf⟩

theorem Feed.open_fin (h : Feed irs S got fin s) (h1 : s.state ≠ .lastAck)
    (h2 : s.state ≠ .timeWait) (h3 : s.state ≠ .closed) : fin = false := by
  cases fin with
  | false => rfl
  | true => rcases h.finished rfl with e | e | e <;> contradiction

-- A FIN moves rcv_nxt past the stream, so only the prefix is remembered.
theorem Feed.finish (h : Feed irs S got fin s) {q : TcpState} (m : Nat)
    (hq : q = .lastAck ∨ q = .timeWait) :
    Feed irs S got true { s with rcvNxt := m, state := q } := by
  obtain ⟨n, hn, htake, -⟩ := h.taken
  refine ⟨h.len_le, h.tail_lt, h.head_eq, ⟨n, hn, htake, fun hf => by cases hf⟩, ?_, fun _ => ?_⟩
  · rcases hq with rfl | rfl
    · exact fun e => by cases e
    · exact fun e => by cases e
  · exact hq.imp_right .inl

theorem seq_inj {irs n o : Nat} (hn : n < 4294967296) (ho : o < 4294967296)
    (h : u32 (irs + 1 + n) = u32 (irs + 1 + o)) : n = o := by
  unfold u32 at h
  omega

theorem take_append_slice (S : List UInt8) (n k : Nat) :
    S.take n ++ (S.drop n).take k = S.take (n + k) := by
  rw [List.take_add]

theorem Feed.accept (h : Feed irs S got false s) (hS : S.length < 4294967296) {seg : List UInt8}
    (hp : sliceOf irs S seg) (hne : 0 < (segPayload seg).length) (hseq : segSeq seg = s.rcvNxt) :
    Feed irs S got false (acceptPayload s (segPayload seg)) := by
  obtain ⟨o, hle, hslice, hat⟩ := hp (List.ne_nil_of_length_pos hne)
  obtain ⟨n, hn, htake, hnxt⟩ := h.taken
  have hnxt := hnxt rfl
  have hlen := h.len_le
  rw [tcpRecvBuf] at hlen
  obtain rfl : n = o := seq_inj (by omega) (by omega) (by rw [← hnxt, ← hseq, hat])
  set p := segPayload seg with hpdef
  set copy := u16 (if p.length < sub32 tcpRecvBuf s.recvLen then p.length
    else sub32 tcpRecvBuf s.recvLen) with hcopy
  have hspace : sub32 tcpRecvBuf s.recvLen = 8192 - s.recvLen :=
    sub32_of_le (by decide) hlen
  have hc : copy ≤ p.length ∧ s.recvLen + copy ≤ 8192 := by
    rw [hcopy, hspace]
    split
    · rw [u16_of_lt (by omega)]
      omega
    · rw [u16_of_lt (by omega)]
      omega
  have hlenp : (p.take copy).length = copy := by
    rw [List.length_take]
    omega
  obtain ⟨hcont, hhead⟩ := Ring.push_spec s.recvBuf s.recvTail (p.take copy)
    (show s.recvLen + (p.take copy).length ≤ tcpRecvBuf by rw [hlenp]; exact hc.2)
  rw [hlenp, ← h.head_eq] at hcont hhead
  have hu : u32 (s.recvLen + copy) = s.recvLen + copy := u32_of_lt (by omega)
  refine ⟨?_, h.tail_lt, ?_, ⟨n + copy, by omega, ?_, fun _ => ?_⟩, h.opened, fun hf => by cases hf⟩
  · change u32 (s.recvLen + copy) ≤ 8192
    omega
  · change (Ring.push tcpRecvBuf s.recvBuf s.recvHead (p.take copy)).2 =
      (s.recvTail + u32 (s.recvLen + copy)) % tcpRecvBuf
    rw [hu, hhead]
  · change got ++ Ring.contents tcpRecvBuf
      (Ring.push tcpRecvBuf s.recvBuf s.recvHead (p.take copy)).1 s.recvTail
        (u32 (s.recvLen + copy)) = S.take (n + copy)
    rw [hu, hcont, ← List.append_assoc, show got ++ Ring.contents tcpRecvBuf s.recvBuf s.recvTail
      s.recvLen = S.take n from htake, hslice, List.take_take, min_eq_left hc.1,
      take_append_slice]
  · change u32 (s.rcvNxt + copy) = u32 (irs + 1 + (n + copy))
    rw [hnxt, u32, u32, u32]
    omega

theorem sendAck_kept (t : TcpStack) (s : TcpSocket) :
    Kept s (tcpSendAck t s).1 ∧ (tcpSendAck t s).1.state = s.state ∧
      (tcpSendAck t s).2.socks = t.socks :=
  tcpSendRaw_kept t s tcpFlagAck [] false

theorem Feed.timeWait (h : Feed irs S got fin s) (t : TcpStack) :
    Feed irs S got true (enterTimeWait t s).1 := by
  obtain ⟨hk, -, -⟩ := sendAck_kept t { s with rcvNxt := u32 (s.rcvNxt + 1) }
  have hf := h.finish (u32 (s.rcvNxt + 1)) (q := .timeWait) (.inr rfl)
  exact hf.kept ⟨hk.buf, hk.head, hk.tail, hk.len, hk.nxt, .inl rfl⟩

theorem Feed.receiveEstablished (h : Feed irs S got false s) (hS : S.length < 4294967296)
    (t : TcpStack) {seg : List UInt8} (hp : sliceOf irs S seg) :
    Feed irs S got (has (segFlags seg) tcpFlagFin) (receiveEstablished t s seg).1 := by
  unfold Tcp.receiveEstablished
  simp only
  set r := if 0 < (segPayload seg).length ∧ segSeq seg = s.rcvNxt then
      tcpSendAck t (acceptPayload s (segPayload seg)) else (s, t) with hr
  have hdata : Feed irs S got false r.1 := by
    rw [hr]
    split
    · rename_i hc
      exact (h.accept hS hp hc.1 hc.2).kept (sendAck_kept _ _).1
    · exact h
  split
  · rename_i hfin
    rw [hfin]
    obtain ⟨hk, -, -⟩ := sendAck_kept r.2 { r.1 with rcvNxt := u32 (r.1.rcvNxt + 1) }
    have hf := hdata.finish (u32 (r.1.rcvNxt + 1)) (q := .lastAck) (.inl rfl)
    refine (hf.kept ?_).kept (tcpSendRaw_kept _ _ _ _ _).1
    exact ⟨hk.buf, hk.head, hk.tail, hk.len, hk.nxt, .inl rfl⟩
  · rename_i hfin
    rw [Bool.not_eq_true] at hfin
    rw [hfin]
    exact hdata

theorem Feed.receiveFinWait1 (h : Feed irs S got false s) (t : TcpStack) (seg : List UInt8) :
    Feed irs S got (has (segFlags seg) tcpFlagFin) (receiveFinWait1 t s seg).1 := by
  unfold Tcp.receiveFinWait1
  simp only
  have hack : Feed irs S got false
      (if has (segFlags seg) tcpFlagAck then { s with state := .finWait2 } else s) := by
    split
    · exact h.setState (by decide) (fun hf => by cases hf)
    · exact h
  split
  · rename_i hfin
    rw [hfin]
    exact hack.timeWait t
  · rename_i hfin
    rw [Bool.not_eq_true] at hfin
    rw [hfin]
    exact hack

theorem Feed.receiveFinWait2 (h : Feed irs S got false s) (hS : S.length < 4294967296)
    (t : TcpStack) {seg : List UInt8} (hp : sliceOf irs S seg) :
    Feed irs S got (has (segFlags seg) tcpFlagFin) (receiveFinWait2 t s seg).1 := by
  unfold Tcp.receiveFinWait2
  simp only
  have hdata : Feed irs S got false (if 0 < (segPayload seg).length ∧ segSeq seg = s.rcvNxt then
      acceptPayload s (segPayload seg) else s) := by
    split
    · rename_i hc
      exact h.accept hS hp hc.1 hc.2
    · exact h
  split
  · rename_i hfin
    rw [hfin]
    exact hdata.timeWait t
  · rename_i hfin
    rw [Bool.not_eq_true] at hfin
    rw [hfin]
    exact hdata

theorem Feed.receiveSock (h : Feed irs S got fin s) (hS : S.length < 4294967296) (t : TcpStack)
    {seg : List UInt8} (hp : sliceOf irs S seg) (srcIp srcPort dstPort : Nat) :
    Feed irs S got (fin || (!has (segFlags seg) tcpFlagRst && has (segFlags seg) tcpFlagFin &&
      takesFin s.state)) (receiveSock t s srcIp srcPort dstPort seg).1 := by
  unfold Tcp.receiveSock
  by_cases hrst : has (segFlags seg) tcpFlagRst = true
  · simp only [hrst, if_true, Bool.not_true, Bool.false_and, Bool.or_false]
    exact h.kept (freeSock_kept s)
  rw [if_neg hrst]
  rw [Bool.not_eq_true] at hrst
  simp only [hrst, Bool.not_false, Bool.true_and]
  set u := if has (segFlags seg) tcpFlagAck = true then ackUpdate s (segAck seg) else s with hu
  have hk : Feed irs S got fin u ∧ u.state = s.state := by
    rw [hu]
    split
    · exact ⟨h.kept (ackUpdate_kept s _).1, (ackUpdate_kept s _).2⟩
    · exact ⟨h, rfl⟩
  obtain ⟨hf, hst⟩ := hk
  rw [← hst]
  have hopen : u.state = .established ∨ u.state = .finWait1 ∨ u.state = .finWait2 →
      fin = false := by
    rintro (e | e | e)
    all_goals exact hf.open_fin (by rw [e]; decide) (by rw [e]; decide) (by rw [e]; decide)
  cases hq : u.state with
  | synSent => exact absurd hq hf.opened
  | established =>
    obtain rfl := hopen (.inl hq)
    simpa [takesFin] using hf.receiveEstablished hS t hp
  | finWait1 =>
    obtain rfl := hopen (.inr (.inl hq))
    simpa [takesFin] using hf.receiveFinWait1 t seg
  | finWait2 =>
    obtain rfl := hopen (.inr (.inr hq))
    simpa [takesFin] using hf.receiveFinWait2 hS t hp
  | lastAck =>
    simp only [takesFin, Bool.and_false, Bool.or_false]
    split
    · exact hf.kept (freeSock_kept u)
    · exact hf
  | timeWait =>
    simp only [takesFin, Bool.and_true]
    split
    · rename_i hfin
      rw [hfin, Bool.or_true]
      exact hf.timeWait t
    · rename_i hfin
      rw [Bool.not_eq_true] at hfin
      rw [hfin, Bool.or_false]
      exact hf
  | closed =>
    simpa only [takesFin, Bool.and_false, Bool.or_false] using hf
  | closeWait =>
    simpa only [takesFin, Bool.and_false, Bool.or_false] using hf

theorem Feed.pop (h : Feed irs S got fin s) {n : Nat} (hn : n ≤ s.recvLen) :
    Feed irs S (got ++ (Ring.pop tcpRecvBuf s.recvBuf s.recvTail n).1) fin
      { s with
        recvTail := (Ring.pop tcpRecvBuf s.recvBuf s.recvTail n).2
        recvLen := sub32 s.recvLen n } := by
  have hlen := h.len_le
  rw [tcpRecvBuf] at hlen
  have hsub : sub32 s.recvLen n = s.recvLen - n := sub32_of_le (by omega) hn
  obtain ⟨hcont, htail⟩ := Ring.pop_spec s.recvBuf h.tail_lt n (s.recvLen - n)
  have hsum : n + (s.recvLen - n) = s.recvLen := by omega
  obtain ⟨m, hm, htake, hnxt⟩ := h.taken
  refine ⟨?_, ?_, ?_, ⟨m, hm, ?_, hnxt⟩, h.opened, h.finished⟩
  · change sub32 s.recvLen n ≤ 8192
    omega
  · rw [htail]
    exact Nat.mod_lt _ (by decide)
  · change s.recvHead = ((Ring.pop tcpRecvBuf s.recvBuf s.recvTail n).2 + sub32 s.recvLen n) % _
    rw [hsub, htail, h.head_eq, Nat.mod_add_mod]
    congr 1
    omega
  · rw [hsum] at hcont
    rw [← htake, buffered, buffered, hcont, List.append_assoc]
    change _ ++ (_ ++ Ring.contents tcpRecvBuf s.recvBuf _ (sub32 s.recvLen n)) = _
    rw [hsub]

end Feeding

section Stack

variable {irs : Nat} {S got : List UInt8} {fin : Bool} {t : TcpStack} {i : Fin 8}

theorem tcpSendRstFor_socks (t : TcpStack) (a b c d : Nat) :
    (tcpSendRstFor t a b c d).socks = t.socks :=
  (tcpSendRaw_kept _ _ _ _ _).2.2

theorem receiveSock_socks (t : TcpStack) (s : TcpSocket) (a b c : Nat) (seg : List UInt8) :
    (receiveSock t s a b c seg).2.socks = t.socks := by
  unfold receiveSock
  split
  · rfl
  simp only
  generalize (if has (segFlags seg) tcpFlagAck = true then ackUpdate s (segAck seg) else s) = u
  have hwait : ∀ v, (enterTimeWait t v).2.socks = t.socks := fun v => (sendAck_kept _ _).2.2
  cases u.state with
  | synSent =>
    simp only [receiveSynSent]
    split
    · split
      · exact tcpSendRstFor_socks _ _ _ _ _
      · exact (sendAck_kept _ _).2.2
    · rfl
  | established =>
    simp only [receiveEstablished]
    have hdata : (if 0 < (segPayload seg).length ∧ segSeq seg = u.rcvNxt then
        tcpSendAck t (acceptPayload u (segPayload seg)) else (u, t)).2.socks = t.socks := by
      split
      · exact (sendAck_kept _ _).2.2
      · rfl
    split
    · exact (tcpSendRaw_kept _ _ _ _ _).2.2.trans ((sendAck_kept _ _).2.2.trans hdata)
    · exact hdata
  | finWait1 =>
    simp only [receiveFinWait1]
    split
    · exact hwait _
    · rfl
  | finWait2 =>
    simp only [receiveFinWait2]
    split
    · exact hwait _
    · rfl
  | timeWait =>
    simp only
    split
    · exact hwait _
    · rfl
  | _ => rfl

theorem tcpReceive_feed (h : Feed irs S got fin (t.socks i)) (hS : S.length < 4294967296)
    (srcIp : Nat) (seg : List UInt8) (hp : matchesSock t i srcIp seg → sliceOf irs S seg) :
    Feed irs S got (fin || finProcessed t i (.receive srcIp seg))
      ((tcpReceive t srcIp seg).socks i) := by
  unfold tcpReceive finProcessed
  by_cases hw : wellFormed seg = true
  · simp only [hw, Bool.not_true, Bool.false_eq_true, if_false]
    cases hfind : findSock t srcIp (ntohs seg 0) (ntohs seg 2) with
    | none =>
      have hno : ¬ matchesSock t i srcIp seg := by simp [matchesSock, hfind]
      simp only [hno, decide_false, Bool.false_and, Bool.or_false]
      split
      · rw [tcpSendRstFor_socks]
        exact h
      · exact h
    | some j =>
      by_cases hij : i = j
      · subst hij
        have hyes : matchesSock t i srcIp seg := ⟨hw, hfind⟩
        simp only [hyes, decide_true, Bool.true_and, setSock_self]
        exact h.receiveSock hS t (hp hyes) _ _ _
      · have hno : ¬ matchesSock t i srcIp seg := by
          rintro ⟨-, hf⟩
          exact hij (Option.some.inj (hf.symm.trans hfind))
        simp only [hno, decide_false, Bool.false_and, Bool.or_false]
        rw [setSock_of_ne _ hij, receiveSock_socks]
        exact h
  · have hno : ¬ matchesSock t i srcIp seg := fun hm => hw hm.1
    rw [Bool.not_eq_true] at hw
    simp only [hw, hno, decide_false, Bool.false_and, Bool.or_false, Bool.not_false, if_true]
    exact h

theorem tcpRecv_feed (h : Feed irs S got fin (t.socks i)) (j : Fin 8) (maxlen : Nat) :
    Feed irs S (if j = i then got ++ (tcpRecv t j maxlen).2.1 else got) fin
      ((tcpRecv t j maxlen).2.2.socks i) := by
  by_cases hij : i = j
  · subst hij
    rw [if_pos rfl]
    unfold tcpRecv
    simp only
    split
    · simpa using h
    split
    · simpa using h
    · have hlen := h.len_le
      rw [tcpRecvBuf] at hlen
      simp only [setSock_self]
      refine h.pop ?_
      unfold u16
      split <;> omega
  · rw [if_neg (Ne.symm hij)]
    unfold tcpRecv
    simp only
    split
    · exact h
    split
    · exact h
    · simp only [setSock_of_ne _ hij]
      exact h

theorem tcpCloseBegin_feed (h : Feed irs S got fin (t.socks i)) (j : Fin 8) :
    Feed irs S got fin ((tcpCloseBegin t j).socks i) := by
  unfold tcpCloseBegin
  split
  · rename_i hc
    obtain ⟨hk, -, hs⟩ := tcpSendRaw_kept t { t.socks j with state := .finWait1 }
      (tcpFlagFin ||| tcpFlagAck) [] true
    by_cases hij : i = j
    · subst hij
      obtain rfl := h.open_fin (by rw [hc.2]; decide) (by rw [hc.2]; decide) (by rw [hc.2]; decide)
      simp only [setSock_self]
      exact (h.setState (by decide) (fun hf => by cases hf)).kept hk
    · simp only [setSock_of_ne _ hij, hs]
      exact h
  · exact h

theorem tcpCloseEnd_feed (h : Feed irs S got fin (t.socks i)) (j : Fin 8) :
    Feed irs S got fin ((tcpCloseEnd t j).socks i) := by
  unfold tcpCloseEnd
  split
  · by_cases hij : i = j
    · subst hij
      rw [setSock_self]
      exact h.kept (freeSock_kept _)
    · rw [setSock_of_ne _ hij]
      exact h
  · exact h

end Stack

section Runs

variable {irs : Nat} {S : List UInt8} {i : Fin 8}

theorem exec_feed (hS : S.length < 4294967296) {x : State} {a : Act}
    (h : Feed irs S x.got x.fin (x.tcp.socks i)) (ha : fromPeer irs S i x a) :
    Feed irs S (exec i x a).got (exec i x a).fin ((exec i x a).tcp.socks i) := by
  cases a with
  | irq e =>
    cases e with
    | receive srcIp seg => exact tcpReceive_feed h hS srcIp seg ha
    | tick =>
      simpa [exec, finProcessed, irq] using h.kept (tcpTick_kept x.tcp i)
    | clock ticks => simpa [exec, finProcessed, irq] using h
  | recv j maxlen => exact tcpRecv_feed h j maxlen
  | closeBegin j => exact tcpCloseBegin_feed h j
  | closeEnd j => exact tcpCloseEnd_feed h j

theorem init_feed {x : State} (h : (connection irs i).init x) :
    Feed irs S x.got x.fin (x.tcp.socks i) := by
  obtain ⟨-, hst, hnxt, hhead, htail, hlen, hgot, hfin⟩ := h
  refine ⟨by rw [hlen]; decide, by rw [htail]; decide, by rw [hhead, htail, hlen]; rfl,
    ⟨0, Nat.zero_le _, ?_, fun _ => hnxt⟩, by rw [hst]; decide, fun hf => ?_⟩
  · rw [hgot, buffered, hlen]
    simp
  · rw [hfin] at hf
    cases hf

def feedInvariant (hS : S.length < 4294967296) :
    ((connection irs i).restrict (fromPeer irs S i)).Invariant where
  holds x := Feed irs S x.got x.fin (x.tcp.socks i)
  start := init_feed
  step := by
    rintro x a x' h ⟨ha, rfl⟩
    exact exec_feed hS h ha

structure Delivered (irs : Nat) (S : List UInt8) (i : Fin 8) (x : State) : Prop where
  stream : x.got ++ buffered (x.tcp.socks i) <+: S
  len_le : (x.tcp.socks i).recvLen ≤ tcpRecvBuf
  head_eq : (x.tcp.socks i).recvHead =
    ((x.tcp.socks i).recvTail + (x.tcp.socks i).recvLen) % tcpRecvBuf
  length_eq : x.fin = false → (x.got ++ buffered (x.tcp.socks i)).length =
    sub32 (sub32 (x.tcp.socks i).rcvNxt irs) 1

def established (irs : Nat) : TcpSocket :=
  { blankSocket with state := .established, used := true, rcvNxt := u32 (irs + 1) }

def establishedStack (irs : Nat) : TcpStack :=
  { socks := fun _ => established irs
    myIp := 0
    pitTickCount := 0
    pitFrequency := 100
    kmallocOk := fun _ => true
    sendOk := fun _ => true
    sends := 0
    sent := [] }

-- tcp_close stops at every sti; hlt; cli, where interrupts take the system's own steps.
def peerDuring (irs : Nat) (S : List UInt8) (i : Fin 8) (x : State) : List Irq → Prop
  | [] => True
  | e :: es => fromPeer irs S i x (.irq e) ∧ peerDuring irs S i (exec i x (.irq e)) es

theorem closeWait_reach (deadline : Nat) (j : Fin 8) (irqs : List Irq) {x : State}
    (h : ((connection irs i).restrict (fromPeer irs S i)).Reach x)
    (hp : peerDuring irs S i x irqs) {t' : TcpStack}
    (hw : closeWait deadline j x.tcp irqs = some t') :
    ∃ x', ((connection irs i).restrict (fromPeer irs S i)).Reach x' ∧ x'.tcp = t' ∧
      x'.got = x.got := by
  induction irqs generalizing x with
  | nil =>
    simp only [closeWait, Option.ite_none_right_eq_some, Option.some.injEq] at hw
    exact ⟨x, h, hw.2, rfl⟩
  | cons e es ih =>
    rw [closeWait] at hw
    split at hw
    · exact ⟨x, h, Option.some.inj hw, rfl⟩
    · have hnext : ((connection irs i).restrict (fromPeer irs S i)).Reach (exec i x (.irq e)) :=
        h.next (a := .irq e) ⟨hp.1, rfl⟩
      have hrest := ih hnext hp.2 hw
      exact hrest

theorem tcpClose_reach (j : Fin 8) (irqs : List Irq) {x : State}
    (h : ((connection irs i).restrict (fromPeer irs S i)).Reach x)
    (hp : peerDuring irs S i (exec i x (.closeBegin j)) irqs) {t' : TcpStack}
    (hc : tcpClose x.tcp j irqs = some t') :
    ∃ x', ((connection irs i).restrict (fromPeer irs S i)).Reach x' ∧ x'.tcp = t' ∧
      x'.got = x.got := by
  unfold tcpClose at hc
  split at hc
  · exact ⟨x, h, Option.some.inj hc, rfl⟩
  split at hc
  · obtain ⟨w, hw, rfl⟩ := Option.map_eq_some_iff.mp hc
    obtain ⟨y, hy, rfl, hgot⟩ := closeWait_reach _ j irqs
      (h.next (a := .closeBegin j) ⟨trivial, rfl⟩) hp hw
    exact ⟨_, hy.next (a := .closeEnd j) ⟨trivial, rfl⟩, rfl, hgot⟩
  · obtain rfl := Option.some.inj hc
    exact ⟨_, h.next (a := .closeEnd j) ⟨trivial, rfl⟩, rfl, rfl⟩

end Runs

end Tcp
