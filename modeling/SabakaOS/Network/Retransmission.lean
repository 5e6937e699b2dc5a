import SabakaOS.Network.TcpSender

namespace Tcp

open Word

section Steps

variable {whole : Prop} {iss : Nat} {space : List SeqUnit} {i : Fin 8} {n : Net} {c : Call}

theorem firstUnits_of_not_acts (h : actsOn i n.tcp c = false) : firstUnits i n c = [] := by
  unfold firstUnits
  split
  · rfl
  · rw [h]
    rfl

theorem firstUnits_of_emits (hc : ∀ j, c ≠ .turn j) (hacts : actsOn i n.tcp c = true)
    {t' : TcpStack} {segs : List Segment} (h : Emits n.tcp t' segs)
    (hsent : (call n c).tcp.sent = t'.sent) : firstUnits i n c = emitted segs := by
  have hnew : newSegments n.tcp (call n c).tcp = segs := by
    rw [newSegments, hsent]
    exact newSegments_of_emits h
  unfold firstUnits
  split
  · rename_i j
    exact absurd rfl (hc j)
  · rw [hacts, if_pos rfl, hnew]

theorem Sending.of_kept (h : Sending whole iss space (n.tcp.socks i))
    (hs : (call n c).tcp.socks i = n.tcp.socks i) (hacts : actsOn i n.tcp c = false) :
    Sending whole iss (space ++ firstUnits i n c) ((call n c).tcp.socks i) := by
  rw [hs, firstUnits_of_not_acts hacts, List.append_nil]
  exact h

theorem Sent.of_call {r : TcpSocket × TcpStack} (h : Sent whole iss space n.tcp r)
    (hc : ∀ j, c ≠ .turn j) (hacts : actsOn i n.tcp c = true)
    (hcall : (call n c).tcp = setSock r.2 i r.1) :
    Sending whole iss (space ++ firstUnits i n c) ((call n c).tcp.socks i) := by
  obtain ⟨segs, he, h'⟩ := h
  have hsent : (call n c).tcp.sent = r.2.sent := by
    rw [hcall]
    rfl
  rw [firstUnits_of_emits hc hacts he hsent, hcall, setSock_self]
  exact h'

theorem receive_sending (h : Sending whole iss space (n.tcp.socks i)) (srcIp : Nat)
    (seg : List UInt8) (hroom : inRoom i n.tcp (.receive srcIp seg))
    (hwhole : whole → allAcknowledged i n.tcp (.receive srcIp seg)) :
    Sending whole iss (space ++ firstUnits i n (.receive srcIp seg))
      ((call n (.receive srcIp seg)).tcp.socks i) := by
  by_cases hm : matchesSock n.tcp i srcIp seg
  · have hcall : (call n (.receive srcIp seg)).tcp =
        setSock (receiveSock n.tcp (n.tcp.socks i) srcIp (ntohs seg 0) (ntohs seg 2) seg).2 i
          (receiveSock n.tcp (n.tcp.socks i) srcIp (ntohs seg 0) (ntohs seg 2) seg).1 := by
      simp only [call, callTcp, tcpReceive, hm.1, hm.2, Bool.not_true, Bool.false_eq_true, if_false]
    have hfirst := fun hrst hfin hst hw => show (ackField (n.tcp.socks i) seg, 1) ∈
        firstSend i n.tcp (.receive srcIp seg) by
      rw [firstSend, if_pos ⟨hm, hrst, hfin, hst, hw⟩]
      rfl
    refine Sent.of_call (h.receiveSock seg _ _ _ ?_ ?_) (by simp)
      (by rw [actsOn, decide_eq_true hm]) hcall
    · exact fun hrst hfin hst hw => hroom _ (hfirst hrst hfin hst hw)
    · exact fun hwh hrst hfin hst hw => hwhole hwh _ (hfirst hrst hfin hst hw)
  · exact h.of_kept (tcpReceive_unmatched hm) (by rw [actsOn, decide_eq_false hm])

theorem tickTurn_self (t : TcpStack) (i : Fin 8) :
    (tickTurn t i).socks i = (tickSock t (pitUptimeMs t) (t.socks i)).1 :=
  setSock_self ..

theorem turn_sending (h : Sending whole iss space (n.tcp.socks i)) (j : Fin 8)
    (hw : resendWorks i n.tcp (.turn j)) :
    Sending whole iss space ((call n (.turn j)).tcp.socks i) ∧
      ((call n (.turn j)).tcp.socks i).sndNxt = (n.tcp.socks i).sndNxt := by
  change Sending whole iss space ((tickTurn n.tcp j).socks i) ∧
    ((tickTurn n.tcp j).socks i).sndNxt = (n.tcp.socks i).sndNxt
  by_cases hij : i = j
  · subst hij
    rw [tickTurn_self]
    exact h.tick _ (hw rfl)
  · have hs : (tickTurn n.tcp j).socks i = n.tcp.socks i := by
      rw [tickTurn, setSock_of_ne _ hij, (tickSock_kept ..).2]
    rw [hs]
    exact ⟨h, rfl⟩

theorem Sending.of_fields (h : Sending whole iss space (n.tcp.socks i)) (j : Fin 8) {s' : TcpSocket}
    (hk : SameSend (n.tcp.socks j) s') (hc : ∀ j, c ≠ .turn j) (hacts : actsOn i n.tcp c = (j == i))
    (hcall : (call n c).tcp = setSock n.tcp j s') :
    Sending whole iss (space ++ firstUnits i n c) ((call n c).tcp.socks i) := by
  by_cases hij : i = j
  · subst hij
    refine Sent.of_call (r := (s', n.tcp)) ?_ hc (by simpa using hacts) hcall
    exact (h.same hk).sent n.tcp
  · refine h.of_kept (by rw [hcall, setSock_of_ne _ hij]) ?_
    rw [hacts, beq_eq_false_iff_ne]
    exact Ne.symm hij

theorem chunk_sending (h : Sending whole iss space (n.tcp.socks i)) (j : Fin 8)
    (data : List UInt8) (hsized : (Call.chunk j data).sized)
    (hroom : inRoom i n.tcp (.chunk j data))
    (hwhole : whole → allAcknowledged i n.tcp (.chunk j data)) :
    Sending whole iss (space ++ firstUnits i n (.chunk j data))
      ((call n (.chunk j data)).tcp.socks i) := by
  by_cases hij : i = j
  · subst hij
    have hadv : seqAdvance (tcpFlagAck ||| tcpFlagPsh) data = data.length := by
      rw [← unitsOf_length, unitsOf_chunk, List.length_map]
    have hfirst := fun hw => show (n.tcp.socks i, data.length) ∈
        firstSend i n.tcp (.chunk i data) by
      rw [firstSend, if_pos ⟨rfl, hw⟩]
      rfl
    refine Sent.of_call (@Sending.first _ _ _ _ _ h (tcpFlagAck ||| tcpFlagPsh) data
      (by rw [hadv]; exact hsized.1) hsized.2 ?_ ?_ (by decide) (fun hf => ?_)) (by simp)
      (by simp [actsOn]) rfl
    · rw [hadv]
      exact fun hw => hroom _ (hfirst hw)
    · exact fun hwh hw => hwhole hwh _ (hfirst hw)
    · exact absurd hf (by decide)
  · refine h.of_kept ?_ (by rw [actsOn, beq_eq_false_iff_ne]; exact Ne.symm hij)
    change (sendChunk n.tcp j data).2.socks i = n.tcp.socks i
    rw [sendChunk, setSock_of_ne _ hij, (tcpSendRaw_kept ..).2.2]

theorem closeBegin_sending (h : Sending whole iss space (n.tcp.socks i)) (j : Fin 8)
    (hroom : inRoom i n.tcp (.closeBegin j))
    (hwhole : whole → allAcknowledged i n.tcp (.closeBegin j)) :
    Sending whole iss (space ++ firstUnits i n (.closeBegin j))
      ((call n (.closeBegin j)).tcp.socks i) := by
  by_cases hopen : (n.tcp.socks j).used ∧ (n.tcp.socks j).state = .established
  · have hcall : (call n (.closeBegin j)).tcp =
        setSock (tcpSendRaw n.tcp { n.tcp.socks j with state := .finWait1 }
          (tcpFlagFin ||| tcpFlagAck) [] true).2.2 j
          (tcpSendRaw n.tcp { n.tcp.socks j with state := .finWait1 }
            (tcpFlagFin ||| tcpFlagAck) [] true).2.1 := by
      simp only [call, callTcp, tcpCloseBegin, if_pos hopen]
    by_cases hij : i = j
    · subst hij
      have hfirst := fun hw => show (n.tcp.socks i, 1) ∈ firstSend i n.tcp (.closeBegin i) by
        rw [firstSend, if_pos ⟨rfl, hopen.1, hopen.2, hw⟩]
        rfl
      have hnofin : .fin ∉ space := fun hm => h.closing hm (.inr hopen.2)
      have hclosing : Sending whole iss space { n.tcp.socks i with state := .finWait1 } :=
        ⟨h.nxt, h.saved, h.syns, h.fins, fun _ => by simp [opening]⟩
      refine Sent.of_call (hclosing.first (by decide) (by decide) ?_ ?_ (by decide) ?_) (by simp)
        (by simp [actsOn]) hcall
      · exact fun hw => hroom _ (hfirst hw)
      · exact fun hwh hw => hwhole hwh _ (hfirst hw)
      · exact fun _ => ⟨hnofin, by simp [opening]⟩
    · refine h.of_kept ?_ (by rw [actsOn, beq_eq_false_iff_ne]; exact Ne.symm hij)
      rw [hcall, setSock_of_ne _ hij, (tcpSendRaw_kept ..).2.2]
  · refine h.of_fields j (.refl _) (by simp) rfl ?_
    simp only [call, callTcp, tcpCloseBegin, if_neg hopen]
    exact (setSock_eta n.tcp j).symm

theorem recv_sending (h : Sending whole iss space (n.tcp.socks i)) (j : Fin 8) (maxlen : Nat) :
    Sending whole iss (space ++ firstUnits i n (.recv j maxlen))
      ((call n (.recv j maxlen)).tcp.socks i) := by
  have hfields : ∃ s', SameSend (n.tcp.socks j) s' ∧
      (call n (.recv j maxlen)).tcp = setSock n.tcp j s' := by
    change ∃ s', SameSend (n.tcp.socks j) s' ∧ (tcpRecv n.tcp j maxlen).2.2 = setSock n.tcp j s'
    unfold tcpRecv
    simp only
    split
    · exact ⟨_, .refl _, (setSock_eta n.tcp j).symm⟩
    split
    · exact ⟨_, .refl _, (setSock_eta n.tcp j).symm⟩
    · refine ⟨_, ?_, rfl⟩
      exact ⟨rfl, rfl, rfl, rfl, id⟩
  obtain ⟨s', hk, hcall⟩ := hfields
  exact h.of_fields j hk (by simp) rfl hcall

theorem connectEnd_sending (h : Sending whole iss space (n.tcp.socks i)) (j : Fin 8) :
    Sending whole iss (space ++ firstUnits i n (.connectEnd j))
      ((call n (.connectEnd j)).tcp.socks i) := by
  by_cases hst : (n.tcp.socks j).state ≠ .established
  · refine h.of_fields j (freeSock_same _) (by simp) rfl ?_
    simp only [call, callTcp, tcpConnectEnd, if_pos hst]
  · refine h.of_fields j (.refl _) (by simp) rfl ?_
    simp only [call, callTcp, tcpConnectEnd, if_neg hst]
    exact (setSock_eta n.tcp j).symm

theorem closeEnd_sending (h : Sending whole iss space (n.tcp.socks i)) (j : Fin 8) :
    Sending whole iss (space ++ firstUnits i n (.closeEnd j))
      ((call n (.closeEnd j)).tcp.socks i) := by
  by_cases hst : (n.tcp.socks j).state ≠ .timeWait
  · refine h.of_fields j (freeSock_same _) (by simp) rfl ?_
    simp only [call, callTcp, tcpCloseEnd, if_pos hst]
  · refine h.of_fields j (.refl _) (by simp) rfl ?_
    simp only [call, callTcp, tcpCloseEnd, if_neg hst]
    exact (setSock_eta n.tcp j).symm

theorem call_sending (h : Sending whole iss space (n.tcp.socks i)) (hsized : c.sized)
    (hkeeps : c.keeps i n) (hw : resendWorks i n.tcp c) (hroom : inRoom i n.tcp c)
    (hwhole : whole → allAcknowledged i n.tcp c) :
    Sending whole iss (space ++ firstUnits i n c) ((call n c).tcp.socks i) := by
  cases c with
  | receive srcIp seg => exact receive_sending h srcIp seg hroom hwhole
  | turn j =>
    rw [firstUnits, List.append_nil]
    exact (turn_sending h j hw).1
  | clock ticks => exact h.of_kept rfl rfl
  | connectBegin dstIp dstPort => exact h.of_kept (tcpConnectBegin_socks hkeeps) rfl
  | connectEnd j => exact connectEnd_sending h j
  | chunk j data => exact chunk_sending h j data hsized hroom hwhole
  | recv j maxlen => exact recv_sending h j maxlen
  | closeBegin j => exact closeBegin_sending h j hroom hwhole
  | closeEnd j => exact closeEnd_sending h j

end Steps

theorem initialSeq_lt (uptime port : Nat) : initialSeq uptime port < 4294967296 := by
  have h32 : (4294967296 : Nat) = 2 ^ 32 := by decide
  unfold initialSeq
  rw [h32]
  refine Nat.xor_lt_two_pow (Nat.xor_lt_two_pow ?_ ?_) (by decide)
  · exact u32_lt _
  · exact u32_lt _

theorem connect_sending (whole : Prop) {i : Fin 8} {n n' : Net} {dstIp dstPort : Nat}
    (h : tcpConnectBegin n dstIp dstPort = (some i, n')) :
    Sending whole (n'.tcp.socks i).sndUna [.syn] (n'.tcp.socks i) := by
  unfold tcpConnectBegin at h
  split at h
  · cases h
  rename_i j _
  simp only at h
  set t := setSock n.tcp j { blankSocket with used := true, remoteIp := dstIp } with ht
  set p := nextEphemeral t n.nextPort with hp
  set s : TcpSocket := { blankSocket with
    used := true
    remoteIp := dstIp
    localPort := p.1
    remotePort := dstPort
    sndNxt := initialSeq (pitUptimeMs t) p.1
    sndUna := initialSeq (pitUptimeMs t) p.1
    state := .synSent } with hs
  cases hw : sendWorks t t.sends with
  | false =>
    rw [tcpSendRaw_fails _ _ _ _ _ hw] at h
    cases h
  | true =>
    rw [tcpSendRaw_works _ _ _ _ _ hw] at h
    simp only [if_true] at h
    obtain ⟨hj, rfl⟩ := Prod.mk.inj h
    obtain rfl := Option.some.inj hj
    simp only [setSock_self]
    have hlt : s.sndNxt < 4294967296 := initialSeq_lt _ _
    have hadv : 0 < seqAdvance tcpFlagSyn [] := by decide
    obtain ⟨hseq, huna, hstate⟩ := advanced_seq (t := t) (s := s) hadv
    have huna : (advanced t s tcpFlagSyn [] true).sndUna = s.sndNxt := huna
    rw [huna]
    refine ⟨rfl, ⟨0, by decide, ?_, by decide, .inr ⟨0, by decide, fun _ => le_rfl, by decide, ?_,
      ?_⟩⟩, by decide, by decide, fun hm => absurd hm (by decide)⟩
    · rw [huna, Nat.add_zero, u32_of_lt hlt]
    · rw [hseq, Nat.add_zero, u32_of_lt hlt]
    · rw [advanced_units hadv (by decide)]
      decide

section Runs

variable {i : Fin 8}

-- Every new byte and FIN leaves at most 2^31 - 1 numbers unacknowledged.
def orderGuard (i : Fin 8) (x : Tx) (c : Call) : Prop :=
  resendWorks i x.net.tcp c ∧ inRoom i x.net.tcp c

def coverGuard (i : Fin 8) (x : Tx) (c : Call) : Prop :=
  resendWorks i x.net.tcp c ∧ allAcknowledged i x.net.tcp c

theorem firstSend_le {t : TcpStack} {c : Call} (hsized : c.sized) :
    ∀ p ∈ firstSend i t c, p.2 ≤ tcpMss := by
  intro p hp
  cases c with
  | receive srcIp seg =>
    obtain ⟨-, he⟩ := Option.ite_none_right_eq_some.mp hp
    rw [← Option.some.inj he]
    exact Nat.le_of_ble_eq_true rfl
  | chunk j data =>
    obtain ⟨-, he⟩ := Option.ite_none_right_eq_some.mp hp
    rw [← Option.some.inj he]
    exact hsized.2
  | closeBegin j =>
    obtain ⟨-, he⟩ := Option.ite_none_right_eq_some.mp hp
    rw [← Option.some.inj he]
    exact Nat.le_of_ble_eq_true rfl
  | _ => cases hp

theorem inRoom_of_acknowledged {t : TcpStack} {c : Call} (hsized : c.sized)
    (h : allAcknowledged i t c) : inRoom i t c := by
  intro p hp
  have hle := firstSend_le hsized p hp
  rw [h p hp]
  have hself : sub32 p.1.sndNxt p.1.sndNxt = 0 := by
    unfold sub32
    omega
  rw [hself]
  unfold tcpMss at hle
  omega

def orderInvariant (i : Fin 8) : ((sender i).restrict (orderGuard i)).Invariant where
  holds x := Sending False x.iss x.space (x.net.tcp.socks i)
  start := by
    rintro x ⟨n, dstIp, dstPort, hconn, hiss, hspace⟩
    rw [hiss, hspace]
    exact connect_sending False hconn
  step := by
    rintro x c x' h ⟨⟨hw, hroom⟩, hsized, hkeeps, rfl⟩
    exact call_sending h hsized hkeeps hw hroom False.elim

def coverInvariant (i : Fin 8) : ((sender i).restrict (coverGuard i)).Invariant where
  holds x := Sending True x.iss x.space (x.net.tcp.socks i)
  start := by
    rintro x ⟨n, dstIp, dstPort, hconn, hiss, hspace⟩
    rw [hiss, hspace]
    exact connect_sending True hconn
  step := by
    rintro x c x' h ⟨⟨hw, hack⟩, hsized, hkeeps, rfl⟩
    exact call_sending h hsized hkeeps hw (inRoom_of_acknowledged hsized hack) fun _ => hack

theorem space_length (space : List SeqUnit) : space.length =
    space.count .syn + space.countP SeqUnit.isByte + space.count .fin := by
  induction space with
  | nil => rfl
  | cons u space ih =>
    cases u with
    | syn => simp [SeqUnit.isByte, ih]; omega
    | byte b =>
      rw [List.countP_cons_of_pos (by rfl), List.length_cons, ih]
      simp
      omega
    | fin => simp [SeqUnit.isByte, ih]; omega

def bytesSent (x : Tx) : Nat := x.space.countP SeqUnit.isByte

def finSent (x : Tx) : Nat := if .fin ∈ x.space then 1 else 0

-- The acknowledgements an honest peer can send are those between snd_una and what was sent.
structure SendOrder (i : Fin 8) (x : Tx) : Prop where
  ordered : seqGte (x.net.tcp.socks i).sndNxt (x.net.tcp.socks i).sndUna = true
  advanced : (x.net.tcp.socks i).sndNxt = u32 (x.iss + 1 + bytesSent x + finSent x)
  accepted : ∀ a < 4294967296, 0 < sub32 a (x.net.tcp.socks i).sndUna →
    sub32 a (x.net.tcp.socks i).sndUna ≤
      sub32 (u32 (x.iss + 1 + bytesSent x + finSent x)) (x.net.tcp.socks i).sndUna →
    (ackUpdate (x.net.tcp.socks i) a).sndUna = a

theorem Sending.order {x : Tx} {whole : Prop}
    (h : Sending whole x.iss x.space (x.net.tcp.socks i)) : SendOrder i x := by
  obtain ⟨acked, hle, hu, hlt, -⟩ := h.saved
  have hfin : finSent x = x.space.count .fin := by
    have hf := h.fins
    unfold finSent
    split
    · rename_i hm
      have := List.count_pos_iff.mpr hm
      omega
    · rename_i hm
      exact (List.count_eq_zero.mpr hm).symm
  have hadv : (x.net.tcp.socks i).sndNxt = u32 (x.iss + 1 + bytesSent x + finSent x) := by
    rw [h.nxt, space_length, h.syns, hfin, bytesSent]
    congr 1
    omega
  have hout : sub32 (x.net.tcp.socks i).sndNxt (x.net.tcp.socks i).sndUna =
      x.space.length - acked := by
    rw [hu, h.nxt]
    exact sub32_u32 _ hle (by omega)
  refine ⟨?_, hadv, fun a ha hpos hle' => ?_⟩
  · rw [seqGte, hout]
    exact decide_eq_true hlt
  · rw [← hadv, hout] at hle'
    have hrest : sub32 (x.net.tcp.socks i).sndNxt a < 2147483648 := by
      have hsplit : sub32 (x.net.tcp.socks i).sndNxt a = x.space.length - acked -
          sub32 a (x.net.tcp.socks i).sndUna := by
        rw [hu, h.nxt] at *
        unfold sub32 u32 at *
        omega
      omega
    have hok : (seqGt a (x.net.tcp.socks i).sndUna &&
        seqGte (x.net.tcp.socks i).sndNxt a) = true := by
      rw [seqGt, seqGte, decide_eq_true hpos, decide_eq_true (by omega), decide_eq_true hrest]
      rfl
    unfold ackUpdate
    rw [if_pos hok]
    simp only
    split
    · rfl
    · rfl

theorem send_order_kept {x : Tx} (h : ((sender i).restrict (orderGuard i)).Reach x) :
    SendOrder i x ∧ ∀ j, orderGuard i x (.turn j) →
      ((transmit i x (.turn j)).net.tcp.socks i).sndNxt = (x.net.tcp.socks i).sndNxt := by
  have hs := (orderInvariant i).reach h
  exact ⟨hs.order, fun j hg => (turn_sending hs j hg.1).2⟩

def bootNet (sendOk : Nat → Bool) : Net :=
  { tcp :=
      { socks := fun _ => blankSocket
        myIp := 0
        pitTickCount := 0
        pitFrequency := 1000
        kmallocOk := fun _ => true
        sendOk := sendOk
        sends := 0
        sent := [] }
    nextPort := 49152 }

def connecting (sendOk : Nat → Bool) : Tx :=
  { net := (tcpConnectBegin (bootNet sendOk) 1 80).2
    iss := ((tcpConnectBegin (bootNet sendOk) 1 80).2.tcp.socks 0).sndUna
    space := [.syn] }

-- The answer to the SYN that connecting has sent, with initial sequence number 0.
def synAck : List UInt8 :=
  [0, 80, 192, 0, 0, 0, 0, 0, 0x1E, 0xAD, 0, 1, 0x50, 0x12, 0, 0, 0, 0, 0, 0]

theorem connecting_init (sendOk : Nat → Bool)
    (h : (tcpConnectBegin (bootNet sendOk) 1 80).1 = some 0) :
    (sender 0).init (connecting sendOk) :=
  ⟨bootNet sendOk, 1, 80, Prod.ext h rfl, rfl, rfl⟩

theorem sender_next {x : Tx} (h : (sender i).Reach x) (c : Call) (hsized : c.sized)
    (hkeeps : c.keeps i x.net) : (sender i).Reach (transmit i x c) :=
  h.next ⟨hsized, hkeeps, rfl⟩

-- What a whole tcp_send, tcp_close, tcp_tick or wait of tcp_connect does is a run of the system.
theorem sender_called {x : Tx} (h : (sender i).Reach x) {n' : Net} (hc : Called x.net n') :
    ∃ x', (sender i).Reach x' ∧ x'.net = n' := by
  obtain ⟨cs, hcs, rfl⟩ := hc
  induction cs generalizing x with
  | nil => exact ⟨x, h, rfl⟩
  | cons c cs ih =>
    rw [List.forall_mem_cons] at hcs
    have hkeeps : c.keeps i x.net := by
      cases c with
      | connectBegin dstIp dstPort => cases hcs.1.2
      | _ => trivial
    exact ih (sender_next h c hcs.1.1 hkeeps) hcs.2

theorem guarded_next {guard : Tx → Call → Prop} {x : Tx}
    (h : ((sender i).restrict guard).Reach x) (c : Call) (hg : guard x c) (hsized : c.sized)
    (hkeeps : c.keeps i x.net) : ((sender i).restrict guard).Reach (transmit i x c) :=
  h.next ⟨hg, hsized, hkeeps, rfl⟩

theorem byte_sized (i : Fin 8) (b : UInt8) : (Call.chunk i [b]).sized :=
  ⟨Nat.zero_lt_one, Nat.le_of_ble_eq_true rfl⟩

def sentByte : Tx :=
  transmit 0 (transmit 0 (connecting (fun _ => true)) (.receive 1 synAck)) (.chunk 0 [65])

theorem send_order_kept_chunk : SendOrder 0 sentByte ∧ ∀ j, orderGuard 0 sentByte (.turn j) →
    ((transmit 0 sentByte (.turn j)).net.tcp.socks 0).sndNxt =
      (sentByte.net.tcp.socks 0).sndNxt := by
  have h0 : ((sender 0).restrict (orderGuard 0)).Reach (connecting (fun _ => true)) :=
    .start (connecting_init _ (by decide +kernel))
  have h1 := guarded_next h0 (.receive 1 synAck)
    ⟨trivial, by unfold inRoom; decide +kernel⟩ trivial trivial
  have h2 := guarded_next h1 (.chunk 0 [65])
    ⟨trivial, by unfold inRoom; decide +kernel⟩ (byte_sized 0 65) trivial
  exact send_order_kept h2

-- The fourth transmission is the resend of the byte: it fails, and snd_nxt stays behind the byte.
theorem send_order_fails : ¬ ∀ (i : Fin 8) (x : Tx), (sender i).Reach x →
    SendOrder i x ∧ ∀ j, ((transmit i x (.turn j)).net.tcp.socks i).sndNxt =
      (x.net.tcp.socks i).sndNxt := by
  intro h
  have h0 : (sender 0).Reach (connecting (· != 3)) :=
    .start (connecting_init _ (by decide +kernel))
  have h1 := sender_next h0 (.receive 1 synAck) trivial trivial
  have h2 := sender_next h1 (.chunk 0 [65]) (byte_sized 0 65) trivial
  have h3 := sender_next h2 (.clock 1000) trivial trivial
  exact absurd ((h 0 _ h3).2 0) (by decide +kernel)

def savedAt (s : TcpSocket) (seq : Nat) : Option SeqUnit := (savedUnits s)[sub32 seq s.retxSeq]?

-- What was sent for the first time under a sequence number, counted back from the last one.
def sentAt (x : Tx) (seq : Nat) : Option SeqUnit :=
  x.space[x.space.length - sub32 (u32 (x.iss + x.space.length)) seq]?

def Resendable (i : Fin 8) (x : Tx) : Prop :=
  (x.net.tcp.socks i).used = true →
    (x.net.tcp.socks i).state ∈ [TcpState.synSent, .established, .finWait1, .lastAck] →
    ∀ d < sub32 (x.net.tcp.socks i).sndNxt (x.net.tcp.socks i).sndUna,
      ∃ u, savedAt (x.net.tcp.socks i) (u32 ((x.net.tcp.socks i).sndUna + d)) = some u ∧
        sentAt x (u32 ((x.net.tcp.socks i).sndUna + d)) = some u

theorem saved_segment_covers {x : Tx} (h : ((sender i).restrict (coverGuard i)).Reach x) :
    Resendable i x := by
  have hs : Sending True x.iss x.space (x.net.tcp.socks i) := (coverInvariant i).reach h
  obtain ⟨acked, hle, hu, hlt, hcov⟩ := hs.saved
  intro _ _ d hd
  rw [hu, hs.nxt, sub32_u32 _ hle (hlt.trans (by decide))] at hd
  have hne : acked ≠ x.space.length := by
    rintro rfl
    exact Nat.not_lt_zero d (by rwa [Nat.sub_self] at hd)
  obtain ⟨k, hk, hwh, hklt, hseq, hunits⟩ := hcov.resolve_left hne
  clear hcov
  have hka := hwh trivial
  have hat : u32 ((x.net.tcp.socks i).sndUna + d) = u32 (x.iss + (acked + d)) := by
    rw [hu, u32_add, Nat.add_assoc]
  have hpos : sub32 (u32 (x.iss + (acked + d))) (x.net.tcp.socks i).retxSeq = acked + d - k := by
    rw [hseq]
    exact sub32_u32 _ (by omega) (by omega)
  have hback : x.space.length - sub32 (u32 (x.iss + x.space.length)) (u32 (x.iss + (acked + d))) =
      acked + d := by
    rw [sub32_u32 _ (by omega) (by omega)]
    omega
  rw [hat]
  refine ⟨x.space[acked + d], ?_, ?_⟩
  · rw [savedAt, hpos, hunits, List.getElem?_drop, show k + (acked + d - k) = acked + d by omega]
    exact List.getElem?_eq_getElem (by omega)
  · rw [sentAt, hback]
    exact List.getElem?_eq_getElem (by omega)

theorem saved_segment_covers_chunk : Resendable 0 sentByte := by
  have h0 : ((sender 0).restrict (coverGuard 0)).Reach (connecting (fun _ => true)) :=
    .start (connecting_init _ (by decide +kernel))
  have h1 := guarded_next h0 (.receive 1 synAck)
    ⟨trivial, by unfold allAcknowledged; decide +kernel⟩ trivial trivial
  have h2 := guarded_next h1 (.chunk 0 [65])
    ⟨trivial, by unfold allAcknowledged; decide +kernel⟩ (byte_sized 0 65) trivial
  exact saved_segment_covers h2

-- Three seconds without an acknowledgement end the first tcp_send; the next one saves its own byte.
theorem saved_segment_fails :
    ¬ ∀ (i : Fin 8) (x : Tx), (sender i).Reach x → Resendable i x := by
  intro h
  have h0 : (sender 0).Reach (connecting (fun _ => true)) :=
    .start (connecting_init _ (by decide +kernel))
  have h1 := sender_next h0 (.receive 1 synAck) trivial trivial
  have h2 := sender_next h1 (.chunk 0 [65]) (byte_sized 0 65) trivial
  have h3 := sender_next h2 (.clock 3000) trivial trivial
  have h4 := sender_next h3 (.chunk 0 [66]) (byte_sized 0 66) trivial
  obtain ⟨u, hu, -⟩ := h 0 _ h4 (by decide +kernel) (by decide +kernel) 0 (by decide +kernel)
  exact absurd hu (by rw [show savedAt _ _ = none by decide +kernel]; exact fun he => by cases he)

end Runs

end Tcp
