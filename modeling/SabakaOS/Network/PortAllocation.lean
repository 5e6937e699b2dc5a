import Mathlib.Data.Fintype.Card
import Mathlib.Logic.Function.Iterate
import SabakaOS.Library.Run
import SabakaOS.Network.Retransmission

namespace Tcp

open Word

def portAfter (p : Nat) : Nat := if 65535 ≤ p then 49152 else p + 1

def Ephemeral (p : Nat) : Prop := 49152 ≤ p ∧ p ≤ 65535

-- The test that the lookup of tcp_receive makes of each socket.
def matchesSegment (t : TcpStack) (srcIp srcPort dstPort : Nat) (i : Fin 8) : Bool :=
  (t.socks i).used && (t.socks i).state != .closed && (t.socks i).remoteIp == srcIp &&
    (t.socks i).remotePort == srcPort && (t.socks i).localPort == dstPort

def booted : System Net Call where
  init n := (∀ i, (n.tcp.socks i).used = false) ∧ n.nextPort = 49152
  step n c n' := n' = call n c

structure PortLaw (n : Net) : Prop where
  cursor : Ephemeral n.nextPort
  range : ∀ i, (n.tcp.socks i).used = true → Ephemeral (n.tcp.socks i).localPort
  distinct : ∀ i j, (n.tcp.socks i).used = true → (n.tcp.socks j).used = true →
    (n.tcp.socks i).localPort = (n.tcp.socks j).localPort → i = j

-- next_ephemeral's loop ends at its k-th try.
structure FindsPort (t : TcpStack) (nextPort k : Nat) : Prop where
  tries : k < 16384
  taken : ∀ j < k, portUsed t (portAfter^[j] nextPort) = true
  free : portUsed t (portAfter^[k] nextPort) = false
  result : nextEphemeral t nextPort = (portAfter^[k] nextPort, portAfter^[k + 1] nextPort)

section Probing

variable {t : TcpStack} {p k : Nat}

theorem portAfter_iterate (hp : Ephemeral p) (k : Nat) :
    portAfter^[k] p = 49152 + (p - 49152 + k) % 16384 := by
  obtain ⟨hlow, hhigh⟩ := hp
  induction k with
  | zero =>
    rw [Function.iterate_zero_apply]
    omega
  | succ k ih =>
    rw [Function.iterate_succ_apply', ih, portAfter]
    split
    · omega
    · omega

theorem portAfter_ephemeral (hp : Ephemeral p) (k : Nat) : Ephemeral (portAfter^[k] p) := by
  rw [portAfter_iterate hp, Ephemeral]
  omega

theorem portAfter_inj (hp : Ephemeral p) {j : Nat} (hj : j < 16384) (hk : k < 16384)
    (h : portAfter^[j] p = portAfter^[k] p) : j = k := by
  rw [portAfter_iterate hp, portAfter_iterate hp] at h
  omega

theorem portUsed_iff : portUsed t p = true ↔
    ∃ i, (t.socks i).used = true ∧ (t.socks i).localPort = p := by
  simp [portUsed, List.any_eq_true]

-- Nine ports that follow each other are not all held by eight sockets.
theorem exists_free_port (t : TcpStack) (hp : Ephemeral p) :
    ∃ k < 9, portUsed t (portAfter^[k] p) = false := by
  by_contra hall
  have hused : ∀ k : Fin 9, ∃ i, (t.socks i).used = true ∧
      (t.socks i).localPort = portAfter^[k.val] p := by
    intro k
    refine portUsed_iff.mp ?_
    by_contra hfree
    exact hall ⟨k, k.isLt, by simpa using hfree⟩
  choose holder _ hport using hused
  have hinj : Function.Injective holder := by
    intro j k hjk
    have hsame := hport k
    rw [← hjk, hport j] at hsame
    exact Fin.ext (portAfter_inj hp (by omega) (by omega) hsame)
  have hcard := Fintype.card_le_of_injective holder hinj
  simp at hcard

theorem nextEphemeralFrom_finds {tries : Nat} (hk : k < tries)
    (htaken : ∀ j < k, portUsed t (portAfter^[j] p) = true)
    (hfree : portUsed t (portAfter^[k] p) = false) :
    nextEphemeralFrom t tries p = (portAfter^[k] p, portAfter^[k + 1] p) := by
  induction k generalizing p tries with
  | zero =>
    obtain ⟨tries, rfl⟩ : ∃ n, tries = n + 1 := ⟨tries - 1, by omega⟩
    rw [Function.iterate_zero_apply] at hfree
    rw [nextEphemeralFrom, hfree]
    rfl
  | succ k ih =>
    obtain ⟨tries, rfl⟩ : ∃ n, tries = n + 1 := ⟨tries - 1, by omega⟩
    have hhere : portUsed t p = true := htaken 0 (by omega)
    rw [nextEphemeralFrom, hhere, if_pos rfl]
    exact ih (by omega) (fun j hj => htaken (j + 1) (by omega)) hfree

theorem finds_port (t : TcpStack) (hp : Ephemeral p) : ∃ k, FindsPort t p k := by
  have hex : ∃ k, portUsed t (portAfter^[k] p) = false := by
    obtain ⟨k, -, hk⟩ := exists_free_port t hp
    exact ⟨k, hk⟩
  classical
  have htries : Nat.find hex < 16384 := by
    obtain ⟨k, hlt, hk⟩ := exists_free_port t hp
    exact (Nat.find_min' hex hk).trans_lt (by omega)
  have htaken : ∀ j < Nat.find hex, portUsed t (portAfter^[j] p) = true := by
    intro j hj
    simpa using Nat.find_min hex hj
  exact ⟨Nat.find hex, htries, htaken, Nat.find_spec hex,
    nextEphemeralFrom_finds htries htaken (Nat.find_spec hex)⟩

end Probing

-- A socket that keeps its port, and that no call but tcp_connect brings into use.
structure Stays (s s' : TcpSocket) : Prop where
  port : s'.localPort = s.localPort
  used : s'.used = true → s.used = true

section Sockets

variable {t t' : TcpStack} {s s' s'' : TcpSocket}

theorem Stays.refl (s : TcpSocket) : Stays s s := ⟨rfl, id⟩

theorem Stays.trans (h : Stays s s') (h' : Stays s' s'') : Stays s s'' :=
  ⟨h'.port.trans h.port, fun hu => h.used (h'.used hu)⟩

theorem freeSock_stays (s : TcpSocket) : Stays s (freeSock s) := ⟨rfl, fun hu => by cases hu⟩

theorem tcpSendRaw_stays (t : TcpStack) (s : TcpSocket) (flags : UInt8) (payload : List UInt8)
    (save : Bool) : Stays s (tcpSendRaw t s flags payload save).2.1 := by
  rw [tcpSendRaw_eq]
  split
  · simp only [advanced]
    split
    · exact ⟨rfl, id⟩
    · exact ⟨rfl, id⟩
  · exact .refl s

theorem ackUpdate_stays (s : TcpSocket) (a : Nat) : Stays s (ackUpdate s a) := by
  unfold ackUpdate
  simp only
  split
  · split
    · exact ⟨rfl, id⟩
    · exact ⟨rfl, id⟩
  · exact .refl s

theorem acceptPayload_stays (s : TcpSocket) (payload : List UInt8) :
    Stays s (acceptPayload s payload) := ⟨rfl, id⟩

theorem enterTimeWait_stays (t : TcpStack) (s : TcpSocket) : Stays s (enterTimeWait t s).1 := by
  have h := tcpSendRaw_stays t { s with rcvNxt := u32 (s.rcvNxt + 1) } tcpFlagAck [] false
  exact ⟨h.port, h.used⟩

theorem doRetransmit_stays (t : TcpStack) (s : TcpSocket) : Stays s (doRetransmit t s).1 := by
  unfold doRetransmit
  simp only
  split
  · exact .refl s
  split
  · exact ⟨rfl, fun hu => by cases hu⟩
  · have h := tcpSendRaw_stays t { s with
      retxCount := u8 (s.retxCount + 1)
      sndNxt := s.retxSeq } s.retxFlags (s.retxBuf.take s.retxLen) false
    exact ⟨h.port, h.used⟩

theorem tickSock_stays (t : TcpStack) (now : Nat) (s : TcpSocket) : Stays s (tickSock t now s).1 := by
  unfold tickSock
  split
  · exact .refl s
  split
  · split
    · exact freeSock_stays s
    · exact .refl s
  split
  · split
    · exact doRetransmit_stays t s
    · exact ⟨rfl, id⟩
  · exact .refl s

theorem receiveEstablished_stays (t : TcpStack) (s : TcpSocket) (seg : List UInt8) :
    Stays s (receiveEstablished t s seg).1 := by
  unfold receiveEstablished
  simp only
  have hdata : Stays s (if 0 < (segPayload seg).length ∧ segSeq seg = s.rcvNxt then
      tcpSendAck t (acceptPayload s (segPayload seg)) else (s, t)).1 := by
    split
    · exact (acceptPayload_stays s _).trans (tcpSendRaw_stays ..)
    · exact .refl s
  generalize (if 0 < (segPayload seg).length ∧ segSeq seg = s.rcvNxt then
    tcpSendAck t (acceptPayload s (segPayload seg)) else (s, t)) = r at hdata
  split
  · have hack := tcpSendRaw_stays r.2 { r.1 with rcvNxt := u32 (r.1.rcvNxt + 1) } tcpFlagAck [] false
    have hfin := tcpSendRaw_stays
      (tcpSendAck r.2 { r.1 with rcvNxt := u32 (r.1.rcvNxt + 1) }).2
      { (tcpSendAck r.2 { r.1 with rcvNxt := u32 (r.1.rcvNxt + 1) }).1 with state := .lastAck }
      (tcpFlagFin ||| tcpFlagAck) [] true
    exact ⟨hfin.port.trans (hack.port.trans hdata.port),
      fun hu => hdata.used (hack.used (hfin.used hu))⟩
  · exact hdata

theorem receiveFinWait1_stays (t : TcpStack) (s : TcpSocket) (seg : List UInt8) :
    Stays s (receiveFinWait1 t s seg).1 := by
  unfold receiveFinWait1
  simp only
  have hack : Stays s (if has (segFlags seg) tcpFlagAck then { s with state := .finWait2 } else s) := by
    split
    · exact ⟨rfl, id⟩
    · exact .refl s
  split
  · exact hack.trans (enterTimeWait_stays t _)
  · exact hack

theorem receiveFinWait2_stays (t : TcpStack) (s : TcpSocket) (seg : List UInt8) :
    Stays s (receiveFinWait2 t s seg).1 := by
  unfold receiveFinWait2
  simp only
  have hdata : Stays s (if 0 < (segPayload seg).length ∧ segSeq seg = s.rcvNxt then
      acceptPayload s (segPayload seg) else s) := by
    split
    · exact acceptPayload_stays s _
    · exact .refl s
  split
  · exact hdata.trans (enterTimeWait_stays t _)
  · exact hdata

theorem receiveSynSent_stays (t : TcpStack) (s : TcpSocket) (srcIp srcPort dstPort : Nat)
    (seg : List UInt8) : Stays s (receiveSynSent t s srcIp srcPort dstPort seg).1 := by
  unfold receiveSynSent
  split
  · split
    · exact freeSock_stays s
    · have h := tcpSendRaw_stays t { s with
        rcvNxt := u32 (segSeq seg + 1)
        sndUna := segAck seg
        state := .established
        retxDeadline := 0 } tcpFlagAck [] false
      exact ⟨h.port, h.used⟩
  · exact .refl s

theorem receiveSock_stays (t : TcpStack) (s : TcpSocket) (srcIp srcPort dstPort : Nat)
    (seg : List UInt8) : Stays s (receiveSock t s srcIp srcPort dstPort seg).1 := by
  unfold receiveSock
  split
  · exact freeSock_stays s
  simp only
  have hack : Stays s (if has (segFlags seg) tcpFlagAck then ackUpdate s (segAck seg) else s) := by
    split
    · exact ackUpdate_stays s _
    · exact .refl s
  generalize (if has (segFlags seg) tcpFlagAck = true then ackUpdate s (segAck seg) else s) = u at hack
  refine hack.trans ?_
  cases u.state with
  | synSent => exact receiveSynSent_stays ..
  | established => exact receiveEstablished_stays ..
  | finWait1 => exact receiveFinWait1_stays ..
  | finWait2 => exact receiveFinWait2_stays ..
  | lastAck =>
    simp only
    split
    · exact freeSock_stays u
    · exact .refl u
  | timeWait =>
    simp only
    split
    · exact enterTimeWait_stays t u
    · exact .refl u
  | closed => exact .refl u
  | closeWait => exact .refl u

theorem setSock_stays {i : Fin 8} (hsocks : t'.socks = t.socks) (h : Stays (t.socks i) s) (j : Fin 8) :
    Stays (t.socks j) ((setSock t' i s).socks j) := by
  by_cases hj : j = i
  · subst hj
    rw [setSock_self]
    exact h
  · rw [setSock_of_ne _ hj, hsocks]
    exact .refl _

end Sockets

section Calls

variable {n n' : Net}

theorem callTcp_stays (t : TcpStack) (c : Call) (j : Fin 8) :
    Stays (t.socks j) ((callTcp t c).socks j) := by
  cases c with
  | receive srcIp seg =>
    simp only [callTcp, tcpReceive]
    split
    · exact .refl _
    split
    · split
      · rw [tcpSendRstFor_socks]
        exact .refl _
      · exact .refl _
    · exact setSock_stays (receiveSock_socks ..) (receiveSock_stays ..) j
  | turn i => exact setSock_stays (tickSock_kept ..).2 (tickSock_stays ..) j
  | clock ticks => exact .refl _
  | connectBegin dstIp dstPort => exact .refl _
  | connectEnd i =>
    simp only [callTcp, tcpConnectEnd]
    split
    · exact setSock_stays rfl (freeSock_stays _) j
    · exact .refl _
  | chunk i data => exact setSock_stays (tcpSendRaw_kept ..).2.2 (tcpSendRaw_stays ..) j
  | recv i maxlen =>
    simp only [callTcp, tcpRecv]
    split
    · exact .refl _
    split
    · exact .refl _
    · refine setSock_stays (i := i) rfl ?_ j
      exact ⟨rfl, id⟩
  | closeBegin i =>
    simp only [callTcp, tcpCloseBegin]
    split
    · have h := tcpSendRaw_stays t { t.socks i with state := .finWait1 } (tcpFlagFin ||| tcpFlagAck)
        [] true
      exact setSock_stays (tcpSendRaw_kept ..).2.2 ⟨h.port, h.used⟩ j
    · exact .refl _
  | closeEnd i =>
    simp only [callTcp, tcpCloseEnd]
    split
    · exact setSock_stays rfl (freeSock_stays _) j
    · exact .refl _

theorem PortLaw.stays (h : PortLaw n) {t : TcpStack}
    (hs : ∀ j, Stays (n.tcp.socks j) (t.socks j)) : PortLaw { n with tcp := t } := by
  refine ⟨h.cursor, fun i hi => ?_, fun i j hi hj hport => ?_⟩
  · change Ephemeral (t.socks i).localPort
    rw [(hs i).port]
    exact h.range i ((hs i).used hi)
  · have hport' : (t.socks i).localPort = (t.socks j).localPort := hport
    rw [(hs i).port, (hs j).port] at hport'
    exact h.distinct i j ((hs i).used hi) ((hs j).used hj) hport'

theorem PortLaw.choose (h : PortLaw n) {i : Fin 8} {s : TcpSocket} {t : TcpStack} {next : Nat}
    (ht : ∀ j, j ≠ i → t.socks j = n.tcp.socks j) (hs : t.socks i = s) (hnext : Ephemeral next)
    (hp : Ephemeral s.localPort)
    (hfree : ∀ j, j ≠ i → (n.tcp.socks j).used = true → (n.tcp.socks j).localPort ≠ s.localPort) :
    PortLaw { tcp := t, nextPort := next } := by
  refine ⟨hnext, fun j hj => ?_, fun j k hj hk hport => ?_⟩
  · by_cases hji : j = i
    · subst hji
      exact hs ▸ hp
    · simp only [ht j hji] at hj ⊢
      exact h.range j hj
  · by_cases hji : j = i
    · subst hji
      by_contra hjk
      have hkj : k ≠ j := fun he => hjk he.symm
      simp only [hs, ht k hkj] at hk hport
      exact hfree k hkj hk hport.symm
    · by_cases hki : k = i
      · subst hki
        simp only [hs, ht j hji] at hj hport
        exact absurd hport (hfree j hji hj)
      · simp only [ht j hji, ht k hki] at hj hk hport
        exact h.distinct j k hj hk hport

theorem PortLaw.connect (h : PortLaw n) (dstIp dstPort : Nat) :
    PortLaw (tcpConnectBegin n dstIp dstPort).2 := by
  unfold tcpConnectBegin
  split
  · exact h
  rename_i i hi
  simp only
  have hunused : (n.tcp.socks i).used = false := by simpa using List.find?_some hi
  set t := setSock n.tcp i { blankSocket with used := true, remoteIp := dstIp }
  obtain ⟨k, hk⟩ := finds_port t h.cursor
  rw [hk.result]
  have hnext := portAfter_ephemeral h.cursor (k + 1)
  have hport := portAfter_ephemeral h.cursor k
  have hfree : ∀ j, j ≠ i → (n.tcp.socks j).used = true →
      (n.tcp.socks j).localPort ≠ portAfter^[k] n.nextPort := by
    intro j hj hused heq
    have hfree := hk.free
    rw [portUsed_iff.mpr ⟨j, by rw [setSock_of_ne _ hj]; exact hused,
      by rw [setSock_of_ne _ hj]; exact heq⟩] at hfree
    cases hfree
  generalize hs : ({ blankSocket with
    used := true
    remoteIp := dstIp
    localPort := portAfter^[k] n.nextPort
    remotePort := dstPort
    sndNxt := initialSeq (pitUptimeMs t) (portAfter^[k] n.nextPort)
    sndUna := initialSeq (pitUptimeMs t) (portAfter^[k] n.nextPort)
    state := .synSent } : TcpSocket) = s
  have hsport : s.localPort = portAfter^[k] n.nextPort := by rw [← hs]
  have hstays := (tcpSendRaw_stays t s tcpFlagSyn [] true).port
  have hsocks := (tcpSendRaw_kept t s tcpFlagSyn [] true).2.2
  have hothers : ∀ s' j, j ≠ i →
      (setSock (tcpSendRaw t s tcpFlagSyn [] true).2.2 i s').socks j = n.tcp.socks j := by
    intro s' j hj
    rw [setSock_of_ne _ hj, hsocks, setSock_of_ne _ hj]
  rw [← hsport] at hport hfree
  rw [← hstays] at hport hfree
  split
  · exact h.choose (hothers _) (setSock_self ..) hnext hport hfree
  · exact h.choose (hothers _) (setSock_self ..) hnext hport hfree

def portInvariant : booted.Invariant where
  holds := PortLaw
  start := by
    rintro n ⟨hnone, hnext⟩
    refine ⟨hnext ▸ ⟨by decide, by decide⟩, fun i hi => ?_, fun i j hi => ?_⟩
    · rw [hnone i] at hi
      exact nomatch hi
    · rw [hnone i] at hi
      exact nomatch hi
  step := by
    rintro n c n' h rfl
    cases c with
    | connectBegin dstIp dstPort => exact h.connect dstIp dstPort
    | _ => exact h.stays (callTcp_stays n.tcp _)

-- Whole functions, with any interrupts while they wait, stay among the reachable states.
theorem booted_called (h : booted.Reach n) (hc : Called n n') : booted.Reach n' := by
  obtain ⟨cs, -, rfl⟩ := hc
  induction cs generalizing n with
  | nil => exact h
  | cons c cs ih => exact ih (h.next rfl)

theorem booted_connect (h : booted.Reach n) {dstIp dstPort timeoutMs : Nat} {irqs : List Irq}
    {r : Option (Fin 8)} (hc : tcpConnect n dstIp dstPort timeoutMs irqs = some (r, n')) :
    booted.Reach n' :=
  booted_called (h.next rfl) (tcpConnect_called irqs n hc)

theorem booted_close (h : booted.Reach n) {i : Fin 8} {irqs : List Irq} {t : TcpStack}
    (hc : tcpClose n.tcp i irqs = some t) : booted.Reach { n with tcp := t } :=
  booted_called h (tcpClose_called irqs n hc)

theorem booted_irq (h : booted.Reach n) (e : Irq) : booted.Reach { n with tcp := irq n.tcp e } :=
  booted_called h (irq_called n e)

end Calls

section Lookup

variable {n : Net} {srcIp srcPort dstPort : Nat}

theorem PortLaw.one_match (h : PortLaw n) {i j : Fin 8}
    (hi : matchesSegment n.tcp srcIp srcPort dstPort i = true)
    (hj : matchesSegment n.tcp srcIp srcPort dstPort j = true) : i = j := by
  simp only [matchesSegment, Bool.and_eq_true, beq_iff_eq] at hi hj
  exact h.distinct i j hi.1.1.1.1 hj.1.1.1.1 (hi.2.trans hj.2.symm)

-- A test that one element at most passes finds the same element in every order.
theorem find_perm {α : Type} {p : α → Bool} {l l' : List α} (hl : l.Perm l')
    (hone : ∀ a b, p a = true → p b = true → a = b) : l.find? p = l'.find? p := by
  cases h : l'.find? p with
  | none =>
    rw [List.find?_eq_none] at h ⊢
    exact fun a ha => h a (hl.mem_iff.mp ha)
  | some b =>
    have hb := List.find?_some h
    have hmem := hl.mem_iff.mpr (List.mem_of_find?_eq_some h)
    obtain ⟨a, ha⟩ := Option.isSome_iff_exists.mp (List.find?_isSome.mpr ⟨b, hmem, hb⟩)
    rw [ha, hone a b (List.find?_some ha) hb]

end Lookup

theorem ports_distinct {n : Net} (h : booted.Reach n) :
    PortLaw n ∧ (∀ t, ∃ k, FindsPort t n.nextPort k) ∧
    ∀ srcIp srcPort dstPort,
      (∀ i j, matchesSegment n.tcp srcIp srcPort dstPort i = true →
        matchesSegment n.tcp srcIp srcPort dstPort j = true → i = j) ∧
      ∀ order : List (Fin 8), order.Perm (List.finRange 8) →
        order.find? (matchesSegment n.tcp srcIp srcPort dstPort) =
          findSock n.tcp srcIp srcPort dstPort := by
  have hlaw := portInvariant.reach h
  exact ⟨hlaw, fun t => finds_port t hlaw.cursor, fun srcIp srcPort dstPort =>
    ⟨fun _ _ => hlaw.one_match, fun order ho => find_perm ho fun _ _ => hlaw.one_match⟩⟩

-- Two connections, the second to the same peer.
theorem ports_distinct_two :
    let n := (tcpConnectBegin (tcpConnectBegin (bootNet fun _ => true) 1 80).2 1 80).2
    PortLaw n ∧ (n.tcp.socks 0).localPort = 49152 ∧ (n.tcp.socks 1).localPort = 49153 ∧
      [3, 1, 0, 2, 7, 6, 5, 4].find? (matchesSegment n.tcp 1 80 49153) = some 1 := by
  intro n
  have h : booted.Reach n :=
    .next (a := .connectBegin 1 80) (.next (a := .connectBegin 1 80)
      (.start ⟨fun _ => rfl, rfl⟩) rfl) rfl
  obtain ⟨hlaw, -, hfind⟩ := ports_distinct h
  refine ⟨hlaw, by decide +kernel, by decide +kernel, ?_⟩
  rw [(hfind 1 80 49153).2 _ (by decide)]
  decide +kernel

end Tcp
