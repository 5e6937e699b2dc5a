import Mathlib.Logic.Relation
import SabakaOS.Network.Addresses
import SabakaOS.Network.ArpCache

namespace Net

open Word ByteMemory Prog SlotTable

section Frames

-- What the card sends: a short packet is filled up with zeros.
def onWire (pkt : List UInt8) : List UInt8 := pkt ++ List.replicate (60 - pkt.length) 0

-- pkt.data, with zeros behind it.
def frameOf (f : List UInt8) (k : Nat) : UInt8 := f.getD k 0

def arpFrame (dst : List UInt8) (opcode : UInt8) (senderMac : List UInt8) (senderIp : Nat)
    (targetMac : List UInt8) (targetIp : Nat) : List UInt8 :=
  dst ++ senderMac ++ [0x08, 0x06] ++ [0x00, 0x01, 0x08, 0x00, 6, 4, 0x00, opcode] ++ senderMac ++
    leBytes 4 senderIp ++ targetMac ++ leBytes 4 targetIp

def netArpRequest (targetIp : Nat) : Rx Unit := do
  let s ← get
  rtl8139Send (arpFrame (List.replicate 6 0xFF) 1 s.myMac s.myIp (List.replicate 6 0) targetIp)

def replyFrame (s : NetState) (senderMac : List UInt8) (senderIp : Nat) : List UInt8 :=
  arpFrame senderMac 2 s.myMac s.myIp senderMac senderIp

def slirpMac : List UInt8 := [0x52, 0x55, 0x0A, 0x00, 0x02, 0x02]

def dnsIp (gatewayIp : Nat) : Nat := Dns.htonl (u32 (ntohl gatewayIp + 1))

def netReset (myIp netmask : Nat) (mac : List UInt8) (s : NetState) : NetState :=
  { s with
    myIp := myIp
    netmask := netmask
    myMac := mac
    arpCache := fun i => { s.arpCache i with valid := false }
    udpHandlers := fun i => { s.udpHandlers i with used := false } }

-- The addresses and the caches that net_init sets; mac is what rtl8139_get_mac gives.
def netInit (myIp gatewayIp netmask : Nat) (mac : List UInt8) (s : NetState) : NetState :=
  arpCacheStore (arpCacheStore (netReset myIp netmask mac s) gatewayIp slirpMac)
    (dnsIp gatewayIp) slirpMac

variable {f a b c : List UInt8} {n k v : Nat} {m m' : Nat → UInt8}

theorem frameOf_slice (ha : a.length = k) (hb : b.length = n) :
    readBytes (frameOf (a ++ b ++ c)) n k = b := by
  refine List.ext_getElem (by simp [hb]) fun i h1 h2 => ?_
  have hget : (readBytes (frameOf (a ++ b ++ c)) n k)[i] = frameOf (a ++ b ++ c) (k + i) := by
    simp [readBytes]
  rw [hget, frameOf, ← ha, List.append_assoc, List.getD_append_right _ _ _ _ (by omega),
    Nat.add_sub_cancel_left, List.getD_append _ _ _ _ h2, List.getD_eq_getElem _ _ h2]

theorem readLE_eq (h : readBytes m n k = readBytes m' n v) : readLE m n k = readLE m' n v := by
  induction n generalizing k v with
  | zero => rfl
  | succ n ih =>
    have hsplit : ∀ (m : Nat → UInt8) (k : Nat),
        readBytes m (n + 1) k = m k :: readBytes m n (k + 1) := fun m k => by
      rw [Nat.add_comm n 1, readBytes_append]
      rfl
    rw [hsplit, hsplit] at h
    obtain ⟨hhead, htail⟩ := List.cons.inj h
    rw [readLE, readLE, hhead, ih htail]

theorem readLE_leBytes (h : readBytes m n k = leBytes n v) : readLE m n k = v % 256 ^ n :=
  (readLE_eq h).trans (read_write_same _ _ _ _)

theorem leBytes_length (n v : Nat) : (leBytes n v).length = n := readBytes_length _ _ _

theorem be16_bytes {x y : UInt8} (h : readBytes m 2 k = [x, y]) :
    be16 m k = x.toNat * 256 + y.toNat := by
  obtain ⟨hx, hy⟩ := List.cons.inj (h : m (k + 0) :: m (k + 1) :: [] = _)
  rw [be16, ← hx, ← (List.cons.inj hy).1]
  rfl

-- An ARP packet as it arrives: its type, opcode and addresses, whatever padding follows.
structure Arp (m : Nat → UInt8) (opcode : UInt8) (mac : List UInt8) (ip target : Nat) : Prop where
  type : be16 m 12 = 0x0806
  opcode : be16 m 20 = opcode.toNat
  senderMac : readBytes m 6 22 = mac
  senderIp : readLE m 4 28 = ip
  targetIp : readLE m 4 38 = target

theorem arpFrame_length {dst mac tmac : List UInt8} {op : UInt8} {ip target : Nat}
    (hd : dst.length = 6) (hm : mac.length = 6) (ht : tmac.length = 6) :
    (arpFrame dst op mac ip tmac target).length = 42 := by
  simp [arpFrame, leBytes_length, hd, hm, ht]

theorem arpFrame_arp {dst mac tmac : List UInt8} {op : UInt8} {ip target : Nat}
    (hd : dst.length = 6) (hm : mac.length = 6) (ht : tmac.length = 6) (hip : ip < 2 ^ 32)
    (htarget : target < 2 ^ 32) :
    Arp (frameOf (onWire (arpFrame dst op mac ip tmac target))) op mac ip target := by
  have hl := leBytes_length 4
  obtain ⟨z, hz⟩ : ∃ z, onWire (arpFrame dst op mac ip tmac target) =
    arpFrame dst op mac ip tmac target ++ z := ⟨_, rfl⟩
  rw [hz, arpFrame]
  constructor
  · rw [show dst ++ mac ++ [0x08, 0x06] ++ [0x00, 0x01, 0x08, 0x00, 6, 4, 0x00, op] ++ mac ++
      leBytes 4 ip ++ tmac ++ leBytes 4 target ++ z = (dst ++ mac) ++ [0x08, 0x06] ++
        ([0x00, 0x01, 0x08, 0x00, 6, 4, 0x00, op] ++ mac ++ leBytes 4 ip ++ tmac ++
          leBytes 4 target ++ z) by simp only [List.append_assoc]]
    exact be16_bytes (frameOf_slice (by simp [hd, hm]) rfl)
  · rw [show dst ++ mac ++ [0x08, 0x06] ++ [0x00, 0x01, 0x08, 0x00, 6, 4, 0x00, op] ++ mac ++
      leBytes 4 ip ++ tmac ++ leBytes 4 target ++ z =
        (dst ++ mac ++ [0x08, 0x06] ++ [0x00, 0x01, 0x08, 0x00, 6, 4]) ++ [0x00, op] ++
          (mac ++ leBytes 4 ip ++ tmac ++ leBytes 4 target ++ z) by
            simp only [List.append_assoc, List.cons_append, List.nil_append]]
    refine (be16_bytes (frameOf_slice (by simp [hd, hm]) rfl)).trans ?_
    exact Nat.zero_add _
  · rw [show dst ++ mac ++ [0x08, 0x06] ++ [0x00, 0x01, 0x08, 0x00, 6, 4, 0x00, op] ++ mac ++
      leBytes 4 ip ++ tmac ++ leBytes 4 target ++ z =
        (dst ++ mac ++ [0x08, 0x06] ++ [0x00, 0x01, 0x08, 0x00, 6, 4, 0x00, op]) ++ mac ++
          (leBytes 4 ip ++ tmac ++ leBytes 4 target ++ z) by simp only [List.append_assoc]]
    exact frameOf_slice (by simp [hd, hm]) hm
  · rw [show dst ++ mac ++ [0x08, 0x06] ++ [0x00, 0x01, 0x08, 0x00, 6, 4, 0x00, op] ++ mac ++
      leBytes 4 ip ++ tmac ++ leBytes 4 target ++ z =
        (dst ++ mac ++ [0x08, 0x06] ++ [0x00, 0x01, 0x08, 0x00, 6, 4, 0x00, op] ++ mac) ++
          leBytes 4 ip ++ (tmac ++ leBytes 4 target ++ z) by simp only [List.append_assoc]]
    exact (readLE_leBytes (frameOf_slice (by simp [hd, hm]) (hl ip))).trans
      (Nat.mod_eq_of_lt hip)
  · rw [show dst ++ mac ++ [0x08, 0x06] ++ [0x00, 0x01, 0x08, 0x00, 6, 4, 0x00, op] ++ mac ++
      leBytes 4 ip ++ tmac ++ leBytes 4 target ++ z =
        (dst ++ mac ++ [0x08, 0x06] ++ [0x00, 0x01, 0x08, 0x00, 6, 4, 0x00, op] ++ mac ++
          leBytes 4 ip ++ tmac) ++ leBytes 4 target ++ z from rfl]
    exact (readLE_leBytes (frameOf_slice (by simp [hd, hm, ht, hl]) (hl target))).trans
      (Nat.mod_eq_of_lt htarget)

end Frames

section Poll

variable {α β : Type} {L data len ip : Nat} {s s' s'' : NetState}

-- What a handler that has nothing to do with ARP leaves: the cache and the own addresses as they
-- were, and no new packets but such as end their type in a zero byte.
structure Quiet (s s' : NetState) : Prop where
  arpCache : s'.arpCache = s.arpCache
  myIp : s'.myIp = s.myIp
  myMac : s'.myMac = s.myMac
  sent : ∃ new, s'.sent = new ++ s.sent ∧ ∀ f ∈ new, f.getD 13 0 = 0

theorem Quiet.of_eq (h1 : s'.arpCache = s.arpCache) (h2 : s'.myIp = s.myIp)
    (h3 : s'.myMac = s.myMac) (h4 : s'.sent = s.sent) : Quiet s s' :=
  ⟨h1, h2, h3, [], h4, fun _ hf => absurd hf List.not_mem_nil⟩

theorem Quiet.refl (s : NetState) : Quiet s s := .of_eq rfl rfl rfl rfl

theorem Quiet.trans (h : Quiet s s') (h' : Quiet s' s'') : Quiet s s'' := by
  obtain ⟨new, hnew, htype⟩ := h.sent
  obtain ⟨new', hnew', htype'⟩ := h'.sent
  refine ⟨h'.arpCache.trans h.arpCache, h'.myIp.trans h.myIp, h'.myMac.trans h.myMac,
    new' ++ new, ?_, fun f hf => ?_⟩
  · rw [hnew', hnew, List.append_assoc]
  · exact (List.mem_append.mp hf).elim (htype' f) (htype f)

theorem Quiet.congr (h : Quiet s' s'') (h1 : s'.arpCache = s.arpCache) (h2 : s'.myIp = s.myIp)
    (h3 : s'.myMac = s.myMac) (h4 : s'.sent = s.sent) : Quiet s s'' := by
  obtain ⟨new, hnew, htype⟩ := h.sent
  exact ⟨h.arpCache.trans h1, h.myIp.trans h2, h.myMac.trans h3, new, h4 ▸ hnew, htype⟩

theorem getD_take (l : List UInt8) (n i : Nat) (h : l.getD i 0 = 0) : (l.take n).getD i 0 = 0 := by
  rw [List.getD_eq_getElem?_getD, List.getElem?_take]
  split
  · rwa [← List.getD_eq_getElem?_getD]
  · rfl

-- The addresses in use are six bytes long.
structure SixBytes (s : NetState) : Prop where
  own : s.myMac.length = 6
  cached : ∀ i ip mac, arpTable s i = some (ip, mac) → mac.length = 6

theorem SixBytes.lookup (h : SixBytes s) (hd : Distinct (arpTable s)) (ip : Nat) :
    ((netArpLookup s ip).getD (List.replicate 6 0xFF)).length = 6 := by
  cases hm : netArpLookup s ip with
  | none => rfl
  | some mac =>
    rw [netArpLookup_eq] at hm
    obtain ⟨i, hi⟩ := (lookup_some hd).mp hm
    exact h.cached i ip mac hi

theorem arpTable_congr (h : s'.arpCache = s.arpCache) : arpTable s' = arpTable s := by
  funext i
  rw [arpTable, arpTable, h]

theorem arpTable_unsent (s : NetState) : arpTable { s with sent := [] } = arpTable s := rfl

theorem SixBytes.congr (h : SixBytes s) (h1 : s'.arpCache = s.arpCache)
    (h2 : s'.myMac = s.myMac) : SixBytes s' :=
  ⟨h2 ▸ h.own, arpTable_congr h1 ▸ h.cached⟩

def Quietly (p : Rx α) : Prop :=
  ∀ s, SixBytes s → Distinct (arpTable s) → Quiet s (p s).2

theorem Quietly.pure (x : α) : Quietly (Pure.pure x : Rx α) := fun s _ _ => .refl s

theorem Quietly.bind {p : Rx α} {f : α → Rx β} (hp : Quietly p) (hf : ∀ x, Quietly (f x)) :
    Quietly (p >>= f) := by
  intro s h hd
  have hq := hp s h hd
  rcases hrun : p s with ⟨_ | x, s'⟩
  · rw [bind_stopped hrun]
    rwa [hrun] at hq
  · rw [bind_ended hrun]
    rw [hrun] at hq
    exact hq.trans (hf x s' (h.congr hq.arpCache hq.myMac) (arpTable_congr hq.arpCache ▸ hd))

theorem Quietly.get_bind {f : NetState → Rx β}
    (hf : ∀ t, SixBytes t → Distinct (arpTable t) → Quietly (f t)) :
    Quietly ((get : Rx NetState) >>= f) := fun s h hd => hf s h hd s h hd

theorem Quietly.ite {c : Prop} [Decidable c] {p q : Rx α} (hp : Quietly p) (hq : Quietly q) :
    Quietly (if c then p else q) := by
  split
  · exact hp
  · exact hq

theorem Quietly.called (c : Handler) (off n : Nat) : Quietly (called c off n) :=
  fun _ _ _ => .of_eq rfl rfl rfl rfl

theorem Quietly.touch (off n : Nat) : Quietly (touch off n) := fun _ _ _ => .of_eq rfl rfl rfl rfl

theorem Quietly.field (n off : Nat) : Quietly (field n off) := fun _ _ _ => .of_eq rfl rfl rfl rfl

theorem Quietly.block (n off : Nat) : Quietly (block n off) := fun _ _ _ => .of_eq rfl rfl rfl rfl

theorem Quietly.netField (off : Nat) : Quietly (netField off) :=
  fun _ _ _ => .of_eq rfl rfl rfl rfl

theorem Quietly.send {pkt : List UInt8} (h : pkt.getD 13 0 = 0) : Quietly (rtl8139Send pkt) :=
  fun _ _ _ => ⟨rfl, rfl, rfl, [pkt], rfl, fun f hf => by rw [List.mem_singleton.mp hf, h]⟩

theorem ipFrame_type {dst mac rest : List UInt8} (hd : dst.length = 6) (hm : mac.length = 6) :
    (dst ++ mac ++ [0x08, 0x00] ++ rest).getD 13 0 = 0 := by
  rw [List.append_assoc, List.getD_append_right _ _ _ _ (by simp [hd, hm])]
  simp [hd, hm]

theorem handleIcmp_quiet (ip data len : Nat) : Quietly (handleIcmp ip data len) := by
  refine (Quietly.called .icmp data len).bind fun _ => .ite (.pure ()) ?_
  refine (Quietly.field 1 data).bind fun _ => .ite (.pure ()) ?_
  refine .get_bind fun t ht hd => .ite (.pure ()) ?_
  refine (Quietly.field 4 (ip + 12)).bind fun srcIp => ?_
  refine (Quietly.block 4 (data + 4)).bind fun idSeq => ?_
  refine (Quietly.block _ _).bind fun payload => ?_
  refine Quietly.bind (fun s _ _ => .of_eq rfl rfl rfl rfl) fun _ => ?_
  refine .send (getD_take _ _ _ ?_)
  rw [List.append_assoc]
  exact ipFrame_type (ht.lookup hd srcIp) ht.own

theorem handleUdp_quiet (ip data len : Nat) : Quietly (handleUdp ip data len) := by
  refine (Quietly.called .udp data len).bind fun _ => .ite (.pure ()) ?_
  refine (Quietly.netField (data + 2)).bind fun dstPort => ?_
  refine (Quietly.netField data).bind fun srcPort => ?_
  refine (Quietly.netField (data + 4)).bind fun length => ?_
  refine .get_bind fun t _ _ => .ite (.pure ()) ?_
  refine (Quietly.field 4 (ip + 12)).bind fun srcIp => ?_
  exact (Quietly.touch _ _).bind fun _ _ _ _ => .of_eq rfl rfl rfl rfl

theorem tcpReceive_quiet (srcIp data len : Nat) : Quietly (tcpReceive srcIp data len) := by
  refine (Quietly.called .tcp data len).bind fun _ => .get_bind fun t _ _ => ?_
  refine Quietly.bind (fun s _ _ => .of_eq rfl rfl rfl rfl) fun _ => .ite (.pure ()) ?_
  exact (Quietly.touch _ _).bind fun _ => .ite (.touch _ _) (.pure ())

theorem handleIp_quiet (data len : Nat) : Quietly (handleIp data len) := by
  refine (Quietly.called .ip data len).bind fun _ => .ite (.pure ()) ?_
  refine (Quietly.field 1 data).bind fun verIhl => .ite (.pure ()) ?_
  refine (Quietly.field 4 (data + 16)).bind fun dstIp => .get_bind fun t _ _ => .ite (.pure ()) ?_
  refine (Quietly.netField (data + 2)).bind fun totalLen => ?_
  refine (Quietly.field 1 (data + 9)).bind fun protocol => ?_
  refine .ite (handleIcmp_quiet _ _ _) (.ite ?_ (.ite (handleUdp_quiet _ _ _) (.pure ())))
  exact (Quietly.field 4 (data + 12)).bind fun srcIp => tcpReceive_quiet _ _ _

-- An ARP packet is stored in the cache, and answered if it asks for the own address.
structure Answered (s : NetState) (opcode : UInt8) (mac : List UInt8) (ip target : Nat)
    (s' : NetState) : Prop where
  arpCache : s'.arpCache = (arpCacheStore s ip mac).arpCache
  myIp : s'.myIp = s.myIp
  myMac : s'.myMac = s.myMac
  sent : s'.sent =
    if opcode.toNat = 1 ∧ target = s.myIp then replyFrame s mac ip :: s.sent else s.sent

theorem Answered.touched {opcode : UInt8} {mac : List UInt8} {target off n : Nat}
    (h : Answered (touched s off n) opcode mac ip target s') :
    Answered s opcode mac ip target s' :=
  ⟨h.arpCache, h.myIp, h.myMac, h.sent⟩

theorem arpReply_run (req : Nat) : ∃ s', arpReply req s = (some (), s') ∧
    s'.arpCache = s.arpCache ∧ s'.myIp = s.myIp ∧ s'.myMac = s.myMac ∧
    s'.sent = replyFrame s (readBytes s.frame 6 (req + 8)) (readLE s.frame 4 (req + 14)) ::
      s.sent := by
  rw [arpReply, block_bind, field_bind, get_bind]
  refine ⟨_, rfl, rfl, rfl, rfl, ?_⟩
  exact congrArg (· :: s.sent) (by simp only [replyFrame, arpFrame, List.append_assoc]; rfl)

theorem handleArp_answered {opcode : UInt8} {mac : List UInt8} {target : Nat}
    (hlen : arpPacketSize ≤ len) (ha : Arp s.frame opcode mac ip target) :
    Answered s opcode mac ip target (handleArp 14 len s).2 := by
  obtain ⟨-, hop, rfl, rfl, rfl⟩ := ha
  rw [handleArp, called_bind, if_neg (Nat.not_lt.mpr hlen), field_bind, block_bind, modify_bind,
    netField_bind]
  generalize ht : touched (arpCacheStore (touched (touched (noted s .arp 14 len) (14 + 14) 4)
    (14 + 8) 6) _ _) (14 + 6) 2 = t
  have hframe : t.frame = s.frame := ht ▸ rfl
  have hip : t.myIp = s.myIp := ht ▸ rfl
  have hmac : t.myMac = s.myMac := ht ▸ rfl
  have hsent : t.sent = s.sent := ht ▸ rfl
  have hcache : t.arpCache =
    (arpCacheStore s (readLE s.frame 4 28) (readBytes s.frame 6 22)).arpCache := ht ▸ rfl
  clear ht
  change Answered s _ _ _ _ ((if be16 s.frame 20 = 1 then _ else _ : Rx Unit) t).2
  rw [hop]
  by_cases hreq : opcode.toNat = 1
  · rw [if_pos hreq, field_bind, get_bind]
    generalize hu : touched t (14 + 24) 4 = u
    have huframe : u.frame = s.frame := by rw [← hu, ← hframe]; rfl
    have huip : u.myIp = s.myIp := by rw [← hu, ← hip]; rfl
    have humac : u.myMac = s.myMac := by rw [← hu, ← hmac]; rfl
    have husent : u.sent = s.sent := by rw [← hu, ← hsent]; rfl
    have hucache : u.arpCache = t.arpCache := by rw [← hu]; rfl
    clear hu
    rw [hframe, huip]
    change Answered s _ _ _ _ ((if readLE s.frame 4 38 = s.myIp then _ else _ : Rx Unit) u).2
    by_cases htarget : readLE s.frame 4 38 = s.myIp
    · rw [if_pos htarget]
      obtain ⟨s', hrun, h1, h2, h3, h4⟩ := arpReply_run (s := u) 14
      rw [hrun]
      refine ⟨h1.trans (hucache.trans hcache), h2.trans huip, h3.trans humac, ?_⟩
      rw [if_pos ⟨hreq, htarget⟩]
      refine h4.trans ?_
      rw [replyFrame, replyFrame, huframe, huip, humac, husent]
    · rw [if_neg htarget]
      exact ⟨hucache.trans hcache, huip, humac, by rw [if_neg fun h => htarget h.2]; exact husent⟩
  · rw [if_neg hreq]
    exact ⟨hcache, hip, hmac, by rw [if_neg fun h => hreq h.1]; exact hsent⟩

theorem pollPacket_answered {opcode : UInt8} {mac : List UInt8} {target : Nat} (hL : 42 ≤ L)
    (hlt : L < 65536) (ha : Arp s.frame opcode mac ip target) :
    Answered s opcode mac ip target (pollPacket L s).2 := by
  have hsize : ethHeaderSize = 14 := rfl
  have hlen : arpPacketSize ≤ sub16 L ethHeaderSize := by
    unfold sub16 u16
    rw [hsize, show arpPacketSize = 28 from rfl]
    omega
  rw [pollPacket, if_neg (by omega), netField_bind, if_pos ha.type]
  have ht : Arp (touched s 12 2).frame opcode mac ip target := ha
  exact (handleArp_answered hlen ht).touched

theorem pollPacket_quiet (h : SixBytes s) (hd : Distinct (arpTable s))
    (hq : be16 s.frame 12 = 0x0806 → L < 42) : Quiet s (pollPacket L s).2 := by
  have hsize : ethHeaderSize = 14 := rfl
  rw [pollPacket]
  split
  · exact .refl _
  rw [netField_bind]
  suffices hafter : Quiet (touched s 12 2) _ from hafter.congr rfl rfl rfl rfl
  split
  · next hlen htype =>
    rw [handleArp, called_bind, if_pos (by
      have := hq htype
      unfold sub16 u16
      rw [hsize, show arpPacketSize = 28 from rfl]
      omega)]
    exact .of_eq rfl rfl rfl rfl
  · split
    · exact handleIp_quiet _ _ _ (h.congr rfl rfl) hd
    · exact .refl _

end Poll

-- The hosts on a network, and every packet sent on it. A packet may get lost, come late, out of
-- order or many times, to any host.
structure Lan (ι : Type) where
  host : ι → NetState
  wire : List (List UInt8)

namespace Lan

inductive Move (ι : Type) where
  | request (i : ι) (targetIp : Nat)
  | deliver (i : ι) (f : List UInt8)
  | other (f : List UInt8)
  | work (i : ι) (s : NetState)

section System

variable {ι : Type} [DecidableEq ι]

def put (lan : Lan ι) (i : ι) (s : NetState) : Lan ι where
  host := Function.update lan.host i { s with sent := [] }
  wire := s.sent.map onWire ++ lan.wire

def polled (s : NetState) (f : List UInt8) : NetState :=
  (pollPacket f.length (arriving s (frameOf f))).2

-- Packets of other types than ARP come from anywhere, and a host may do anything of its own that
-- leaves its addresses and its ARP cache alone.
def step (lan : Lan ι) : Move ι → Lan ι → Prop
  | .request i targetIp, lan' =>
    targetIp < 2 ^ 32 ∧ lan' = lan.put i (netArpRequest targetIp (lan.host i)).2
  | .deliver i f, lan' =>
    f ∈ lan.wire ∧ f.length ≤ Netq.netQueuePktMax ∧ lan' = lan.put i (polled (lan.host i) f)
  | .other f, lan' =>
    be16 (frameOf (onWire f)) 12 ≠ 0x0806 ∧ lan' = { lan with wire := onWire f :: lan.wire }
  | .work i s, lan' =>
    s.arpCache = (lan.host i).arpCache ∧ s.myIp = (lan.host i).myIp ∧
      s.myMac = (lan.host i).myMac ∧ lan' = lan.put i { s with sent := [] }

-- The network interfaces of all hosts have been set up, with one gateway.
structure Start (gatewayIp : Nat) (lan : Lan ι) : Prop where
  host : ∀ i, ∃ myIp netmask mac s, lan.host i = netInit myIp gatewayIp netmask mac s ∧
    myIp < 2 ^ 32 ∧ mac.length = 6 ∧ s.sent = []
  wire : lan.wire = []

def network (ι : Type) [DecidableEq ι] (gatewayIp : Nat) : System (Lan ι) (Move ι) where
  init := Start gatewayIp
  step := step

-- The address of a host, or one of the two net_init stores.
def Known (gatewayIp : Nat) (lan : Lan ι) (ip : Nat) (mac : List UInt8) : Prop :=
  (∃ j, ip = (lan.host j).myIp ∧ mac = (lan.host j).myMac) ∨
    (mac = slirpMac ∧ (ip = gatewayIp ∨ ip = dnsIp gatewayIp))

structure Inv (gatewayIp : Nat) (lan : Lan ι) : Prop where
  own : ∀ i, (lan.host i).myMac.length = 6
  ip : ∀ i, (lan.host i).myIp < 2 ^ 32
  distinct : ∀ i, Distinct (arpTable (lan.host i))
  cached : ∀ i k ip mac, arpTable (lan.host i) k = some (ip, mac) → Known gatewayIp lan ip mac
  sent : ∀ i, (lan.host i).sent = []
  wire : ∀ f ∈ lan.wire, be16 (frameOf f) 12 = 0x0806 → 42 ≤ f.length ∧
    ∃ opcode j target, Arp (frameOf f) opcode (lan.host j).myMac (lan.host j).myIp target

variable {lan lan' : Lan ι} {gatewayIp : Nat} {i j : ι} {s : NetState} {f mac : List UInt8}
  {ip : Nat}

theorem put_self : (lan.put i s).host i = { s with sent := [] } := Function.update_self ..

theorem put_of_ne (h : j ≠ i) : (lan.put i s).host j = lan.host j := Function.update_of_ne h ..

theorem put_ips (h1 : s.myIp = (lan.host i).myIp) (h2 : s.myMac = (lan.host i).myMac) (j : ι) :
    ((lan.put i s).host j).myIp = (lan.host j).myIp ∧
      ((lan.put i s).host j).myMac = (lan.host j).myMac := by
  by_cases hj : j = i
  · subst hj
    rw [put_self]
    exact ⟨h1, h2⟩
  · rw [put_of_ne hj]
    exact ⟨rfl, rfl⟩

omit [DecidableEq ι] in
theorem Inv.six (h : Inv gatewayIp lan) (i : ι) : SixBytes (lan.host i) := by
  refine ⟨h.own i, fun k ip mac hk => ?_⟩
  rcases h.cached i k ip mac hk with ⟨j, -, rfl⟩ | ⟨rfl, -⟩
  · exact h.own j
  · rfl

-- A host changes its cache to known entries only and sends known addresses only.
theorem Inv.put (h : Inv gatewayIp lan) (h1 : s.myIp = (lan.host i).myIp)
    (h2 : s.myMac = (lan.host i).myMac) (hd : Distinct (arpTable s))
    (hc : ∀ k ip mac, arpTable s k = some (ip, mac) → Known gatewayIp lan ip mac)
    (hs : ∀ f ∈ s.sent, be16 (frameOf (onWire f)) 12 = 0x0806 → 42 ≤ (onWire f).length ∧
      ∃ opcode j target, Arp (frameOf (onWire f)) opcode (lan.host j).myMac (lan.host j).myIp
        target) : Inv gatewayIp (lan.put i s) := by
  have hsame := put_ips h1 h2
  have hknown : ∀ ip mac, Known gatewayIp lan ip mac → Known gatewayIp (lan.put i s) ip mac := by
    rintro ip mac (⟨j, hip, hmac⟩ | hpre)
    · exact .inl ⟨j, hip.trans (hsame j).1.symm, hmac.trans (hsame j).2.symm⟩
    · exact .inr hpre
  refine ⟨fun j => ?_, fun j => ?_, fun j => ?_, fun j k ip mac hk => hknown ip mac ?_, fun j => ?_,
    fun f hf ht => ?_⟩
  · rw [(hsame j).2, h.own j]
  · rw [(hsame j).1]
    exact h.ip j
  · by_cases hj : j = i
    · subst hj
      rw [put_self]
      exact hd
    · rw [put_of_ne hj]
      exact h.distinct j
  · by_cases hj : j = i
    · subst hj
      rw [put_self] at hk
      exact hc k ip mac hk
    · rw [put_of_ne hj] at hk
      exact h.cached j k ip mac hk
  · by_cases hj : j = i
    · subst hj
      rw [put_self]
    · rw [put_of_ne hj]
      exact h.sent j
  · have hsource : 42 ≤ f.length ∧ ∃ opcode j target,
        Arp (frameOf f) opcode (lan.host j).myMac (lan.host j).myIp target := by
      rcases List.mem_append.mp hf with hf | hf
      · obtain ⟨g, hg, rfl⟩ := List.mem_map.mp hf
        exact hs g hg ht
      · exact h.wire f hf ht
    obtain ⟨hlen, opcode, j, target, ha⟩ := hsource
    refine ⟨hlen, opcode, j, target, ?_⟩
    rw [(hsame j).1, (hsame j).2]
    exact ha

theorem onWire_zero (h : f.getD 13 0 = 0) : be16 (frameOf (onWire f)) 12 ≠ 0x0806 := by
  have hzero : (onWire f).getD 13 0 = 0 := by
    by_cases hlen : 13 < f.length
    · rw [onWire, List.getD_append _ _ _ _ hlen, h]
    · rw [onWire, List.getD_append_right _ _ _ _ (by omega), List.getD_eq_getElem?_getD,
        List.getElem?_getD_replicate_default_eq]
  have hbyte : frameOf (onWire f) 13 = 0 := hzero
  rw [be16, hbyte]
  intro he
  have := congrArg (· % 256) he
  simp at this

theorem onWire_arp {dst tmac : List UInt8} {op : UInt8} {target : Nat} (hd : dst.length = 6)
    (hm : mac.length = 6) (ht : tmac.length = 6) :
    (onWire (arpFrame dst op mac ip tmac target)).length = 60 := by
  rw [onWire, List.length_append, List.length_replicate, arpFrame_length hd hm ht]

omit [DecidableEq ι] in
theorem known_stored {s s' : NetState} (hc : s'.arpCache = (arpCacheStore s ip mac).arpCache)
    (hk : ∀ k ip mac, arpTable s k = some (ip, mac) → Known gatewayIp lan ip mac)
    (hm : Known gatewayIp lan ip mac) (k : Fin 16) (ip' : Nat) (mac' : List UInt8)
    (h : arpTable s' k = some (ip', mac')) : Known gatewayIp lan ip' mac' := by
  obtain ⟨i, he, -, -⟩ := arpCacheStore_slot s ip mac
  rw [arpTable_congr hc, he, Function.update_apply] at h
  split at h
  · obtain ⟨rfl, rfl⟩ := Prod.mk.inj (Option.some.inj h)
    exact hm
  · exact hk k ip' mac' h

-- A packet of a host asks for or tells its own address.
omit [DecidableEq ι] in
theorem Inv.arp_answered (h : Inv gatewayIp lan) (hf : f ∈ lan.wire)
    (hmax : f.length ≤ Netq.netQueuePktMax) (ht : be16 (frameOf f) 12 = 0x0806) :
    ∃ opcode j target, Answered (arriving (lan.host i) (frameOf f)) opcode (lan.host j).myMac
      (lan.host j).myIp target (polled (lan.host i) f) := by
  obtain ⟨hlen, opcode, j, target, ha⟩ := h.wire f hf ht
  have hL : f.length < 65536 := Nat.lt_of_le_of_lt hmax (by decide)
  exact ⟨opcode, j, target, pollPacket_answered hlen hL ha⟩

theorem Inv.deliver (h : Inv gatewayIp lan) (hf : f ∈ lan.wire)
    (hmax : f.length ≤ Netq.netQueuePktMax) :
    Inv gatewayIp (lan.put i (polled (lan.host i) f)) := by
  have hsent : (arriving (lan.host i) (frameOf f)).sent = [] := h.sent i
  by_cases ht : be16 (frameOf f) 12 = 0x0806
  · obtain ⟨opcode, j, target, ha⟩ := h.arp_answered (i := i) hf hmax ht
    refine h.put ha.myIp ha.myMac ?_ ?_ fun g hg _ => ?_
    · rw [arpTable_congr ha.arpCache]
      exact arpCacheStore_distinct (h.distinct i)
    · exact known_stored ha.arpCache (h.cached i) (.inl ⟨j, rfl, rfl⟩)
    · rw [ha.sent, hsent] at hg
      split at hg
      · rw [List.mem_singleton.mp hg]
        have hlen : (onWire (replyFrame (lan.host i) (lan.host j).myMac (lan.host j).myIp)).length =
          60 := onWire_arp (h.own j) (h.own i) (h.own j)
        have hle : 42 ≤
            (onWire (replyFrame (lan.host i) (lan.host j).myMac (lan.host j).myIp)).length := by
          rw [hlen]
          decide
        exact ⟨hle, 2, i, (lan.host j).myIp,
          arpFrame_arp (h.own j) (h.own i) (h.own j) (h.ip i) (h.ip j)⟩
      · cases hg
  · have hq : Quiet (arriving (lan.host i) (frameOf f)) (polled (lan.host i) f) :=
      pollPacket_quiet ((h.six i).congr rfl rfl) (h.distinct i) fun he => absurd he ht
    obtain ⟨new, hnew, hzero⟩ := hq.sent
    refine h.put hq.myIp hq.myMac ?_ (fun k ip mac hk => ?_) fun g hg hg' => ?_
    · rw [arpTable_congr hq.arpCache]
      exact h.distinct i
    · rw [arpTable_congr hq.arpCache] at hk
      exact h.cached i k ip mac hk
    · rw [hnew, hsent, List.append_nil] at hg
      exact absurd hg' (onWire_zero (hzero g hg))

theorem Inv.request (h : Inv gatewayIp lan) {targetIp : Nat} (ht : targetIp < 2 ^ 32) :
    Inv gatewayIp (lan.put i (netArpRequest targetIp (lan.host i)).2) := by
  refine h.put rfl rfl (h.distinct i) (h.cached i) fun g hg _ => ?_
  have hone : (netArpRequest targetIp (lan.host i)).2.sent =
      arpFrame (List.replicate 6 0xFF) 1 (lan.host i).myMac (lan.host i).myIp
        (List.replicate 6 0) targetIp :: (lan.host i).sent := rfl
  rw [hone, h.sent i] at hg
  rw [List.mem_singleton.mp hg, onWire_arp rfl (h.own i) rfl]
  exact ⟨by decide, 1, i, targetIp, arpFrame_arp rfl (h.own i) rfl (h.ip i) ht⟩

omit [DecidableEq ι] in
theorem Inv.start (h : Start gatewayIp lan) : Inv gatewayIp lan := by
  have hempty : ∀ myIp netmask mac s k, arpTable (netReset myIp netmask mac s) k = none :=
    fun _ _ _ _ _ => rfl
  refine ⟨fun i => ?_, fun i => ?_, fun i => ?_, fun i k ip mac hk => ?_, fun i => ?_, ?_⟩
  · obtain ⟨myIp, netmask, mac, s, he, -, hm, -⟩ := h.host i
    rw [he]
    exact hm
  · obtain ⟨myIp, netmask, mac, s, he, hip, -, -⟩ := h.host i
    rw [he]
    exact hip
  · obtain ⟨myIp, netmask, mac, s, he, -, -, -⟩ := h.host i
    rw [he]
    exact arpCacheStore_distinct (arpCacheStore_distinct (empty_distinct fun _ => rfl))
  · obtain ⟨myIp, netmask, mac', s, he, -, -, -⟩ := h.host i
    rw [he, netInit] at hk
    generalize hd : dnsIp gatewayIp = dns at hk
    have hreset := hempty myIp netmask mac' s
    generalize netReset myIp netmask mac' s = t at *
    have hfirst : ∀ k ip mac, arpTable (arpCacheStore t gatewayIp slirpMac) k = some (ip, mac) →
        Known gatewayIp lan ip mac :=
      known_stored rfl (fun k ip mac hk => by rw [hreset k] at hk; cases hk) (.inr ⟨rfl, .inl rfl⟩)
    exact known_stored rfl hfirst (.inr ⟨rfl, .inr hd.symm⟩) k ip mac hk
  · obtain ⟨myIp, netmask, mac, s, he, -, -, hs⟩ := h.host i
    rw [he]
    exact hs
  · rw [h.wire]
    exact fun f hf => absurd hf List.not_mem_nil

def invariant (ι : Type) [DecidableEq ι] (gatewayIp : Nat) : (network ι gatewayIp).Invariant where
  holds := Inv gatewayIp
  start := Inv.start
  step := by
    rintro lan (⟨i, targetIp⟩ | ⟨i, f⟩ | f | ⟨i, s⟩) lan' h ht
    · obtain ⟨hip, rfl⟩ := ht
      exact h.request hip
    · obtain ⟨hf, hmax, rfl⟩ := ht
      exact h.deliver hf hmax
    · obtain ⟨hne, rfl⟩ := ht
      refine ⟨h.own, h.ip, h.distinct, h.cached, h.sent, fun g hg hg' => ?_⟩
      rcases List.mem_cons.mp hg with rfl | hg
      · exact absurd hg' hne
      · exact h.wire g hg hg'
    · obtain ⟨hc, hip, hmac, rfl⟩ := ht
      refine h.put hip hmac ?_ (fun k ip mac hk => ?_) fun g hg => absurd hg List.not_mem_nil
      · rw [arpTable_unsent, arpTable_congr hc]
        exact h.distinct i
      · rw [arpTable_unsent, arpTable_congr hc] at hk
        exact h.cached i k ip mac hk

-- Whatever happens on the network in between, in any order.
def Later : Lan ι → Lan ι → Prop := Relation.ReflTransGen fun lan lan' => ∃ m, step lan m lan'

-- What is sent stays on the wire and the hosts keep their addresses.
structure Kept (lan lan' : Lan ι) : Prop where
  wire : ∀ f ∈ lan.wire, f ∈ lan'.wire
  ip : ∀ i, (lan'.host i).myIp = (lan.host i).myIp
  mac : ∀ i, (lan'.host i).myMac = (lan.host i).myMac

omit [DecidableEq ι] in
theorem Kept.trans {lan'' : Lan ι} (h : Kept lan lan') (h' : Kept lan' lan'') : Kept lan lan'' :=
  ⟨fun f hf => h'.wire f (h.wire f hf), fun i => (h'.ip i).trans (h.ip i),
    fun i => (h'.mac i).trans (h.mac i)⟩

theorem Kept.put (h1 : s.myIp = (lan.host i).myIp) (h2 : s.myMac = (lan.host i).myMac) :
    Kept lan (lan.put i s) :=
  ⟨fun _ hf => List.mem_append_right _ hf, fun j => (put_ips h1 h2 j).1,
    fun j => (put_ips h1 h2 j).2⟩

theorem Inv.deliver_kept (h : Inv gatewayIp lan) (hf : f ∈ lan.wire)
    (hmax : f.length ≤ Netq.netQueuePktMax) : Kept lan (lan.put i (polled (lan.host i) f)) := by
  by_cases ht : be16 (frameOf f) 12 = 0x0806
  · obtain ⟨opcode, j, target, ha⟩ := h.arp_answered (i := i) hf hmax ht
    exact .put ha.myIp ha.myMac
  · have hq : Quiet (arriving (lan.host i) (frameOf f)) (polled (lan.host i) f) :=
      pollPacket_quiet ((h.six i).congr rfl rfl) (h.distinct i) fun he => absurd he ht
    exact .put hq.myIp hq.myMac

theorem Inv.step_kept (h : Inv gatewayIp lan) {m : Move ι} (ht : step lan m lan') :
    Kept lan lan' := by
  cases m with
  | request i targetIp =>
    obtain ⟨-, rfl⟩ := ht
    exact .put rfl rfl
  | deliver i f =>
    obtain ⟨hf, hmax, rfl⟩ := ht
    exact h.deliver_kept hf hmax
  | other f =>
    obtain ⟨-, rfl⟩ := ht
    exact ⟨fun _ hf => List.mem_cons_of_mem _ hf, fun _ => rfl, fun _ => rfl⟩
  | work i s =>
    obtain ⟨-, hip, hmac, rfl⟩ := ht
    exact .put hip hmac

theorem Inv.next (h : Inv gatewayIp lan) {m : Move ι} (ht : step lan m lan') :
    Inv gatewayIp lan' :=
  (invariant ι gatewayIp).step h (show (network ι gatewayIp).step lan m lan' from ht)

theorem Inv.later (h : Inv gatewayIp lan) (hl : Later lan lan') :
    Inv gatewayIp lan' ∧ Kept lan lan' := by
  induction hl with
  | refl => exact ⟨h, fun _ hf => hf, fun _ => rfl, fun _ => rfl⟩
  | tail _ hm ih =>
    obtain ⟨m, ht⟩ := hm
    exact ⟨ih.1.next ht, ih.2.trans (ih.1.step_kept ht)⟩

def requestPacket (lan : Lan ι) (i j : ι) : List UInt8 :=
  onWire (arpFrame (List.replicate 6 0xFF) 1 (lan.host i).myMac (lan.host i).myIp
    (List.replicate 6 0) (lan.host j).myIp)

def replyPacket (lan : Lan ι) (i j : ι) : List UInt8 :=
  onWire (replyFrame (lan.host j) (lan.host i).myMac (lan.host i).myIp)

-- Host i has asked for the address of host j: its request can be delivered to j at any later
-- time, the reply to i at any time after that, and i then knows the address.
def Resolves (lan : Lan ι) (i j : ι) : Prop :=
  ∀ lan₁ lan₂, step lan (.request i (lan.host j).myIp) lan₁ → Later lan₁ lan₂ →
    ∃ lan₃, step lan₂ (.deliver j (requestPacket lan i j)) lan₃ ∧ ∀ lan₄, Later lan₃ lan₄ →
      ∃ lan₅, step lan₄ (.deliver i (replyPacket lan i j)) lan₅ ∧
        netArpLookup (lan₅.host i) (lan.host j).myIp = some (lan.host j).myMac

omit [DecidableEq ι] in
theorem packet_length (h : Inv gatewayIp lan) (i j : ι) :
    (requestPacket lan i j).length ≤ Netq.netQueuePktMax ∧
      (replyPacket lan i j).length ≤ Netq.netQueuePktMax := by
  rw [requestPacket, replyPacket, replyFrame, onWire_arp rfl (h.own i) rfl,
    onWire_arp (h.own i) (h.own j) (h.own i)]
  decide

-- Delivered to j, the request of i puts the reply on the wire.
theorem Inv.request_answered (h : Inv gatewayIp lan) (hk : Kept lan lan') :
    replyPacket lan i j ∈ (lan'.put j (polled (lan'.host j) (requestPacket lan i j))).wire := by
  have ha : Arp (frameOf (requestPacket lan i j)) 1 (lan.host i).myMac (lan.host i).myIp
      (lan.host j).myIp := arpFrame_arp rfl (h.own i) rfl (h.ip i) (h.ip j)
  have hlen : (requestPacket lan i j).length = 60 := onWire_arp rfl (h.own i) rfl
  have hs := (pollPacket_answered (s := arriving (lan'.host j) (frameOf (requestPacket lan i j)))
    (L := (requestPacket lan i j).length) (by omega) (by omega) ha).sent
  have htarget : (lan.host j).myIp =
      (arriving (lan'.host j) (frameOf (requestPacket lan i j))).myIp := (hk.ip j).symm
  rw [if_pos ⟨by decide, htarget⟩] at hs
  refine List.mem_append_left _ (List.mem_map.mpr ⟨_, hs ▸ List.mem_cons_self, ?_⟩)
  rw [replyPacket, replyFrame, replyFrame, ← hk.ip j, ← hk.mac j]
  rfl

-- Delivered to i, the reply of j puts the address into the cache.
theorem Inv.reply_learnt (h : Inv gatewayIp lan) (h' : Inv gatewayIp lan') :
    netArpLookup ((lan'.put i (polled (lan'.host i) (replyPacket lan i j))).host i)
      (lan.host j).myIp = some (lan.host j).myMac := by
  have ha : Arp (frameOf (replyPacket lan i j)) 2 (lan.host j).myMac (lan.host j).myIp
      (lan.host i).myIp := arpFrame_arp (h.own i) (h.own j) (h.own i) (h.ip j) (h.ip i)
  have hlen : (replyPacket lan i j).length = 60 := onWire_arp (h.own i) (h.own j) (h.own i)
  have hc := (pollPacket_answered (s := arriving (lan'.host i) (frameOf (replyPacket lan i j)))
    (L := (replyPacket lan i j).length) (by omega) (by omega) ha).arpCache
  rw [put_self, netArpLookup_eq, arpTable_unsent, polled, arpTable_congr hc,
    ← netArpLookup_eq]
  exact lookup_stored (h'.distinct i)

theorem Inv.resolves (h : Inv gatewayIp lan) (i j : ι) : Resolves lan i j := by
  intro lan₁ lan₂ hreq hlater
  have hlen := packet_length h i j
  have h₁ := h.next hreq
  have hk₁ := h.step_kept hreq
  obtain ⟨h₂, hk₂⟩ := Inv.later h₁ hlater
  have hput : requestPacket lan i j ∈ lan₁.wire := by
    rw [hreq.2]
    exact List.mem_append_left _ (List.mem_map.mpr ⟨_, List.mem_cons_self, rfl⟩)
  have hdeliver : step lan₂ (.deliver j (requestPacket lan i j)) _ :=
    ⟨hk₂.wire _ hput, hlen.1, rfl⟩
  refine ⟨_, hdeliver, fun lan₄ hlater' => ?_⟩
  have h₃ := h₂.next hdeliver
  obtain ⟨h₄, hk₄⟩ := Inv.later h₃ hlater'
  have hreply := hk₄.wire _ (h.request_answered (i := i) (j := j) (hk₁.trans hk₂))
  exact ⟨_, ⟨hreply, hlen.2, rfl⟩, h.reply_learnt h₄⟩

-- No host has the address of another one or of the gateway.
structure OwnAddresses (gatewayIp : Nat) (lan : Lan ι) : Prop where
  injective : ∀ i j, (lan.host i).myIp = (lan.host j).myIp → i = j
  gateway : ∀ i, (lan.host i).myIp ≠ gatewayIp
  dns : ∀ i, (lan.host i).myIp ≠ dnsIp gatewayIp

omit [DecidableEq ι] in
theorem Inv.lookup_right (h : Inv gatewayIp lan) (ho : OwnAddresses gatewayIp lan)
    (hm : netArpLookup (lan.host i) (lan.host j).myIp = some mac) : mac = (lan.host j).myMac := by
  rw [netArpLookup_eq] at hm
  obtain ⟨k, hk⟩ := (lookup_some (h.distinct i)).mp hm
  rcases h.cached i k _ _ hk with ⟨j', hip, hmac⟩ | ⟨-, hgw | hdns⟩
  · rw [hmac, ho.injective j j' hip]
  · exact absurd hgw (ho.gateway j)
  · exact absurd hdns (ho.dns j)

theorem arp_resolution (h : (network ι gatewayIp).Reach lan) (ho : OwnAddresses gatewayIp lan)
    (i j : ι) :
    (∀ mac, netArpLookup (lan.host i) (lan.host j).myIp = some mac → mac = (lan.host j).myMac) ∧
      Resolves lan i j :=
  have hinv := (invariant ι gatewayIp).reach h
  ⟨fun _ hm => Inv.lookup_right hinv ho hm, Inv.resolves hinv i j⟩

def twoHosts : Lan Bool where
  host i := netInit (if i then 0x0F02000A else 0x1002000A) 0x0202000A 0xFFFFFF
    (List.replicate 6 (if i then 1 else 3)) quietNet
  wire := []

theorem twoHosts_reach : (network Bool 0x0202000A).Reach twoHosts :=
  .start ⟨fun i => ⟨_, _, _, quietNet, rfl, by cases i <;> decide, by cases i <;> rfl, rfl⟩, rfl⟩

theorem arp_resolution_two :
    (∀ mac, netArpLookup (twoHosts.host true) (twoHosts.host false).myIp = some mac →
      mac = (twoHosts.host false).myMac) ∧ Resolves twoHosts true false := by
  refine arp_resolution twoHosts_reach ⟨?_, ?_, ?_⟩ _ _
  · decide
  · decide
  · decide

end System

end Lan

end Net
