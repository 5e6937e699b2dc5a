import Mathlib.Data.List.GetD
import SabakaOS.Library.Ring
import SabakaOS.Library.Run

namespace Netq

def netQueueDepth : Nat := 32

def netQueuePktMax : Nat := 1536

structure NetPacket where
  data : Nat → UInt8
  len : Nat

structure NetQueue where
  slots : Nat → NetPacket
  head : Nat
  tail : Nat

structure Packet where
  len : Nat
  bytes : List UInt8

-- The next access of netq_enqueue, with the caller's packet and what was loaded before.
inductive Producer where
  | idle
  | loadHead (pkt : List UInt8)
  | loadTail (pkt : List UInt8) (head : Nat)
  | copy (pkt : List UInt8) (head i : Nat)
  | storeLen (pkt : List UInt8) (head : Nat)
  | storeHead (pkt : List UInt8) (head : Nat)

-- The next access of netq_dequeue; got is what the caller's packet holds so far.
inductive Consumer where
  | idle
  | loadHead
  | testTail (head : Nat)
  | loadTail
  | copyLen (tail : Nat)
  | copy (tail len : Nat) (got : List UInt8)
  | storeTail (tail len : Nat) (got : List UInt8)

-- accepted and delivered record the calls that returned true.
structure State where
  q : NetQueue
  producer : Producer
  consumer : Consumer
  accepted : List Packet
  delivered : List Packet

def nextIndex (i : Nat) : Nat := (i + 1) % (netQueueDepth - 1)

def setSlot (q : NetQueue) (i : Nat) (f : NetPacket → NetPacket) : NetQueue :=
  { q with slots := Function.update q.slots i (f (q.slots i)) }

def netqInit (slots : Nat → NetPacket) : State where
  q := { slots := slots, head := 0, tail := 0 }
  producer := .idle
  consumer := .idle
  accepted := []
  delivered := []

def enqueue (s : State) (pkt : List UInt8) : State :=
  if pkt.length = 0 ∨ netQueuePktMax < pkt.length then s
  else { s with producer := .loadHead pkt }

def produce (s : State) : State :=
  match s.producer with
  | .idle => s
  | .loadHead pkt => { s with producer := .loadTail pkt s.q.head }
  | .loadTail pkt head =>
    if nextIndex head = s.q.tail then { s with producer := .idle }
    else { s with producer := .copy pkt head 0 }
  | .copy pkt head i =>
    if i < pkt.length then { s with
      q := setSlot s.q head fun p => { p with data := Function.update p.data i (pkt.getD i 0) }
      producer := .copy pkt head (i + 1) }
    else { s with producer := .storeLen pkt head }
  | .storeLen pkt head => { s with
      q := setSlot s.q head fun p => { p with len := pkt.length }
      producer := .storeHead pkt head }
  | .storeHead pkt head => { s with
      q := { s.q with head := nextIndex head }
      producer := .idle
      accepted := s.accepted ++ [⟨pkt.length, pkt⟩] }

def consume (s : State) : State :=
  match s.consumer with
  | .idle => s
  | .loadHead => { s with consumer := .testTail s.q.head }
  | .testTail head =>
    if head = s.q.tail then { s with consumer := .idle } else { s with consumer := .loadTail }
  | .loadTail => { s with consumer := .copyLen s.q.tail }
  | .copyLen tail => { s with consumer := .copy tail (s.q.slots tail).len [] }
  | .copy tail len got =>
    if got.length < len then
      { s with consumer := .copy tail len (got ++ [(s.q.slots tail).data got.length]) }
    else { s with consumer := .storeTail tail len got }
  | .storeTail tail len got => { s with
      q := { s.q with tail := nextIndex tail }
      consumer := .idle
      delivered := s.delivered ++ [⟨len, got⟩] }

inductive Action where
  | enqueue (pkt : List UInt8)
  | produce
  | dequeue
  | consume

inductive Step (s : State) : Action → State → Prop where
  | enqueue {pkt} : s.producer = .idle → Step s (.enqueue pkt) (enqueue s pkt)
  | produce : Step s .produce (produce s)
  | dequeue : s.consumer = .idle → Step s .dequeue { s with consumer := .loadHead }
  | consume : Step s .consume (consume s)

def system (slots : Nat → NetPacket) : System State Action where
  init s := s = netqInit slots
  step := Step

def packetOf (p : NetPacket) : Packet := ⟨p.len, (List.range p.len).map p.data⟩

-- The packets in the n slots from tail on.
def waiting (q : NetQueue) (n : Nat) : List Packet :=
  Ring.contents (netQueueDepth - 1) (fun i => packetOf (q.slots i)) q.tail n

def room : Nat := netQueueDepth - 2

-- The slot that the producer writes, and the one that the consumer reads.
def Producer.writes : Producer → Option Nat
  | .copy _ head _ => some head
  | .storeLen _ head => some head
  | _ => none

def Consumer.reads : Consumer → Option Nat
  | .copyLen tail => some tail
  | .copy tail _ _ => some tail
  | _ => none

def Filled (p : NetPacket) (pkt : List UInt8) (i : Nat) : Prop := ∀ j < i, p.data j = pkt.getD j 0

def ProducerOk (q : NetQueue) (n : Nat) : Producer → Prop
  | .idle => True
  | .loadHead _ => True
  | .loadTail _ head => head = q.head
  | .copy pkt head i =>
    head = q.head ∧ n < room ∧ i ≤ pkt.length ∧ Filled (q.slots head) pkt i
  | .storeLen pkt head => head = q.head ∧ n < room ∧ Filled (q.slots head) pkt pkt.length
  | .storeHead pkt head =>
    head = q.head ∧ n < room ∧ packetOf (q.slots head) = ⟨pkt.length, pkt⟩

def ConsumerOk (q : NetQueue) (n : Nat) : Consumer → Prop
  | .idle => True
  | .loadHead => True
  | .testTail head => ∃ m ≤ n, head = (q.tail + m) % (netQueueDepth - 1)
  | .loadTail => 0 < n
  | .copyLen tail => tail = q.tail ∧ 0 < n
  | .copy tail len got => tail = q.tail ∧ 0 < n ∧ len = (q.slots tail).len ∧
    got.length ≤ len ∧ got = (List.range got.length).map (q.slots tail).data
  | .storeTail tail len got => tail = q.tail ∧ 0 < n ∧ packetOf (q.slots tail) = ⟨len, got⟩

structure Queued (s : State) (n : Nat) : Prop where
  tail_lt : s.q.tail < netQueueDepth - 1
  le_room : n ≤ room
  head : s.q.head = (s.q.tail + n) % (netQueueDepth - 1)
  history : s.accepted = s.delivered ++ waiting s.q n
  producer : ProducerOk s.q n s.producer
  consumer : ConsumerOk s.q n s.consumer

theorem queued_init (slots : Nat → NetPacket) : Queued (netqInit slots) 0 where
  tail_lt := Nat.succ_pos _
  le_room := Nat.zero_le _
  head := rfl
  history := rfl
  producer := trivial
  consumer := trivial

section Invariant

variable {s : State} {n : Nat}

theorem Queued.head_ne_tail (h : Queued s n) (hn : 0 < n) : s.q.head ≠ s.q.tail := by
  intro he
  have hroom := h.le_room
  have hh := h.head
  rw [he] at hh
  have h0 : (s.q.tail + 0) % (netQueueDepth - 1) = (s.q.tail + n) % (netQueueDepth - 1) := by
    rw [Nat.add_zero, Nat.mod_eq_of_lt h.tail_lt]
    exact hh
  have hlt : n < netQueueDepth - 1 := by unfold room at hroom; unfold netQueueDepth at *; omega
  have := Ring.mod_inj (by omega) hlt h0
  omega

theorem Queued.full_iff (h : Queued s n) : nextIndex s.q.head = s.q.tail ↔ n = room := by
  have hroom := h.le_room
  have ht := h.tail_lt
  rw [nextIndex, h.head, Nat.mod_add_mod]
  unfold room netQueueDepth at *
  omega

theorem Queued.waiting_setSlot (h : Queued s n) (f : NetPacket → NetPacket) :
    waiting (setSlot s.q s.q.head f) n = waiting s.q n := by
  have hlt : n < netQueueDepth - 1 := by
    have := h.le_room
    unfold room at this
    unfold netQueueDepth at *
    omega
  have hslots : (fun i => packetOf ((setSlot s.q s.q.head f).slots i)) =
      Function.update (fun i => packetOf (s.q.slots i))
        ((s.q.tail + n) % (netQueueDepth - 1)) (packetOf (f (s.q.slots s.q.head))) := by
    rw [← h.head]
    funext i
    by_cases hi : i = s.q.head
    · subst hi
      simp [setSlot]
    · simp [setSlot, hi]
  rw [waiting, hslots]
  exact Ring.contents_update (fun i => packetOf (s.q.slots i)) s.q.tail hlt _

theorem Queued.consumer_setSlot (h : Queued s n) (f : NetPacket → NetPacket) :
    ConsumerOk (setSlot s.q s.q.head f) n s.consumer := by
  have hc := h.consumer
  have hkept : 0 < n → (setSlot s.q s.q.head f).slots s.q.tail = s.q.slots s.q.tail := fun hn =>
    Function.update_of_ne (h.head_ne_tail hn).symm _ _
  cases hcons : s.consumer with
  | copy tail len got =>
    rw [hcons] at hc
    obtain ⟨rfl, hn, hrest⟩ := hc
    refine ⟨rfl, hn, ?_⟩
    rw [hkept hn]
    exact hrest
  | storeTail tail len got =>
    rw [hcons] at hc
    obtain ⟨rfl, hn, hrest⟩ := hc
    refine ⟨rfl, hn, ?_⟩
    rw [hkept hn]
    exact hrest
  | _ =>
    rw [hcons] at hc
    exact hc

theorem ConsumerOk.succ {q : NetQueue} {c : Consumer} (h : ConsumerOk q n c) :
    ConsumerOk q (n + 1) c := by
  cases c with
  | testTail head =>
    obtain ⟨m, hm, he⟩ := h
    exact ⟨m, Nat.le_succ_of_le hm, he⟩
  | loadTail => exact Nat.succ_pos n
  | copyLen tail => exact ⟨h.1, Nat.succ_pos n⟩
  | copy tail len got => exact ⟨h.1, Nat.succ_pos n, h.2.2⟩
  | storeTail tail len got => exact ⟨h.1, Nat.succ_pos n, h.2.2⟩
  | _ => trivial

theorem ProducerOk.pred {q q' : NetQueue} {p : Producer} (h : ProducerOk q (n + 1) p)
    (hh : q'.head = q.head) (hs : q'.slots = q.slots) : ProducerOk q' n p := by
  cases p with
  | idle => trivial
  | loadHead pkt => trivial
  | loadTail pkt head => exact h.trans hh.symm
  | copy pkt head i => exact ⟨h.1.trans hh.symm, Nat.lt_of_succ_lt h.2.1, hs ▸ h.2.2⟩
  | storeLen pkt head => exact ⟨h.1.trans hh.symm, Nat.lt_of_succ_lt h.2.1, hs ▸ h.2.2⟩
  | storeHead pkt head => exact ⟨h.1.trans hh.symm, Nat.lt_of_succ_lt h.2.1, hs ▸ h.2.2⟩

theorem filled_packet {p : NetPacket} {pkt : List UInt8} (h : Filled p pkt pkt.length)
    (hl : p.len = pkt.length) : packetOf p = ⟨pkt.length, pkt⟩ := by
  rw [packetOf, hl, Packet.mk.injEq]
  refine ⟨rfl, List.ext_getElem (by simp) fun i hi hi' => ?_⟩
  rw [List.getElem_map, List.getElem_range, h i hi', List.getD_eq_getElem _ _ hi']

theorem Queued.produce (h : Queued s n) : ∃ n', Queued (produce s) n' := by
  have hp := h.producer
  unfold Netq.produce
  cases hprod : s.producer with
  | idle => exact ⟨n, h⟩
  | loadHead pkt => exact ⟨n, h.tail_lt, h.le_room, h.head, h.history, rfl, h.consumer⟩
  | loadTail pkt head =>
    rw [hprod] at hp
    obtain rfl : head = s.q.head := hp
    dsimp only
    split
    · exact ⟨n, h.tail_lt, h.le_room, h.head, h.history, trivial, h.consumer⟩
    · rename_i hfull
      have hlt : n < room := Nat.lt_of_le_of_ne h.le_room (fun he => hfull (h.full_iff.mpr he))
      exact ⟨n, h.tail_lt, h.le_room, h.head, h.history,
        ⟨rfl, hlt, Nat.zero_le _, fun j hj => absurd hj (Nat.not_lt_zero j)⟩, h.consumer⟩
  | copy pkt head i =>
    rw [hprod] at hp
    obtain ⟨rfl, hlt, hi, hf⟩ := hp
    dsimp only
    split
    · rename_i hlen
      refine ⟨n, h.tail_lt, h.le_room, h.head, ?_, ⟨rfl, hlt, hlen, ?_⟩, h.consumer_setSlot _⟩
      · rw [h.history, h.waiting_setSlot]
      · intro j hj
        simp only [setSlot, Function.update_self]
        by_cases hji : j = i
        · rw [hji, Function.update_self]
        · rw [Function.update_of_ne hji]
          exact hf j (by omega)
    · rename_i hlen
      refine ⟨n, h.tail_lt, h.le_room, h.head, h.history, ⟨rfl, hlt, ?_⟩, h.consumer⟩
      rwa [← show i = pkt.length by omega]
  | storeLen pkt head =>
    rw [hprod] at hp
    obtain ⟨rfl, hlt, hf⟩ := hp
    refine ⟨n, h.tail_lt, h.le_room, h.head, ?_, ⟨rfl, hlt, ?_⟩, h.consumer_setSlot _⟩
    · rw [h.history, h.waiting_setSlot]
    · simp only [setSlot, Function.update_self]
      exact filled_packet hf rfl
  | storeHead pkt head =>
    rw [hprod] at hp
    obtain ⟨rfl, hlt, hf⟩ := hp
    dsimp only
    refine ⟨n + 1, h.tail_lt, hlt, ?_, ?_, trivial, ?_⟩
    · rw [nextIndex, h.head, Nat.mod_add_mod, Nat.add_assoc]
    · rw [h.history, List.append_assoc]
      have hw : waiting { s.q with head := nextIndex s.q.head } (n + 1) =
          waiting s.q n ++ [packetOf (s.q.slots s.q.head)] := by
        rw [h.head]
        exact Ring.contents_snoc _ _ _
      rw [hw, hf]
    · have := h.consumer.succ
      cases hcons : s.consumer <;> rw [hcons] at this <;> exact this

theorem Queued.consume (h : Queued s n) : ∃ n', Queued (consume s) n' := by
  have hc := h.consumer
  unfold Netq.consume
  cases hcons : s.consumer with
  | idle => exact ⟨n, h⟩
  | loadHead =>
    exact ⟨n, h.tail_lt, h.le_room, h.head, h.history, h.producer, n, le_rfl, h.head⟩
  | testTail head =>
    rw [hcons] at hc
    obtain ⟨m, hm, he⟩ := hc
    dsimp only
    split
    · exact ⟨n, h.tail_lt, h.le_room, h.head, h.history, h.producer, trivial⟩
    · rename_i hne
      refine ⟨n, h.tail_lt, h.le_room, h.head, h.history, h.producer, ?_⟩
      refine Nat.pos_of_ne_zero (fun h0 : n = 0 => hne ?_)
      have hm0 : m = 0 := by omega
      rw [he, hm0, Nat.add_zero, Nat.mod_eq_of_lt h.tail_lt]
  | loadTail =>
    rw [hcons] at hc
    exact ⟨n, h.tail_lt, h.le_room, h.head, h.history, h.producer, rfl, hc⟩
  | copyLen tail =>
    rw [hcons] at hc
    exact ⟨n, h.tail_lt, h.le_room, h.head, h.history, h.producer, hc.1, hc.2, rfl,
      Nat.zero_le _, rfl⟩
  | copy tail len got =>
    rw [hcons] at hc
    obtain ⟨ht, hn, hl, hle, hgot⟩ := hc
    dsimp only
    split
    · rename_i hlt
      refine ⟨n, h.tail_lt, h.le_room, h.head, h.history, h.producer, ht, hn, hl, ?_, ?_⟩
      · rw [List.length_append, List.length_singleton]
        exact hlt
      · rw [List.length_append, List.length_singleton, List.range_succ, List.map_append,
          ← hgot, List.map_singleton]
    · rename_i hlt
      refine ⟨n, h.tail_lt, h.le_room, h.head, h.history, h.producer, ht, hn, ?_⟩
      rw [packetOf, ← hl, Packet.mk.injEq]
      refine ⟨rfl, ?_⟩
      rw [show len = got.length by omega]
      exact hgot.symm
  | storeTail tail len got =>
    rw [hcons] at hc
    obtain ⟨rfl, hn, hp⟩ := hc
    obtain ⟨k, rfl⟩ := Nat.exists_eq_succ_of_ne_zero (Nat.pos_iff_ne_zero.mp hn)
    dsimp only
    refine ⟨k, Nat.mod_lt _ (by decide), Nat.le_of_succ_le h.le_room, ?_, ?_, ?_, trivial⟩
    · rw [h.head, nextIndex, Nat.mod_add_mod]
      congr 1
      omega
    · have hw : waiting s.q (k + 1) = packetOf (s.q.slots s.q.tail) ::
          waiting { s.q with tail := nextIndex s.q.tail } k := Ring.contents_succ _ h.tail_lt k
      rw [h.history, hw, hp]
      simp
    · have hp' : ProducerOk { s.q with tail := nextIndex s.q.tail } k s.producer :=
        h.producer.pred rfl rfl
      exact hp'

theorem queued_step {s' : State} {a : Action} (h : ∃ n, Queued s n) (hs : Step s a s') :
    ∃ n, Queued s' n := by
  obtain ⟨n, h⟩ := h
  cases hs with
  | @enqueue pkt hidle =>
    unfold enqueue
    split
    · exact ⟨n, h⟩
    · exact ⟨n, h.tail_lt, h.le_room, h.head, h.history, trivial, h.consumer⟩
  | produce => exact h.produce
  | dequeue hidle => exact ⟨n, h.tail_lt, h.le_room, h.head, h.history, h.producer, trivial⟩
  | consume => exact h.consume

end Invariant

def invariant (slots : Nat → NetPacket) : (system slots).Invariant where
  holds s := ∃ n, Queued s n
  start hs := hs ▸ ⟨0, queued_init slots⟩
  step := queued_step

-- The producer is about to return false for a packet of an allowed length.
def State.refusing (s : State) : Prop :=
  ∃ pkt head, s.producer = .loadTail pkt head ∧ nextIndex head = s.q.tail

def emptySlots : Nat → NetPacket := fun _ => ⟨fun _ => 0, 0⟩

-- One packet has come in, with its six accesses, and netq_dequeue has made its first four.
def arrived : State :=
  consume (consume (consume (consume { produce (produce (produce (produce (produce (produce
    (enqueue (netqInit emptySlots) [0x41])))))) with consumer := .loadHead })))

theorem arrived_reach : (system emptySlots).Reach arrived := by
  have h0 : (system emptySlots).Reach (netqInit emptySlots) := .start rfl
  have h1 := h0.next (show (system emptySlots).step _ (.enqueue [0x41]) _ from .enqueue rfl)
  have h2 := (((((h1.next .produce).next .produce).next .produce).next .produce).next
    .produce).next .produce
  have h3 := h2.next (show (system emptySlots).step _ .dequeue _ from .dequeue rfl)
  exact (((h3.next .consume).next .consume).next .consume).next .consume

end Netq
