import Mathlib.Data.Fintype.Card
import Mathlib.Data.Fintype.Option
import SabakaOS.Library.Run
import SabakaOS.Network.Frame

namespace Udp

open Word ByteMemory

def udpHandlersMax : Nat := 8

def udplMax : Nat := 4

def udplBufDepth : Nat := 16

def udplPktMax : Nat := 512

def dnsPort : Nat := 53

structure UdpPacket where
  srcIp : Nat
  srcPort : Nat
  data : Nat → UInt8
  len : Nat

structure UdpListener where
  port : Nat
  used : Bool
  slots : Nat → UdpPacket
  head : Nat
  tail : Nat

-- cb0 to cb3 are listener 0 to listener 3; the other is dns_udp_callback.
inductive RxCallback where
  | listener (idx : Fin 4)
  | dns
  deriving DecidableEq

structure UdpHandler where
  port : Nat
  cb : RxCallback
  used : Bool

abbrev Handlers := Fin 8 → UdpHandler

structure State where
  listeners : Fin 4 → UdpListener
  handlers : Handlers

def serves (h : Handlers) (port : Nat) (k : Fin 8) : Bool := (h k).used && (h k).port == port

def netUdpRegister (h : Handlers) (port : Nat) : Option RxCallback → Handlers
  | none => fun k => if serves h port k then { h k with used := false } else h k
  | some cb =>
    match (List.finRange 8).find? (serves h port) with
    | some k => Function.update h k { h k with cb := cb }
    | none =>
      match (List.finRange 8).find? (fun k => !(h k).used) with
      | some k => Function.update h k { port := port, cb := cb, used := true }
      | none => h

-- The callback that handle_udp calls for a port.
def handlerFor (h : Handlers) (port : Nat) : Option RxCallback :=
  ((List.finRange 8).find? (serves h port)).map fun k => (h k).cb

def setListener (s : State) (i : Fin 4) (l : UdpListener) : State :=
  { s with listeners := Function.update s.listeners i l }

-- UDPL_BUF_DEPTH is a power of two: masking with it less one is the remainder.
def nextSlot (i : Nat) : Nat := (i + 1) % udplBufDepth

def storePacket (old : UdpPacket) (srcIp srcPort : Nat) (data : Nat → UInt8) (len : Nat) : UdpPacket :=
  let copy := if len < udplPktMax then len else udplPktMax
  { srcIp := srcIp
    srcPort := srcPort
    data := fun k => if k < copy then data k else old.data k
    len := copy }

def makeCallback (s : State) (idx : Fin 4) (srcIp srcPort : Nat) (data : Nat → UInt8) (len : Nat) :
    State :=
  let l := s.listeners idx
  if !l.used then s
  else if nextSlot l.head = l.tail then s
  else setListener s idx { l with
    slots := Function.update l.slots l.head (storePacket (l.slots l.head) srcIp srcPort data len)
    head := nextSlot l.head }

-- dns_udp_callback touches neither table.
def callBack (s : State) (srcIp srcPort : Nat) (data : Nat → UInt8) (len : Nat) : RxCallback → State
  | .listener idx => makeCallback s idx srcIp srcPort data len
  | .dns => s

def handleUdp (s : State) (srcIp : Nat) (data : Nat → UInt8) (len : Nat) : State :=
  if len < Net.udpHeaderSize then s
  else
    let plen := Net.sub16 (Net.be16 data 4) Net.udpHeaderSize
    match handlerFor s.handlers (Net.be16 data 2) with
    | none => s
    | some cb => callBack s srcIp (Net.be16 data 0) (fun k => data (Net.udpHeaderSize + k)) plen cb

def freeListener (s : State) : Option (Fin 4) :=
  (List.finRange 4).find? (fun i => !(s.listeners i).used)

def udplOpen (s : State) (port : Nat) : Int × State :=
  match freeListener s with
  | some i =>
    let s := setListener s i { s.listeners i with port := port, head := 0, tail := 0, used := true }
    (i.val, { s with handlers := netUdpRegister s.handlers port (some (.listener i)) })
  | none => (-1, s)

def slotOf (handle : Int) : Option (Fin 4) :=
  if h : 0 ≤ handle ∧ handle < 4 then some ⟨handle.toNat, by omega⟩ else none

def udplRecv (s : State) (handle : Int) : Option UdpPacket × State :=
  match slotOf handle with
  | none => (none, s)
  | some i =>
    let l := s.listeners i
    if !l.used then (none, s)
    else if l.head = l.tail then (none, s)
    else (some (l.slots l.tail), setListener s i { l with tail := nextSlot l.tail })

def udplClose (s : State) (handle : Int) : State :=
  match slotOf handle with
  | none => s
  | some i => setListener { s with handlers := netUdpRegister s.handlers (s.listeners i).port none } i
      { s.listeners i with used := false }

-- asks: the name is neither empty, an address nor in the cache, and there is a server to ask.
def dnsResolve (s : State) (asks : Bool) : State :=
  if asks then { s with handlers := netUdpRegister s.handlers dnsPort (some .dns) } else s

inductive Act where
  | udplOpen (port : Nat)
  | udplRecv (handle : Int)
  | udplClose (handle : Int)
  | dnsResolve (asks : Bool)
  | handleUdp (srcIp : Nat) (data : Nat → UInt8) (len : Nat)

def exec (s : State) : Act → State
  | .udplOpen port => (udplOpen s port).2
  | .udplRecv handle => (udplRecv s handle).2
  | .udplClose handle => udplClose s handle
  | .dnsResolve asks => dnsResolve s asks
  | .handleUdp srcIp data len => handleUdp s srcIp data len

def blankListener : UdpListener :=
  { port := 0, used := false, slots := fun _ => ⟨0, 0, fun _ => 0, 0⟩, head := 0, tail := 0 }

def bootState : State :=
  { listeners := fun _ => blankListener
    handlers := fun _ => { port := 0, cb := .dns, used := false } }

def system : System State Act where
  init s := s = bootState
  step s a s' := s' = exec s a

structure Datagram where
  srcIp : Nat
  srcPort : Nat
  bytes : List UInt8

def held (l : UdpListener) : Nat := (l.head + udplBufDepth - l.tail) % udplBufDepth

def packetOf (p : UdpPacket) : Datagram := ⟨p.srcIp, p.srcPort, readBytes p.data p.len 0⟩

def queued (l : UdpListener) : List Datagram :=
  (Ring.contents udplBufDepth l.slots l.tail (held l)).map packetOf

-- What is kept of a datagram: its source and the first 512 bytes of its payload.
def arrived (srcIp : Nat) (data : Nat → UInt8) : Datagram :=
  ⟨srcIp, Net.be16 data 0, readBytes data
    (min (Net.sub16 (Net.be16 data 4) Net.udpHeaderSize) udplPktMax) Net.udpHeaderSize⟩

-- Every used listener is the one that its port leads to.
def Leads (s : State) : Prop := ∀ i, (s.listeners i).used = true →
  handlerFor s.handlers (s.listeners i).port = some (.listener i)

-- No call takes the port of another listener that is in use.
def keepsPorts (s : State) : Act → Prop
  | .udplOpen port => freeListener s ≠ none →
      ∀ j, (s.listeners j).used = true → (s.listeners j).port ≠ port
  | .udplClose handle => ∀ i, slotOf handle = some i →
      ∀ j, j ≠ i → (s.listeners j).used = true → (s.listeners j).port ≠ (s.listeners i).port
  | .dnsResolve asks => asks = true →
      ∀ j, (s.listeners j).used = true → (s.listeners j).port ≠ dnsPort
  | _ => True

section Handlers

variable {h : Handlers} {p q : Nat} {cb : RxCallback} {k : Fin 8}

theorem serves_iff : serves h p k = true ↔ (h k).used = true ∧ (h k).port = p := by
  simp [serves]

theorem handlerFor_congr {h' : Handlers} (hs : ∀ k, serves h' q k = serves h q k)
    (hcb : ∀ k, serves h q k = true → (h' k).cb = (h k).cb) : handlerFor h' q = handlerFor h q := by
  have heq : serves h' q = serves h q := funext hs
  unfold handlerFor
  rw [heq]
  cases hfind : (List.finRange 8).find? (serves h q) with
  | none => rfl
  | some k => simp only [Option.map_some, hcb k (List.find?_some hfind)]

-- No port has two entries.
def OneEach (h : Handlers) : Prop :=
  ∀ p j k, serves h p j = true → serves h p k = true → j = k

theorem handlerFor_of_serves (h1 : OneEach h) (hk : serves h p k = true) :
    handlerFor h p = some (h k).cb := by
  obtain ⟨j, hj⟩ := Option.isSome_iff_exists.mp
    (List.find?_isSome.mpr ⟨k, List.mem_finRange k, hk⟩)
  unfold handlerFor
  rw [hj, h1 p j k (List.find?_some hj) hk]
  rfl

-- What registering writes: one entry, that of the port if it has one, else an unused one.
theorem register_some (h : Handlers) (p : Nat) (cb : RxCallback) :
    (∃ k, (serves h p k = true ∨ (∀ j, serves h p j = false) ∧ (h k).used = false) ∧
      netUdpRegister h p (some cb) = Function.update h k { port := p, cb := cb, used := true }) ∨
    (∀ k, (h k).used = true ∧ serves h p k = false) ∧ netUdpRegister h p (some cb) = h := by
  unfold netUdpRegister
  simp only
  cases hfind : (List.finRange 8).find? (serves h p) with
  | some k =>
    have hk := List.find?_some hfind
    obtain ⟨hused, hport⟩ := serves_iff.mp hk
    refine .inl ⟨k, .inl hk, ?_⟩
    simp only
    rw [← hport, ← hused]
  | none =>
    have hnone : ∀ j, serves h p j = false := by simpa using hfind
    simp only
    cases hfree : (List.finRange 8).find? (fun k => !(h k).used) with
    | some k => exact .inl ⟨k, .inr ⟨hnone, by simpa using List.find?_some hfree⟩, rfl⟩
    | none => exact .inr ⟨fun k => ⟨by simpa using List.find?_eq_none.mp hfree k (by simp), hnone k⟩, rfl⟩

-- The entries after a registration: that of the port, and those of the other ports as they were.
theorem serves_register (h1 : OneEach h) (hreg : netUdpRegister h p (some cb) =
    Function.update h k { port := p, cb := cb, used := true })
    (hk : serves h p k = true ∨ (∀ j, serves h p j = false) ∧ (h k).used = false) (q : Nat)
    (j : Fin 8) : serves (netUdpRegister h p (some cb)) q j =
      if q = p then decide (j = k) else serves h q j := by
  rw [hreg]
  by_cases hj : j = k
  · subst hj
    have hold : q ≠ p → serves h q j = false := by
      intro hq
      rw [Bool.eq_false_iff]
      intro hs
      obtain ⟨hused, hport⟩ := serves_iff.mp hs
      rcases hk with hk | ⟨-, hfree⟩
      · exact hq (hport.symm.trans (serves_iff.mp hk).2)
      · rw [hfree] at hused
        cases hused
    by_cases hq : q = p
    · simp [serves, hq]
    · simp only [hq, if_false, hold hq]
      simp [serves, Ne.symm hq]
  · have hkeep : serves (Function.update h k { port := p, cb := cb, used := true }) q j =
        serves h q j := by
      rw [serves, Function.update_of_ne hj, serves]
    rw [hkeep]
    split
    · rename_i hq
      subst hq
      rw [decide_eq_false hj]
      rcases hk with hk | ⟨hnone, -⟩
      · rw [Bool.eq_false_iff]
        exact fun hs => hj (h1 q j k hs hk)
      · exact hnone j
    · rfl

theorem register_oneEach (h1 : OneEach h) (p : Nat) (cb : RxCallback) :
    OneEach (netUdpRegister h p (some cb)) := by
  rcases register_some h p cb with ⟨k, hk, hreg⟩ | ⟨-, hreg⟩
  · intro q i j hi hj
    rw [serves_register h1 hreg hk] at hi hj
    split at hi
    · rename_i hq
      rw [if_pos hq] at hj
      rw [of_decide_eq_true hi, of_decide_eq_true hj]
    · rename_i hq
      rw [if_neg hq] at hj
      exact h1 q i j hi hj
  · rw [hreg]
    exact h1

theorem register_serves (h1 : OneEach h) {j : Fin 8}
    (hs : serves (netUdpRegister h p (some cb)) q j = true) : q = p ∨ serves h q j = true := by
  rcases register_some h p cb with ⟨k, hk, hreg⟩ | ⟨-, hreg⟩
  · rw [serves_register h1 hreg hk] at hs
    split at hs
    · rename_i hq
      exact .inl hq
    · exact .inr hs
  · rw [hreg] at hs
    exact .inr hs

theorem handlerFor_register (h1 : OneEach h) (cb : RxCallback)
    (hroom : ∃ k, serves h p k = true ∨ (h k).used = false) :
    handlerFor (netUdpRegister h p (some cb)) p = some cb := by
  rcases register_some h p cb with ⟨k, hk, hreg⟩ | ⟨hfull, -⟩
  · have hs : serves (netUdpRegister h p (some cb)) p k = true := by
      rw [serves_register h1 hreg hk, if_pos rfl]
      exact decide_eq_true rfl
    rw [handlerFor_of_serves (register_oneEach h1 p cb) hs, hreg, Function.update_self]
  · obtain ⟨k, hk⟩ := hroom
    obtain ⟨hused, hno⟩ := hfull k
    rcases hk with hk | hk
    · rw [hk] at hno
      cases hno
    · rw [hk] at hused
      cases hused

theorem handlerFor_register_ne (h1 : OneEach h) (cb : RxCallback) (hq : q ≠ p) :
    handlerFor (netUdpRegister h p (some cb)) q = handlerFor h q := by
  rcases register_some h p cb with ⟨k, hk, hreg⟩ | ⟨-, hreg⟩
  · have hserves : ∀ j, serves (netUdpRegister h p (some cb)) q j = serves h q j := by
      intro j
      rw [serves_register h1 hreg hk, if_neg hq]
    refine handlerFor_congr hserves (fun j hj => ?_)
    rw [hreg]
    by_cases hjk : j = k
    · subst hjk
      have hhere := serves_register h1 hreg hk p j
      rw [if_pos rfl, decide_eq_true rfl] at hhere
      rw [← hserves j] at hj
      exact absurd ((serves_iff.mp hj).2.symm.trans (serves_iff.mp hhere).2) hq
    · rw [Function.update_of_ne hjk]
  · rw [hreg]

theorem serves_unregister (h : Handlers) (p q : Nat) (j : Fin 8) :
    serves (netUdpRegister h p none) q j = (serves h q j && decide (q ≠ p)) := by
  simp only [netUdpRegister]
  rw [serves]
  by_cases hj : serves h p j = true
  · rw [if_pos hj]
    obtain ⟨hused, hport⟩ := serves_iff.mp hj
    by_cases hq : q = p
    · simp [hq]
    · simp [serves, hport, Ne.symm hq]
  · rw [if_neg hj]
    by_cases hq : q = p
    · subst hq
      simpa [serves] using hj
    · simp [serves, hq]

theorem unregister_oneEach (h1 : OneEach h) (p : Nat) : OneEach (netUdpRegister h p none) := by
  intro q i j hi hj
  rw [serves_unregister, Bool.and_eq_true] at hi hj
  exact h1 q i j hi.1 hj.1

theorem handlerFor_unregister (h : Handlers) (p : Nat) : handlerFor (netUdpRegister h p none) p = none := by
  unfold handlerFor
  rw [Option.map_eq_none_iff, List.find?_eq_none]
  intro j _
  rw [serves_unregister]
  simp

theorem handlerFor_unregister_ne (h : Handlers) (hq : q ≠ p) :
    handlerFor (netUdpRegister h p none) q = handlerFor h q := by
  refine handlerFor_congr (fun j => by simp [serves_unregister, hq]) (fun j _ => ?_)
  simp only [netUdpRegister]
  split
  · rfl
  · rfl

end Handlers

section Rings

variable {l : UdpListener}

theorem held_lt (l : UdpListener) : held l < udplBufDepth := Nat.mod_lt _ (by decide)

theorem queued_length (l : UdpListener) : (queued l).length = held l := by simp [queued]

-- The ring is full when the slot after the head is the tail.
theorem full_iff (hh : l.head < udplBufDepth) (ht : l.tail < udplBufDepth) :
    nextSlot l.head = l.tail ↔ (queued l).length = 15 := by
  rw [queued_length]
  unfold nextSlot held udplBufDepth at *
  omega

theorem empty_iff (hh : l.head < udplBufDepth) (ht : l.tail < udplBufDepth) :
    l.head = l.tail ↔ (queued l).length = 0 := by
  rw [queued_length]
  unfold held udplBufDepth at *
  omega

theorem queued_store (hh : l.head < udplBufDepth) (ht : l.tail < udplBufDepth)
    (hroom : nextSlot l.head ≠ l.tail) (p : UdpPacket) :
    queued { l with slots := Function.update l.slots l.head p, head := nextSlot l.head } =
      queued l ++ [packetOf p] := by
  have hat : l.head = (l.tail + held l) % udplBufDepth := by
    unfold held udplBufDepth at *
    omega
  have hlen : held { l with slots := Function.update l.slots l.head p, head := nextSlot l.head } =
      held l + 1 := by
    unfold held nextSlot udplBufDepth at *
    simp only
    omega
  have hspec := (Ring.push_spec l.slots l.tail [p] (held_lt l)).1
  rw [← hat] at hspec
  unfold queued
  rw [hlen]
  exact (congrArg (List.map packetOf) hspec).trans List.map_append

theorem queued_take (hh : l.head < udplBufDepth) (ht : l.tail < udplBufDepth)
    (hne : l.head ≠ l.tail) :
    queued l = packetOf (l.slots l.tail) :: queued { l with tail := nextSlot l.tail } := by
  have hlen : held l = held { l with tail := nextSlot l.tail } + 1 := by
    unfold held nextSlot udplBufDepth at *
    simp only
    omega
  unfold queued
  rw [hlen, Ring.contents_succ l.slots ht]
  rfl

end Rings

end Udp
