import SabakaOS.Network.UdpListen

namespace Udp

open Word ByteMemory

structure Routed (s : State) : Prop where
  leads : Leads s
  oneEach : OneEach s.handlers
  owned : ∀ p k, serves s.handlers p k = true → p = dnsPort ∨
    ∃ i, (s.listeners i).used = true ∧ (s.listeners i).port = p
  rings : ∀ i, (s.listeners i).used = true →
    (s.listeners i).head < udplBufDepth ∧ (s.listeners i).tail < udplBufDepth

section Steps

variable {s : State} {i j : Fin 4} {p : Nat}

@[simp] theorem setListener_self (s : State) (i : Fin 4) (l : UdpListener) :
    (setListener s i l).listeners i = l := Function.update_self ..

@[simp] theorem setListener_handlers (s : State) (i : Fin 4) (l : UdpListener) :
    (setListener s i l).handlers = s.handlers := rfl

theorem setListener_ne (s : State) (h : j ≠ i) (l : UdpListener) :
    (setListener s i l).listeners j = s.listeners j := Function.update_of_ne h ..

theorem Routed.one_port (h : Routed s) (hi : (s.listeners i).used = true)
    (hj : (s.listeners j).used = true) (hp : (s.listeners i).port = (s.listeners j).port) : i = j := by
  have hli := h.leads i hi
  rw [hp, h.leads j hj] at hli
  exact (RxCallback.listener.inj (Option.some.inj hli)).symm

-- Eight entries of different ports would be those of four listeners and of the resolver.
theorem Routed.room (h : Routed s) : ∃ k, (s.handlers k).used = false := by
  by_contra hfull
  have hused : ∀ k, (s.handlers k).used = true := by
    intro k
    by_contra hno
    exact hfull ⟨k, by simpa using hno⟩
  have hserves : ∀ k, serves s.handlers (s.handlers k).port k = true :=
    fun k => serves_iff.mpr ⟨hused k, rfl⟩
  have howner : ∀ k, ∃ o : Option (Fin 4),
      o.elim dnsPort (fun i => (s.listeners i).port) = (s.handlers k).port := by
    intro k
    rcases h.owned _ k (hserves k) with hdns | ⟨i, -, hi⟩
    · exact ⟨none, hdns.symm⟩
    · exact ⟨some i, hi⟩
  choose owner howner using howner
  have hinj : Function.Injective owner := by
    intro j k hjk
    have hport := howner j
    rw [hjk, howner k] at hport
    exact h.oneEach _ j k (hserves j) (hport ▸ hserves k)
  have hcard := Fintype.card_le_of_injective owner hinj
  simp at hcard

theorem freeListener_unused (hf : freeListener s = some i) : (s.listeners i).used = false := by
  simpa using List.find?_some hf

theorem Routed.open (h : Routed s) (hf : freeListener s = some i)
    (hports : ∀ j, (s.listeners j).used = true → (s.listeners j).port ≠ p) :
    Routed (udplOpen s p).2 := by
  have hunused := freeListener_unused hf
  simp only [udplOpen, hf]
  obtain ⟨k, hk⟩ := h.room
  have hreg := handlerFor_register (p := p) h.oneEach (.listener i) ⟨k, .inr hk⟩
  refine ⟨fun j hj => ?_, register_oneEach h.oneEach p _, fun q k hq => ?_, fun j hj => ?_⟩
  · by_cases hji : j = i
    · subst hji
      simpa using hreg
    · simp only [setListener_ne _ hji] at hj ⊢
      exact (handlerFor_register_ne h.oneEach _ (hports j hj)).trans (h.leads j hj)
  · rcases register_serves h.oneEach hq with rfl | hold
    · exact .inr ⟨i, by simp⟩
    · refine (h.owned q k hold).imp_right fun ⟨j, hj, hport⟩ => ?_
      have hji : j ≠ i := by
        rintro rfl
        rw [hunused] at hj
        cases hj
      exact ⟨j, by simpa [setListener_ne _ hji] using ⟨hj, hport⟩⟩
  · by_cases hji : j = i
    · subst hji
      simp [udplBufDepth]
    · simp only [setListener_ne _ hji] at hj ⊢
      exact h.rings j hj

theorem Routed.close (h : Routed s) (i : Fin 4)
    (hports : ∀ j, j ≠ i → (s.listeners j).used = true →
      (s.listeners j).port ≠ (s.listeners i).port) :
    Routed (setListener { s with
      handlers := netUdpRegister s.handlers (s.listeners i).port none } i
      { s.listeners i with used := false }) := by
  refine ⟨fun j hj => ?_, unregister_oneEach h.oneEach _, fun q k hq => ?_, fun j hj => ?_⟩
  · by_cases hji : j = i
    · subst hji
      simp at hj
    · simp only [setListener_ne _ hji] at hj ⊢
      exact (handlerFor_unregister_ne _ (hports j hji hj)).trans (h.leads j hj)
  · change serves (netUdpRegister s.handlers (s.listeners i).port none) q k = true at hq
    rw [serves_unregister, Bool.and_eq_true, decide_eq_true_eq] at hq
    refine (h.owned q k hq.1).imp_right fun ⟨j, hj, hport⟩ => ?_
    have hji : j ≠ i := by
      rintro rfl
      exact hq.2 hport.symm
    exact ⟨j, by simpa [setListener_ne _ hji] using ⟨hj, hport⟩⟩
  · by_cases hji : j = i
    · subst hji
      simp at hj
    · simp only [setListener_ne _ hji] at hj ⊢
      exact h.rings j hj

theorem Routed.resolve (h : Routed s)
    (hports : ∀ j, (s.listeners j).used = true → (s.listeners j).port ≠ dnsPort) :
    Routed { s with handlers := netUdpRegister s.handlers dnsPort (some .dns) } := by
  refine ⟨fun j hj => ?_, register_oneEach h.oneEach _ _, fun q k hq => ?_, h.rings⟩
  · exact (handlerFor_register_ne h.oneEach _ (hports j hj)).trans (h.leads j hj)
  · rcases register_serves h.oneEach hq with rfl | hold
    · exact .inl rfl
    · exact h.owned q k hold

-- A listener whose ring alone has changed.
theorem Routed.ring (h : Routed s) {l : UdpListener} (hp : l.port = (s.listeners i).port)
    (hu : l.used = (s.listeners i).used) (hh : l.head < udplBufDepth) (ht : l.tail < udplBufDepth) :
    Routed (setListener s i l) := by
  refine ⟨fun j hj => ?_, h.oneEach, fun q k hq => ?_, fun j hj => ?_⟩
  · by_cases hji : j = i
    · subst hji
      rw [setListener_self] at hj ⊢
      rw [hp]
      exact h.leads j (hu ▸ hj)
    · rw [setListener_ne _ hji] at hj ⊢
      exact h.leads j hj
  · refine (h.owned q k hq).imp_right fun ⟨j, hj, hport⟩ => ⟨j, ?_⟩
    by_cases hji : j = i
    · subst hji
      rw [setListener_self, hu, hp]
      exact ⟨hj, hport⟩
    · rw [setListener_ne _ hji]
      exact ⟨hj, hport⟩
  · by_cases hji : j = i
    · subst hji
      rw [setListener_self]
      exact ⟨hh, ht⟩
    · rw [setListener_ne _ hji] at hj ⊢
      exact h.rings j hj

theorem nextSlot_lt (n : Nat) : nextSlot n < udplBufDepth := Nat.mod_lt _ (by decide)

theorem Routed.callback (h : Routed s) (srcIp srcPort : Nat) (data : Nat → UInt8) (len : Nat)
    (cb : RxCallback) : Routed (callBack s srcIp srcPort data len cb) := by
  cases cb with
  | dns => exact h
  | listener i =>
    simp only [callBack, makeCallback]
    split
    · exact h
    split
    · exact h
    · rename_i hused _
      exact h.ring rfl rfl (nextSlot_lt _) (h.rings i (by simpa using hused)).2

theorem Routed.datagram (h : Routed s) (srcIp : Nat) (data : Nat → UInt8) (len : Nat) :
    Routed (handleUdp s srcIp data len) := by
  unfold handleUdp
  split
  · exact h
  simp only
  split
  · exact h
  · exact h.callback ..

theorem Routed.recv (h : Routed s) (handle : Int) : Routed (udplRecv s handle).2 := by
  unfold udplRecv
  split
  · exact h
  rename_i i _
  simp only
  split
  · exact h
  split
  · exact h
  · rename_i hused _
    exact h.ring rfl rfl (h.rings i (by simpa using hused)).1 (nextSlot_lt _)

theorem Routed.exec (h : Routed s) {a : Act} (hk : keepsPorts s a) : Routed (exec s a) := by
  cases a with
  | udplOpen p =>
    cases hf : freeListener s with
    | none =>
      simp only [Udp.exec, udplOpen, hf]
      exact h
    | some i => exact h.open hf (hk (by rw [hf]; exact Option.some_ne_none i))
  | udplRecv handle => exact h.recv handle
  | udplClose handle =>
    simp only [Udp.exec, udplClose]
    cases hs : slotOf handle with
    | none => exact h
    | some i => exact h.close i (hk i hs)
  | dnsResolve asks =>
    simp only [Udp.exec, dnsResolve]
    split
    · rename_i hasks
      exact h.resolve (hk hasks)
    · exact h
  | handleUdp srcIp data len => exact h.datagram srcIp data len

def routedInvariant : (system.restrict keepsPorts).Invariant where
  holds := Routed
  start := by
    rintro s rfl
    exact ⟨fun i hi => (nomatch hi), fun p j k hj => (nomatch hj), fun p k hk => (nomatch hk),
      fun i hi => (nomatch hi)⟩
  step := by
    rintro s a s' h ⟨hk, rfl⟩
    exact h.exec hk

end Steps

section Breaks

variable {s : State} {i j : Fin 4} {p : Nat}

-- A call that takes the port of a used listener leaves that listener without its entry.
theorem Routed.keepsPorts_of_leads (h : Routed s) {a : Act} (hl : Leads (Udp.exec s a)) :
    keepsPorts s a := by
  cases a with
  | udplRecv _ => trivial
  | handleUdp _ _ _ => trivial
  | udplOpen p =>
    intro hfree j hj hp
    obtain ⟨i, hf⟩ := Option.ne_none_iff_exists'.mp hfree
    have hji : j ≠ i := by
      rintro rfl
      rw [freeListener_unused hf] at hj
      cases hj
    have hlost := hl j
    simp only [Udp.exec, udplOpen, hf, setListener_ne _ hji] at hlost
    obtain ⟨k, hk⟩ := h.room
    have hreg := handlerFor_register (p := p) h.oneEach (.listener i) ⟨k, .inr hk⟩
    rw [hp] at hlost
    exact hji (RxCallback.listener.inj (Option.some.inj ((hlost hj).symm.trans hreg)))
  | udplClose handle =>
    intro i hs j hji hj hp
    have hlost := hl j
    simp only [Udp.exec, udplClose, hs, setListener_ne _ hji] at hlost
    rw [hp] at hlost
    cases (handlerFor_unregister _ _).symm.trans (hlost hj)
  | dnsResolve asks =>
    intro hasks j hj hp
    have hlost := hl j
    simp only [Udp.exec, dnsResolve, hasks, if_true] at hlost
    obtain ⟨k, hk⟩ := h.room
    have hreg := handlerFor_register (p := dnsPort) h.oneEach .dns ⟨k, .inr hk⟩
    rw [hp, hreg] at hlost
    cases Option.some.inj (hlost hj)

end Breaks

section Datagrams

variable {s : State} {i : Fin 4}

theorem packetOf_store (old : UdpPacket) (srcIp : Nat) (data : Nat → UInt8) :
    packetOf (storePacket old srcIp (Net.be16 data 0) (fun k => data (Net.udpHeaderSize + k))
      (Net.sub16 (Net.be16 data 4) Net.udpHeaderSize)) = arrived srcIp data := by
  have hmin : ∀ n, (if n < udplPktMax then n else udplPktMax) = min n udplPktMax := by
    intro n
    split
    · omega
    · omega
  simp only [packetOf, storePacket, hmin, arrived, Datagram.mk.injEq, true_and]
  refine List.map_congr_left (fun k hk => ?_)
  have hlt := List.mem_range.mp hk
  simp only [Nat.zero_add, hlt, if_true]

-- What handle_udp does with a datagram for a used listener's port.
structure Delivers (s : State) (i : Fin 4) (srcIp : Nat) (data : Nat → UInt8) (s' : State) : Prop where
  stored : (queued (s.listeners i)).length < 15 →
    queued (s'.listeners i) = queued (s.listeners i) ++ [arrived srcIp data]
  dropped : (queued (s.listeners i)).length = 15 → s' = s
  others : ∀ j, j ≠ i → s'.listeners j = s.listeners j

theorem Routed.delivers (h : Routed s) (hi : (s.listeners i).used = true) (srcIp : Nat)
    {data : Nat → UInt8} {len : Nat} (hlen : Net.udpHeaderSize ≤ len)
    (hport : Net.be16 data 2 = (s.listeners i).port) :
    Delivers s i srcIp data (handleUdp s srcIp data len) := by
  obtain ⟨hh, ht⟩ := h.rings i hi
  have hfor : handlerFor s.handlers (Net.be16 data 2) = some (.listener i) := hport ▸ h.leads i hi
  have hrun : handleUdp s srcIp data len = makeCallback s i srcIp (Net.be16 data 0)
      (fun k => data (Net.udpHeaderSize + k)) (Net.sub16 (Net.be16 data 4) Net.udpHeaderSize) := by
    rw [handleUdp, if_neg (by omega)]
    simp only [hfor, callBack]
  rw [hrun]
  simp only [makeCallback, hi, Bool.not_true, Bool.false_eq_true, if_false]
  by_cases hfull : nextSlot (s.listeners i).head = (s.listeners i).tail
  · rw [if_pos hfull]
    have hlength := (full_iff hh ht).mp hfull
    exact ⟨fun hlt => absurd hlength (by omega), fun _ => rfl, fun j _ => rfl⟩
  · rw [if_neg hfull]
    refine ⟨fun _ => ?_, fun hlength => absurd ((full_iff hh ht).mpr hlength) hfull,
      fun j hj => setListener_ne _ hj _⟩
    rw [setListener_self, ← packetOf_store ((s.listeners i).slots (s.listeners i).head)]
    exact queued_store hh ht hfull _

theorem slotOf_fin (i : Fin 4) : slotOf (i.val : Int) = some i := by
  have hlt : (i.val : Int) < 4 := by omega
  rw [slotOf, dif_pos ⟨by omega, hlt⟩]
  rfl

-- udpl_recv hands out the packet that has waited longest.
theorem Routed.receives (h : Routed s) (hi : (s.listeners i).used = true) :
    match queued (s.listeners i) with
    | [] => udplRecv s i.val = (none, s)
    | d :: ds => ∃ p s', udplRecv s i.val = (some p, s') ∧ packetOf p = d ∧
        queued (s'.listeners i) = ds ∧ ∀ j, j ≠ i → s'.listeners j = s.listeners j := by
  obtain ⟨hh, ht⟩ := h.rings i hi
  have hused : (!(s.listeners i).used) = false := by rw [hi]; rfl
  simp only [udplRecv, slotOf_fin, hused, Bool.false_eq_true, if_false]
  by_cases hempty : (s.listeners i).head = (s.listeners i).tail
  · rw [List.eq_nil_of_length_eq_zero ((empty_iff hh ht).mp hempty), if_pos hempty]
  · rw [queued_take hh ht hempty, if_neg hempty]
    exact ⟨_, _, rfl, rfl, by rw [setListener_self], fun j hj => setListener_ne _ hj _⟩

end Datagrams

-- As long as no call takes the port of another listener in use, every used listener has its entry
-- and gets its datagrams; the first call that does takes the entry away.
theorem listeners_served {s : State} (h : (system.restrict keepsPorts).Reach s) :
    Leads s ∧ (∀ a, Leads (exec s a) ↔ keepsPorts s a) ∧
    ∀ i, (s.listeners i).used = true →
      (queued (s.listeners i)).length ≤ 15 ∧
      (∀ srcIp data len, Net.udpHeaderSize ≤ len → Net.be16 data 2 = (s.listeners i).port →
        Delivers s i srcIp data (handleUdp s srcIp data len)) ∧
      match queued (s.listeners i) with
      | [] => udplRecv s i.val = (none, s)
      | d :: ds => ∃ p s', udplRecv s i.val = (some p, s') ∧ packetOf p = d ∧
          queued (s'.listeners i) = ds ∧ ∀ j, j ≠ i → s'.listeners j = s.listeners j := by
  have hr := routedInvariant.reach h
  refine ⟨hr.leads, fun a => ⟨hr.keepsPorts_of_leads, fun hk => (hr.exec hk).leads⟩, fun i hi =>
    ⟨?_, fun srcIp data len hlen hport => hr.delivers hi srcIp hlen hport, hr.receives hi⟩⟩
  have hlt := held_lt (s.listeners i)
  rw [queued_length]
  rw [udplBufDepth] at hlt
  omega

-- A datagram of two payload bytes for port 7.
def datagram7 : Nat → UInt8 := fun k => [0x12, 0x34, 0, 7, 0, 10, 0, 0, 0x68, 0x69].getD k 0

theorem listeners_served_open :
    let s := exec bootState (.udplOpen 7)
    (s.listeners 0).used = true ∧
      (queued ((handleUdp s 1 datagram7 10).listeners 0)).map (·.bytes) = [[0x68, 0x69]] := by
  intro s
  have h : (system.restrict keepsPorts).Reach s :=
    .next (a := .udplOpen 7) (.start rfl) ⟨fun _ j hj => (by cases hj), rfl⟩
  have hused : (s.listeners 0).used = true := by decide
  have hempty : queued (s.listeners 0) = [] :=
    List.eq_nil_of_length_eq_zero (by rw [queued_length]; decide)
  have hd := ((listeners_served h).2.2 0 hused).2.1 1 datagram7 10 (by decide) (by decide)
  refine ⟨hused, ?_⟩
  rw [hd.stored (by rw [hempty]; decide), hempty]
  decide

-- The second listener on port 7 takes the entry of the first.
theorem listeners_served_fails :
    ∃ s, system.Reach s ∧ (s.listeners 0).used = true ∧ ¬Leads s ∧
      (queued ((handleUdp s 1 datagram7 10).listeners 0)).length = 0 := by
  refine ⟨exec (exec bootState (.udplOpen 7)) (.udplOpen 7), .next (.next (.start rfl) rfl) rfl,
    by decide, fun hl => ?_, ?_⟩
  · exact absurd (hl 0 (by decide)) (by decide)
  · rw [queued_length]
    decide +kernel

end Udp
