import SabakaOS.Library.Run
import SabakaOS.Library.SlotTable
import SabakaOS.Network.DnsResolver

namespace Dns

open Word SlotTable

def Unexpired (t : Nat) (e : DnsCacheEntry) : Prop := e.valid = true ∧ t < e.ttlDeadlineMs

instance (t : Nat) (e : DnsCacheEntry) : Decidable (Unexpired t e) :=
  inferInstanceAs (Decidable (_ ∧ _))

-- The entries that count at time t: for each name the address and the deadline.
def live (t : Nat) (c : Cache) : Table 16 (List UInt8) (Nat × Nat) := fun i =>
  if Unexpired t (c i) then some ((c i).name, (c i).ip, (c i).ttlDeadlineMs) else none

def dnsCacheFlush (s : Resolver) : Resolver :=
  { s with cache := fun i => { s.cache i with valid := false } }

section Entries

variable {t t' : Nat} {c c' : Cache} {i : Fin 16} {name : List UInt8} {ip deadline : Nat}

theorem live_some : live t c i = some (name, ip, deadline) ↔ Unexpired t (c i) ∧
    (c i).name = name ∧ (c i).ip = ip ∧ (c i).ttlDeadlineMs = deadline := by
  unfold live
  split
  · next h => simp [h]
  · next h => simp [h]

theorem live_none : live t c i = none ↔ ¬Unexpired t (c i) := by
  unfold live
  split
  · next h => simp [h]
  · next h => simp [h]

theorem Unexpired.earlier {e : DnsCacheEntry} (h : Unexpired t' e) (ht : t ≤ t') : Unexpired t e :=
  ⟨h.1, ht.trans_lt h.2⟩

-- As time goes on entries only drop out.
theorem live_later (ht : t ≤ t') {e : List UInt8 × Nat × Nat} (h : live t' c i = some e) :
    live t c i = some e := by
  obtain ⟨name, ip, deadline⟩ := e
  rw [live_some] at h ⊢
  exact ⟨h.1.earlier ht, h.2⟩

theorem Distinct.later (hd : Distinct (live t c)) (ht : t ≤ t') : Distinct (live t' c) :=
  hd.sub fun _ _ h => live_later ht h

theorem lookup_later (hd : Distinct (live t c)) (ht : t ≤ t') :
    lookup (live t' c) name = (lookup (live t c) name).filter fun v => t' < v.2 := by
  refine Option.ext fun v => ?_
  rw [Option.filter_eq_some_iff, lookup_some hd, lookup_some (Distinct.later hd ht),
    decide_eq_true_eq]
  constructor
  · rintro ⟨i, hi⟩
    refine ⟨⟨i, live_later ht hi⟩, ?_⟩
    obtain ⟨h, -, -, hv⟩ := live_some.mp hi
    exact hv ▸ h.2
  · rintro ⟨⟨i, hi⟩, hv⟩
    obtain ⟨h, hrest⟩ := live_some.mp hi
    exact ⟨i, live_some.mpr ⟨⟨h.1, hrest.2.2 ▸ hv⟩, hrest⟩⟩

end Entries

section Scan

variable {now t : Nat} {name : List UInt8} {c : Cache} {slots : List (Fin 16)}

-- Dropping an expired entry changes nothing that counts from now on.
theorem live_dropped {i : Fin 16} (ht : now ≤ t) (hold : (c i).ttlDeadlineMs ≤ now) :
    live t (Function.update c i { c i with valid := false }) = live t c := by
  funext j
  by_cases hj : j = i
  · subst hj
    have hno : ¬Unexpired t (c j) := fun h => absurd h.2 (by omega)
    rw [live_none.mpr hno, live_none, Function.update_self]
    exact fun h => Bool.noConfusion h.1
  · simp only [live, Function.update_of_ne hj]

theorem cacheScan_live (ht : now ≤ t) : live t (cacheScan now name slots c).2 = live t c := by
  induction slots generalizing c with
  | nil => rfl
  | cons i slots ih =>
    rw [cacheScan]
    split
    · exact ih
    · split
      · next hold => exact ih.trans (live_dropped ht hold)
      · split
        · rfl
        · exact ih

-- The entry found is the first that counts and has the name.
theorem cacheScan_found : (cacheScan now name slots c).1.map (fun i =>
    ((cacheScan now name slots c).2 i).ip) =
      (slots.findSome? fun i => valueAt name (live now c i)).map Prod.fst := by
  induction slots generalizing c with
  | nil => rfl
  | cons i slots ih =>
    rw [cacheScan, List.findSome?_cons]
    split
    · next hv =>
      have hno : live now c i = none := live_none.mpr fun h => by simp [h.1] at hv
      rw [hno]
      exact ih
    · next hv =>
      rw [Bool.not_eq_true', Bool.not_eq_false] at hv
      split
      · next hold =>
        have hno : live now c i = none := live_none.mpr fun h => absurd h.2 (by omega)
        rw [hno, ih, live_dropped le_rfl hold]
        rfl
      · next hold =>
        have hyes : live now c i = some ((c i).name, (c i).ip, (c i).ttlDeadlineMs) :=
          live_some.mpr ⟨⟨hv, Nat.lt_of_not_le hold⟩, rfl, rfl, rfl⟩
        split
        · next hname =>
          rw [hyes, hname]
          simp [valueAt]
        · next hname =>
          have hno : valueAt name (live now c i) = none := by
            rw [hyes]
            exact if_neg hname
          rw [hno]
          exact ih

theorem cacheLookup_found (now : Nat) (name : List UInt8) (c : Cache) :
    (cacheLookup now name c).1.map (fun i => ((cacheLookup now name c).2 i).ip) =
      (lookup (live now c) name).map Prod.fst := cacheScan_found

theorem cacheLookup_live (name : List UInt8) (c : Cache) (ht : now ≤ t) :
    live t (cacheLookup now name c).2 = live t c :=
  cacheScan_live ht

-- An entry that has been dropped differs in its valid flag only.
theorem cacheScan_entry (now : Nat) (name : List UInt8) (slots : List (Fin 16)) (c : Cache)
    (i : Fin 16) : (cacheScan now name slots c).2 i = c i ∨
    (cacheScan now name slots c).2 i = { c i with valid := false } := by
  induction slots generalizing c with
  | nil => exact .inl rfl
  | cons k slots ih =>
    rw [cacheScan]
    split
    · exact ih c
    · split
      · rcases ih (Function.update c k { c k with valid := false }) with h | h
        · rw [h]
          by_cases hk : i = k
          · subst hk
            exact .inr (Function.update_self ..)
          · exact .inl (Function.update_of_ne hk ..)
        · rw [h]
          by_cases hk : i = k
          · subst hk
            exact .inr (by rw [Function.update_self])
          · exact .inr (by rw [Function.update_of_ne hk])
      · split
        · exact .inl rfl
        · exact ih c

end Scan

section Slot

variable {c : Cache} {slots : List (Fin 16)} {slot : Fin 16} {oldest : Nat}

-- Either a slot that is free, or one whose deadline no slot searched so far undercuts.
theorem pickSlot_spec (hslot : ∀ i ∈ slots, (c i).valid = true →
      (c i).ttlDeadlineMs ≤ 0xFFFFFFFF)
    (hold : oldest ≤ 0xFFFFFFFF) :
    (c (pickSlot c slots slot oldest)).valid = false ∨
      (∀ i ∈ slots, (c i).valid = true) ∧
        (pickSlot c slots slot oldest = slot ∧ (∀ i ∈ slots, oldest ≤ (c i).ttlDeadlineMs) ∨
          pickSlot c slots slot oldest ∈ slots ∧
            (c (pickSlot c slots slot oldest)).ttlDeadlineMs < oldest ∧
            ∀ i ∈ slots, (c (pickSlot c slots slot oldest)).ttlDeadlineMs ≤
              (c i).ttlDeadlineMs) := by
  induction slots generalizing slot oldest with
  | nil => exact .inr ⟨fun i hi => absurd hi List.not_mem_nil,
      .inl ⟨rfl, fun i hi => absurd hi List.not_mem_nil⟩⟩
  | cons k slots ih =>
    have hrest : ∀ i ∈ slots, (c i).valid = true → (c i).ttlDeadlineMs ≤ 0xFFFFFFFF :=
      fun i hi => hslot i (List.mem_cons_of_mem k hi)
    rw [pickSlot]
    split
    · next hv =>
      rw [Bool.not_eq_true'] at hv
      exact .inl hv
    · next hv =>
      rw [Bool.not_eq_true', Bool.not_eq_false] at hv
      split
      · next hlt =>
        have hk := hslot k List.mem_cons_self hv
        refine (ih hrest hk).imp_right ?_
        rintro ⟨hall, hpick⟩
        refine ⟨List.forall_mem_cons.mpr ⟨hv, hall⟩, .inr ?_⟩
        rcases hpick with ⟨he, hle⟩ | ⟨hmem, hlt', hle⟩
        · rw [he]
          exact ⟨List.mem_cons_self, hlt, List.forall_mem_cons.mpr ⟨le_rfl, hle⟩⟩
        · exact ⟨List.mem_cons_of_mem k hmem, hlt'.trans hlt,
            List.forall_mem_cons.mpr ⟨hlt'.le, hle⟩⟩
      · next hlt =>
        refine (ih hrest hold).imp_right ?_
        rintro ⟨hall, hpick⟩
        refine ⟨List.forall_mem_cons.mpr ⟨hv, hall⟩, ?_⟩
        rcases hpick with ⟨he, hle⟩ | ⟨hmem, hlt', hle⟩
        · exact .inl ⟨he, List.forall_mem_cons.mpr ⟨Nat.le_of_not_lt hlt, hle⟩⟩
        · exact .inr ⟨List.mem_cons_of_mem k hmem, hlt',
            List.forall_mem_cons.mpr ⟨hlt'.le.trans (Nat.le_of_not_lt hlt), hle⟩⟩

theorem pickSlot_least (hb : ∀ i, (c i).valid = true → (c i).ttlDeadlineMs ≤ 0xFFFFFFFF) :
    (c (pickSlot c (List.finRange 16) 0 0xFFFFFFFF)).valid = false ∨
      (∀ i, (c i).valid = true) ∧
        ∀ i, (c (pickSlot c (List.finRange 16) 0 0xFFFFFFFF)).ttlDeadlineMs ≤
          (c i).ttlDeadlineMs := by
  refine (pickSlot_spec (fun i _ => hb i) le_rfl).imp_right ?_
  rintro ⟨hall, hpick⟩
  have hall' : ∀ i, (c i).valid = true := fun i => hall i (List.mem_finRange i)
  refine ⟨hall', fun i => ?_⟩
  rcases hpick with ⟨he, hle⟩ | ⟨-, -, hle⟩
  · rw [he]
    exact (hb 0 (hall' 0)).trans (hle i (List.mem_finRange i))
  · exact hle i (List.mem_finRange i)

end Slot

-- What a call puts into the cache, if it does.
def stored (w : Surroundings) (hostname : List UInt8) (s : Resolver) : Option Nat :=
  if hostname ≠ [] ∧ looksLikeIp hostname = false ∧
      (cacheLookup w.lookupMs hostname s.cache).1 = none ∧ (dnsResolve w hostname s).1 ≠ 0 then
    some (dnsResolve w hostname s).1
  else none

section Resolve

variable {w : Surroundings} {hostname : List UInt8} {s : Resolver} {ip : Nat}

theorem dnsResolve_hit (hne : hostname ≠ []) (hlit : looksLikeIp hostname = false)
    (hip : (cacheLookup w.lookupMs hostname s.cache).1.map (fun i =>
      ((cacheLookup w.lookupMs hostname s.cache).2 i).ip) = some ip) :
    (dnsResolve w hostname s).1 = ip := by
  obtain ⟨i, hi, rfl⟩ := Option.map_eq_some_iff.mp hip
  unfold dnsResolve
  rw [if_neg hne, hlit]
  simp only [Bool.false_eq_true, if_false, hi]

theorem dnsResolve_cache (w : Surroundings) (hostname : List UInt8) (s : Resolver) :
    (stored w hostname s = none ∧
      ((dnsResolve w hostname s).2.cache = s.cache ∨
        (dnsResolve w hostname s).2.cache = (cacheLookup w.lookupMs hostname s.cache).2)) ∨
    ∃ ip, stored w hostname s = some ip ∧ hostname ≠ [] ∧ looksLikeIp hostname = false ∧
      (cacheLookup w.lookupMs hostname s.cache).1 = none ∧
      (dnsResolve w hostname s).2.cache =
        cacheStore w.storeMs hostname ip 60 (cacheLookup w.lookupMs hostname s.cache).2 := by
  by_cases hne : hostname = []
  · refine .inl ⟨if_neg fun h => h.1 hne, .inl ?_⟩
    unfold dnsResolve
    rw [if_pos hne]
  by_cases hlit : looksLikeIp hostname = true
  · refine .inl ⟨if_neg fun h => Bool.noConfusion (hlit.symm.trans h.2.1), .inl ?_⟩
    unfold dnsResolve
    rw [if_neg hne, if_pos hlit]
  rw [Bool.not_eq_true] at hlit
  cases hfound : (cacheLookup w.lookupMs hostname s.cache).1 with
  | some i =>
    refine .inl ⟨if_neg fun h => by simp [hfound] at h, .inr ?_⟩
    unfold dnsResolve
    rw [if_neg hne, hlit]
    simp only [Bool.false_eq_true, if_false, hfound]
  | none =>
    have hcase : (dnsResolve w hostname s).1 = 0 ∧
          (dnsResolve w hostname s).2.cache = (cacheLookup w.lookupMs hostname s.cache).2 ∨
        (dnsResolve w hostname s).1 ≠ 0 ∧ (dnsResolve w hostname s).2.cache =
          cacheStore w.storeMs hostname (dnsResolve w hostname s).1 60
            (cacheLookup w.lookupMs hostname s.cache).2 := by
      unfold dnsResolve
      rw [if_neg hne, hlit]
      simp only [Bool.false_eq_true, if_false, hfound]
      split
      · exact .inl ⟨rfl, rfl⟩
      · have hkept := attempts_sent w s.nextId (queryBytes s.nextId hostname)
          (List.range dnsMaxRetries)
          { s with
            cache := (cacheLookup w.lookupMs hostname s.cache).2
            nextId := u16 (s.nextId + 1) }
        split
        · exact .inl ⟨rfl, hkept.1⟩
        · next hz =>
          refine .inr ⟨hz, ?_⟩
          change cacheStore _ _ _ _ _ = _
          rw [hkept.1]
    rcases hcase with ⟨hz, hc⟩ | ⟨hz, hc⟩
    · exact .inl ⟨if_neg fun h => h.2.2.2 hz, .inr hc⟩
    · exact .inr ⟨_, if_pos ⟨hne, hlit, hfound, hz⟩, hne, hlit, rfl, hc⟩

end Resolve

-- kept gives the address last stored for a name and the time of the store, unless the entry has
-- been evicted or flushed since. now is the latest clock value.
structure Serving where
  resolver : Resolver
  now : Nat
  kept : List UInt8 → Option (Nat × Nat)

inductive Call where
  | resolve (w : Surroundings) (hostname : List UInt8)
  | flush

-- An entry for the name that had not expired has given way to another name.
def evicted (t : Nat) (c c' : Cache) (name : List UInt8) : Prop :=
  ∃ i, Unexpired t (c i) ∧ (c i).name = name ∧ (c' i).name ≠ name

instance (t : Nat) (c c' : Cache) (name : List UInt8) : Decidable (evicted t c c' name) :=
  inferInstanceAs (Decidable (∃ _, _))

def afterResolve (s : Serving) (w : Surroundings) (hostname : List UInt8) : Serving where
  resolver := (dnsResolve w hostname s.resolver).2
  now := w.storeMs
  kept := match stored w hostname s.resolver with
    | none => s.kept
    | some ip => fun name =>
      if name = hostname then some (ip, w.storeMs)
      else if evicted w.storeMs s.resolver.cache (dnsResolve w hostname s.resolver).2.cache name
        then none
      else s.kept name

def lifetimeMs : Nat := 60000

-- The clock does not go back, and neither it nor a deadline reckoned from it wraps around.
structure Allowed (s : Serving) (w : Surroundings) (hostname : List UInt8) : Prop where
  length : hostname.length ≤ dnsMaxName
  started : s.now ≤ w.lookupMs
  ended : w.lookupMs ≤ w.storeMs
  noWrap : w.storeMs + lifetimeMs < 4294967296

def serving : System Serving Call where
  init s := (∀ i, (s.resolver.cache i).valid = false) ∧ s.kept = fun _ => none
  step s a s' :=
    match a with
    | .resolve w hostname => Allowed s w hostname ∧ s' = afterResolve s w hostname
    | .flush => s' = { s with resolver := dnsCacheFlush s.resolver, kept := fun _ => none }

-- The address of an entry that is less than its lifetime old.
def inLifetime (t : Nat) (e : Option (Nat × Nat)) : Option Nat :=
  (e.filter fun e => t < e.2 + lifetimeMs).map Prod.fst

structure CacheLaw (s : Serving) : Prop where
  unique : ∀ t, s.now ≤ t → ∀ i j, Unexpired t (s.resolver.cache i) →
    Unexpired t (s.resolver.cache j) → (s.resolver.cache i).name = (s.resolver.cache j).name → i = j
  answers : ∀ t, s.now ≤ t → ∀ name, (cacheLookup t name s.resolver.cache).1.map (fun i =>
    ((cacheLookup t name s.resolver.cache).2 i).ip) = inLifetime t (s.kept name)
  resolves : ∀ w hostname ip, hostname ≠ [] → looksLikeIp hostname = false → s.now ≤ w.lookupMs →
    inLifetime w.lookupMs (s.kept hostname) = some ip → (dnsResolve w hostname s.resolver).1 = ip
  evicts : ∀ w hostname, Allowed s w hostname → ∀ i, Unexpired w.storeMs (s.resolver.cache i) →
    (dnsResolve w hostname s.resolver).2.cache i ≠ s.resolver.cache i →
      (∀ j, Unexpired w.storeMs (s.resolver.cache j)) ∧
        ∀ j, (s.resolver.cache i).ttlDeadlineMs ≤ (s.resolver.cache j).ttlDeadlineMs

-- The entries that count now are those that are kept, each with the deadline its store set.
structure Tracks (s : Serving) : Prop where
  distinct : Distinct (live s.now s.resolver.cache)
  kept : ∀ name, lookup (live s.now s.resolver.cache) name =
    ((s.kept name).map fun e => (e.1, e.2 + lifetimeMs)).filter fun v => s.now < v.2
  bounded : ∀ i, (s.resolver.cache i).valid = true →
    (s.resolver.cache i).ttlDeadlineMs ≤ 0xFFFFFFFF

section Runs

variable {s : Serving} {w : Surroundings} {hostname name : List UInt8} {t ip : Nat} {c : Cache}

theorem Tracks.later (h : Tracks s) (ht : s.now ≤ t) (name : List UInt8) :
    lookup (live t s.resolver.cache) name =
      ((s.kept name).map fun e => (e.1, e.2 + lifetimeMs)).filter fun v => t < v.2 := by
  rw [lookup_later h.distinct ht, h.kept, Option.filter_filter]
  congr 1
  funext v
  by_cases hv : t < v.2
  · simp [hv, ht.trans_lt hv]
  · simp [hv]

theorem Tracks.answers (h : Tracks s) (ht : s.now ≤ t) (name : List UInt8) :
    (cacheLookup t name s.resolver.cache).1.map (fun i =>
      ((cacheLookup t name s.resolver.cache).2 i).ip) = inLifetime t (s.kept name) := by
  rw [cacheLookup_found, h.later ht, inLifetime]
  cases s.kept name with
  | none => rfl
  | some e =>
    simp only [Option.map_some, Option.filter_some]
    split
    · rfl
    · rfl

theorem bounded_lookup (t : Nat) (name : List UInt8)
    (hb : ∀ i, (c i).valid = true → (c i).ttlDeadlineMs ≤ 0xFFFFFFFF)
    (i : Fin 16) (hv : ((cacheLookup t name c).2 i).valid = true) :
    ((cacheLookup t name c).2 i).ttlDeadlineMs ≤ 0xFFFFFFFF := by
  rcases cacheScan_entry t name (List.finRange 16) c i with h | h
  · rw [cacheLookup, h] at hv ⊢
    exact hb i hv
  · rw [cacheLookup, h] at hv
    exact Bool.noConfusion hv

-- A store replaces one slot, which is free or has the earliest deadline of a full table.
theorem cacheStore_slot (ip : Nat) (hb : ∀ i, (c i).valid = true → (c i).ttlDeadlineMs ≤ 0xFFFFFFFF)
    (hlen : hostname.length ≤ dnsMaxName) (hw : t + lifetimeMs < 4294967296) : ∃ k,
      cacheStore t hostname ip 60 c = Function.update c k
        { name := hostname
          ip := ip
          ttlDeadlineMs := t + lifetimeMs
          valid := true } ∧
      live t (cacheStore t hostname ip 60 c) =
        Function.update (live t c) k (some (hostname, ip, t + lifetimeMs)) ∧
      ((c k).valid = false ∨ (∀ i, (c i).valid = true) ∧
        ∀ i, (c k).ttlDeadlineMs ≤ (c i).ttlDeadlineMs) := by
  have hstore : cacheStore t hostname ip 60 c =
      Function.update c (pickSlot c (List.finRange 16) 0 0xFFFFFFFF)
        { name := hostname
          ip := ip
          ttlDeadlineMs := t + lifetimeMs
          valid := true } := by
    have hms : u32 (60 * 1000) = lifetimeMs := by decide
    simp only [cacheStore, Nat.reduceLT, if_false, hms, u32_of_lt hw, List.take_of_length_le hlen]
  refine ⟨_, hstore, ?_, pickSlot_least hb⟩
  funext i
  rw [hstore]
  by_cases hi : i = pickSlot c (List.finRange 16) 0 0xFFFFFFFF
  · subst hi
    have hpos : t < t + lifetimeMs := Nat.lt_add_of_pos_right (by decide)
    rw [Function.update_self, live_some, Function.update_self]
    exact ⟨⟨rfl, hpos⟩, rfl, rfl, rfl⟩
  · simp only [live, Function.update_of_ne hi]

theorem cacheLookup_name (i : Fin 16) : ((cacheLookup t name c).2 i).name = (c i).name := by
  rcases cacheScan_entry t name (List.finRange 16) c i with h | h
  · rw [cacheLookup, h]
  · rw [cacheLookup, h]

-- Just the name in the slot that is taken is evicted.
theorem evicted_iff {c' : Cache} {k : Fin 16} {e : DnsCacheEntry}
    (hc' : c' = Function.update (cacheLookup t hostname c).2 k e) (he : e.name = hostname)
    (hne : name ≠ hostname) (now : Nat) :
    evicted now c c' name ↔ (live now c k).map Prod.fst = some name := by
  constructor
  · rintro ⟨i, hi, hname, hother⟩
    obtain rfl : i = k := by
      by_contra hik
      rw [hc', Function.update_of_ne hik, cacheLookup_name] at hother
      exact hother hname
    rw [live_some.mpr ⟨hi, hname, rfl, rfl⟩]
    rfl
  · intro h
    obtain ⟨⟨x, ip, deadline⟩, hx, rfl⟩ := Option.map_eq_some_iff.mp h
    obtain ⟨hi, hname, -, -⟩ := live_some.mp hx
    refine ⟨k, hi, hname, ?_⟩
    rw [hc', Function.update_self, he]
    exact hne.symm

theorem Tracks.unstored (h : Tracks s) (ha : Allowed s w hostname)
    (hc : (dnsResolve w hostname s.resolver).2.cache = s.resolver.cache ∨
      (dnsResolve w hostname s.resolver).2.cache =
        (cacheLookup w.lookupMs hostname s.resolver.cache).2) :
    Tracks ⟨(dnsResolve w hostname s.resolver).2, w.storeMs, s.kept⟩ := by
  have ht : s.now ≤ w.storeMs := ha.started.trans ha.ended
  have hlive : live w.storeMs (dnsResolve w hostname s.resolver).2.cache =
      live w.storeMs s.resolver.cache := by
    rcases hc with hc | hc
    · rw [hc]
    · rw [hc, cacheLookup_live _ _ ha.ended]
  refine ⟨?_, fun name => ?_, fun i hv => ?_⟩
  · rw [hlive]
    exact Distinct.later h.distinct ht
  · change lookup (live w.storeMs _) name = _
    rw [hlive]
    exact h.later ht name
  · rcases hc with hc | hc
    · rw [hc] at hv ⊢
      exact h.bounded i hv
    · rw [hc] at hv ⊢
      exact bounded_lookup _ _ h.bounded i hv

theorem missed_live (ha : Allowed s w hostname)
    (hmiss : (cacheLookup w.lookupMs hostname s.resolver.cache).1 = none) :
    ∀ j v, live w.storeMs (cacheLookup w.lookupMs hostname s.resolver.cache).2 j ≠
      some (hostname, v) := by
  have hnone : lookup (live w.lookupMs s.resolver.cache) hostname = none := by
    have hfound := cacheLookup_found w.lookupMs hostname s.resolver.cache
    rw [hmiss] at hfound
    exact Option.map_eq_none_iff.mp hfound.symm
  intro j v hj
  rw [cacheLookup_live _ _ ha.ended] at hj
  exact lookup_none.mp hnone j v (live_later ha.ended hj)

theorem Tracks.stored (h : Tracks s) (ha : Allowed s w hostname)
    (hmiss : (cacheLookup w.lookupMs hostname s.resolver.cache).1 = none)
    (hc : (dnsResolve w hostname s.resolver).2.cache = cacheStore w.storeMs hostname ip 60
      (cacheLookup w.lookupMs hostname s.resolver.cache).2) :
    Tracks ⟨(dnsResolve w hostname s.resolver).2, w.storeMs, fun name =>
      if name = hostname then some (ip, w.storeMs)
      else if evicted w.storeMs s.resolver.cache (dnsResolve w hostname s.resolver).2.cache name
        then none
      else s.kept name⟩ := by
  have ht : s.now ≤ w.storeMs := ha.started.trans ha.ended
  have hlive := cacheLookup_live hostname s.resolver.cache ha.ended
  have hno := missed_live ha hmiss
  obtain ⟨k, hput, hlive', -⟩ := cacheStore_slot ip
    (bounded_lookup w.lookupMs hostname h.bounded) ha.length ha.noWrap
  have hd : Distinct (live w.storeMs (cacheLookup w.lookupMs hostname s.resolver.cache).2) := by
    rw [hlive]
    exact Distinct.later h.distinct ht
  refine ⟨?_, fun name => ?_, fun i hv => ?_⟩
  · change Distinct (live w.storeMs _)
    rw [hc, hlive']
    exact hd.put (fun j _ v => hno j v) _
  · change lookup (live w.storeMs (dnsResolve w hostname s.resolver).2.cache) name =
      Option.filter (fun v => w.storeMs < v.2) (Option.map (fun e => (e.1, e.2 + lifetimeMs))
        (if name = hostname then some (ip, w.storeMs)
          else if evicted w.storeMs s.resolver.cache (dnsResolve w hostname s.resolver).2.cache name
            then none else s.kept name))
    have hpos : w.storeMs < w.storeMs + lifetimeMs := Nat.lt_add_of_pos_right (by decide)
    by_cases hname : name = hostname
    · rw [hc, hlive', hname, lookup_put_self hd fun j _ v => hno j v, if_pos rfl, Option.map_some,
        Option.filter_some, if_pos (decide_eq_true hpos)]
    · rw [if_neg hname]
      have hev := evicted_iff (hc.trans hput) rfl hname w.storeMs
      rw [hc, hlive', lookup_put_other hd (fun j _ v => hno j v) hname]
      rw [hc] at hev
      by_cases hgone : (live w.storeMs s.resolver.cache k).map Prod.fst = some name
      · rw [if_pos (hev.mpr hgone), hlive, if_pos hgone]
        rfl
      · rw [if_neg (fun he => hgone (hev.mp he)), hlive, if_neg hgone]
        exact h.later ht name
  · change ((dnsResolve w hostname s.resolver).2.cache i).valid = true at hv
    change ((dnsResolve w hostname s.resolver).2.cache i).ttlDeadlineMs ≤ 0xFFFFFFFF
    rw [hc, hput] at hv ⊢
    by_cases hi : i = k
    · rw [hi, Function.update_self]
      exact Nat.le_of_lt_succ ha.noWrap
    · rw [Function.update_of_ne hi] at hv ⊢
      exact bounded_lookup _ _ h.bounded i hv

theorem Tracks.resolve (h : Tracks s) (ha : Allowed s w hostname) :
    Tracks (afterResolve s w hostname) := by
  unfold afterResolve
  rcases dnsResolve_cache w hostname s.resolver with
    ⟨hnone, hc⟩ | ⟨ip, hsome, -, -, hmiss, hc⟩
  · rw [hnone]
    exact h.unstored ha hc
  · rw [hsome]
    exact h.stored ha hmiss hc

theorem tracks_empty (hempty : ∀ i, (s.resolver.cache i).valid = false)
    (hkept : s.kept = fun _ => none) : Tracks s := by
  have hlive : ∀ i, live s.now s.resolver.cache i = none := fun i =>
    live_none.mpr fun h => Bool.noConfusion ((hempty i).symm.trans h.1)
  refine ⟨fun i j k v u hi => ?_, fun name => ?_, fun i hv => ?_⟩
  · rw [hlive] at hi
    cases hi
  · rw [hkept]
    refine lookup_none.mpr fun i v hi => ?_
    rw [hlive] at hi
    cases hi
  · exact Bool.noConfusion ((hempty i).symm.trans hv)

def tracksInvariant : serving.Invariant where
  holds := Tracks
  start h := tracks_empty h.1 h.2
  step := by
    rintro s a s' h ht
    cases a with
    | resolve w hostname =>
      obtain ⟨ha, rfl⟩ := ht
      exact h.resolve ha
    | flush =>
      obtain rfl := ht
      exact tracks_empty (fun _ => rfl) rfl

-- An entry gives way before its time only where the table is full of such, and then the first to
-- run out.
theorem Tracks.evicts (h : Tracks s) (ha : Allowed s w hostname) {i : Fin 16}
    (hi : Unexpired w.storeMs (s.resolver.cache i))
    (hne : (dnsResolve w hostname s.resolver).2.cache i ≠ s.resolver.cache i) :
    (∀ j, Unexpired w.storeMs (s.resolver.cache j)) ∧
      ∀ j, (s.resolver.cache i).ttlDeadlineMs ≤ (s.resolver.cache j).ttlDeadlineMs := by
  have hsame : ∀ j, ((cacheLookup w.lookupMs hostname s.resolver.cache).2 j).valid = true →
      (cacheLookup w.lookupMs hostname s.resolver.cache).2 j = s.resolver.cache j := fun j hv =>
    cacheScan_kept _ _ _ _ _ hv
  have hlive := cacheLookup_live hostname s.resolver.cache ha.ended
  have hkept : (cacheLookup w.lookupMs hostname s.resolver.cache).2 i = s.resolver.cache i := by
    have hsome := live_some.mpr ⟨hi, rfl, rfl, rfl⟩
    rw [← hlive] at hsome
    exact hsame i (live_some.mp hsome).1.1
  rcases dnsResolve_cache w hostname s.resolver with
    ⟨-, hc | hc⟩ | ⟨ip, -, -, -, -, hc⟩
  · rw [hc] at hne
    exact absurd rfl hne
  · rw [hc] at hne
    exact absurd hkept hne
  · obtain ⟨k, hput, -, hk⟩ := cacheStore_slot ip
      (bounded_lookup w.lookupMs hostname h.bounded) ha.length ha.noWrap
    obtain rfl : i = k := by
      by_contra hik
      rw [hc, hput, Function.update_of_ne hik] at hne
      exact hne hkept
    rcases hk with hfree | ⟨hall, hleast⟩
    · rw [hkept, hi.1] at hfree
      cases hfree
    · have hle : ∀ j, (s.resolver.cache i).ttlDeadlineMs ≤ (s.resolver.cache j).ttlDeadlineMs := by
        intro j
        have hj := hleast j
        rwa [hkept, hsame j (hall j)] at hj
      refine ⟨fun j => ⟨?_, hi.2.trans_le (hle j)⟩, hle⟩
      rw [← hsame j (hall j)]
      exact hall j

def coldServing : Serving where
  resolver := coldResolver
  now := 0
  kept := fun _ => none

end Runs

end Dns
