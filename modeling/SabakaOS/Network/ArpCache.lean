import SabakaOS.Library.SlotTable
import SabakaOS.Network.FrameBounds

namespace Net

open SlotTable

def arpTable (s : NetState) : Table 16 Nat (List UInt8) := fun i =>
  if (s.arpCache i).valid then some ((s.arpCache i).ip, (s.arpCache i).mac) else none

def arpFull (s : NetState) : Prop := ∀ i, (s.arpCache i).valid = true

instance (s : NetState) : Decidable (arpFull s) := inferInstanceAs (Decidable (∀ _, _))

-- The calls of arp_cache_store with their addresses, latest first.
def afterStores (s : NetState) : List (Nat × List UInt8) → NetState
  | [] => s
  | c :: older => arpCacheStore (afterStores s older) c.1 c.2

-- A store for an address that is not in the full table takes the slot of another one.
def Evicts (s : NetState) (ip x : Nat) : Prop :=
  netArpLookup s ip = none ∧ arpFull s ∧ (s.arpCache 0).ip = x

instance (s : NetState) (ip x : Nat) : Decidable (Evicts s ip x) :=
  inferInstanceAs (Decidable (_ ∧ _ ∧ _))

-- The MAC address of the latest store for x, unless a later store has evicted it.
def latestMac (s : NetState) : List (Nat × List UInt8) → Nat → Option (List UInt8)
  | [], _ => none
  | c :: older, x =>
    if x = c.1 then some c.2
    else if Evicts (afterStores s older) c.1 x then none
    else latestMac s older x

section Store

variable {s : NetState} {ip x : Nat} {mac : List UInt8}

theorem arpTable_some {i : Fin 16} : arpTable s i = some (ip, mac) ↔
    (s.arpCache i).valid = true ∧ (s.arpCache i).ip = ip ∧ (s.arpCache i).mac = mac := by
  unfold arpTable
  split
  · next h => simp [h]
  · next h => simp [h]

theorem arpTable_full (h : arpFull s) (i : Fin 16) :
    arpTable s i = some ((s.arpCache i).ip, (s.arpCache i).mac) :=
  arpTable_some.mpr ⟨h i, rfl, rfl⟩

theorem netArpLookup_eq (s : NetState) (ip : Nat) : netArpLookup s ip = lookup (arpTable s) ip := by
  rw [netArpLookup, first_match, lookup]
  congr 1
  funext i
  unfold arpTable valueAt
  cases (s.arpCache i).valid with
  | false => rfl
  | true => simp

-- Where the slot that is written is: the address's own, else a free one, else the first.
theorem arpCacheStore_slot (s : NetState) (ip : Nat) (mac : List UInt8) : ∃ i,
    arpTable (arpCacheStore s ip mac) = Function.update (arpTable s) i (some (ip, mac)) ∧
      (arpCacheStore s ip mac).arpCache =
        Function.update s.arpCache i { ip := ip, mac := mac, valid := true } ∧
      ((∃ m, arpTable s i = some (ip, m)) ∨
        lookup (arpTable s) ip = none ∧ (arpTable s i = none ∨ arpFull s ∧ i = 0)) := by
  have hput : ∀ i : Fin 16, arpTable { s with
      arpCache := Function.update s.arpCache i { ip := ip, mac := mac, valid := true } } =
        Function.update (arpTable s) i (some (ip, mac)) := fun i => by
    funext j
    by_cases hj : j = i
    · subst hj
      simp [arpTable]
    · simp [arpTable, Function.update_of_ne hj]
  refine ⟨_, hput _, rfl, ?_⟩
  cases hk : (List.finRange 16).find?
      (fun i => (s.arpCache i).valid && (s.arpCache i).ip == ip) with
  | some i =>
    have hi := List.find?_some hk
    rw [Bool.and_eq_true, beq_iff_eq] at hi
    exact .inl ⟨_, arpTable_some.mpr ⟨hi.1, hi.2, rfl⟩⟩
  | none =>
    have hnone : lookup (arpTable s) ip = none := by
      rw [← netArpLookup_eq, netArpLookup, hk]
      rfl
    refine .inr ⟨hnone, ?_⟩
    cases hf : (List.finRange 16).find? (fun i => !(s.arpCache i).valid) with
    | some i =>
      have hi := List.find?_some hf
      rw [Bool.not_eq_true'] at hi
      refine .inl ?_
      simp [arpTable, hi]
    | none =>
      have hall := List.find?_eq_none.mp hf
      refine .inr ⟨fun i => ?_, rfl⟩
      simpa using hall i (List.mem_finRange i)

theorem slot_alone {i : Fin 16} (hd : Distinct (arpTable s))
    (hi : (∃ m, arpTable s i = some (ip, m)) ∨
      lookup (arpTable s) ip = none ∧ (arpTable s i = none ∨ arpFull s ∧ i = 0)) :
    ∀ j ≠ i, ∀ m, arpTable s j ≠ some (ip, m) := by
  rcases hi with ⟨m, hm⟩ | ⟨hnone, -⟩
  · exact fun j hj m' hm' => hj (hd j i ip m' m hm' hm)
  · exact fun j _ m => lookup_none.mp hnone j m

theorem arpCacheStore_distinct (hd : Distinct (arpTable s)) :
    Distinct (arpTable (arpCacheStore s ip mac)) := by
  obtain ⟨i, he, -, hi⟩ := arpCacheStore_slot s ip mac
  rw [he]
  exact hd.put (slot_alone hd hi) mac

theorem lookup_stored (hd : Distinct (arpTable s)) :
    netArpLookup (arpCacheStore s ip mac) ip = some mac := by
  obtain ⟨i, he, -, hi⟩ := arpCacheStore_slot s ip mac
  rw [netArpLookup_eq, he]
  exact lookup_put_self hd (slot_alone hd hi)

theorem lookup_other (hd : Distinct (arpTable s)) (hx : x ≠ ip) :
    netArpLookup (arpCacheStore s ip mac) x =
      if Evicts s ip x then none else netArpLookup s x := by
  obtain ⟨i, he, -, hi⟩ := arpCacheStore_slot s ip mac
  rw [netArpLookup_eq, netArpLookup_eq, he, lookup_put_other hd (slot_alone hd hi) hx]
  rcases hi with ⟨m, hm⟩ | ⟨hnone, hfree | ⟨hfull, rfl⟩⟩
  · have hno : ¬Evicts s ip x := fun h => by
      rw [Evicts, netArpLookup_eq] at h
      exact lookup_none.mp h.1 i m hm
    rw [hm, if_neg hno, if_neg]
    exact fun h => hx (Option.some.inj h).symm
  · have hno : ¬Evicts s ip x := fun h => by
      rw [arpTable_full h.2.1 i] at hfree
      cases hfree
    rw [hfree, if_neg hno]
    rfl
  · have hev : Evicts s ip x ↔ (arpTable s 0).map Prod.fst = some x := by
      rw [arpTable_full hfull, Evicts, netArpLookup_eq]
      simp [hnone, hfull]
    simp only [hev]

end Store

-- What a table that has taken these stores answers, and what the next one does to it.
structure ArpLaw (s : NetState) (calls : List (Nat × List UInt8)) : Prop where
  distinct : ∀ i j, ((afterStores s calls).arpCache i).valid = true →
    ((afterStores s calls).arpCache j).valid = true →
      ((afterStores s calls).arpCache i).ip = ((afterStores s calls).arpCache j).ip → i = j
  latest : ∀ x, netArpLookup (afterStores s calls) x = latestMac s calls x
  others : ∀ ip mac x, x ≠ ip →
    netArpLookup (arpCacheStore (afterStores s calls) ip mac) x ≠
        netArpLookup (afterStores s calls) x → Evicts (afterStores s calls) ip x
  replaced : ∀ ip mac, netArpLookup (afterStores s calls) ip = none →
    arpFull (afterStores s calls) → (arpCacheStore (afterStores s calls) ip mac).arpCache =
      Function.update (afterStores s calls).arpCache 0 { ip := ip, mac := mac, valid := true }

section Runs

variable {s : NetState}

theorem empty_distinct (hempty : ∀ i, (s.arpCache i).valid = false) : Distinct (arpTable s) := by
  intro i j k v w hi
  have := (arpTable_some.mp hi).1
  rw [hempty i] at this
  cases this

theorem afterStores_distinct (hempty : ∀ i, (s.arpCache i).valid = false)
    (calls : List (Nat × List UInt8)) : Distinct (arpTable (afterStores s calls)) := by
  induction calls with
  | nil => exact empty_distinct hempty
  | cons c older ih => exact arpCacheStore_distinct ih

theorem afterStores_latest (hempty : ∀ i, (s.arpCache i).valid = false)
    (calls : List (Nat × List UInt8)) (x : Nat) :
    netArpLookup (afterStores s calls) x = latestMac s calls x := by
  induction calls with
  | nil =>
    rw [netArpLookup_eq]
    refine lookup_none.mpr fun i v hi => ?_
    have hv := (arpTable_some.mp hi).1
    rw [afterStores, hempty i] at hv
    cases hv
  | cons c older ih =>
    have hd := afterStores_distinct hempty older
    rw [afterStores, latestMac]
    split
    · next hx => rw [hx, lookup_stored hd]
    · next hx => rw [lookup_other hd hx, ih]

theorem arp_cache_is_a_map (hempty : ∀ i, (s.arpCache i).valid = false)
    (calls : List (Nat × List UInt8)) : ArpLaw s calls := by
  have hd := afterStores_distinct hempty calls
  refine ⟨fun i j hi hj he => ?_, afterStores_latest hempty calls, fun ip mac x hx hne => ?_,
    fun ip mac hnone hfull => ?_⟩
  · exact hd i j _ _ _ (arpTable_some.mpr ⟨hi, he, rfl⟩) (arpTable_some.mpr ⟨hj, rfl, rfl⟩)
  · rw [lookup_other hd hx] at hne
    by_contra hev
    exact hne (if_neg hev)
  · obtain ⟨i, -, hcache, ⟨m, hm⟩ | ⟨-, hfree | ⟨-, rfl⟩⟩⟩ :=
      arpCacheStore_slot (afterStores s calls) ip mac
    · rw [netArpLookup_eq] at hnone
      exact absurd hm (lookup_none.mp hnone i m)
    · rw [arpTable_full hfull i] at hfree
      cases hfree
    · exact hcache

-- One address more than the table holds.
def seventeen : List (Nat × List UInt8) :=
  (List.range 17).map fun i => (i, List.replicate 6 (UInt8.ofNat i))

theorem arp_cache_seventeen : ArpLaw quietNet seventeen :=
  arp_cache_is_a_map (fun _ => rfl) seventeen

end Runs

end Net
