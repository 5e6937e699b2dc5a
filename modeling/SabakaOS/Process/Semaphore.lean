import Mathlib.Algebra.Group.Nat.Defs
import Mathlib.Data.Finset.Card
import Mathlib.Tactic.Common
import SabakaOS.Library.Run

namespace Semaphores

variable {ι : Type}

-- outside is a process's own code; waiting and signalling stand before cli, yielding and leaving
-- after sti, leaving on the way out of sem_wait.
inductive Pc where
  | outside
  | waiting
  | yielding
  | leaving
  | signalling
  deriving DecidableEq

-- signals, taken and returned are records that no process reads: the signals that found count
-- below max, the waits that have reached their return statement, and those that are back in their
-- caller.
structure Semaphore (ι : Type) where
  count : Int32
  max : UInt32
  pc : ι → Pc
  signals : Nat
  taken : Nat
  returned : Nat

def semInit (initial : Int32) (max : UInt32) : Semaphore ι where
  count := initial
  max := max
  pc := fun _ => .outside
  signals := 0
  taken := 0
  returned := 0

def semValue (s : Semaphore ι) : Int32 := s.count

section Steps

variable [DecidableEq ι]

def goto (s : Semaphore ι) (p : ι) (c : Pc) : Semaphore ι :=
  { s with pc := Function.update s.pc p c }

-- From cli to sti in sem_wait.
def semWait (s : Semaphore ι) (p : ι) : Semaphore ι :=
  if s.count > 0 then goto { s with count := s.count - 1, taken := s.taken + 1 } p .leaving
  else goto s p .yielding

-- From cli to sti in sem_signal.
def semSignal (s : Semaphore ι) (p : ι) : Semaphore ι :=
  if s.count.toUInt32 < s.max then
    goto { s with count := s.count + 1, signals := s.signals + 1 } p .outside
  else goto s p .outside

inductive Step (s : Semaphore ι) (p : ι) : Semaphore ι → Prop where
  | callWait : s.pc p = .outside → Step s p (goto s p .waiting)
  | wait : s.pc p = .waiting → Step s p (semWait s p)
  | yield : s.pc p = .yielding → Step s p (goto s p .waiting)
  | returnWait : s.pc p = .leaving →
    Step s p (goto { s with returned := s.returned + 1 } p .outside)
  | callSignal : s.pc p = .outside → Step s p (goto s p .signalling)
  | signal : s.pc p = .signalling → Step s p (semSignal s p)

def system (initial : Int32) (max : UInt32) : System (Semaphore ι) ι where
  init s := s = semInit initial max
  step := Step

end Steps

-- The processes on the way out of sem_wait are those whose return is not counted yet.
def Leaving (s : Semaphore ι) : Prop :=
  ∃ F : Finset ι, (∀ p, p ∈ F ↔ s.pc p = .leaving) ∧ s.taken = s.returned + F.card

structure Kept (initial : Int32) (max : UInt32) (s : Semaphore ι) : Prop where
  limit : s.max = max
  nonneg : 0 ≤ s.count.toInt
  le_max : s.count.toInt ≤ max.toNat
  count : s.count.toInt = initial.toInt + s.signals - s.taken
  leaving : Leaving s

theorem kept_init {initial : Int32} {max : UInt32} (h0 : 0 ≤ initial.toInt)
    (hle : initial.toInt ≤ max.toNat) :
    Kept initial max (semInit initial max : Semaphore ι) where
  limit := rfl
  nonneg := h0
  le_max := hle
  count := by simp [semInit]
  leaving := ⟨∅, fun p => by simp [semInit], rfl⟩

theorem toUInt32_lt {c : Int32} {m : UInt32} (h : 0 ≤ c.toInt) :
    c.toUInt32 < m ↔ c.toInt < m.toNat := by
  have hnat := Int32.toNat_toUInt32_of_le (Int32.le_iff_toInt_le.mpr h)
  rw [UInt32.lt_iff_toNat_lt, hnat, Int32.toNatClampNeg]
  omega

theorem toInt_pred {c : Int32} (h : 0 < c.toInt) : (c - 1).toInt = c.toInt - 1 := by
  have hlt := c.toInt_lt
  rw [Int32.toInt_sub]
  simp [Int.bmod_def] at *
  omega

theorem toInt_succ {c : Int32} {m : Nat} (h : 0 ≤ c.toInt) (hlt : c.toInt < m)
    (hm : m < 2 ^ 31) : (c + 1).toInt = c.toInt + 1 := by
  rw [Int32.toInt_add]
  simp [Int.bmod_def] at *
  omega

section Invariant

variable [DecidableEq ι] {initial : Int32} {max : UInt32} {s s' : Semaphore ι} {p : ι}

theorem goto_self (s : Semaphore ι) (c : Pc) : (goto s p c).pc p = c := Function.update_self ..

theorem goto_other (s : Semaphore ι) (c : Pc) {q : ι} (hq : q ≠ p) :
    (goto s p c).pc q = s.pc q := Function.update_of_ne hq ..

theorem goto_leaving_iff (s : Semaphore ι) {c : Pc} (hc : c ≠ .leaving) (q : ι) :
    (goto s p c).pc q = .leaving ↔ q ≠ p ∧ s.pc q = .leaving := by
  by_cases hq : q = p
  · rw [hq, goto_self]
    exact iff_of_false hc fun h => h.1 rfl
  · rw [goto_other s c hq]
    exact (and_iff_right hq).symm

theorem Leaving.moved (h : Leaving s) {c : Pc} (hp : s.pc p ≠ .leaving) (hc : c ≠ .leaving) :
    Leaving (goto s p c) := by
  obtain ⟨F, hF, hcard⟩ := h
  refine ⟨F, fun q => ?_, hcard⟩
  rw [goto_leaving_iff s hc, hF]
  refine ⟨fun hq => ⟨fun he => hp (he ▸ hq), hq⟩, fun hq => hq.2⟩

theorem Leaving.entered (h : Leaving s) (hp : s.pc p ≠ .leaving) (c : Int32) :
    Leaving (goto { s with count := c, taken := s.taken + 1 } p .leaving) := by
  obtain ⟨F, hF, hcard⟩ := h
  refine ⟨insert p F, fun q => ?_, ?_⟩
  · rw [Finset.mem_insert, hF]
    by_cases hq : q = p
    · rw [hq, goto_self]
      simp
    · rw [goto_other _ _ hq]
      simp [hq]
  · rw [Finset.card_insert_of_notMem (mt (hF p).mp hp)]
    change s.taken + 1 = s.returned + (F.card + 1)
    omega

theorem Leaving.left (h : Leaving s) (hp : s.pc p = .leaving) :
    Leaving (goto { s with returned := s.returned + 1 } p .outside) := by
  obtain ⟨F, hF, hcard⟩ := h
  have hmem := (hF p).mpr hp
  refine ⟨F.erase p, fun q => ?_, ?_⟩
  · rw [Finset.mem_erase, hF]
    exact (goto_leaving_iff _ (by decide) q).symm
  · have hpos := Finset.card_pos.mpr ⟨p, hmem⟩
    rw [Finset.card_erase_of_mem hmem]
    change s.taken = s.returned + 1 + (F.card - 1)
    omega

theorem Kept.moved (h : Kept initial max s) {c : Pc} (hp : s.pc p ≠ .leaving)
    (hc : c ≠ .leaving) : Kept initial max (goto s p c) :=
  ⟨h.limit, h.nonneg, h.le_max, h.count, h.leaving.moved hp hc⟩

theorem Kept.wait (h : Kept initial max s) (hp : s.pc p = .waiting) :
    Kept initial max (semWait s p) := by
  have hleaving : s.pc p ≠ .leaving := by simp [hp]
  rw [semWait]
  split_ifs with hpos
  · have hpos' : 0 < s.count.toInt := Int32.lt_iff_toInt_lt.mp hpos
    have hpred := toInt_pred hpos'
    have hle := h.le_max
    have hcount := h.count
    refine ⟨h.limit, ?_, ?_, ?_, h.leaving.entered hleaving _⟩
    · change 0 ≤ (s.count - 1).toInt
      omega
    · change (s.count - 1).toInt ≤ max.toNat
      omega
    · change (s.count - 1).toInt = initial.toInt + s.signals - (s.taken + 1 : Nat)
      omega
  · exact h.moved hleaving (by decide)

theorem Kept.signal (h : Kept initial max s) (hmax : max.toNat < 2 ^ 31)
    (hp : s.pc p = .signalling) : Kept initial max (semSignal s p) := by
  have hleaving : s.pc p ≠ .leaving := by simp [hp]
  rw [semSignal]
  split_ifs with hlt
  · rw [h.limit, toUInt32_lt h.nonneg] at hlt
    have hsucc := toInt_succ h.nonneg hlt hmax
    have hnonneg := h.nonneg
    have hcount := h.count
    obtain ⟨F, hF, hcard⟩ := h.leaving.moved (c := .outside) hleaving (by decide)
    refine ⟨h.limit, ?_, ?_, ?_, F, hF, hcard⟩
    · change 0 ≤ (s.count + 1).toInt
      omega
    · change (s.count + 1).toInt ≤ max.toNat
      omega
    · change (s.count + 1).toInt = initial.toInt + (s.signals + 1 : Nat) - s.taken
      omega
  · exact h.moved hleaving (by decide)

theorem kept_step (hmax : max.toNat < 2 ^ 31) (h : Kept initial max s) (hs : Step s p s') :
    Kept initial max s' := by
  cases hs with
  | callWait hp => exact h.moved (by simp [hp]) (by decide)
  | wait hp => exact h.wait hp
  | yield hp => exact h.moved (by simp [hp]) (by decide)
  | returnWait hp => exact ⟨h.limit, h.nonneg, h.le_max, h.count, h.leaving.left hp⟩
  | callSignal hp => exact h.moved (by simp [hp]) (by decide)
  | signal hp => exact h.signal hmax hp

def invariant (h0 : 0 ≤ initial.toInt) (hle : initial.toInt ≤ max.toNat)
    (hmax : max.toNat < 2 ^ 31) : (system initial max : System (Semaphore ι) ι).Invariant where
  holds := Kept initial max
  start hs := hs ▸ kept_init h0 hle
  step := kept_step hmax

end Invariant

end Semaphores
