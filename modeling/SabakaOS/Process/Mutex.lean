import Mathlib.Logic.Function.Basic
import Mathlib.Tactic.Common
import SabakaOS.Library.Run

namespace Locks

variable {ι : Type}

def noOwner : UInt32 := 0xFFFFFFFF

inductive Acquire where
  | lock
  | trylock
  deriving DecidableEq

-- Where a process stands: outside and inside are its own code, the rest is the next access to
-- the mutex that it makes.
inductive Pc where
  | outside
  | testLocked
  | testOwner
  | exchange (call : Acquire)
  | storeOwner
  | inside
  | clearOwner
  | clearLocked
  deriving DecidableEq

-- holder is a record that no process reads: whose exchange last found the mutex free.
structure Mutex (ι : Type) where
  locked : Int
  owner : UInt32
  pc : ι → Pc
  holder : Option ι

def mutexInit : Mutex ι where
  locked := 0
  owner := noOwner
  pc := fun _ => .outside
  holder := none

def setPc [DecidableEq ι] (m : Mutex ι) (p : ι) (c : Pc) : Mutex ι := { m with pc := Function.update m.pc p c }

-- mutex_lock yields and tries again, mutex_trylock returns false.
def refused : Acquire → Pc
  | .lock => .exchange .lock
  | .trylock => .outside

-- The next access of process p; the mutex keeps the pid of the process that took it.
def access [DecidableEq ι] (pid : ι → UInt32) (m : Mutex ι) (p : ι) : Mutex ι :=
  match m.pc p with
  | .outside => m
  | .testLocked => setPc m p (if m.locked ≠ 0 then .testOwner else .exchange .lock)
  | .testOwner => setPc m p (if m.owner = pid p then .inside else .exchange .lock)
  | .exchange c =>
    if m.locked = 0 then setPc { m with locked := 1, holder := some p } p .storeOwner
    else setPc { m with locked := 1 } p (refused c)
  | .storeOwner => setPc { m with owner := pid p } p .inside
  | .inside => m
  | .clearOwner => setPc { m with owner := noOwner } p .clearLocked
  | .clearLocked => setPc { m with locked := 0, holder := none } p .outside

inductive Step [DecidableEq ι] (pid : ι → UInt32) (m : Mutex ι) (p : ι) : Mutex ι → Prop where
  | lock : m.pc p = .outside → Step pid m p (setPc m p .testLocked)
  | trylock : m.pc p = .outside → Step pid m p (setPc m p (.exchange .trylock))
  | unlock : m.pc p = .inside → Step pid m p (setPc m p .clearOwner)
  | access : Step pid m p (access pid m p)

def system [DecidableEq ι] (pid : ι → UInt32) : System (Mutex ι) ι where
  init m := m = mutexInit
  step := Step pid

-- Between the exchange or the early return that let the process in and the store that frees.
def Pc.between : Pc → Prop
  | .storeOwner | .inside | .clearOwner | .clearLocked => True
  | _ => False

structure Exclusive (pid : ι → UInt32) (m : Mutex ι) : Prop where
  one : ∀ p q, (m.pc p).between → (m.pc q).between → p = q
  early : ∀ p, m.pc p = .testOwner → m.owner = pid p → m.holder = some p

structure Kept (pid : ι → UInt32) (m : Mutex ι) : Prop where
  locked : m.locked = 0 ↔ m.holder = none
  holder : ∀ p, (m.pc p).between ↔ m.holder = some p
  owner : m.owner = noOwner ∨ ∃ p, m.owner = pid p ∧ (m.pc p = .inside ∨ m.pc p = .clearOwner)
  named : ∀ p, m.pc p = .testOwner → pid p ≠ noOwner

theorem kept_init (pid : ι → UInt32) : Kept pid mutexInit where
  locked := by simp [mutexInit]
  holder p := by simp [mutexInit, Pc.between]
  owner := Or.inl rfl
  named p h := by cases h

section Facts

variable {pid : ι → UInt32} {m : Mutex ι} {p : ι}

theorem between_of_holding (h : m.pc p = .inside ∨ m.pc p = .clearOwner) : (m.pc p).between := by
  rcases h with h | h <;> rw [h] <;> trivial

theorem Kept.no_early (h : Kept pid m) (hinj : Function.Injective pid)
    (hp : m.pc p = .testOwner) : m.owner ≠ pid p := by
  intro ho
  rcases h.owner with hn | ⟨q, hq, hin⟩
  · exact h.named p hp (ho.symm.trans hn)
  · rw [hinj (hq.symm.trans ho), hp] at hin
    simp at hin

theorem Kept.exclusive (h : Kept pid m) (hinj : Function.Injective pid) : Exclusive pid m where
  one p q hp hq := Option.some.inj (((h.holder p).mp hp).symm.trans ((h.holder q).mp hq))
  early _ hp ho := absurd ho (h.no_early hinj hp)

end Facts

section Invariant

variable [DecidableEq ι] {pid : ι → UInt32} {m m' : Mutex ι} {p : ι}

@[simp] theorem setPc_self (c : Pc) : (setPc m p c).pc p = c := Function.update_self ..

theorem setPc_other {q : ι} (h : q ≠ p) (c : Pc) : (setPc m p c).pc q = m.pc q :=
  Function.update_of_ne h ..

theorem Kept.moved (h : Kept pid m) {c : Pc} (hc : c.between ↔ (m.pc p).between)
    (hi : m.pc p = .inside ∨ m.pc p = .clearOwner → c = .inside ∨ c = .clearOwner)
    (hn : c = .testOwner → pid p ≠ noOwner) : Kept pid (setPc m p c) where
  locked := h.locked
  holder q := by
    by_cases hq : q = p
    · subst hq
      rw [setPc_self, hc]
      exact h.holder q
    · rw [setPc_other hq]
      exact h.holder q
  owner := by
    rcases h.owner with ho | ⟨q, ho, hq⟩
    · exact Or.inl ho
    · refine Or.inr ⟨q, ho, ?_⟩
      by_cases hqp : q = p
      · subst hqp
        rw [setPc_self]
        exact hi hq
      · rwa [setPc_other hqp]
  named q hq := by
    by_cases hqp : q = p
    · subst hqp
      rw [setPc_self] at hq
      exact hn hq
    · rw [setPc_other hqp] at hq
      exact h.named q hq

theorem Kept.taken (h : Kept pid m) (hl : m.locked = 0) :
    Kept pid (setPc { m with locked := 1, holder := some p } p .storeOwner) where
  locked := by simp [setPc]
  holder q := by
    have hnone := h.locked.mp hl
    by_cases hq : q = p
    · subst hq
      simp [setPc, Pc.between]
    · rw [setPc_other hq]
      have hout : ¬(m.pc q).between := by rw [h.holder q, hnone]; exact fun he => by cases he
      exact ⟨fun hb => absurd hb hout, fun he => absurd (Option.some.inj he).symm hq⟩
  owner := by
    rcases h.owner with ho | ⟨q, -, hq⟩
    · exact Or.inl ho
    · have := (h.holder q).mp (between_of_holding hq)
      rw [h.locked.mp hl] at this
      cases this
  named q hq := by
    by_cases hqp : q = p
    · subst hqp
      rw [setPc_self] at hq
      cases hq
    · rw [setPc_other hqp] at hq
      exact h.named q hq

theorem Kept.stored (h : Kept pid m) (hp : (m.pc p).between) {o : UInt32} {c : Pc}
    (hc : c.between) (ho : o = noOwner ∨ o = pid p ∧ (c = .inside ∨ c = .clearOwner))
    (hn : c ≠ .testOwner) : Kept pid (setPc { m with owner := o } p c) where
  locked := h.locked
  holder q := by
    by_cases hq : q = p
    · subst hq
      rw [setPc_self]
      exact ⟨fun _ => (h.holder q).mp hp, fun _ => hc⟩
    · rw [setPc_other hq]
      exact h.holder q
  owner := by
    rcases ho with ho | ⟨ho, hin⟩
    · exact Or.inl ho
    · exact Or.inr ⟨p, ho, by rwa [setPc_self]⟩
  named q hq := by
    by_cases hqp : q = p
    · subst hqp
      rw [setPc_self] at hq
      exact absurd hq hn
    · rw [setPc_other hqp] at hq
      exact h.named q hq

theorem Kept.freed (h : Kept pid m) (hp : m.pc p = .clearLocked) :
    Kept pid (setPc { m with locked := 0, holder := none } p .outside) where
  locked := by simp [setPc]
  holder q := by
    have hold := (h.holder p).mp (by rw [hp]; trivial)
    by_cases hq : q = p
    · subst hq
      simp [setPc, Pc.between]
    · rw [setPc_other hq]
      have hout : ¬(m.pc q).between := by
        rw [h.holder q, hold]
        exact fun he => hq (Option.some.inj he).symm
      exact ⟨fun hb => absurd hb hout, fun he => by cases he⟩
  owner := by
    rcases h.owner with ho | ⟨q, -, hq⟩
    · exact Or.inl ho
    · have hq' := (h.holder q).mp (between_of_holding hq)
      have hold := (h.holder p).mp (by rw [hp]; trivial)
      rw [Option.some.inj (hq'.symm.trans hold), hp] at hq
      simp at hq
  named q hq := by
    by_cases hqp : q = p
    · subst hqp
      rw [setPc_self] at hq
      cases hq
    · rw [setPc_other hqp] at hq
      exact h.named q hq

theorem kept_access (h : Kept pid m) (hinj : Function.Injective pid)
    (hsent : ∀ p, pid p = noOwner → ∀ q, q = p) : Kept pid (access pid m p) := by
  rw [access]
  cases hp : m.pc p with
  | outside => exact h
  | inside => exact h
  | testLocked =>
    refine h.moved ?_ ?_ ?_
    · rw [hp]
      split <;> simp [Pc.between]
    · rw [hp]
      simp
    · intro hc hpid
      -- Another process holds the mutex.
      have hl : m.locked ≠ 0 := by
        by_contra hl
        simp [hl] at hc
      obtain ⟨q, hq⟩ := Option.ne_none_iff_exists'.mp (fun hn => hl (h.locked.mpr hn))
      have hb := (h.holder q).mpr hq
      rw [hsent p hpid q, hp] at hb
      exact hb
  | testOwner =>
    dsimp only
    rw [if_neg (h.no_early hinj hp)]
    exact h.moved (by rw [hp]; simp [Pc.between]) (by rw [hp]; simp) (by simp)
  | exchange c =>
    dsimp only
    split
    · rename_i hl
      exact h.taken hl
    · rename_i hl
      have h' : Kept pid { m with locked := 1 } :=
        ⟨by simpa [hl] using h.locked, h.holder, h.owner, h.named⟩
      refine h'.moved ?_ ?_ ?_ <;> cases c <;> simp [hp, refused, Pc.between]
  | storeOwner =>
    exact h.stored (by rw [hp]; trivial) trivial (Or.inr ⟨rfl, Or.inl rfl⟩) (by simp)
  | clearOwner => exact h.stored (by rw [hp]; trivial) trivial (Or.inl rfl) (by simp)
  | clearLocked => exact h.freed hp

theorem kept_step (hinj : Function.Injective pid) (hsent : ∀ p, pid p = noOwner → ∀ q, q = p)
    (h : Kept pid m) (hs : Step pid m p m') : Kept pid m' := by
  cases hs with
  | lock hp => exact h.moved (by rw [hp]; simp [Pc.between]) (by rw [hp]; simp) (by simp)
  | trylock hp => exact h.moved (by rw [hp]; simp [Pc.between]) (by rw [hp]; simp) (by simp)
  | unlock hp => exact h.moved (by rw [hp]; simp [Pc.between]) (by simp) (by simp)
  | access => exact kept_access h hinj hsent

def invariant (hinj : Function.Injective pid) (hsent : ∀ p, pid p = noOwner → ∀ q, q = p) :
    (system pid).Invariant where
  holds := Kept pid
  start hs := hs ▸ kept_init pid
  step := kept_step hinj hsent

end Invariant

-- q takes the mutex; p, whose pid is the mark of no owner, finds it locked and returns early.
theorem both_inside [DecidableEq ι] {pid : ι → UInt32} {p q : ι} (hp : pid p = noOwner) (hne : q ≠ p) :
    ∃ m, (system pid).Reach m ∧ m.pc p = .inside ∧ m.pc q = .inside := by
  have h0 : (system pid).Reach mutexInit := .start rfl
  have h1 := h0.next (show (system pid).step _ q _ from .trylock rfl)
  have h2 := h1.next (show (system pid).step _ q _ from .access)
  have h3 := h2.next (show (system pid).step _ p _ from .lock (by
    simp [access, mutexInit, setPc, hne.symm]))
  have h4 := h3.next (show (system pid).step _ p _ from .access)
  have h5 := h4.next (show (system pid).step _ p _ from .access)
  have h6 := h5.next (show (system pid).step _ q _ from .access)
  refine ⟨_, h6, ?_, ?_⟩ <;>
    simp [access, mutexInit, setPc, hne, hne.symm, hp]

theorem mutex_exclusive [DecidableEq ι] (pid : ι → UInt32) (hinj : Function.Injective pid) :
    (∀ m, (system pid).Reach m → Exclusive pid m) ↔ ∀ p, pid p = noOwner → ∀ q, q = p := by
  constructor
  · intro h p hp q
    by_contra hne
    obtain ⟨m, hr, hpi, hqi⟩ := both_inside hp hne
    exact hne ((h m hr).one q p (by rw [hqi]; trivial) (by rw [hpi]; trivial))
  · intro hsent m hr
    exact ((invariant hinj hsent).reach hr).exclusive hinj

def twoPids (b : Bool) : UInt32 := if b then 2 else 1

theorem mutex_exclusive_two : (∀ m, (system twoPids).Reach m → Exclusive twoPids m) ↔
    ∀ p, twoPids p = noOwner → ∀ q, q = p :=
  mutex_exclusive twoPids (by unfold Function.Injective; decide)

def lastPids (b : Bool) : UInt32 := if b then noOwner else 1

theorem mutex_exclusive_fails : ¬∀ (ι : Type) (_ : DecidableEq ι) (pid : ι → UInt32),
    Function.Injective pid → ∀ m, (system pid).Reach m → Exclusive pid m := by
  intro h
  obtain ⟨m, hr, hp, hq⟩ := @both_inside Bool _ lastPids true false rfl (by decide)
  have he := (h Bool _ lastPids (by unfold Function.Injective; decide) m hr).one true false (by rw [hp]; trivial)
    (by rw [hq]; trivial)
  cases he

end Locks
