import SabakaOS.Process.Mutex

namespace Locks

variable {ι : Type}

-- depth is a record that no process reads: the calls of mutex_lock that have returned, less those
-- of mutex_unlock.
structure Nesting (ι : Type) where
  mutex : Mutex ι
  depth : ι → Nat

inductive Act where
  | lock
  | unlock
  | access
  deriving DecidableEq

def Pc.ownCode (c : Pc) : Prop := c = .outside ∨ c = .inside

-- The access that ends a call counts it.
def counted (before after : Pc) (d : Nat) : Nat :=
  match before with
  | .testOwner | .storeOwner => if after = .inside then d + 1 else d
  | .clearLocked => d - 1
  | _ => d

section Steps

variable [DecidableEq ι]

def Nesting.call (s : Nesting ι) (p : ι) (c : Pc) : Nesting ι where
  mutex := setPc s.mutex p c
  depth := s.depth

def Nesting.access (pid : ι → UInt32) (s : Nesting ι) (p : ι) : Nesting ι :=
  let mutex := Locks.access pid s.mutex p
  { mutex := mutex
    depth := Function.update s.depth p (counted (s.mutex.pc p) (mutex.pc p) (s.depth p)) }

-- Lock calls may be made inside others; an unlock matches a lock that has returned.
inductive NestedStep (pid : ι → UInt32) (s : Nesting ι) : ι × Act → Nesting ι → Prop where
  | lock {p : ι} : (s.mutex.pc p).ownCode → NestedStep pid s (p, .lock) (s.call p .testLocked)
  | unlock {p : ι} : (s.mutex.pc p).ownCode → 0 < s.depth p →
    NestedStep pid s (p, .unlock) (s.call p .clearOwner)
  | access {p : ι} : NestedStep pid s (p, .access) (s.access pid p)

def nested (pid : ι → UInt32) : System (Nesting ι) (ι × Act) where
  init s := s = ⟨mutexInit, fun _ => 0⟩
  step := NestedStep pid

end Steps

-- From the return of the outermost mutex_lock to the call of the matching mutex_unlock.
def Nesting.inSection (s : Nesting ι) (p : ι) : Prop :=
  0 < s.depth p ∧
    ¬(s.depth p = 1 ∧ (s.mutex.pc p = .clearOwner ∨ s.mutex.pc p = .clearLocked))

def HeldThrough (pid : ι → UInt32) (s : Nesting ι) : Prop :=
  ∀ p, s.inSection p → s.mutex.locked = 1 ∧ s.mutex.owner = pid p

def OutermostUnlock (s : Nesting ι) (a : ι × Act) : Prop := a.2 = .unlock → s.depth a.1 = 1

-- What the depth says of the place where a process stands.
def Fits (u : UInt32) (d : Nat) : Pc → Prop
  | .outside | .storeOwner | .exchange .lock => d = 0
  | .exchange .trylock => False
  | .testLocked => True
  | .testOwner => d = 0 → u ≠ noOwner
  | .inside => 0 < d
  | .clearOwner | .clearLocked => d = 1

structure NestedKept (pid : ι → UInt32) (s : Nesting ι) : Prop where
  locked : s.mutex.locked = if s.mutex.holder = none then 0 else 1
  holder : ∀ p, s.mutex.holder = some p ↔ 0 < s.depth p ∨ s.mutex.pc p = .storeOwner
  owned : ∀ p, 0 < s.depth p → s.mutex.pc p ≠ .clearLocked → s.mutex.owner = pid p
  owner : s.mutex.owner = noOwner ∨
    ∃ p, 0 < s.depth p ∧ s.mutex.pc p ≠ .clearLocked ∧ s.mutex.owner = pid p
  fits : ∀ p, Fits (pid p) (s.depth p) (s.mutex.pc p)

section Facts

variable {pid : ι → UInt32} {s : Nesting ι} {p q : ι}

theorem nestedKept_init (pid : ι → UInt32) : NestedKept pid ⟨mutexInit, fun _ => 0⟩ where
  locked := rfl
  holder p := by simp [mutexInit]
  owned p hp := absurd hp (Nat.lt_irrefl 0)
  owner := Or.inl rfl
  fits p := rfl

theorem NestedKept.alone (h : NestedKept pid s) (hp : 0 < s.depth p ∨ s.mutex.pc p = .storeOwner)
    (hq : 0 < s.depth q ∨ s.mutex.pc q = .storeOwner) : q = p :=
  Option.some.inj (((h.holder q).mpr hq).symm.trans ((h.holder p).mpr hp))

theorem NestedKept.free (h : NestedKept pid s) (hl : s.mutex.locked = 0) :
    (∀ p, ¬(0 < s.depth p ∨ s.mutex.pc p = .storeOwner)) ∧ s.mutex.owner = noOwner := by
  have hnone : s.mutex.holder = none := by
    by_contra hne
    rw [h.locked, if_neg hne] at hl
    exact absurd hl (by decide)
  have hout (p : ι) : ¬(0 < s.depth p ∨ s.mutex.pc p = .storeOwner) := fun hp => by
    have hholder := (h.holder p).mpr hp
    rw [hnone] at hholder
    cases hholder
  refine ⟨hout, ?_⟩
  rcases h.owner with ho | ⟨p, hp, -⟩
  · exact ho
  · exact absurd (Or.inl hp) (hout p)

theorem NestedKept.busy (h : NestedKept pid s) (hl : s.mutex.locked ≠ 0) :
    s.mutex.locked = 1 ∧ ∃ p, 0 < s.depth p ∨ s.mutex.pc p = .storeOwner := by
  have hne : s.mutex.holder ≠ none := fun hn => hl (h.locked.trans (if_pos hn))
  obtain ⟨p, hp⟩ := Option.ne_none_iff_exists'.mp hne
  exact ⟨h.locked.trans (if_neg hne), p, (h.holder p).mp hp⟩

theorem NestedKept.held (h : NestedKept pid s) : HeldThrough pid s := by
  intro p ⟨hd, hout⟩
  have hholder := (h.holder p).mpr (Or.inl hd)
  have hpc : s.mutex.pc p ≠ .clearLocked := fun hc => by
    have hone := h.fits p
    rw [hc] at hone
    exact hout ⟨hone, Or.inr hc⟩
  refine ⟨?_, h.owned p hd hpc⟩
  rw [h.locked, hholder]
  rfl

theorem NestedKept.no_early (h : NestedKept pid s) (hinj : Function.Injective pid)
    (hp : s.mutex.pc p = .testOwner) (hd : s.depth p = 0) : s.mutex.owner ≠ pid p := by
  intro ho
  rcases h.owner with hn | ⟨q, hq, -, hoq⟩
  · have hnamed := h.fits p
    rw [hp] at hnamed
    exact hnamed hd (ho.symm.trans hn)
  · rw [hinj (hoq.symm.trans ho)] at hq
    omega

end Facts

section Invariant

variable [DecidableEq ι] {pid : ι → UInt32} {s s' : Nesting ι} {p : ι}

def Nesting.put (s : Nesting ι) (m : Mutex ι) (p : ι) (c : Pc) (d : Nat) : Nesting ι where
  mutex := setPc m p c
  depth := Function.update s.depth p d

theorem call_put (c : Pc) : s.call p c = s.put s.mutex p c (s.depth p) := by
  rw [Nesting.put, Function.update_eq_self]
  rfl

theorem access_put {b c : Pc} (hp : s.mutex.pc p = b) (m : Mutex ι)
    (h : access pid s.mutex p = setPc m p c) :
    s.access pid p = s.put m p c (counted b c (s.depth p)) := by
  rw [Nesting.access, h, setPc_self, hp]
  rfl

theorem put_self (m : Mutex ι) (c : Pc) (d : Nat) :
    (s.put m p c d).mutex.pc p = c ∧ (s.put m p c d).depth p = d :=
  ⟨setPc_self c, Function.update_self ..⟩

theorem put_other {m : Mutex ι} (hm : m.pc = s.mutex.pc) {q : ι} (hq : q ≠ p) (c : Pc) (d : Nat) :
    (s.put m p c d).mutex.pc q = s.mutex.pc q ∧ (s.put m p c d).depth q = s.depth q :=
  ⟨(setPc_other hq c).trans (congrFun hm q), Function.update_of_ne hq ..⟩

-- A step of p that writes neither word and leaves p holding the mutex or not, as before.
theorem NestedKept.moved (h : NestedKept pid s) {c : Pc} {d : Nat} (hd : 0 < d ↔ 0 < s.depth p)
    (hc : c = .storeOwner ↔ s.mutex.pc p = .storeOwner) (hpc : s.mutex.pc p ≠ .clearLocked)
    (hc' : c ≠ .clearLocked) (hfits : Fits (pid p) d c) : NestedKept pid (s.put s.mutex p c d) := by
  obtain ⟨hself, hdepth⟩ := put_self (s := s) (p := p) s.mutex c d
  have hother {q : ι} (hq : q ≠ p) := put_other (s := s) (m := s.mutex) rfl hq c d
  have hholds (q : ι) : 0 < (s.put s.mutex p c d).depth q ↔ 0 < s.depth q := by
    by_cases hq : q = p
    · rw [hq, hdepth, hd]
    · rw [(hother hq).2]
  have hcleared (q : ι) : (s.put s.mutex p c d).mutex.pc q ≠ .clearLocked ↔
      s.mutex.pc q ≠ .clearLocked := by
    by_cases hq : q = p
    · rw [hq, hself]
      exact iff_of_true hc' hpc
    · rw [(hother hq).1]
  refine ⟨h.locked, fun q => ?_, fun q hdq hcq => ?_, ?_, fun q => ?_⟩
  · rw [hholds]
    by_cases hq : q = p
    · rw [hq, hself, hc]
      exact h.holder p
    · rw [(hother hq).1]
      exact h.holder q
  · exact h.owned q ((hholds q).mp hdq) ((hcleared q).mp hcq)
  · rcases h.owner with ho | ⟨q, hdq, hcq, ho⟩
    · exact Or.inl ho
    · exact Or.inr ⟨q, (hholds q).mpr hdq, (hcleared q).mpr hcq, ho⟩
  · by_cases hq : q = p
    · rwa [hq, hself, hdepth]
    · rw [(hother hq).1, (hother hq).2]
      exact h.fits q

-- A step of the process that holds the mutex, or comes to hold it, or frees it.
theorem NestedKept.written (h : NestedKept pid s) {m : Mutex ι} {c : Pc} {d : Nat}
    (hm : m.pc = s.mutex.pc)
    (halone : ∀ q, q ≠ p → ¬(0 < s.depth q ∨ s.mutex.pc q = .storeOwner))
    (hlocked : m.locked = if m.holder = none then 0 else 1)
    (hholder : m.holder = if 0 < d ∨ c = .storeOwner then some p else none)
    (howner : m.owner = if 0 < d ∧ c ≠ .clearLocked then pid p else noOwner)
    (hfits : Fits (pid p) d c) : NestedKept pid (s.put m p c d) := by
  obtain ⟨hself, hdepth⟩ := put_self (s := s) (p := p) m c d
  have hother {q : ι} (hq : q ≠ p) := put_other hm hq c d
  refine ⟨hlocked, fun q => ?_, fun q hdq hcq => ?_, ?_, fun q => ?_⟩
  · change m.holder = some q ↔ _
    rw [hholder]
    by_cases hq : q = p
    · rw [hq, hself, hdepth]
      split_ifs with hin
      · exact iff_of_true rfl hin
      · exact iff_of_false (fun he => by cases he) hin
    · rw [(hother hq).1, (hother hq).2]
      refine iff_of_false (fun he => ?_) (halone q hq)
      split_ifs at he
      exact hq (Option.some.inj he).symm
  · by_cases hq : q = p
    · subst hq
      rw [hdepth] at hdq
      rw [hself] at hcq
      exact howner.trans (if_pos ⟨hdq, hcq⟩)
    · rw [(hother hq).2] at hdq
      exact absurd (Or.inl hdq) (halone q hq)
  · by_cases hin : 0 < d ∧ c ≠ .clearLocked
    · exact Or.inr ⟨p, hdepth.symm ▸ hin.1, hself.symm ▸ hin.2, howner.trans (if_pos hin)⟩
    · exact Or.inl (howner.trans (if_neg hin))
  · by_cases hq : q = p
    · rwa [hq, hself, hdepth]
    · rw [(hother hq).1, (hother hq).2]
      exact h.fits q

theorem nestedKept_access (h : NestedKept pid s) (hinj : Function.Injective pid)
    (hsent : ∀ p, pid p = noOwner → ∀ q, q = p) : NestedKept pid (s.access pid p) := by
  have hfits := h.fits p
  cases hp : s.mutex.pc p with
  | outside =>
    have hsame : s.access pid p = s := by
      rw [Nesting.access, access, hp]
      simp [counted]
    rwa [hsame]
  | inside =>
    have hsame : s.access pid p = s := by
      rw [Nesting.access, access, hp]
      simp [counted]
    rwa [hsame]
  | testLocked =>
    rw [access_put hp s.mutex (by rw [access, hp])]
    refine h.moved Iff.rfl ?_ (by simp [hp]) ?_ ?_
    · rw [hp]
      split <;> simp
    · split <;> simp
    · split_ifs with hl
      · intro hd hpid
        -- Another process holds the mutex.
        obtain ⟨-, q, hq⟩ := h.busy hl
        rw [hsent p hpid q, hp] at hq
        have hd' : s.depth p = 0 := hd
        simp [hd'] at hq
      · exact Nat.eq_zero_of_not_pos fun hd => (h.free (not_not.mp hl)).1 p (Or.inl hd)
  | testOwner =>
    rw [hp] at hfits
    by_cases ho : s.mutex.owner = pid p
    · have hd : 0 < s.depth p := Nat.pos_of_ne_zero fun hd => h.no_early hinj hp hd ho
      have haccess : access pid s.mutex p = setPc s.mutex p .inside := by
        rw [access, hp]
        exact congrArg (setPc s.mutex p) (if_pos ho)
      rw [access_put hp s.mutex haccess]
      exact h.moved (iff_of_true (Nat.succ_pos _) hd) (by simp [hp]) (by simp [hp]) (by simp)
        (Nat.succ_pos _)
    · have hd : s.depth p = 0 := by
        refine Nat.eq_zero_of_not_pos fun hd => ho (h.owned p hd (by simp [hp]))
      have haccess : access pid s.mutex p = setPc s.mutex p (.exchange .lock) := by
        rw [access, hp]
        exact congrArg (setPc s.mutex p) (if_neg ho)
      rw [access_put hp s.mutex haccess]
      exact h.moved Iff.rfl (by simp [hp]) (by simp [hp]) (by simp) hd
  | exchange c =>
    rw [hp] at hfits
    cases c with
    | trylock => exact hfits.elim
    | lock =>
      have hd : s.depth p = 0 := hfits
      by_cases hl : s.mutex.locked = 0
      · obtain ⟨hout, howner⟩ := h.free hl
        have haccess : access pid s.mutex p =
            setPc { s.mutex with locked := 1, holder := some p } p .storeOwner := by
          rw [access, hp]
          exact if_pos hl
        have hzero : counted (.exchange .lock) .storeOwner (s.depth p) = 0 := hd
        rw [access_put hp _ haccess, hzero]
        exact h.written rfl (fun q _ => hout q) rfl rfl howner rfl
      · have hsame : { s.mutex with locked := 1 } = s.mutex := by
          rw [← (h.busy hl).1]
        have haccess : access pid s.mutex p = setPc s.mutex p (.exchange .lock) := by
          rw [access, hp]
          exact (if_neg hl).trans (by rw [hsame]; rfl)
        rw [access_put hp _ haccess]
        exact h.moved Iff.rfl (by simp [hp]) (by simp [hp]) (by simp) hd
  | storeOwner =>
    rw [access_put hp { s.mutex with owner := pid p } (by rw [access, hp])]
    exact h.written rfl (fun q hq hin => hq (h.alone (Or.inr hp) hin)) h.locked
      ((h.holder p).mpr (Or.inr hp)) rfl (Nat.succ_pos _)
  | clearOwner =>
    rw [hp] at hfits
    have hd : s.depth p = 1 := hfits
    have hin : 0 < s.depth p ∨ s.mutex.pc p = .storeOwner := Or.inl (hd ▸ Nat.one_pos)
    have hone : counted .clearOwner .clearLocked (s.depth p) = 1 := hd
    rw [access_put hp { s.mutex with owner := noOwner } (by rw [access, hp]), hone]
    exact h.written rfl (fun q hq hq' => hq (h.alone hin hq')) h.locked ((h.holder p).mpr hin) rfl
      rfl
  | clearLocked =>
    rw [hp] at hfits
    have hd : s.depth p = 1 := hfits
    have hin : 0 < s.depth p ∨ s.mutex.pc p = .storeOwner := Or.inl (hd ▸ Nat.one_pos)
    have hzero : counted .clearLocked .outside (s.depth p) = 0 := by rw [hd]; rfl
    have howner : s.mutex.owner = noOwner := by
      rcases h.owner with ho | ⟨q, hq, hcq, -⟩
      · exact ho
      · exact absurd (h.alone hin (Or.inl hq) ▸ hp) hcq
    rw [access_put hp { s.mutex with locked := 0, holder := none } (by rw [access, hp]), hzero]
    exact h.written rfl (fun q hq hq' => hq (h.alone hin hq')) rfl rfl howner rfl

theorem nestedKept_step (h : NestedKept pid s) (hinj : Function.Injective pid)
    (hsent : ∀ p, pid p = noOwner → ∀ q, q = p) {a : ι × Act} (hs : NestedStep pid s a s')
    (ha : OutermostUnlock s a) : NestedKept pid s' := by
  cases hs with
  | lock hp =>
    rw [call_put]
    rcases hp with hp | hp <;>
      exact h.moved Iff.rfl (by simp [hp]) (by simp [hp]) (by simp) trivial
  | unlock hp hd =>
    rw [call_put]
    rcases hp with hp | hp <;>
      exact h.moved Iff.rfl (by simp [hp]) (by simp [hp]) (by simp) (ha rfl)
  | access => exact nestedKept_access h hinj hsent

def nestedInvariant (hinj : Function.Injective pid) (hsent : ∀ p, pid p = noOwner → ∀ q, q = p) :
    ((nested pid).restrict OutermostUnlock).Invariant where
  holds := NestedKept pid
  start hs := hs ▸ nestedKept_init pid
  step h hs := nestedKept_step h hinj hsent hs.2 hs.1

theorem access_clearOwner (pid : ι → UInt32) (hp : s.mutex.pc p = .clearOwner) :
    (s.access pid p).mutex.pc p = .clearLocked ∧ (s.access pid p).depth p = s.depth p := by
  rw [access_put hp { s.mutex with owner := noOwner } (by rw [access, hp])]
  exact put_self _ _ _

theorem access_clearLocked (pid : ι → UInt32) (hp : s.mutex.pc p = .clearLocked) :
    (s.access pid p).mutex.locked = 0 ∧ (s.access pid p).mutex.pc p = .outside ∧
      (s.access pid p).depth p = s.depth p - 1 := by
  rw [access_put hp { s.mutex with locked := 0, holder := none } (by rw [access, hp])]
  exact ⟨rfl, put_self _ _ _⟩

-- The two accesses of a mutex_unlock made inside another pair.
theorem inner_unlock_frees (hd : 1 < s.depth p) :
    ¬HeldThrough pid (((s.call p .clearOwner).access pid p).access pid p) := by
  obtain ⟨hpc, hdepth⟩ := access_clearOwner pid (s := s.call p .clearOwner) (setPc_self _)
  obtain ⟨hfree, hout, hleft⟩ := access_clearLocked pid hpc
  have hone : (s.call p .clearOwner).depth p = s.depth p := rfl
  intro h
  have hheld := (h p ⟨by omega, fun hin => by rw [hout] at hin; simp at hin⟩).1
  rw [hfree] at hheld
  exact absurd hheld (by decide)

end Invariant

-- In every run whose mutex_unlock calls are outermost ones the mutex stays held; a call that is
-- not frees it.
theorem nested_lock_held [DecidableEq ι] (pid : ι → UInt32) (hinj : Function.Injective pid)
    (hsent : ∀ p, pid p = noOwner → ∀ q, q = p) :
    (∀ s, ((nested pid).restrict OutermostUnlock).Reach s → HeldThrough pid s) ∧
      ∀ (s : Nesting ι) (p : ι), 1 < s.depth p →
        ¬HeldThrough pid (((s.call p .clearOwner).access pid p).access pid p) :=
  ⟨fun _ hr => ((nestedInvariant hinj hsent).reach hr).held, fun _ _ hd => inner_unlock_frees hd⟩

theorem nested_lock_held_two :
    (∀ s, ((nested twoPids).restrict OutermostUnlock).Reach s → HeldThrough twoPids s) ∧
      ∀ (s : Nesting Bool) (p : Bool), 1 < s.depth p →
        ¬HeldThrough twoPids (((s.call p .clearOwner).access twoPids p).access twoPids p) :=
  nested_lock_held twoPids (by unfold Function.Injective; decide) (by decide)

def locksTwice (p : Bool) : Nesting Bool :=
  let start : Nesting Bool := ⟨mutexInit, fun _ => 0⟩
  let taken := (((start.call p .testLocked).access twoPids p).access twoPids p).access twoPids p
  ((taken.call p .testLocked).access twoPids p).access twoPids p

theorem locksTwice_reach (p : Bool) : (nested twoPids).Reach (locksTwice p) := by
  have h0 : (nested twoPids).Reach ⟨mutexInit, fun _ => 0⟩ := .start rfl
  have h1 := h0.next (show (nested twoPids).step _ (p, .lock) _ from .lock (Or.inl rfl))
  have h2 := h1.next (show (nested twoPids).step _ (p, .access) _ from .access)
  have h3 := h2.next (show (nested twoPids).step _ (p, .access) _ from .access)
  have h4 := h3.next (show (nested twoPids).step _ (p, .access) _ from .access)
  have h5 := h4.next (show (nested twoPids).step _ (p, .lock) _ from
    .lock (Or.inr (by cases p <;> decide)))
  have h6 := h5.next (show (nested twoPids).step _ (p, .access) _ from .access)
  exact h6.next (show (nested twoPids).step _ (p, .access) _ from .access)

-- mutex_lock, mutex_lock, mutex_unlock by one process.
theorem nested_lock_fails : ¬∀ (ι : Type) (_ : DecidableEq ι) (pid : ι → UInt32),
    Function.Injective pid → ∀ s, (nested pid).Reach s → HeldThrough pid s := by
  intro h
  have h1 := (locksTwice_reach true).next (show (nested twoPids).step _ (true, .unlock) _ from
    .unlock (Or.inr (by decide)) (by decide))
  have h2 := h1.next (show (nested twoPids).step _ (true, .access) _ from .access)
  have h3 := h2.next (show (nested twoPids).step _ (true, .access) _ from .access)
  exact inner_unlock_frees (by decide)
    (h Bool _ twoPids (by unfold Function.Injective; decide) _ h3)

end Locks
