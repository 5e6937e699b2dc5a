import Mathlib.Tactic.Common
import SabakaOS.Process.Scheduler

namespace Scheduler

-- What the dispatcher's decisions depend on.
structure View where
  states : Slot → ProcessState
  current : Slot
  initialized : Bool
  switches : List Switch

def View.set (v : View) (i : Slot) (st : ProcessState) : View :=
  { v with states := Function.update v.states i st }

def view (s : Sched) : View where
  states i := (s.procs i).state
  current := s.currentIdx
  initialized := s.initialized
  switches := s.switches

theorem view_setProc (s : Sched) (i : Slot) (f : Process → Process) :
    view (setProc s i f) = (view s).set i (f (s.procs i)).state := by
  simp only [view, setProc, View.set, View.mk.injEq, and_true]
  funext j
  by_cases h : j = i
  · subst h
    simp
  · simp [h]

theorem View.set_self (v : View) (i : Slot) : v.set i (v.states i) = v := by
  simp [View.set]

theorem View.set_set (v : View) (i : Slot) (a b : ProcessState) :
    (v.set i a).set i b = v.set i b := by
  simp [View.set]

theorem view_keep (s : Sched) (i : Slot) (f : Process → Process)
    (h : (f (s.procs i)).state = (s.procs i).state) : view (setProc s i f) = view s := by
  rw [view_setProc, h]
  exact View.set_self (view s) i

@[simp] theorem setProc_currentIdx (s : Sched) (i : Slot) (f : Process → Process) :
    (setProc s i f).currentIdx = s.currentIdx := rfl

@[simp] theorem setProc_self (s : Sched) (i : Slot) (f : Process → Process) :
    (setProc s i f).procs i = f (s.procs i) := Function.update_self ..

theorem view_update (s : Sched) (i : Slot) (f : Process → Process) (st : ProcessState)
    (h : (f (s.procs i)).state = st) : view (setProc s i f) = (view s).set i st := by
  rw [view_setProc, h]

structure View.Running (v : View) : Prop where
  booted : v.initialized = true
  single : ∀ i, v.states i = .running → i = v.current
  idle : v.states 0 = .ready ∨ v.states 0 = .running
  ready : ∀ x ∈ v.switches, x.target = .ready

theorem running_init (s : Sched) (h : s.switches = []) : (view (schedulerInit s)).Running := by
  refine ⟨rfl, fun i hi => ?_, Or.inr (by simp [view, schedulerInit]),
    by simp [view, schedulerInit, h]⟩
  by_contra hne
  have hne : i ≠ 0 := hne
  simp [view, schedulerInit, Function.update_of_ne hne, setState] at hi

theorem View.Running.set {v : View} (h : v.Running) {i : Slot} {st : ProcessState}
    (hs : st ≠ .running) (h0 : i = 0 → st = .ready) : (v.set i st).Running where
  booted := h.booted
  single j hj := by
    by_cases he : j = i
    · subst he
      exact absurd (by simpa [View.set] using hj) hs
    · exact h.single j (by simpa [View.set, he] using hj)
  idle := by
    by_cases he : (0 : Slot) = i
    · subst he
      exact Or.inl (by simpa [View.set] using h0 rfl)
    · simpa [View.set, he] using h.idle
  ready := h.ready

theorem View.Running.ne_idle {v : View} (h : v.Running) {i : Slot}
    (hi : v.states i ≠ .ready ∧ v.states i ≠ .running) : i ≠ 0 := by
  rintro rfl
  exact h.idle.elim hi.1 hi.2

theorem allocProc_dead {s : Sched} {i : Slot} (h : allocProc s = some i) :
    (s.procs i).state = .dead := by
  simpa using List.find?_some h

@[simp] theorem counted_procs (s : Sched) (m : Nat → Nat) : (counted s m).procs = s.procs := rfl

theorem view_counted (s : Sched) (m : Nat → Nat) : view (counted s m) = view s := rfl

section Create

variable (sym : Symbols) (s : Sched) (name : List UInt8) (priority : Nat)

theorem view_processCreate (func arg stack : Nat) :
    view (processCreate sym s func arg name priority stack).2 = view s ∨
      ∃ i st, (s.procs i).state = .dead ∧ (st = .dead ∨ st = .ready) ∧
        view (processCreate sym s func arg name priority stack).2 = (view s).set i st := by
  unfold processCreate
  cases ha : allocProc s with
  | none => exact Or.inl rfl
  | some i =>
    refine Or.inr ⟨i, if stack = 0 then .dead else .ready, allocProc_dead ha, ?_, ?_⟩
    · split <;> simp
    · by_cases hk : stack = 0
      · simp only [hk, if_true, view_setProc, View.set_set]
        rfl
      · simp only [hk, if_false]
        rw [view_counted, view_setProc, view_setProc, View.set_set, setProc_self]
        rfl

theorem view_processCreateUser (entry kstack : Nat) (mapped : Bool) :
    view (processCreateUser sym s entry name priority kstack mapped).2 = view s ∨
      ∃ i st, (s.procs i).state = .dead ∧ (st = .dead ∨ st = .ready) ∧
        view (processCreateUser sym s entry name priority kstack mapped).2 = (view s).set i st := by
  unfold processCreateUser
  cases ha : allocProc s with
  | none => exact Or.inl rfl
  | some i =>
    refine Or.inr ⟨i, if kstack = 0 ∨ mapped = false then .dead else .ready,
      allocProc_dead ha, ?_, ?_⟩
    · split <;> simp
    · by_cases hk : kstack = 0
      · simp only [hk, true_or, if_true, view_setProc, View.set_set]
        rfl
      · cases mapped with
        | false =>
          simp only [hk, or_true, Bool.not_false, if_true, if_false, view_setProc, View.set_set]
          rfl
        | true =>
          simp only [hk, false_or, Bool.true_eq_false, Bool.not_true, Bool.false_eq_true, if_false]
          rw [view_counted, view_setProc, view_setProc, view_setProc, View.set_set, View.set_set,
            setProc_self, setProc_self]
          rfl

end Create

section Dispatch

variable {s : Sched} (now sp : Nat)

theorem wake_state (p : Process) :
    (wake now p).state = p.state ∨ p.state = .sleep ∧ (wake now p).state = .ready := by
  unfold wake
  split
  · exact Or.inr ⟨by tauto, rfl⟩
  · exact Or.inl rfl

theorem Running_wake (h : (view s).Running) :
    (view { s with procs := fun i => wake now (s.procs i) }).Running where
  booted := h.booted
  single i hi := by
    change (wake now (s.procs i)).state = .running at hi
    rcases wake_state now (s.procs i) with he | ⟨-, he⟩
    · rw [he] at hi
      exact h.single i hi
    · rw [he] at hi
      cases hi
  idle := by
    rcases wake_state now (s.procs 0) with he | ⟨-, he⟩
    · have := h.idle
      rwa [show (view s).states 0 = _ from he.symm] at this
    · exact Or.inl he
  ready := h.ready

theorem findNext_spec (h : (view s).Running) :
    (findNext s now).2 = { s with procs := fun i => wake now (s.procs i) } ∧
      ((findNext s now).1 = s.currentIdx ∨
        (wake now (s.procs (findNext s now).1)).state = .ready) ∧
      ((findNext s now).1 = s.currentIdx →
        (wake now (s.procs s.currentIdx)).state = .ready ∨
        (wake now (s.procs s.currentIdx)).state = .running) := by
  have hw := Running_wake now h
  unfold findNext
  simp only
  split
  · next k hk =>
    have hready : (wake now (s.procs (slotAfter s.currentIdx k))).state = .ready := by
      simpa using List.find?_some hk
    refine ⟨rfl, Or.inr hready, fun he => Or.inl ?_⟩
    rw [← he]
    exact hready
  · split
    · next hidle =>
      refine ⟨rfl, ?_, fun he => ?_⟩
      · rcases hidle with h0 | h0
        · exact Or.inr h0
        · exact Or.inl (hw.single 0 h0)
      · rw [← he]
        exact hidle
    · next hidle => exact absurd hw.idle hidle

theorem doSwitch_running (h : (view s).Running) {n : Slot} (hn : n ≠ s.currentIdx)
    (hr : (s.procs n).state = .ready) :
    (view (doSwitch s n sp)).Running ∧ (doSwitch s n sp).currentIdx = n ∧
      ((doSwitch s n sp).procs n).state = .running := by
  have hstates : ∀ j, ((doSwitch s n sp).procs j).state =
      if j = n then .running
      else if j = s.currentIdx ∧ (s.procs j).state = .running then .ready
      else (s.procs j).state := by
    intro j
    unfold doSwitch
    simp only [if_neg hn, setProc, Function.update_apply]
    by_cases hj : j = n
    · subst hj
      simp [hn]
    · by_cases hc : j = s.currentIdx
      · subst hc
        simp only [hj, if_false, if_true, true_and]
        split <;> rfl
      · simp [hj, hc]
  have hcur : (doSwitch s n sp).currentIdx = n := by simp [doSwitch, hn, setProc]
  refine ⟨⟨?_, fun j hj => ?_, ?_, ?_⟩, hcur, by rw [hstates, if_pos rfl]⟩
  · simpa [view, doSwitch, hn, setProc] using h.booted
  · change j = (doSwitch s n sp).currentIdx
    rw [hcur]
    by_contra hne
    rw [show (view _).states j = _ from hstates j, if_neg hne] at hj
    split at hj
    · cases hj
    · next hnot => exact hnot ⟨h.single j hj, hj⟩
  · rw [show (view _).states 0 = _ from hstates 0]
    split
    · exact Or.inr rfl
    · split
      · exact Or.inl rfl
      · exact h.idle
  · have hw : (doSwitch s n sp).switches =
        ⟨s.currentIdx, n, (s.procs n).state⟩ :: s.switches := by
      simp [doSwitch, hn, setProc]
    intro x hx
    rw [show (view (doSwitch s n sp)).switches = _ from hw] at hx
    rcases List.mem_cons.mp hx with rfl | hx
    · exact hr
    · exact h.ready x hx

-- The process on the CPU cannot go on: it is dead, blocked or still asleep.
def Stuck (s : Sched) (now : Nat) : Prop :=
  (s.procs s.currentIdx).state = .dead ∨ (s.procs s.currentIdx).state = .blocked ∨
    ((s.procs s.currentIdx).state = .sleep ∧ now < (s.procs s.currentIdx).sleepUntil)

structure Leaves (s s' : Sched) (now : Nat) : Prop where
  left : s'.currentIdx ≠ s.currentIdx
  runnable : (wake now (s.procs s'.currentIdx)).state = .ready
  running : (s'.procs s'.currentIdx).state = .running

theorem schedulerYield_running (h : (view s).Running) : (view (schedulerYield s now sp)).Running := by
  obtain ⟨hs, hn, -⟩ := findNext_spec now h
  unfold schedulerYield
  simp only [hs]
  split
  · next hne => exact (doSwitch_running sp (Running_wake now h) hne (hn.resolve_left hne)).1
  · exact Running_wake now h

theorem schedulerYield_leaves (h : (view s).Running) (hst : Stuck s now) :
    Leaves s (schedulerYield s now sp) now := by
  obtain ⟨hs, hn, hc⟩ := findNext_spec now h
  have hne : (findNext s now).1 ≠ s.currentIdx := by
    intro he
    have hw : (wake now (s.procs s.currentIdx)).state = (s.procs s.currentIdx).state := by
      unfold wake
      rw [if_neg]
      rintro ⟨hsl, hle⟩
      rcases hst with hd | hd | ⟨-, hlt⟩
      · rw [hsl] at hd; cases hd
      · rw [hsl] at hd; cases hd
      · omega
    rcases hc he with hr | hr <;> rw [hw] at hr <;>
      rcases hst with hd | hd | ⟨hd, -⟩ <;> rw [hr] at hd <;> cases hd
  have hsw := doSwitch_running sp (Running_wake now h) hne (hn.resolve_left hne)
  unfold schedulerYield
  simp only [hs, if_pos hne]
  exact ⟨by rw [hsw.2.1]; exact hne, by rw [hsw.2.1]; exact hn.resolve_left hne,
    by rw [hsw.2.1]; exact hsw.2.2⟩

theorem tick_eq (h : (view s).Running) :
    ∃ t : Sched, view t = view s ∧ t.currentIdx = s.currentIdx ∧
      (∀ i, (t.procs i).state = (s.procs i).state ∧ (t.procs i).sleepUntil = (s.procs i).sleepUntil) ∧
      (schedulerTick s now sp = schedulerYield t now sp ∨
        schedulerTick s now sp = t ∧ (s.procs s.currentIdx).state ≠ .dead ∧
          (s.procs s.currentIdx).state ≠ .sleep ∧ (s.procs s.currentIdx).state ≠ .blocked) := by
  refine ⟨setProc s s.currentIdx (fun p => { p with
    ticksTotal := Word.u32 (p.ticksTotal + 1), ticksSlice := Word.u32 (p.ticksSlice + 1) }),
    view_keep _ _ _ rfl, rfl, fun i => ?_, ?_⟩
  · by_cases hi : i = s.currentIdx
    · subst hi
      simp
    · simp [setProc, hi]
  · have hb : (!s.initialized) = false := by rw [show s.initialized = true from h.booted]; rfl
    unfold schedulerTick
    rw [hb, if_neg Bool.false_ne_true]
    simp only [setProc_currentIdx, setProc_self]
    split
    · exact Or.inl rfl
    · next hn =>
      push Not at hn
      exact Or.inr ⟨rfl, hn.2.1, hn.2.2.1, hn.2.2.2⟩

theorem schedulerTick_running (h : (view s).Running) : (view (schedulerTick s now sp)).Running := by
  obtain ⟨t, hv, -, -, ht | ⟨ht, -⟩⟩ := tick_eq now sp h
  · rw [ht]
    exact schedulerYield_running now sp (hv ▸ h)
  · rw [ht, hv]
    exact h

theorem schedulerTick_leaves (h : (view s).Running) (hst : Stuck s now) :
    Leaves s (schedulerTick s now sp) now := by
  obtain ⟨t, hv, hc, hp, ht | ⟨-, hd, hs, hb⟩⟩ := tick_eq now sp h
  · have hwake : ∀ i, (wake now (t.procs i)).state = (wake now (s.procs i)).state := fun i => by
      unfold wake
      rw [(hp i).1, (hp i).2]
      split
      · rfl
      · exact (hp i).1
    have hst' : Stuck t now := by
      unfold Stuck
      rw [hc, (hp _).1, (hp _).2]
      exact hst
    obtain ⟨hl, hr, hrun⟩ := schedulerYield_leaves now sp (hv ▸ h) hst'
    rw [ht]
    exact ⟨hc ▸ hl, (hwake _).symm.trans hr, hrun⟩
  · rcases hst with h1 | h1 | ⟨h1, -⟩
    · exact absurd h1 hd
    · exact absurd h1 hb
    · exact absurd h1 hs

end Dispatch

section KernelPid

variable {s : Sched}

theorem setProc_pid {i : Slot} {f : Process → Process} (h : i ≠ 0 ∨ ∀ p, (f p).pid = p.pid) :
    ((setProc s i f).procs 0).pid = (s.procs 0).pid := by
  by_cases hi : i = 0
  · subst hi
    rw [setProc_self, h.resolve_left (by simp)]
  · simp [setProc, Ne.symm hi]

theorem wake_pid (now : Nat) (p : Process) : (wake now p).pid = p.pid := by
  unfold wake
  split <;> rfl

theorem doSwitch_pid (n : Slot) (sp : Nat) : ((doSwitch s n sp).procs 0).pid = (s.procs 0).pid := by
  unfold doSwitch
  split
  · rfl
  · simp only [setProc, Function.update_apply]
    split_ifs <;> simp [setState, *]

theorem schedulerYield_pid (h : (view s).Running) (now sp : Nat) :
    ((schedulerYield s now sp).procs 0).pid = (s.procs 0).pid := by
  unfold schedulerYield
  simp only [(findNext_spec now h).1]
  split
  · exact (doSwitch_pid _ sp).trans (wake_pid now _)
  · exact wake_pid now _

theorem processCreate_pid (h : (view s).Running) (sym : Symbols) (func arg : Nat)
    (name : List UInt8) (priority stack : Nat) :
    ((processCreate sym s func arg name priority stack).2.procs 0).pid = (s.procs 0).pid := by
  unfold processCreate
  cases ha : allocProc s with
  | none => rfl
  | some i =>
    have hi : i ≠ 0 := h.ne_idle (by rw [show (view s).states i = _ from allocProc_dead ha]; decide)
    simp only
    split
    · rw [setProc_pid (Or.inl hi), setProc_pid (Or.inl hi)]
    · rw [counted_procs, setProc_pid (Or.inl hi), setProc_pid (Or.inl hi)]

theorem processCreateUser_pid (h : (view s).Running) (sym : Symbols) (entry : Nat)
    (name : List UInt8) (priority kstack : Nat) (mapped : Bool) :
    ((processCreateUser sym s entry name priority kstack mapped).2.procs 0).pid =
      (s.procs 0).pid := by
  unfold processCreateUser
  cases ha : allocProc s with
  | none => rfl
  | some i =>
    have hi : i ≠ 0 := h.ne_idle (by rw [show (view s).states i = _ from allocProc_dead ha]; decide)
    simp only
    split
    · rw [setProc_pid (Or.inl hi), setProc_pid (Or.inl hi)]
    · split
      · rw [setProc_pid (Or.inl hi), setProc_pid (Or.inl hi), setProc_pid (Or.inl hi)]
      · rw [counted_procs, setProc_pid (Or.inl hi), setProc_pid (Or.inl hi),
          setProc_pid (Or.inl hi)]

end KernelPid

section Runs

variable {sym : Symbols} {s : Sched}

theorem View.Running.set_dead {v : View} (h : v.Running) {i : Slot} {st : ProcessState}
    (hi : v.states i = .dead) (hst : st = .dead ∨ st = .ready) : (v.set i st).Running := by
  refine h.set (by rcases hst with rfl | rfl <;> decide) (fun h0 => ?_)
  exact absurd h0 (h.ne_idle (by rw [hi]; decide))

theorem exec_running (h : (view s).Running) (hp : (s.procs 0).pid = 0) (a : Act)
    (hk : kernelStays s a) : (view (exec sym s a)).Running := by
  cases a with
  | create func arg name priority stack =>
    rcases view_processCreate sym s name priority func arg stack with hv | ⟨i, st, hd, hst, hv⟩
    · rwa [exec, hv]
    · rw [exec, hv]
      exact h.set_dead hd hst
  | createUser entry name priority kstack mapped =>
    rcases view_processCreateUser sym s name priority entry kstack mapped with
      hv | ⟨i, st, hd, hst, hv⟩
    · rwa [exec, hv]
    · rw [exec, hv]
      exact h.set_dead hd hst
  | exit now sp =>
    refine schedulerYield_running now sp ?_
    have hset : (view (setProc s s.currentIdx (setState .dead))).Running := by
      rw [view_update s _ _ .dead rfl]
      exact h.set (by decide) (fun h0 => absurd h0 hk)
    exact hset
  | sleep ms frequency now sp =>
    refine schedulerYield_running now sp ?_
    rw [view_update s _ _ .sleep rfl]
    exact h.set (by decide) (fun h0 => absurd h0 hk)
  | block p =>
    cases p with
    | none => exact h
    | some i =>
      rw [exec, processBlock, view_update s i _ .blocked rfl]
      exact h.set (by decide) (fun h0 => absurd (congrArg some h0) hk)
  | unblock p =>
    cases p with
    | none => exact h
    | some i =>
      rw [exec, processUnblock]
      split
      · rw [view_update s i _ .ready rfl]
        exact h.set (by decide) (fun _ => rfl)
      · exact h
  | kill pid =>
    rw [exec, cmdKill]
    split
    · exact h
    · split
      · next hpid _ i hi =>
        have hfound : (s.procs i).pid = pid := by
          have := List.find?_some hi
          simp only [decide_eq_true_eq] at this
          exact this.1
        rw [view_update s i _ .dead rfl]
        refine h.set (by decide) (fun h0 => ?_)
        rw [h0, hp] at hfound
        exact absurd hfound.symm hpid
      · exact h
  | yield now sp => exact schedulerYield_running now sp h
  | tick now sp => exact schedulerTick_running now sp h

theorem exec_pid (h : (view s).Running) (a : Act) (hk : kernelStays s a) :
    ((exec sym s a).procs 0).pid = (s.procs 0).pid := by
  cases a with
  | create func arg name priority stack => exact processCreate_pid h sym func arg name priority stack
  | createUser entry name priority kstack mapped =>
    exact processCreateUser_pid h sym entry name priority kstack mapped
  | exit now sp =>
    have hset : (view (setProc s s.currentIdx (setState .dead))).Running := by
      rw [view_update s _ _ .dead rfl]
      exact h.set (by decide) (fun h0 => absurd h0 hk)
    exact (schedulerYield_pid (s := { setProc s s.currentIdx (setState .dead) with
      procCount := s.procCount - 1 }) hset now sp).trans (setProc_pid (Or.inr fun _ => rfl))
  | sleep ms frequency now sp =>
    refine (schedulerYield_pid ?_ now sp).trans (setProc_pid (Or.inr fun _ => rfl))
    rw [view_update s _ _ .sleep rfl]
    exact h.set (by decide) (fun h0 => absurd h0 hk)
  | block p =>
    cases p with
    | none => rfl
    | some i => exact setProc_pid (Or.inr fun _ => rfl)
  | unblock p =>
    cases p with
    | none => rfl
    | some i =>
      rw [exec, processUnblock]
      split
      · exact setProc_pid (Or.inr fun _ => rfl)
      · rfl
  | kill pid =>
    rw [exec, cmdKill]
    split
    · rfl
    · split
      · exact setProc_pid (Or.inr fun _ => rfl)
      · rfl
  | yield now sp => exact schedulerYield_pid h now sp
  | tick now sp =>
    rw [exec, schedulerTick]
    split
    · rfl
    · simp only
      split
      · refine (schedulerYield_pid ?_ now sp).trans (setProc_pid (Or.inr fun _ => rfl))
        rw [view_keep _ _ _ rfl]
        exact h
      · exact setProc_pid (Or.inr fun _ => rfl)

theorem running_start (h : ((system sym).restrict kernelStays).init s) :
    (view s).Running ∧ (s.procs 0).pid = 0 := by
  obtain ⟨s0, hs, rfl⟩ := h
  exact ⟨running_init s0 hs, by simp [schedulerInit]⟩

theorem running_step {a : Act} {s' : Sched} (h : (view s).Running ∧ (s.procs 0).pid = 0)
    (hs : ((system sym).restrict kernelStays).step s a s') :
    (view s').Running ∧ (s'.procs 0).pid = 0 := by
  obtain ⟨hk, rfl⟩ := hs
  exact ⟨exec_running h.1 h.2 a hk, (exec_pid h.1 a hk).trans h.2⟩

def runningInvariant (sym : Symbols) : ((system sym).restrict kernelStays).Invariant where
  holds s := (view s).Running ∧ (s.procs 0).pid = 0
  start := running_start
  step := running_step

theorem single_runner (h : ((system sym).restrict kernelStays).Reach s) :
    (∀ i, (s.procs i).state = .running → i = s.currentIdx) ∧
      (∀ x ∈ s.switches, x.target = .ready) ∧
      ∀ now sp, Stuck s now →
        Leaves s (schedulerYield s now sp) now ∧ Leaves s (schedulerTick s now sp) now := by
  have hr := ((runningInvariant sym).reach h).1
  exact ⟨hr.single, hr.ready, fun now sp hst =>
    ⟨schedulerYield_leaves now sp hr hst, schedulerTick_leaves now sp hr hst⟩⟩

def blank : Process :=
  ⟨0, [], .dead, 0, 0, 0, 0, 0, 0, false, 0, 0, 0, 0⟩

def blankSched : Sched :=
  ⟨fun _ => blank, 0, 0, false, 10, 1, 1, fun _ => 0, 0, 0, []⟩

-- A process is created and chosen, then blocks itself: the next tick gives the CPU back.
theorem single_runner_blocked :
    let s1 := exec ⟨0, 0⟩ (schedulerInit blankSched) (.create 0 0 [] 5 0x800014)
    let s2 := exec ⟨0, 0⟩ s1 (.yield 3 0)
    let s3 := exec ⟨0, 0⟩ s2 (.block (some 1))
    Stuck s3 4 ∧ Leaves s3 (schedulerYield s3 4 0) 4 ∧ Leaves s3 (schedulerTick s3 4 0) 4 := by
  intro s1 s2 s3
  have hs : Stuck s3 4 := Or.inr (Or.inl rfl)
  have hreach : ((system ⟨0, 0⟩).restrict kernelStays).Reach s3 :=
    .next (a := .block (some 1)) (.next (a := .yield 3 0)
      (.next (a := .create 0 0 [] 5 0x800014) (.start ⟨blankSched, rfl, rfl⟩) ⟨trivial, rfl⟩)
      ⟨trivial, rfl⟩) ⟨by simp [kernelStays], rfl⟩
  exact ⟨hs, (single_runner hreach).2.2 4 0 hs⟩

end Runs

end Scheduler
