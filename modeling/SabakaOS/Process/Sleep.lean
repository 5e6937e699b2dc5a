import SabakaOS.Process.NoBypass

namespace Scheduler

open Word

-- ticks in pit_sleep_ms.
def pitSleepTicks (ms frequency : Nat) : Nat :=
  let ticks := u32 (u32 (ms / 1000 * frequency) + u32 (ms % 1000 * frequency) / 1000)
  if ticks = 0 then 1 else ticks

-- Whether pit_sleep_ms, entered at tick start, is still in its loop at tick now.
def pitSleepWaits (ms frequency start now : Nat) : Bool :=
  ms ≠ 0 ∧ sub32 now start < pitSleepTicks ms frequency

-- process_sleep up to its scheduler_yield.
def fallAsleep (s : Sched) (ms frequency now : Nat) : Sched :=
  setProc s s.currentIdx fun p => { p with
    state := .sleep
    sleepUntil := u32 (now + u32 (ms * frequency) / 1000) }

theorem processSleep_eq (s : Sched) (ms frequency now sp : Nat) :
    processSleep s ms frequency now sp = schedulerYield (fallAsleep s ms frequency now) now sp :=
  rfl

-- The states of a run from s in which p has been asleep all along.
inductive Asleep (sym : Symbols) (p : Slot) (s : Sched) : Sched → Prop
  | start : (s.procs p).state = .sleep → Asleep sym p s s
  | act {s' : Sched} (a : Act) : Asleep sym p s s' →
      ((exec sym s' a).procs p).state = .sleep → Asleep sym p s (exec sym s' a)

def found (s : Sched) (p : Slot) (now : Nat) : ProcessState := ((findNext s now).2.procs p).state

-- What a find_next does, d ticks after t, to a process p that has been asleep since t.
structure SleepsRight (p : Slot) (ms t d : Nat) (s : Sched) : Prop where
  early : d < ms → found s p (u32 (t + d)) = .sleep
  late : ms ≤ d → found s p (u32 (t + d)) = .ready
  same : found s p (u32 (t + d)) = .sleep ↔ pitSleepWaits ms 1000 t (u32 (t + d)) = true

structure Dozes (p : Slot) (wakeAt : Nat) (s : Sched) : Prop where
  state : (s.procs p).state = .sleep
  sleepUntil : (s.procs p).sleepUntil = wakeAt

-- A step that leaves the sleeper's tick alone and does not run it asleep.
structure Spares (p : Slot) (s s' : Sched) : Prop where
  sleepUntil : (s'.procs p).sleepUntil = (s.procs p).sleepUntil
  current : s'.currentIdx = p → (s'.procs p).state = .running

section Ticks

variable {ms t d : Nat}

theorem pitSleepTicks_pos (h : ms < 4294967296) (h0 : ms ≠ 0) : pitSleepTicks ms 1000 = ms := by
  have hwhole : u32 (ms / 1000 * 1000) = ms / 1000 * 1000 := u32_of_lt (by omega)
  have hrest : u32 (ms % 1000 * 1000) / 1000 = ms % 1000 := by
    rw [u32_of_lt (by omega), Nat.mul_div_cancel _ (by decide)]
  have hticks : u32 (u32 (ms / 1000 * 1000) + u32 (ms % 1000 * 1000) / 1000) = ms := by
    rw [hwhole, hrest, Nat.div_add_mod', u32_of_lt h]
  rw [pitSleepTicks, hticks]
  exact if_neg h0

theorem pitSleepWaits_iff (hms : ms < 4294967296) (ht : t < 4294967296) (hd : d < 4294967296) :
    pitSleepWaits ms 1000 t (u32 (t + d)) = true ↔ d < ms := by
  have hdiff : sub32 (u32 (t + d)) t = d := by
    have htick := sub32_u32 t (Nat.zero_le d) hd
    rwa [Nat.add_zero, u32_of_lt ht] at htick
  rw [pitSleepWaits, hdiff, decide_eq_true_iff]
  constructor
  · intro ⟨h0, hlt⟩
    rwa [pitSleepTicks_pos hms h0] at hlt
  · intro hlt
    have h0 : ms ≠ 0 := by omega
    exact ⟨h0, by rwa [pitSleepTicks_pos hms h0]⟩

-- In 32 bits the deadline is reached when d is, unless one of the two sums has wrapped alone.
theorem deadline_iff (hms : ms * 1000 < 4294967296) (ht : t < 4294967296) (hd : d < 4294967296) :
    (u32 (t + u32 (ms * 1000) / 1000) ≤ u32 (t + d) ↔ ms ≤ d) ↔
      (t + ms < 4294967296 ↔ t + d < 4294967296) := by
  rw [u32_of_lt hms, Nat.mul_div_cancel _ (by decide)]
  unfold u32
  omega

-- A product that wraps sets the deadline too early.
theorem deadline_early (hms : 4294967296 ≤ ms * 1000) (ht : t < 4294967296) :
    ∃ d < ms, u32 (t + u32 (ms * 1000) / 1000) ≤ u32 (t + d) := by
  by_cases hwrap : t + u32 (ms * 1000) / 1000 < 4294967296
  · refine ⟨u32 (ms * 1000) / 1000, ?_, le_rfl⟩
    unfold u32
    omega
  · refine ⟨0, by omega, ?_⟩
    unfold u32 at *
    omega

end Ticks

section Steps

variable {sym : Symbols} {s s' : Sched} {p : Slot} {ms t d wakeAt : Nat}

theorem findNext_procs (s : Sched) (now : Nat) (i : Slot) :
    (findNext s now).2.procs i = wake now (s.procs i) := by
  unfold findNext
  dsimp only
  split
  · rfl
  · split <;> rfl

theorem findNext_current (s : Sched) (now : Nat) :
    (findNext s now).2.currentIdx = s.currentIdx := by
  unfold findNext
  dsimp only
  split
  · rfl
  · split <;> rfl

theorem wake_sleepUntil (now : Nat) (q : Process) : (wake now q).sleepUntil = q.sleepUntil := by
  rw [wake]
  split_ifs <;> rfl

theorem Dozes.found (h : Dozes p wakeAt s) (now : Nat) :
    found s p now = if wakeAt ≤ now then .ready else .sleep := by
  rw [Scheduler.found, findNext_procs, wake, h.sleepUntil]
  split_ifs with hboth hle hle
  · rfl
  · exact absurd hboth.2 hle
  · exact absurd ⟨h.state, hle⟩ hboth
  · exact h.state

theorem Dozes.right_iff (h : Dozes p (u32 (t + u32 (ms * 1000) / 1000)) s)
    (hms : ms < 4294967296) (ht : t < 4294967296) (hd : d < 4294967296) :
    SleepsRight p ms t d s ↔ (u32 (t + u32 (ms * 1000) / 1000) ≤ u32 (t + d) ↔ ms ≤ d) := by
  have hfound := h.found (u32 (t + d))
  have hwaits := pitSleepWaits_iff hms ht hd
  by_cases hle : u32 (t + u32 (ms * 1000) / 1000) ≤ u32 (t + d)
  · rw [if_pos hle] at hfound
    refine ⟨fun hr => iff_of_true hle (Nat.le_of_not_lt fun hlt => ?_), fun hiff => ?_⟩
    · cases hfound.symm.trans (hr.early hlt)
    · have hms' := hiff.mp hle
      refine ⟨fun hlt => absurd hms' (Nat.not_le.mpr hlt), fun _ => hfound, ?_⟩
      rw [hfound, hwaits]
      exact iff_of_false (by decide) (Nat.not_lt.mpr hms')
  · rw [if_neg hle] at hfound
    refine ⟨fun hr => iff_of_false hle fun hms' => ?_, fun hiff => ?_⟩
    · cases hfound.symm.trans (hr.late hms')
    · have hlt := Nat.lt_of_not_le (mt hiff.mpr hle)
      refine ⟨fun _ => hfound, fun hms' => absurd hms' (Nat.not_le.mpr hlt), ?_⟩
      rw [hfound, hwaits]
      exact iff_of_true rfl hlt

theorem setProc_sleepUntil {f : Process → Process} (hf : ∀ q, (f q).sleepUntil = q.sleepUntil)
    (i j : Slot) : ((setProc s i f).procs j).sleepUntil = (s.procs j).sleepUntil := by
  by_cases hj : j = i
  · rw [hj, setProc_self, hf]
  · rw [setProc_other hj]

theorem doSwitch_sleepUntil (s : Sched) (n : Slot) (sp : Nat) (i : Slot) :
    ((doSwitch s n sp).procs i).sleepUntil = (s.procs i).sleepUntil := by
  rw [doSwitch]
  split_ifs
  · rfl
  · dsimp only
    rw [setProc_sleepUntil (by simp), setProc_sleepUntil (by simp)]
    refine setProc_sleepUntil (fun q => ?_) s.currentIdx i
    split_ifs <;> rfl

theorem schedulerYield_sleepUntil (s : Sched) (now sp : Nat) (i : Slot) :
    ((schedulerYield s now sp).procs i).sleepUntil = (s.procs i).sleepUntil := by
  have hwake := wake_sleepUntil now (s.procs i)
  rw [← findNext_procs] at hwake
  rw [schedulerYield]
  split_ifs
  · rw [doSwitch_sleepUntil, hwake]
  · exact hwake

theorem doSwitch_current (hne : p ≠ s.currentIdx) (n : Slot) (sp : Nat)
    (hc : (doSwitch s n sp).currentIdx = p) : ((doSwitch s n sp).procs p).state = .running := by
  rw [doSwitch] at *
  split_ifs at * with hn
  · exact absurd hc.symm hne
  · obtain rfl : n = p := hc
    simp [setProc, hne]

theorem schedulerYield_spares (hne : p ≠ s.currentIdx) (now sp : Nat) :
    Spares p s (schedulerYield s now sp) := by
  refine ⟨schedulerYield_sleepUntil s now sp p, fun hc => ?_⟩
  have hcurrent := findNext_current s now
  rw [schedulerYield] at *
  split_ifs at *
  · exact doSwitch_current (hcurrent ▸ hne) _ sp hc
  · exact absurd (hc.symm.trans hcurrent) hne

theorem Spares.of_setProc (hne : p ≠ s.currentIdx) {i : Slot} {f : Process → Process}
    (hf : ∀ q, (f q).sleepUntil = q.sleepUntil) : Spares p s (setProc s i f) :=
  ⟨setProc_sleepUntil hf i p, fun hc => absurd hc.symm hne⟩

theorem Spares.of_same (hne : p ≠ s.currentIdx) (hp : s'.procs p = s.procs p)
    (hc : s'.currentIdx = s.currentIdx) : Spares p s s' :=
  ⟨by rw [hp], fun he => absurd (he.symm.trans hc) hne⟩

theorem Spares.from {u : Sched} (h : Spares p u s') (hp : u.procs p = s.procs p) : Spares p s s' :=
  ⟨h.sleepUntil.trans (by rw [hp]), h.current⟩

-- A new process goes into a dead slot.
theorem processCreate_spares (hp : (s.procs p).state = .sleep) (hne : p ≠ s.currentIdx)
    (func arg : Nat) (name : List UInt8) (priority stack : Nat) :
    Spares p s (processCreate sym s func arg name priority stack).2 := by
  rw [processCreate]
  cases ha : allocProc s with
  | none => exact .of_same hne rfl rfl
  | some i =>
    have hi : p ≠ i := fun he => by
      rw [he, allocProc_dead ha] at hp
      cases hp
    dsimp only
    split_ifs
    · exact .of_same hne (by rw [setProc_other hi, setProc_other hi]) rfl
    · exact .of_same hne (by rw [counted_procs, setProc_other hi, setProc_other hi]) rfl

theorem processCreateUser_spares (hp : (s.procs p).state = .sleep) (hne : p ≠ s.currentIdx)
    (entry : Nat) (name : List UInt8) (priority kstack : Nat) (mapped : Bool) :
    Spares p s (processCreateUser sym s entry name priority kstack mapped).2 := by
  rw [processCreateUser]
  cases ha : allocProc s with
  | none => exact .of_same hne rfl rfl
  | some i =>
    have hi : p ≠ i := fun he => by
      rw [he, allocProc_dead ha] at hp
      cases hp
    dsimp only
    split_ifs
    · exact .of_same hne (by rw [setProc_other hi, setProc_other hi]) rfl
    · exact .of_same hne (by rw [setProc_other hi, setProc_other hi, setProc_other hi]) rfl
    · exact .of_same hne
        (by rw [counted_procs, setProc_other hi, setProc_other hi, setProc_other hi]) rfl

theorem exec_spares (hp : (s.procs p).state = .sleep) (hne : p ≠ s.currentIdx) (a : Act) :
    Spares p s (exec sym s a) := by
  cases a with
  | create func arg name priority stack => exact processCreate_spares hp hne ..
  | createUser entry name priority kstack mapped => exact processCreateUser_spares hp hne ..
  | exit now sp =>
    exact (schedulerYield_spares (s := { setProc s s.currentIdx (setState .dead) with
      procCount := s.procCount - 1 }) hne now sp).from (setProc_other hne)
  | sleep ms frequency now sp =>
    exact (schedulerYield_spares (s := setProc s s.currentIdx _) hne now sp).from
      (setProc_other hne)
  | block q =>
    cases q with
    | none => exact .of_same hne rfl rfl
    | some i => exact .of_setProc hne fun _ => rfl
  | unblock q =>
    cases q with
    | none => exact .of_same hne rfl rfl
    | some i =>
      rw [exec, processUnblock]
      split
      · exact .of_setProc hne fun _ => rfl
      · exact .of_same hne rfl rfl
  | kill pid =>
    rw [exec, cmdKill]
    split
    · exact .of_same hne rfl rfl
    · split
      · exact .of_setProc hne fun _ => rfl
      · exact .of_same hne rfl rfl
  | yield now sp => exact schedulerYield_spares hne now sp
  | tick now sp =>
    rw [exec, schedulerTick]
    split
    · exact .of_same hne rfl rfl
    · dsimp only
      split
      · exact (schedulerYield_spares (s := setProc s s.currentIdx _) hne now sp).from
          (setProc_other hne)
      · exact .of_setProc hne fun _ => rfl

theorem Asleep.state (h : Asleep sym p s s') : (s'.procs p).state = .sleep := by
  cases h with
  | start h => exact h
  | act a _ h => exact h

-- Only a process that is not asleep is switched to.
theorem Asleep.dozes (h : Asleep sym p s s') (hne : p ≠ s.currentIdx) :
    p ≠ s'.currentIdx ∧ (s'.procs p).sleepUntil = (s.procs p).sleepUntil := by
  induction h with
  | start _ => exact ⟨hne, rfl⟩
  | @act s' a hw hstate ih =>
    have hspares := @exec_spares sym _ _ hw.state ih.1 a
    refine ⟨fun he => ?_, hspares.sleepUntil.trans ih.2⟩
    cases hstate.symm.trans (hspares.current he.symm)

theorem fallAsleep_dozes (hp : s.currentIdx = p) (ms t : Nat) :
    Dozes p (u32 (t + u32 (ms * 1000) / 1000)) (fallAsleep s ms 1000 t) := by
  subst hp
  constructor <;> rw [fallAsleep, setProc_self]

-- With another process ready, process_sleep gives up the processor.
theorem processSleep_leaves {q : Slot} (hp : s.currentIdx = p) (hq : q ≠ p)
    (hready : (s.procs q).state = .ready) (ms t sp : Nat) :
    p ≠ (processSleep s ms 1000 t sp).currentIdx := by
  subst hp
  have hready' : ((fallAsleep s ms 1000 t).procs q).state = .ready := by
    rw [fallAsleep, setProc_other hq]
    exact hready
  obtain ⟨hother, -⟩ := findNext_near t hready' hq
  have hcurrent := findNext_current (fallAsleep s ms 1000 t) t
  rw [processSleep_eq, schedulerYield, hcurrent, if_pos hother, doSwitch, hcurrent, if_neg hother]
  exact hother.symm

-- The states in which a find_next meets p after its process_sleep.
def AfterSleep (sym : Symbols) (p : Slot) (s : Sched) (ms t sp : Nat) (s' : Sched) : Prop :=
  s' = fallAsleep s ms 1000 t ∨ Asleep sym p (processSleep s ms 1000 t sp) s'

theorem AfterSleep.dozes {q : Slot} {sp : Nat} (h : AfterSleep sym p s ms t sp s')
    (hp : s.currentIdx = p) (hq : q ≠ p) (hready : (s.procs q).state = .ready) :
    Dozes p (u32 (t + u32 (ms * 1000) / 1000)) s' := by
  have hfalls := fallAsleep_dozes hp ms t
  rcases h with rfl | h
  · exact hfalls
  · refine ⟨h.state, ?_⟩
    rw [(h.dozes (processSleep_leaves hp hq hready ms t sp)).2, processSleep_eq,
      schedulerYield_sleepUntil, hfalls.sleepUntil]

end Steps

-- p, the current process, calls process_sleep(ms) at tick t while q is ready.
theorem sleeps_right_iff (sym : Symbols) {s : Sched} {p q : Slot} {ms t : Nat}
    (hp : s.currentIdx = p) (hq : q ≠ p) (hready : (s.procs q).state = .ready)
    (hms : ms < 4294967296) (ht : t < 4294967296) (sp : Nat) {s' : Sched}
    (hs : AfterSleep sym p s ms t sp s') :
    (ms * 1000 < 4294967296 → ∀ d < 4294967296,
      (SleepsRight p ms t d s' ↔ (t + ms < 4294967296 ↔ t + d < 4294967296))) ∧
    (4294967296 ≤ ms * 1000 → ∃ d < ms, found s' p (u32 (t + d)) = .ready) := by
  have hdozes := hs.dozes hp hq hready
  refine ⟨fun hfits d hd => ?_, fun hwraps => ?_⟩
  · rw [hdozes.right_iff hms ht hd, deadline_iff hfits ht hd]
  · obtain ⟨d, hd, hle⟩ := deadline_early hwraps ht
    exact ⟨d, hd, by rw [hdozes.found, if_pos hle]⟩

-- Process 1 runs and process 0 is ready.
def twoProcesses : Sched :=
  exec ⟨0, 0⟩ (exec ⟨0, 0⟩ (schedulerInit blankSched) (.create 0 0 [] 1 0x800014)) (.yield 0 0)

theorem sleeps_right_200 : SleepsRight 1 200 0 200 (fallAsleep twoProcesses 200 1000 0) :=
  ((sleeps_right_iff ⟨0, 0⟩ (s := twoProcesses) (p := 1) (q := 0) rfl (by decide) (by decide)
    (by decide) (by decide) 0 (Or.inl rfl)).1 (by decide) 200 (by decide)).mpr (by decide)

-- A sleep of one second, half a second before the tick counter wraps, ends at once.
theorem sleeps_right_fails : ¬SleepsRight 1 1000 4294966796 0
    (fallAsleep twoProcesses 1000 1000 4294966796) := by
  intro h
  exact absurd (h.early (by decide)) (by decide)

end Scheduler
