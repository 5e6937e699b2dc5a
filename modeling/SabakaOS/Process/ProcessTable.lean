import Mathlib.Data.Finset.Card
import Mathlib.Data.Fintype.Basic
import SabakaOS.Process.SingleRunner

namespace Scheduler

open Word

def alive (s : Sched) : Finset Slot := Finset.univ.filter fun i => (s.procs i).state ≠ .dead

def DistinctPids (s : Sched) : Prop :=
  ∀ i ∈ alive s, ∀ j ∈ alive s, (s.procs i).pid = (s.procs j).pid → i = j

theorem mem_alive {s : Sched} {i : Slot} : i ∈ alive s ↔ (s.procs i).state ≠ .dead := by
  simp [alive]

structure SameTable (s s' : Sched) : Prop where
  slots : alive s' = alive s
  pids : ∀ i ∈ alive s', (s'.procs i).pid = (s.procs i).pid
  count : s'.procCount = s.procCount

structure Born (s s' : Sched) (pid : Nat) (i : Slot) : Prop where
  fresh : i ∉ alive s
  slots : alive s' = insert i (alive s)
  pids : ∀ j ∈ alive s, (s'.procs j).pid = (s.procs j).pid
  pid : (s'.procs i).pid = pid
  count : s'.procCount = s.procCount + 1

structure Died (s s' : Sched) (i : Slot) (k : Int) : Prop where
  slots : alive s' = (alive s).erase i
  pids : ∀ j ∈ alive s', (s'.procs j).pid = (s.procs j).pid
  count : s'.procCount = s.procCount - k

section Table

variable {s s' t : Sched} {i : Slot}

theorem alive_of_states (h : ∀ i, (s'.procs i).state = .dead ↔ (s.procs i).state = .dead) :
    alive s' = alive s := by
  ext i
  rw [mem_alive, mem_alive, ne_eq, ne_eq, h]

theorem SameTable.refl (s : Sched) : SameTable s s := ⟨rfl, fun _ _ => rfl, rfl⟩

theorem SameTable.trans (h : SameTable s s') (h' : SameTable s' t) : SameTable s t := by
  refine ⟨h'.slots.trans h.slots, fun i hi => ?_, h'.count.trans h.count⟩
  rw [h'.pids i hi, h.pids i (h'.slots ▸ hi)]

theorem setProc_apply (s : Sched) (i j : Slot) (f : Process → Process) :
    (setProc s i f).procs j = if j = i then f (s.procs i) else s.procs j :=
  Function.update_apply ..

theorem sameTable_setProc {f : Process → Process}
    (hs : (f (s.procs i)).state = .dead ↔ (s.procs i).state = .dead)
    (hp : (f (s.procs i)).pid = (s.procs i).pid) : SameTable s (setProc s i f) := by
  refine ⟨alive_of_states fun j => ?_, fun j _ => ?_, rfl⟩
  · rw [setProc_apply]
    split
    · next hj => rw [hj, hs]
    · rfl
  · rw [setProc_apply]
    split
    · next hj => rw [hj, hp]
    · rfl

theorem wake_dead (now : Nat) (p : Process) : (wake now p).state = .dead ↔ p.state = .dead := by
  rcases wake_state now p with h | ⟨h1, h2⟩
  · rw [h]
  · rw [h1, h2]
    decide

theorem sameTable_wake (s : Sched) (now : Nat) :
    SameTable s { s with procs := fun i => wake now (s.procs i) } :=
  ⟨alive_of_states fun i => wake_dead now (s.procs i), fun i _ => wake_pid now (s.procs i), rfl⟩

theorem sameTable_doSwitch (s : Sched) (n : Slot) (sp : Nat) (hn : n ∈ alive s) :
    SameTable s (doSwitch s n sp) := by
  rw [mem_alive] at hn
  unfold doSwitch
  split
  · exact .refl s
  · next hne =>
    refine ⟨alive_of_states fun j => ?_, fun j _ => ?_, rfl⟩
    · by_cases hj : j = s.currentIdx
      · subst hj
        by_cases hr : (s.procs s.currentIdx).state = .running <;>
          simp [setProc_apply, Ne.symm hne, hr, setState]
      · by_cases hjn : j = n
        · subst hjn
          simp [setProc_apply, hne, hn]
        · simp [setProc_apply, hj, hjn]
    · simp only [setProc_apply]
      split_ifs <;> simp_all [setState]

theorem findNext_alive (s : Sched) (now : Nat) :
    (findNext s now).2 = { s with procs := fun i => wake now (s.procs i) } ∧
      ((findNext s now).1 = s.currentIdx ∨
        (wake now (s.procs (findNext s now).1)).state = .ready ∨
        (wake now (s.procs (findNext s now).1)).state = .running) := by
  unfold findNext
  simp only
  split
  · next k hk =>
    have hready : (wake now (s.procs (slotAfter s.currentIdx k))).state = .ready := by
      simpa using List.find?_some hk
    exact ⟨rfl, .inr (.inl hready)⟩
  · split
    · next hidle => exact ⟨rfl, .inr hidle⟩
    · exact ⟨rfl, .inl rfl⟩

theorem sameTable_yield (s : Sched) (now sp : Nat) : SameTable s (schedulerYield s now sp) := by
  obtain ⟨hs, hn⟩ := findNext_alive s now
  have hw := sameTable_wake s now
  unfold schedulerYield
  simp only [hs]
  split
  · next hne =>
    refine hw.trans (sameTable_doSwitch _ _ sp ?_)
    rw [mem_alive]
    rcases hn.resolve_left hne with hr | hr
    · simp [hr]
    · simp [hr]
  · exact hw

theorem tick_cases (s : Sched) (now sp : Nat) :
    schedulerTick s now sp = s ∨ ∃ f : Process → Process, (∀ p, (f p).state = p.state) ∧
      (∀ p, (f p).pid = p.pid) ∧ (∀ p, (f p).esp = p.esp) ∧
      (schedulerTick s now sp = setProc s s.currentIdx f ∨
        schedulerTick s now sp = schedulerYield (setProc s s.currentIdx f) now sp) := by
  unfold schedulerTick
  split
  · exact .inl rfl
  · refine .inr ⟨fun p => { p with
      ticksTotal := u32 (p.ticksTotal + 1)
      ticksSlice := u32 (p.ticksSlice + 1) }, fun _ => rfl, fun _ => rfl, fun _ => rfl, ?_⟩
    simp only
    split
    · exact .inr rfl
    · exact .inl rfl

theorem sameTable_tick (s : Sched) (now sp : Nat) : SameTable s (schedulerTick s now sp) := by
  rcases tick_cases s now sp with h | ⟨f, hst, hpid, -, h | h⟩
  · rw [h]
    exact .refl s
  · rw [h]
    exact sameTable_setProc (by rw [hst]) (hpid _)
  · rw [h]
    exact (sameTable_setProc (by rw [hst]) (hpid _)).trans (sameTable_yield _ now sp)

theorem died_setProc (s : Sched) (i : Slot) : Died s (setProc s i (setState .dead)) i 0 := by
  refine ⟨?_, fun j _ => ?_, by simp [setProc]⟩
  · ext j
    rw [Finset.mem_erase, mem_alive, mem_alive, setProc_apply]
    split
    · next hj => simp [hj, setState]
    · next hj => simp [hj]
  · rw [setProc_apply]
    split
    · next hj => rw [hj, setState]
    · rfl

end Table

section Create

variable (sym : Symbols) (s : Sched) (name : List UInt8) (priority : Nat)

theorem born_of {s s' : Sched} {i : Slot} {pid : Nat} (hi : (s.procs i).state = .dead)
    (hn : (s'.procs i).state ≠ .dead) (hp : (s'.procs i).pid = pid)
    (ho : ∀ j, j ≠ i → s'.procs j = s.procs j) (hc : s'.procCount = s.procCount + 1) :
    Born s s' pid i := by
  have hne : ∀ j ∈ alive s, j ≠ i := by
    rintro j hj rfl
    exact mem_alive.mp hj hi
  refine ⟨fun h => mem_alive.mp h hi, ?_, fun j hj => by rw [ho j (hne j hj)], hp, hc⟩
  ext j
  rw [Finset.mem_insert, mem_alive, mem_alive]
  by_cases hj : j = i
  · subst hj
    simp [hn]
  · rw [ho j hj]
    simp [hj]

theorem sameTable_of {s s' : Sched} {i : Slot} (hi : (s.procs i).state = .dead)
    (hn : (s'.procs i).state = .dead) (ho : ∀ j, j ≠ i → s'.procs j = s.procs j)
    (hc : s'.procCount = s.procCount) : SameTable s s' := by
  refine ⟨alive_of_states fun j => ?_, fun j hj => ?_, hc⟩
  · by_cases hj : j = i
    · rw [hj, hi, hn]
    · rw [ho j hj]
  · by_cases hji : j = i
    · subst hji
      exact absurd hn (mem_alive.mp hj)
    · rw [ho j hji]

theorem setProc_of_ne {s : Sched} {i j : Slot} (h : j ≠ i) (f : Process → Process) :
    (setProc s i f).procs j = s.procs j := Function.update_of_ne h ..

theorem processCreate_table (func arg stack : Nat) :
    SameTable s (processCreate sym s func arg name priority stack).2 ∨
      stack ≠ 0 ∧ ∃ i, allocProc s = some i ∧
        Born s (processCreate sym s func arg name priority stack).2 s.nextPid i := by
  unfold processCreate
  cases ha : allocProc s with
  | none => exact .inl (.refl s)
  | some i =>
    simp only
    split
    · refine .inl (sameTable_of (allocProc_dead ha) (by simp [setState]) (fun j hj => ?_) rfl)
      rw [setProc_of_ne hj, setProc_of_ne hj]
    · next hk =>
      refine .inr ⟨hk, i, rfl, born_of (allocProc_dead ha) (by simp) (by simp) (fun j hj => ?_) rfl⟩
      rw [counted_procs, setProc_of_ne hj, setProc_of_ne hj]

theorem processCreateUser_table (entry kstack : Nat) (mapped : Bool) :
    SameTable s (processCreateUser sym s entry name priority kstack mapped).2 ∨
      (kstack ≠ 0 ∧ mapped = true) ∧ ∃ i, allocProc s = some i ∧
        Born s (processCreateUser sym s entry name priority kstack mapped).2 s.nextUserPid i := by
  unfold processCreateUser
  cases ha : allocProc s with
  | none => exact .inl (.refl s)
  | some i =>
    simp only
    split
    · refine .inl (sameTable_of (allocProc_dead ha) (by simp [setState]) (fun j hj => ?_) rfl)
      rw [setProc_of_ne hj, setProc_of_ne hj]
    · next hk =>
      cases mapped with
      | false =>
        refine .inl (sameTable_of (allocProc_dead ha) (by simp [setState]) (fun j hj => ?_) rfl)
        simp only [Bool.not_false, if_true]
        rw [setProc_of_ne hj, setProc_of_ne hj, setProc_of_ne hj]
      | true =>
        refine .inr ⟨⟨hk, rfl⟩, i, rfl,
          born_of (allocProc_dead ha) (by simp) (by simp) (fun j hj => ?_) rfl⟩
        simp only [Bool.not_true, Bool.false_eq_true, if_false]
        rw [counted_procs, setProc_of_ne hj, setProc_of_ne hj, setProc_of_ne hj]

end Create

section Pids

variable {s s' : Sched} {i : Slot}

theorem DistinctPids.same (h : DistinctPids s) (ht : SameTable s s') : DistinctPids s' := by
  intro j hj k hk hjk
  rw [ht.pids j hj, ht.pids k hk] at hjk
  exact h j (ht.slots ▸ hj) k (ht.slots ▸ hk) hjk

theorem DistinctPids.born {pid : Nat} (h : DistinctPids s) (hb : Born s s' pid i)
    (hf : ∀ j ∈ alive s, (s.procs j).pid ≠ pid) : DistinctPids s' := by
  intro j hj k hk hjk
  rw [hb.slots, Finset.mem_insert] at hj hk
  rcases hj with rfl | hj
  · rcases hk with rfl | hk
    · rfl
    · rw [hb.pid, hb.pids k hk] at hjk
      exact absurd hjk.symm (hf k hk)
  · rcases hk with rfl | hk
    · rw [hb.pid, hb.pids j hj] at hjk
      exact absurd hjk (hf j hj)
    · rw [hb.pids j hj, hb.pids k hk] at hjk
      exact h j hj k hk hjk

theorem DistinctPids.died {k : Int} (h : DistinctPids s) (hd : Died s s' i k) :
    DistinctPids s' := by
  intro j hj l hl hjl
  rw [hd.pids j hj, hd.pids l hl] at hjl
  rw [hd.slots] at hj hl
  exact h j (Finset.mem_of_mem_erase hj) l (Finset.mem_of_mem_erase hl) hjl

def Counted (s : Sched) : Prop := s.procCount = (alive s).card

theorem Counted.same (h : Counted s) (ht : SameTable s s') : Counted s' := by
  rw [Counted, ht.count, ht.slots]
  exact h

theorem Counted.born {pid : Nat} (h : Counted s) (hb : Born s s' pid i) : Counted s' := by
  rw [Counted, hb.count, hb.slots, Finset.card_insert_of_notMem hb.fresh, h]
  rfl

theorem Counted.died (h : Counted s) (hd : Died s s' i 1) (hi : i ∈ alive s) : Counted s' := by
  rw [Counted, hd.count, hd.slots, Finset.card_erase_of_mem hi, h]
  have := Finset.card_pos.mpr ⟨i, hi⟩
  omega

end Pids

-- The pid the creating path's own counter is about to hand out belongs to no live process.
def freshPid (s : Sched) : Act → Prop
  | .create _ _ _ _ stack =>
    allocProc s = none ∨ stack = 0 ∨ ∀ i ∈ alive s, (s.procs i).pid ≠ s.nextPid
  | .createUser _ _ _ kstack mapped =>
    allocProc s = none ∨ kstack = 0 ∨ mapped = false ∨
      ∀ i ∈ alive s, (s.procs i).pid ≠ s.nextUserPid
  | .block (some i) => i ∈ alive s
  | .sleep _ _ _ _ => s.currentIdx ∈ alive s
  | _ => True

-- Nobody is killed from the shell, and a process that exits has not ended before.
def countsKept (s : Sched) : Act → Prop
  | .exit _ _ => s.currentIdx ∈ alive s
  | .kill pid => pid = 0 ∨ ∀ i ∈ alive s, (s.procs i).pid ≠ pid
  | .block (some i) => i ∈ alive s
  | .sleep _ _ _ _ => s.currentIdx ∈ alive s
  | _ => True

def staysAlive (s : Sched) : Act → Prop
  | .block (some i) => i ∈ alive s
  | .sleep _ _ _ _ => s.currentIdx ∈ alive s
  | _ => True

section Runs

variable {sym : Symbols} {s s' t : Sched} {a : Act}

theorem staysAlive_of_freshPid (h : freshPid s a) : staysAlive s a := by
  cases a with
  | sleep => exact h
  | block p =>
    cases p with
    | none => trivial
    | some i => exact h
  | _ => trivial

theorem staysAlive_of_countsKept (h : countsKept s a) : staysAlive s a := by
  cases a with
  | sleep => exact h
  | block p =>
    cases p with
    | none => trivial
    | some i => exact h
  | _ => trivial

theorem Died.same {i : Slot} {k : Int} (h : Died s s' i k) (ht : SameTable s' t) :
    Died s t i k := by
  refine ⟨ht.slots.trans h.slots, fun j hj => ?_, ht.count.trans h.count⟩
  rw [ht.pids j hj, h.pids j (ht.slots ▸ hj)]

theorem died_exit (s : Sched) (now sp : Nat) : Died s (processExit s now sp) s.currentIdx 1 := by
  have hd := died_setProc s s.currentIdx
  have hc : Died s { setProc s s.currentIdx (setState .dead) with procCount := s.procCount - 1 }
      s.currentIdx 1 := ⟨hd.slots, hd.pids, rfl⟩
  exact hc.same (sameTable_yield _ now sp)

theorem cmdKill_table (s : Sched) (pid : Nat) :
    SameTable s (cmdKill s pid).2 ∨
      pid ≠ 0 ∧ ∃ i ∈ alive s, (s.procs i).pid = pid ∧ Died s (cmdKill s pid).2 i 0 := by
  unfold cmdKill
  split
  · exact .inl (.refl s)
  · next hpid =>
    split
    · next i hi =>
      have hf := List.find?_some hi
      simp only [decide_eq_true_eq] at hf
      exact .inr ⟨hpid, i, mem_alive.mpr hf.2, hf.1, died_setProc s i⟩
    · exact .inl (.refl s)

theorem staysAlive.table (h : staysAlive s a) :
    SameTable s (exec sym s a) ∨
      (∃ pid i, Born s (exec sym s a) pid i ∧
        (freshPid s a → ∀ j ∈ alive s, (s.procs j).pid ≠ pid)) ∨
      ∃ i k, Died s (exec sym s a) i k ∧ (countsKept s a → k = 1 ∧ i ∈ alive s) := by
  cases a with
  | create func arg name priority stack =>
    rcases processCreate_table sym s name priority func arg stack with ht | ⟨hk, i, ha, hb⟩
    · exact .inl ht
    · refine .inr (.inl ⟨_, i, hb, fun hf => ?_⟩)
      rcases hf with hf | hf | hf
      · rw [hf] at ha
        cases ha
      · exact absurd hf hk
      · exact hf
  | createUser entry name priority kstack mapped =>
    rcases processCreateUser_table sym s name priority entry kstack mapped with
      ht | ⟨⟨hk, hm⟩, i, ha, hb⟩
    · exact .inl ht
    · refine .inr (.inl ⟨_, i, hb, fun hf => ?_⟩)
      rcases hf with hf | hf | hf | hf
      · rw [hf] at ha
        cases ha
      · exact absurd hf hk
      · rw [hm] at hf
        cases hf
      · exact hf
  | exit now sp => exact .inr (.inr ⟨s.currentIdx, 1, died_exit s now sp, fun hc => ⟨rfl, hc⟩⟩)
  | sleep ms frequency now sp =>
    refine .inl (.trans ?_ (sameTable_yield _ now sp))
    refine sameTable_setProc ?_ rfl
    simp only [reduceCtorEq, false_iff]
    exact mem_alive.mp h
  | block p =>
    cases p with
    | none => exact .inl (.refl s)
    | some i =>
      refine .inl (sameTable_setProc ?_ rfl)
      simp only [setState, reduceCtorEq, false_iff]
      exact mem_alive.mp h
  | unblock p =>
    cases p with
    | none => exact .inl (.refl s)
    | some i =>
      rw [exec, processUnblock]
      split
      · next hb => exact .inl (sameTable_setProc (by simp [setState, hb]) rfl)
      · exact .inl (.refl s)
  | kill pid =>
    rcases cmdKill_table s pid with ht | ⟨hpid, i, hi, hp, hd⟩
    · exact .inl ht
    · refine .inr (.inr ⟨i, 0, hd, fun hc => ?_⟩)
      rcases hc with hc | hc
      · exact absurd hc hpid
      · exact absurd hp (hc i hi)
  | yield now sp => exact .inl (sameTable_yield s now sp)
  | tick now sp => exact .inl (sameTable_tick s now sp)

theorem alive_init (s0 : Sched) : alive (schedulerInit s0) = {0} := by
  ext i
  rw [mem_alive, Finset.mem_singleton]
  by_cases hi : i = 0
  · subst hi
    simp [schedulerInit]
  · simp [schedulerInit, setState, hi]

def pidInvariant (sym : Symbols) : ((system sym).restrict freshPid).Invariant where
  holds := DistinctPids
  start := by
    rintro s ⟨s0, -, rfl⟩ i hi j hj -
    rw [alive_init, Finset.mem_singleton] at hi hj
    rw [hi, hj]
  step := by
    rintro s a s' h ⟨hf, rfl⟩
    rcases (staysAlive_of_freshPid hf).table with ht | ⟨pid, i, hb, hp⟩ | ⟨i, k, hd, -⟩
    · exact h.same ht
    · exact h.born hb (hp hf)
    · exact h.died hd

def countInvariant (sym : Symbols) : ((system sym).restrict countsKept).Invariant where
  holds := Counted
  start := by
    rintro s ⟨s0, -, rfl⟩
    rw [Counted, alive_init]
    rfl
  step := by
    rintro s a s' h ⟨hc, rfl⟩
    rcases (staysAlive_of_countsKept hc).table with ht | ⟨pid, i, hb, -⟩ | ⟨i, k, hd, hk⟩
    · exact h.same ht
    · exact h.born hb
    · obtain ⟨rfl, hi⟩ := hk hc
      exact h.died hd hi

end Runs

end Scheduler
