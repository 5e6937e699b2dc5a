import SabakaOS.Process.Occupancy

namespace Scheduler

-- Where a process that is not executing goes on: at proc_entry, after the context_switch of
-- scheduler_yield, or after the one of irq_handler's scheduler_tick.
inductive Resume where
  | fresh
  | inYield
  | inIrq
  deriving DecidableEq

-- sti, outb(0x20, 0x20) and the iret that ends an interrupt.
inductive Micro where
  | sti
  | eoi
  | iret
  deriving DecidableEq

def Resume.rest : Resume → List Micro
  | .fresh => [.sti]
  | .inYield => [.sti]
  | .inIrq => [.eoi, .iret]

-- inService is the in-service bit of IRQ0; resume is read for the slots that are not current.
structure Cpu where
  sched : Sched
  resume : Slot → Resume
  inService : Bool
  ifFlag : Bool

def Micro.run (c : Cpu) : Micro → Cpu
  | .sti => { c with ifFlag := true }
  | .eoi => { c with inService := false }
  | .iret => { c with ifFlag := true }

-- The running process reaches a scheduling point that leaves s'. Whoever then has the CPU, the
-- same process or another, does what it has left until it is out of the handler.
def Cpu.leave (c : Cpu) (s' : Sched) (how : Resume) : Cpu :=
  let resume := Function.update c.resume c.sched.currentIdx how
  (resume s'.currentIdx).rest.foldl Micro.run { c with sched := s', resume := resume }

def Cpu.timer (c : Cpu) (now sp : Nat) : Cpu :=
  ({ c with inService := true, ifFlag := false } : Cpu).leave (schedulerTick c.sched now sp) .inIrq

def Cpu.created (c : Cpu) : Option Slot × Sched → Cpu
  | (none, s') => { c with sched := s' }
  | (some i, s') => { c with sched := s', resume := Function.update c.resume i .fresh }

def Cpu.call (sym : Symbols) (c : Cpu) : Act → Cpu
  | .create func arg name priority stack =>
    c.created (processCreate sym c.sched func arg name priority stack)
  | .createUser entry name priority kstack mapped =>
    c.created (processCreateUser sym c.sched entry name priority kstack mapped)
  | .exit now sp => c.leave (processExit c.sched now sp) .inYield
  | .sleep ms frequency now sp => c.leave (processSleep c.sched ms frequency now sp) .inYield
  | .yield now sp => c.leave (schedulerYield c.sched now sp) .inYield
  | .block p => { c with sched := processBlock c.sched p }
  | .unblock p => { c with sched := processUnblock c.sched p }
  | .kill pid => { c with sched := (cmdKill c.sched pid).2 }
  | .tick now sp => c.timer now sp

inductive Event where
  | call (a : Act)
  | otherIrq
  | sti
  | cli

def isTick : Act → Bool
  | .tick _ _ => true
  | _ => false

-- IRQ0 waits for the interrupt flag and for the end of the interrupt before it.
def Event.enabled (c : Cpu) : Event → Bool
  | .call a => !isTick a || (c.ifFlag && !c.inService)
  | .otherIrq => c.ifFlag
  | .sti => true
  | .cli => true

def Event.run (sym : Symbols) (c : Cpu) : Event → Cpu
  | .call a => c.call sym a
  | .otherIrq => [Micro.eoi, .iret].foldl Micro.run { c with ifFlag := false }
  | .sti => { c with ifFlag := true }
  | .cli => { c with ifFlag := false }

def cpu (sym : Symbols) : System Cpu Event where
  init c := (∃ s0 : Sched, c.sched = schedulerInit s0) ∧ c.inService = false
  step c e c' := e.enabled c = true ∧ c' = e.run sym c

-- The process executing now can be interrupted by the next tick.
def Cpu.Clear (c : Cpu) : Prop := c.ifFlag = true → c.inService = false

-- A tick switches to no process but one that was itself interrupted by a tick.
def resumesHandler (c : Cpu) : Event → Prop
  | .call (.tick now sp) =>
    (schedulerTick c.sched now sp).currentIdx = c.sched.currentIdx ∨
      c.resume (schedulerTick c.sched now sp).currentIdx = .inIrq
  | _ => True

section Steps

variable {sym : Symbols} {c : Cpu}

theorem leave_inService (c : Cpu) (s' : Sched) (how : Resume) :
    (c.leave s' how).ifFlag = true ∧ (c.leave s' how).inService =
      (c.inService && decide (Function.update c.resume c.sched.currentIdx how s'.currentIdx ≠
        .inIrq)) := by
  unfold Cpu.leave
  cases h : Function.update c.resume c.sched.currentIdx how s'.currentIdx with
  | fresh => simp [h, Resume.rest, Micro.run]
  | inYield => simp [h, Resume.rest, Micro.run]
  | inIrq => simp [h, Resume.rest, Micro.run]

theorem timer_clear (c : Cpu) (now sp : Nat) :
    (c.timer now sp).Clear ↔ resumesHandler c (.call (.tick now sp)) := by
  obtain ⟨hif, hin⟩ := leave_inService { c with inService := true, ifFlag := false }
    (schedulerTick c.sched now sp) .inIrq
  rw [Cpu.Clear, Cpu.timer, hif, hin, resumesHandler]
  simp only [Bool.true_and, decide_eq_false_iff_not, not_not, forall_true_left]
  by_cases hc : (schedulerTick c.sched now sp).currentIdx = c.sched.currentIdx
  · simp [hc]
  · simp [hc]

theorem created_inService (c : Cpu) (r : Option Slot × Sched) :
    (c.created r).inService = c.inService := by
  rcases r with ⟨_ | i, s'⟩
  · rfl
  · rfl

theorem call_inService (h : c.inService = false) {a : Act} (ha : isTick a = false) :
    (c.call sym a).inService = false := by
  cases a with
  | create func arg name priority stack => exact (created_inService ..).trans h
  | createUser entry name priority kstack mapped => exact (created_inService ..).trans h
  | exit now sp => rw [Cpu.call, (leave_inService ..).2, h, Bool.false_and]
  | sleep ms frequency now sp => rw [Cpu.call, (leave_inService ..).2, h, Bool.false_and]
  | yield now sp => rw [Cpu.call, (leave_inService ..).2, h, Bool.false_and]
  | block p => exact h
  | unblock p => exact h
  | kill pid => exact h
  | tick now sp => cases ha

theorem run_inService (h : c.inService = false) {e : Event} (hr : resumesHandler c e) :
    (e.run sym c).inService = false := by
  cases e with
  | call a =>
    cases ha : isTick a with
    | false => exact call_inService h ha
    | true =>
      cases a with
      | tick now sp =>
        have hif := (leave_inService { c with inService := true, ifFlag := false }
          (schedulerTick c.sched now sp) .inIrq).1
        exact (timer_clear c now sp).mpr hr hif
      | _ => cases ha
  | otherIrq => rfl
  | sti => exact h
  | cli => exact h

end Steps

section Runs

variable {sym : Symbols}

def serviceInvariant (sym : Symbols) : ((cpu sym).restrict resumesHandler).Invariant where
  holds c := c.inService = false
  start h := h.2
  step := by
    rintro c e c' h ⟨hr, -, rfl⟩
    exact run_inService h hr

theorem interrupt_ended (sym : Symbols) :
    ∀ c, ((cpu sym).restrict resumesHandler).Reach c →
      c.Clear ∧ ∀ e c', (cpu sym).step c e c' → (c'.Clear ↔ resumesHandler c e) := by
  intro c hc
  have h : c.inService = false := (serviceInvariant sym).reach hc
  refine ⟨fun _ => h, fun e c' ht => ?_⟩
  obtain ⟨-, rfl⟩ := ht
  refine ⟨fun hclear => ?_, fun hr _ => run_inService h hr⟩
  cases e with
  | call a =>
    cases a with
    | tick now sp => exact (timer_clear c now sp).mp hclear
    | _ => trivial
  | _ => trivial

def bootCpu : Cpu := ⟨schedulerInit blankSched, fun _ => .fresh, false, true⟩

-- A new process gets the CPU from a yield and is then interrupted by a tick that leaves it there.
theorem interrupt_ended_yield :
    let c1 := Event.run ⟨0, 4096⟩ bootCpu (.call (.create 64 0 [] 5 0x800014))
    let c2 := Event.run ⟨0, 4096⟩ c1 (.call (.yield 3 0x80a000))
    let c3 := Event.run ⟨0, 4096⟩ c2 (.call (.tick 4 0x801f00))
    c3.Clear := by
  intro c1 c2 c3
  have hc3 : ((cpu ⟨0, 4096⟩).restrict resumesHandler).Reach c3 :=
    .next (a := .call (.tick 4 0x801f00)) (.next (a := .call (.yield 3 0x80a000))
      (.next (a := .call (.create 64 0 [] 5 0x800014)) (.start ⟨⟨blankSched, rfl⟩, rfl⟩)
        ⟨trivial, rfl, rfl⟩) ⟨trivial, rfl, rfl⟩) ⟨.inl (by decide), by decide, rfl⟩
  exact (interrupt_ended ⟨0, 4096⟩ c3 hc3).1

-- The new process is killed while it runs. The next tick hands the CPU to the kernel process, which
-- is waiting in scheduler_yield: it goes on with IRQ0 still in service.
theorem interrupt_ended_fails :
    let c1 := Event.run ⟨0, 4096⟩ bootCpu (.call (.create 64 0 [] 5 0x800014))
    let c2 := Event.run ⟨0, 4096⟩ c1 (.call (.yield 3 0x80a000))
    let c3 := Event.run ⟨0, 4096⟩ c2 (.call (.kill 1))
    let c4 := Event.run ⟨0, 4096⟩ c3 (.call (.tick 4 0x801f00))
    (cpu ⟨0, 4096⟩).Reach c4 ∧ ¬ c4.Clear := by
  intro c1 c2 c3 c4
  have hc2 : (cpu ⟨0, 4096⟩).Reach c2 :=
    .next (a := .call (.yield 3 0x80a000)) (.next (a := .call (.create 64 0 [] 5 0x800014))
      (.start ⟨⟨blankSched, rfl⟩, rfl⟩) ⟨rfl, rfl⟩) ⟨rfl, rfl⟩
  have hc4 : (cpu ⟨0, 4096⟩).Reach c4 :=
    .next (a := .call (.tick 4 0x801f00)) (.next (a := .call (.kill 1)) hc2 ⟨rfl, rfl⟩)
      ⟨by decide, rfl⟩
  exact ⟨hc4, fun h => absurd (h (by decide)) (by decide)⟩

end Runs

end Scheduler
