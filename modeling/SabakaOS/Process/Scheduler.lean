import Mathlib.Data.Fin.Basic
import Mathlib.Logic.Function.Basic
import SabakaOS.Library.Word
import SabakaOS.Library.Run

namespace Scheduler

open Word

abbrev procMax : Nat := 16

def procStackSize : Nat := 8192

def procNameLen : Nat := 32

def procUserStackSize : Nat := 8192

def userStackVirtBase : Nat := 0x10000000

inductive ProcessState where
  | dead
  | ready
  | running
  | blocked
  | sleep
  deriving DecidableEq, Repr

structure Process where
  pid : Nat
  name : List UInt8
  state : ProcessState
  esp : Nat
  stackBase : Nat
  sleepUntil : Nat
  priority : Nat
  ticksTotal : Nat
  ticksSlice : Nat
  isUser : Bool
  userEntry : Nat
  userStackVirt : Nat
  brkStart : Nat
  brkCurr : Nat

abbrev Slot := Fin 16

-- target is the state the chosen slot had when do_switch was called on it.
structure Switch where
  source : Slot
  dest : Slot
  target : ProcessState

structure Symbols where
  procs : Nat
  procEntry : Nat

structure Sched where
  procs : Slot → Process
  procCount : Int
  currentIdx : Slot
  initialized : Bool
  timeSlice : Nat
  nextPid : Nat
  nextUserPid : Nat
  stackMem : Nat → Nat
  tssEsp0 : Nat
  cpuEsp : Nat
  switches : List Switch

def setProc (s : Sched) (i : Slot) (f : Process → Process) : Sched :=
  { s with procs := Function.update s.procs i (f (s.procs i)) }

def setState (st : ProcessState) (p : Process) : Process := { p with state := st }

def processAddr (sym : Symbols) (i : Slot) : Nat := sym.procs + i.val * 84

def allocProc (s : Sched) : Option Slot :=
  (List.finRange procMax).find? (fun i => (s.procs i).state = .dead)

def kernelName : List UInt8 := [107, 101, 114, 110, 101, 108]

def schedulerInit (s : Sched) : Sched :=
  let procs := fun i => setState .dead (s.procs i)
  let idle := { procs 0 with
    pid := 0
    name := kernelName
    state := .running
    priority := 1
    ticksTotal := 0
    ticksSlice := 0
    stackBase := 0
    esp := 0 }
  { s with
    procs := Function.update procs 0 idle
    procCount := 1
    currentIdx := 0
    initialized := true }

def push (m : Nat → Nat) (sp : Nat) : List Nat → (Nat → Nat) × Nat
  | [] => (m, sp)
  | v :: vs => push (Function.update m (sub32 sp 4) v) (sub32 sp 4) vs

def counted (s : Sched) (stackMem : Nat → Nat) : Sched :=
  { s with stackMem := stackMem, procCount := s.procCount + 1 }

-- stack is what kmalloc(procStackSize) returned, 0 for nullptr.
def processCreate (sym : Symbols) (s : Sched) (func arg : Nat) (name : List UInt8)
    (priority stack : Nat) : Option Slot × Sched :=
  match allocProc s with
  | none => (none, s)
  | some i =>
    let pid := s.nextPid
    let s := setProc { s with nextPid := u32 (s.nextPid + 1) } i (fun p => { p with
      pid := pid
      state := .ready
      priority := priority
      ticksTotal := 0
      ticksSlice := 0
      sleepUntil := 0
      isUser := false
      userEntry := 0
      userStackVirt := 0
      name := name.take (procNameLen - 1) })
    if stack = 0 then (none, setProc s i (setState .dead))
    else
      let frame := push s.stackMem (u32 (stack + procStackSize))
        [arg, func, processAddr sym i, 0, sym.procEntry, 0, 0, 0, 0]
      let s := setProc s i (fun p => { p with stackBase := stack, esp := frame.2 })
      (some i, counted s frame.1)

-- mapped is the result of paging_alloc_region for the user stack.
def processCreateUser (sym : Symbols) (s : Sched) (entry : Nat) (name : List UInt8)
    (priority kstack : Nat) (mapped : Bool) : Option Slot × Sched :=
  match allocProc s with
  | none => (none, s)
  | some i =>
    let pid := s.nextUserPid
    let s := setProc { s with nextUserPid := u32 (s.nextUserPid + 1) } i (fun p => { p with
      pid := pid
      state := .ready
      priority := priority
      ticksTotal := 0
      ticksSlice := 0
      sleepUntil := 0
      isUser := true
      userEntry := entry
      brkStart := 0x40000000
      brkCurr := 0x40000000
      name := name.take (procNameLen - 1) })
    if kstack = 0 then (none, setProc s i (setState .dead))
    else
      let s := setProc s i (fun p => { p with stackBase := kstack })
      let ustackVirt := u32 (userStackVirtBase + (s.procs i).pid * procUserStackSize)
      if !mapped then (none, setProc s i (setState .dead))
      else
        let frame := push s.stackMem (u32 (kstack + procStackSize))
          [0, 0, processAddr sym i, 0, sym.procEntry, 0, 0, 0, 0]
        let s := setProc s i (fun p => { p with
          userStackVirt := u32 (ustackVirt + procUserStackSize)
          esp := frame.2 })
        (some i, counted s frame.1)

-- sp is the stack pointer that context_switch stores after its four pushes.
def doSwitch (s : Sched) (nextIdx : Slot) (sp : Nat) : Sched :=
  if nextIdx = s.currentIdx then s
  else
    let prevIdx := s.currentIdx
    let target := (s.procs nextIdx).state
    let s := { s with currentIdx := nextIdx }
    let s := setProc s prevIdx (fun p => if p.state = .running then setState .ready p else p)
    let s := setProc s nextIdx (fun p => { p with state := .running, ticksSlice := 0 })
    let s := { s with tssEsp0 := u32 ((s.procs nextIdx).stackBase + procStackSize) }
    let s := setProc s prevIdx (fun p => { p with esp := sp })
    { s with
      cpuEsp := (s.procs nextIdx).esp
      switches := ⟨prevIdx, nextIdx, target⟩ :: s.switches }

def wake (now : Nat) (p : Process) : Process :=
  if p.state = .sleep ∧ p.sleepUntil ≤ now then setState .ready p else p

def slotAfter (i : Slot) (k : Nat) : Slot := ⟨(i.val + k) % procMax, Nat.mod_lt _ (by decide)⟩

def findNext (s : Sched) (now : Nat) : Slot × Sched :=
  let s := { s with procs := fun i => wake now (s.procs i) }
  match (List.range' 1 procMax).find?
      (fun k => (s.procs (slotAfter s.currentIdx k)).state = .ready) with
  | some k => (slotAfter s.currentIdx k, s)
  | none =>
    if (s.procs 0).state = .ready ∨ (s.procs 0).state = .running then (0, s)
    else (s.currentIdx, s)

def schedulerYield (s : Sched) (now sp : Nat) : Sched :=
  let r := findNext s now
  if r.1 ≠ r.2.currentIdx then doSwitch r.2 r.1 sp else r.2

def schedulerTick (s : Sched) (now sp : Nat) : Sched :=
  if !s.initialized then s
  else
    let s := setProc s s.currentIdx (fun p => { p with
      ticksTotal := u32 (p.ticksTotal + 1)
      ticksSlice := u32 (p.ticksSlice + 1) })
    let cur := s.procs s.currentIdx
    if s.timeSlice ≤ cur.ticksSlice ∨ cur.state = .dead ∨ cur.state = .sleep ∨
        cur.state = .blocked then
      let r := findNext s now
      if r.1 ≠ r.2.currentIdx then doSwitch r.2 r.1 sp else r.2
    else s

def processExit (s : Sched) (now sp : Nat) : Sched :=
  let s := setProc s s.currentIdx (setState .dead)
  schedulerYield { s with procCount := s.procCount - 1 } now sp

def processBlock (s : Sched) : Option Slot → Sched
  | none => s
  | some i => setProc s i (setState .blocked)

def processUnblock (s : Sched) : Option Slot → Sched
  | none => s
  | some i => if (s.procs i).state = .blocked then setProc s i (setState .ready) else s

def processSleep (s : Sched) (ms frequency now sp : Nat) : Sched :=
  let s := setProc s s.currentIdx (fun p => { p with
    state := .sleep
    sleepUntil := u32 (now + u32 (ms * frequency) / 1000) })
  schedulerYield s now sp

-- pid is what katoi reads from argv[1]; the slot found is the one reported as killed.
def cmdKill (s : Sched) (pid : Nat) : Option Slot × Sched :=
  if pid = 0 then (none, s)
  else
    match (List.finRange procMax).find?
        (fun i => (s.procs i).pid = pid ∧ (s.procs i).state ≠ .dead) with
    | some i => (some i, setProc s i (setState .dead))
    | none => (none, s)

inductive Act where
  | create (func arg : Nat) (name : List UInt8) (priority stack : Nat)
  | createUser (entry : Nat) (name : List UInt8) (priority kstack : Nat) (mapped : Bool)
  | exit (now sp : Nat)
  | sleep (ms frequency now sp : Nat)
  | block (p : Option Slot)
  | unblock (p : Option Slot)
  | kill (pid : Nat)
  | yield (now sp : Nat)
  | tick (now sp : Nat)

def exec (sym : Symbols) (s : Sched) : Act → Sched
  | .create func arg name priority stack => (processCreate sym s func arg name priority stack).2
  | .createUser entry name priority kstack mapped =>
    (processCreateUser sym s entry name priority kstack mapped).2
  | .exit now sp => processExit s now sp
  | .sleep ms frequency now sp => processSleep s ms frequency now sp
  | .block p => processBlock s p
  | .unblock p => processUnblock s p
  | .kill pid => (cmdKill s pid).2
  | .yield now sp => schedulerYield s now sp
  | .tick now sp => schedulerTick s now sp

def system (sym : Symbols) : System Sched Act where
  init s := ∃ s0 : Sched, s0.switches = [] ∧ s = schedulerInit s0
  step s a s' := s' = exec sym s a

-- Process 0 only halts in kernel_main: it never sleeps, blocks or exits.
def kernelStays (s : Sched) : Act → Prop
  | .exit _ _ => s.currentIdx ≠ 0
  | .sleep _ _ _ _ => s.currentIdx ≠ 0
  | .block p => p ≠ some 0
  | _ => True

end Scheduler
