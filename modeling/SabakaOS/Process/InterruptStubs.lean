import SabakaOS.Library.X86

namespace Interrupts

open Word X86

structure IdtEntry where
  offsetLow : Nat
  selector : Nat
  zero : Nat
  typeAttr : Nat
  offsetHigh : Nat

def idtSetGate (idt : Nat → IdtEntry) (num base sel flags : Nat) : Nat → IdtEntry :=
  Function.update idt num
    { offsetLow := base % 65536
      offsetHigh := base / 65536 % 65536
      selector := sel
      zero := 0
      typeAttr := flags }

def idtGateInterrupt : Nat := 0x8E

def idtGateSyscall : Nat := 0xEE

-- stub gives the addresses of isr0 to isr31, irq0 to irq15 and isr128.
def idtInit (stub : Nat → Nat) (idt : Nat → IdtEntry) : Nat → IdtEntry :=
  let idt := (List.range 256).foldl (fun idt i => idtSetGate idt i 0 0 0) idt
  let idt := (List.range 48).foldl (fun idt i => idtSetGate idt i (stub i) 0x08 idtGateInterrupt)
    idt
  idtSetGate idt 0x80 (stub 0x80) 0x08 idtGateSyscall

-- How the processor reads an entry: bit 7 is present, bits 5 and 6 the ring, and type 0xE is
-- the gate that clears the interrupt flag.
def gate (e : IdtEntry) : Gate where
  offset := e.offsetHigh * 65536 + e.offsetLow
  selector := e.selector
  present := e.typeAttr.testBit 7
  dpl := e.typeAttr / 32 % 4
  masks := e.typeAttr % 16 = 0xE

def isrNoErr (v : Nat) : List Instr := [.cli, .pushImm 0, .pushImm v]

def isrErr (v : Nat) : List Instr := [.cli, .pushImm v]

def irq (v : Nat) : List Instr := [.cli, .pushImm 0, .pushImm v]

def isr128 : List Instr := [.pushImm 0, .pushImm 0x80]

def pushesError (v : Nat) : Bool := v ∈ [8, 10, 11, 12, 13, 14, 17, 30]

def stub (v : Nat) : List Instr :=
  if v = 0x80 then isr128
  else if 32 ≤ v then irq v
  else if pushesError v then isrErr v
  else isrNoErr v

-- isr_common, irq_common and isr128_common up to the call of the handler.
def commonEntry : List Instr :=
  [.pusha, .movAxSeg .ds, .push .eax,
    .movAxImm 0x10, .movSegAx .ds, .movSegAx .es, .movSegAx .fs, .movSegAx .gs,
    .push .esp]

def commonExit : List Instr :=
  [.pop .eax, .pop .eax,
    .movSegAx .ds, .movSegAx .es, .movSegAx .fs, .movSegAx .gs,
    .popa, .addImm .esp 8, .iret]

structure Registers where
  ds : Nat
  edi : Nat
  esi : Nat
  ebp : Nat
  esp : Nat
  ebx : Nat
  edx : Nat
  ecx : Nat
  eax : Nat
  intNo : Nat
  errCode : Nat
  eip : Nat
  cs : Nat
  eflags : Nat
  useresp : Nat
  ss : Nat

def Registers.read (m : Nat → Nat) (p : Nat) : Registers :=
  ⟨m p, m (p + 4), m (p + 8), m (p + 12), m (p + 16), m (p + 20), m (p + 24), m (p + 28),
    m (p + 32), m (p + 36), m (p + 40), m (p + 44), m (p + 48), m (p + 52), m (p + 56), m (p + 60)⟩

-- The stack that tss.esp0 and tss.ss0 give an interrupt of ring 3.
structure Tss where
  esp0 : Nat
  ss0 : Nat

def enter (idt : Nat → IdtEntry) (tss : Tss) (v : Nat) (software : Bool) (error : Option Nat)
    (c : Core) : Option Core :=
  (c.deliver (gate (idt v)) tss.esp0 tss.ss0 software error).map fun c =>
    c.run (stub v ++ commonEntry)

-- handler is the call of isr_handler or irq_handler, up to its return.
def interrupt (idt : Nat → IdtEntry) (tss : Tss) (v : Nat) (software : Bool) (error : Option Nat)
    (handler : Core → Core) (c : Core) : Option Core :=
  (enter idt tss v software error c).map fun c => (handler c).run commonExit

section Table

variable {stubs : Nat → Nat} {idt : Nat → IdtEntry} {v : Nat}

theorem foldl_setGate (f : Nat → Nat) (sel flags n : Nat) (idt : Nat → IdtEntry) (v : Nat) :
    ((List.range n).foldl (fun idt i => idtSetGate idt i (f i) sel flags) idt) v =
      if v < n then idtSetGate idt v (f v) sel flags v else idt v := by
  induction n with
  | zero => simp
  | succ n ih =>
    rw [List.range_succ, List.foldl_append, List.foldl_cons, List.foldl_nil, idtSetGate]
    by_cases hv : v = n
    · subst hv
      rw [Function.update_self, if_pos (Nat.lt_succ_self v), idtSetGate, Function.update_self]
    · rw [Function.update_of_ne hv, ih]
      by_cases hlt : v < n
      · rw [if_pos hlt, if_pos (by omega)]
      · rw [if_neg hlt, if_neg (by omega)]

-- The vectors that have a stub.
def Vector (v : Nat) : Prop := v < 48 ∨ v = 0x80

def dpl (v : Nat) : Nat := if v = 0x80 then 3 else 0

theorem idtInit_gate (hv : Vector v) (hs : stubs v < 2 ^ 32) :
    gate (idtInit stubs idt v) = ⟨stubs v, 0x08, true, dpl v, true⟩ := by
  unfold idtInit
  by_cases h128 : v = 0x80
  · subst h128
    rw [idtSetGate, Function.update_self, gate, Gate.mk.injEq]
    exact ⟨by dsimp only; omega, rfl, show Nat.testBit 0xEE 7 = true from rfl,
      show 0xEE / 32 % 4 = 3 from rfl, decide_eq_true (show 0xEE % 16 = 0xE from rfl)⟩
  · have hlt : v < 48 := hv.resolve_right h128
    rw [idtSetGate, Function.update_of_ne h128, foldl_setGate, if_pos hlt, idtSetGate,
      Function.update_self, gate, Gate.mk.injEq, dpl, if_neg h128]
    exact ⟨by dsimp only; omega, rfl, show Nat.testBit 0x8E 7 = true from rfl,
      show 0x8E / 32 % 4 = 0 from rfl, decide_eq_true (show 0x8E % 16 = 0xE from rfl)⟩

theorem idtInit_absent (hv : ¬Vector v) (hlt : v < 256) :
    (gate (idtInit stubs idt v)).present = false := by
  unfold Vector at hv
  unfold idtInit
  rw [idtSetGate, Function.update_of_ne (by omega), foldl_setGate, if_neg (by omega),
    foldl_setGate, if_pos hlt, idtSetGate, Function.update_self]
  rfl

end Table

section Entry

variable {c inner d : Core} {l : List Nat} {v : Nat} {error : Option Nat}

-- d has the words of l on the stack of inner, the registers of c and no interrupts.
structure Pushed (c inner : Core) (l : List Nat) (d : Core) : Prop where
  stack : Core.Stacked inner l d
  reg : ∀ r, r ≠ .esp → d.reg r = c.reg r
  masked : d.eflags.testBit 9 = false

theorem testBit_cli (n : Nat) : (n &&& 0xFFFFFDFF).testBit 9 = false := by
  rw [Nat.testBit_and, show Nat.testBit 0xFFFFFDFF 9 = false from rfl, Bool.and_false]

theorem Pushed.pushImm (h : Pushed c inner l d) (w : Nat) :
    Pushed c inner (l ++ [w]) (d.exec (.pushImm w)) :=
  ⟨h.stack.push w, fun r hr => (Core.push_reg hr).trans (h.reg r hr), h.masked⟩

theorem Pushed.cli (h : Pushed c inner l d) : Pushed c inner l (d.exec .cli) :=
  ⟨⟨h.stack.mem, h.stack.esp⟩, h.reg, testBit_cli _⟩

theorem stub_run (h : Pushed c inner (l ++ error.toList) d) (he : error.isSome = pushesError v) :
    Pushed c inner (l ++ [error.getD 0, v]) (d.run (stub v)) ∧
      (d.run (stub v)).seg = d.seg := by
  have hzero : pushesError v = false → l ++ error.toList = l ∧ error.getD 0 = 0 := by
    intro hv
    rw [hv] at he
    cases error with
    | none => exact ⟨List.append_nil l, rfl⟩
    | some e => cases he
  have hpair : ∀ w, l ++ [w, v] = l ++ [w] ++ [v] := fun w => by simp
  unfold stub
  split
  · next h128 =>
    subst h128
    obtain ⟨hl, h0⟩ := hzero rfl
    rw [hl] at h
    rw [h0, hpair]
    exact ⟨(h.pushImm 0).pushImm 0x80, rfl⟩
  · split
    · next hirq =>
      obtain ⟨hl, h0⟩ := hzero (by
        simp only [pushesError, List.mem_cons, List.not_mem_nil, or_false, decide_eq_false_iff_not]
        omega)
      rw [hl] at h
      rw [h0, hpair]
      exact ⟨(h.cli.pushImm 0).pushImm v, rfl⟩
    · split
      · next herr =>
        rw [herr] at he
        obtain ⟨e, rfl⟩ := Option.isSome_iff_exists.mp he
        rw [hpair]
        exact ⟨h.cli.pushImm v, rfl⟩
      · next herr =>
        obtain ⟨hl, h0⟩ := hzero (Bool.eq_false_iff.mpr herr)
        rw [hl] at h
        rw [h0, hpair]
        exact ⟨(h.cli.pushImm 0).pushImm v, rfl⟩

def dsWord (c : Core) : Nat := c.reg .eax / 65536 * 65536 + u16 (c.seg .ds)

-- What pusha and the two pushes after it leave above the stub's words.
def savedWords (c : Core) (sp regs : Nat) : List Nat :=
  [c.reg .eax, c.reg .ecx, c.reg .edx, c.reg .ebx, sp, c.reg .ebp, c.reg .esi, c.reg .edi,
    dsWord c, regs]

def dataSegs : List Seg := [.ds, .es, .fs, .gs]

structure Common (c inner : Core) (l : List Nat) (sp : Nat) (old d : Core) : Prop where
  stack : Core.Stacked inner (l ++ savedWords c sp (sp - 36)) d
  esp : d.reg .esp = sp - 40
  masked : d.eflags.testBit 9 = false
  kept : ∀ s, s ∉ dataSegs → d.seg s = old.seg s
  data : ∀ s ∈ dataSegs, d.seg s = 0x10

theorem movSegs_run {w : Nat} (h : u16 (d.reg .eax) = w) :
    ∃ d', d.run [.movSegAx .ds, .movSegAx .es, .movSegAx .fs, .movSegAx .gs] = d' ∧
      d'.mem = d.mem ∧ d'.reg = d.reg ∧ d'.eflags = d.eflags ∧
      (∀ s, s ∉ dataSegs → d'.seg s = d.seg s) ∧ ∀ s ∈ dataSegs, d'.seg s = w := by
  have hall : d.run [.movSegAx .ds, .movSegAx .es, .movSegAx .fs, .movSegAx .gs] =
      (((d.setSeg .ds (u16 (d.reg .eax))).setSeg .es (u16 (d.reg .eax))).setSeg .fs
        (u16 (d.reg .eax))).setSeg .gs (u16 (d.reg .eax)) := rfl
  rw [h] at hall
  refine ⟨_, hall, rfl, rfl, rfl, fun s hs => ?_, fun s hs => ?_⟩
  · rw [dataSegs] at hs
    simp only [List.mem_cons, List.not_mem_nil, or_false, not_or] at hs
    rw [Core.setSeg_of_ne hs.2.2.2, Core.setSeg_of_ne hs.2.2.1, Core.setSeg_of_ne hs.2.1,
      Core.setSeg_of_ne hs.1]
  · cases s
    all_goals first | rfl | exact absurd hs (by decide)

theorem saves_run {sp : Nat} (h : Pushed c inner l d) (hds : d.seg .ds = c.seg .ds)
    (hsp : (inner.pushAll l).reg .esp = sp) (hlo : 40 ≤ sp) (hhi : sp < 2 ^ 32) :
    ∃ d', d.run [.pusha, .movAxSeg .ds, .push .eax] = d' ∧
      Core.Stacked inner (l ++ (savedWords c sp (sp - 36)).take 9) d' ∧
      d'.reg .esp = sp - 36 ∧ d'.seg = d.seg ∧ d'.eflags = d.eflags := by
  obtain ⟨eight, height⟩ : ∃ ws, [c.reg .eax, c.reg .ecx, c.reg .edx, c.reg .ebx, sp, c.reg .ebp,
    c.reg .esi, c.reg .edi] = ws := ⟨_, rfl⟩
  have hpusha : d.exec .pusha = d.pushAll eight := by
    rw [← height, ← hsp, ← h.stack.esp, ← h.reg .eax (by decide), ← h.reg .ecx (by decide),
      ← h.reg .edx (by decide), ← h.reg .ebx (by decide), ← h.reg .ebp (by decide),
      ← h.reg .esi (by decide), ← h.reg .edi (by decide)]
    rfl
  have hlen : eight.length = 8 := height ▸ rfl
  have hwords : l ++ (savedWords c sp (sp - 36)).take 9 = l ++ eight ++ [dsWord c] := by
    rw [List.append_assoc, ← height]
    rfl
  have hesp : (d.pushAll eight).reg .esp = sp - 32 := by
    have hd := h.stack.esp.trans hsp
    rw [Core.pushAll_esp (by omega) (by omega), hd, hlen]
  have hds1 : ((d.pushAll eight).exec (.movAxSeg .ds)).reg .eax = dsWord c := by
    refine Core.setReg_self.trans ?_
    rw [Core.pushAll_reg (by decide), h.reg _ (by decide), Core.pushAll_seg, hds, dsWord]
  have hstack1 : Core.Stacked inner (l ++ eight) ((d.pushAll eight).exec (.movAxSeg .ds)) :=
    Core.Stacked.setReg h.stack.pushAll (by decide)
  have hesp1 : ((d.pushAll eight).exec (.movAxSeg .ds)).reg .esp = sp - 32 :=
    (Core.setReg_of_ne (by decide)).trans hesp
  have hseg1 : ((d.pushAll eight).exec (.movAxSeg .ds)).seg = d.seg :=
    Core.setReg_seg.trans Core.pushAll_seg
  have hfl1 : ((d.pushAll eight).exec (.movAxSeg .ds)).eflags = d.eflags :=
    Core.setReg_eflags.trans Core.pushAll_eflags
  rw [Core.run_cons, hpusha, Core.run_cons, Core.run_cons, Core.run_nil, hwords, ← hds1]
  generalize (d.pushAll eight).exec (.movAxSeg .ds) = d1 at *
  refine ⟨_, Core.exec_push, hstack1.push _, ?_, Core.push_seg.trans hseg1,
    Core.push_eflags.trans hfl1⟩
  rw [Core.push_esp (by omega) (by omega), hesp1]
  omega

theorem loads_run (hesp : 4 ≤ d.reg .esp) (hlt : d.reg .esp < 2 ^ 32)
    (hs : Core.Stacked inner l d) :
    ∃ d', d.run (commonEntry.drop 3) = d' ∧ Core.Stacked inner (l ++ [d.reg .esp]) d' ∧
      d'.reg .esp = d.reg .esp - 4 ∧ d'.eflags = d.eflags ∧
      (∀ s, s ∉ dataSegs → d'.seg s = d.seg s) ∧ ∀ s ∈ dataSegs, d'.seg s = 0x10 := by
  have hax : u16 ((d.exec (.movAxImm 0x10)).reg .eax) = 0x10 := by
    rw [show (d.exec (.movAxImm 0x10)).reg .eax = d.reg .eax / 65536 * 65536 + u16 0x10 from
      Core.setReg_self]
    unfold u16
    omega
  have hesp1 : (d.exec (.movAxImm 0x10)).reg .esp = d.reg .esp := Core.setReg_of_ne (by decide)
  have hs1 : Core.Stacked inner l (d.exec (.movAxImm 0x10)) := hs.setReg (by decide)
  have hseg1 : (d.exec (.movAxImm 0x10)).seg = d.seg := rfl
  have hfl1 : (d.exec (.movAxImm 0x10)).eflags = d.eflags := rfl
  rw [show commonEntry.drop 3 = [.movAxImm 0x10] ++ ([.movSegAx .ds, .movSegAx .es, .movSegAx .fs,
    .movSegAx .gs] ++ [.push .esp]) from rfl, Core.run_append, Core.run_cons, Core.run_nil]
  generalize d.exec (.movAxImm 0x10) = d1 at *
  obtain ⟨d2, hrun, hmem2, hreg2, hfl2, hkept, hdata⟩ := movSegs_run hax
  have hesp2 : d2.reg .esp = d.reg .esp := (congrFun hreg2 _).trans hesp1
  have hs2 : Core.Stacked inner l d2 := ⟨hmem2.trans hs1.mem, hesp2.trans (hesp1 ▸ hs1.esp)⟩
  rw [Core.run_append, hrun, Core.run_cons, Core.run_nil, ← hesp2]
  exact ⟨_, Core.exec_push, hs2.push _, Core.push_esp (by omega) (by omega),
    Core.push_eflags.trans (hfl2.trans hfl1),
    fun s hs => (congrFun Core.push_seg s).trans ((hkept s hs).trans (congrFun hseg1 s)),
    fun s hs => (congrFun Core.push_seg s).trans (hdata s hs)⟩

theorem commonEntry_run {sp : Nat} (h : Pushed c inner l d) (hds : d.seg .ds = c.seg .ds)
    (hsp : (inner.pushAll l).reg .esp = sp) (hlo : 40 ≤ sp) (hhi : sp < 2 ^ 32) :
    Common c inner l sp d (d.run commonEntry) := by
  obtain ⟨d1, hrun1, hs1, hesp1, hseg1, hfl1⟩ := saves_run h hds hsp hlo hhi
  obtain ⟨d2, hrun2, hs2, hesp2, hfl2, hkept, hdata⟩ := loads_run (by omega) (by omega) hs1
  have hrun : d.run commonEntry = d2 := by
    rw [← List.take_append_drop 3 commonEntry, Core.run_append, ← hrun2, ← hrun1]
    rfl
  rw [hesp1, List.append_assoc] at hs2
  rw [hrun]
  exact
    { stack := hs2
      esp := by omega
      masked := by
        rw [hfl2, hfl1]
        exact h.masked
      kept := fun s hs => (hkept s hs).trans (congrFun hseg1 s)
      data := hdata }

end Entry

section Exit

variable {d d' : Core} {p : Nat} {f : Registers}

-- The interrupted state is taken from the saved registers, their esp and ss only where the ring
-- changes.
structure Left (f : Registers) (p : Nat) (d d' : Core) : Prop where
  eax : d'.reg .eax = f.eax
  ecx : d'.reg .ecx = f.ecx
  edx : d'.reg .edx = f.edx
  ebx : d'.reg .ebx = f.ebx
  ebp : d'.reg .ebp = f.ebp
  esi : d'.reg .esi = f.esi
  edi : d'.reg .edi = f.edi
  eip : d'.eip = f.eip
  cs : d'.seg .cs = f.cs
  eflags : d'.eflags = f.eflags
  data : ∀ s ∈ dataSegs, d'.seg s = u16 f.ds
  mem : d'.mem = d.mem
  inner : f.cs % 4 = d.ring → d'.reg .esp = p + 56 ∧ d'.seg .ss = d.seg .ss
  outer : f.cs % 4 ≠ d.ring → d'.reg .esp = f.useresp ∧ d'.seg .ss = f.ss

theorem commonExit_run (hp : d.reg .esp + 4 = p) (hhi : p + 64 < 2 ^ 32) :
    Left (.read d.mem p) p d (d.run commonExit) := by
  have hesp1 : (d.pop .eax).reg .esp = p := by rw [Core.pop_esp (by decide) (by omega), hp]
  have hmem1 : (d.pop .eax).mem = d.mem := rfl
  have hesp2 : ((d.pop .eax).pop .eax).reg .esp = p + 4 := by
    rw [Core.pop_esp (by decide) (by omega), hesp1]
  have hax : u16 (((d.pop .eax).pop .eax).reg .eax) = u16 (d.mem p) := by
    rw [Core.pop_self (by omega), hesp1, hmem1]
  obtain ⟨d3, hrun3, hmem3, hreg3, -, hkept, hdata⟩ := movSegs_run hax
  rw [show commonExit = [.pop .eax, .pop .eax] ++ ([.movSegAx .ds, .movSegAx .es, .movSegAx .fs,
    .movSegAx .gs] ++ [.popa, .addImm .esp 8, .iret]) from rfl, Core.run_append, Core.run_append]
  rw [show d.run [.pop .eax, .pop .eax] = (d.pop .eax).pop .eax from rfl, hrun3]
  have hmem : d3.mem = d.mem := hmem3.trans (Core.pop_mem.trans Core.pop_mem)
  have hesp3 : d3.reg .esp = p + 4 := (congrFun hreg3 _).trans hesp2
  have hseg : ∀ s, s ∉ dataSegs → d3.seg s = d.seg s := fun s hs =>
    (hkept s hs).trans (congrFun (Core.pop_seg.trans Core.pop_seg) s)
  have hr := Core.popa_restored (c := d3) (by omega)
  rw [Core.run_cons]
  generalize d3.exec .popa = d4 at *
  have hesp4 : d4.reg .esp = p + 36 := by rw [hr.esp, hesp3]
  have hesp5 : (d4.exec (.addImm .esp 8)).reg .esp = p + 44 := by
    refine Core.setReg_self.trans ?_
    rw [hesp4, u32_of_lt (by omega)]
  have hreg5 : ∀ r, r ≠ .esp → (d4.exec (.addImm .esp 8)).reg r = d4.reg r := fun r hne =>
    Core.setReg_of_ne hne
  have hmem5 : (d4.exec (.addImm .esp 8)).mem = d.mem :=
    Core.setReg_mem.trans (hr.mem.trans hmem)
  have hseg5 : (d4.exec (.addImm .esp 8)).seg = d3.seg := Core.setReg_seg.trans hr.seg
  rw [Core.run_cons]
  generalize d4.exec (.addImm .esp 8) = d5 at *
  have hi := Core.iret_returned (c := d5) (by omega)
  have hring : d5.ring = d.ring := by
    rw [Core.ring, Core.ring, hseg5, hseg .cs (by decide)]
  rw [Core.run_cons, Core.run_nil]
  change Left _ p d d5.iret
  generalize d5.iret = d6 at *
  have hword : ∀ k, d5.mem (d5.reg .esp + k) = d.mem (p + 44 + k) := fun k => by
    rw [hmem5, hesp5]
  have hsaved : ∀ k, d3.mem (d3.reg .esp + k) = d.mem (p + 4 + k) := fun k => by
    rw [hmem, hesp3]
  have hgpr : ∀ r v, r ≠ .esp → d4.reg r = v → d6.reg r = v := fun r v hne hv =>
    (hi.reg r hne).trans ((hreg5 r hne).trans hv)
  exact
    { eax := hgpr _ _ (by decide) (hr.eax.trans (hsaved 28))
      ecx := hgpr _ _ (by decide) (hr.ecx.trans (hsaved 24))
      edx := hgpr _ _ (by decide) (hr.edx.trans (hsaved 20))
      ebx := hgpr _ _ (by decide) (hr.ebx.trans (hsaved 16))
      ebp := hgpr _ _ (by decide) (hr.ebp.trans (hsaved 8))
      esi := hgpr _ _ (by decide) (hr.esi.trans (hsaved 4))
      edi := hgpr _ _ (by decide) (hr.edi.trans (hsaved 0))
      eip := hi.eip.trans (hword 0)
      cs := hi.cs.trans (hword 4)
      eflags := hi.eflags.trans (hword 8)
      data := fun s hs => (hi.seg s (ne_of_mem_of_not_mem hs (by decide))
        (ne_of_mem_of_not_mem hs (by decide))).trans ((congrFun hseg5 s).trans (hdata s hs))
      mem := hi.mem.trans hmem5
      inner := fun he => by
        have hsame : d5.mem (d5.reg .esp + 4) % 4 = d5.ring := by
          rw [hword 4, hring]
          exact he
        obtain ⟨hsp, hss⟩ := hi.inner hsame
        exact ⟨by rw [hsp, hesp5], by rw [hss, hseg5, hseg .ss (by decide)]⟩
      outer := fun he => by
        have hdiff : d5.mem (d5.reg .esp + 4) % 4 ≠ d5.ring := by
          rw [hword 4, hring]
          exact he
        obtain ⟨hsp, hss⟩ := hi.outer hdiff
        exact ⟨hsp.trans (hword 12), hss.trans (hword 16)⟩ }

end Exit

section Whole

variable {stubs : Nat → Nat} {idt : Nat → IdtEntry} {tss : Tss} {v : Nat} {software : Bool}
  {error : Option Nat} {c d : Core}

def kernelStack (tss : Tss) (c : Core) : Core := c.inner tss.esp0 tss.ss0

-- Where the saved registers are, as irq_handler gets them.
def regsOf (tss : Tss) (c : Core) : Nat :=
  (kernelStack tss c).reg .esp - 4 * (c.outerWords.length + 14)

-- An interrupt the kernel has a stub for. Only int 0x80 is open to ring 3, and the processor has
-- an error code for the vectors whose stub expects one.
structure Arises (stubs : Nat → Nat) (tss : Tss) (v : Nat) (software : Bool)
    (error : Option Nat) (c : Core) : Prop where
  vector : Vector v
  stub : stubs v < 2 ^ 32
  allowed : software = true → c.ring = 0 ∨ v = 0x80
  error : error.isSome = pushesError v
  room : 68 ≤ (kernelStack tss c).reg .esp ∧ (kernelStack tss c).reg .esp + 8 < 2 ^ 32
  ds : c.seg .ds < 65536

-- What the handler finds: the interrupted state in the registers it is given, ring 0, the
-- kernel's data segments, and interrupts off, for int 0x80 too.
structure Entered (tss : Tss) (v : Nat) (error : Option Nat) (c d : Core) : Prop where
  esp : d.reg .esp + 4 = regsOf tss c
  regs : d.mem (d.reg .esp) = regsOf tss c
  saved : Registers.read d.mem (regsOf tss c) =
    { ds := dsWord c
      edi := c.reg .edi
      esi := c.reg .esi
      ebp := c.reg .ebp
      esp := regsOf tss c + 36
      ebx := c.reg .ebx
      edx := c.reg .edx
      ecx := c.reg .ecx
      eax := c.reg .eax
      intNo := v
      errCode := error.getD 0
      eip := c.eip
      cs := c.seg .cs
      eflags := c.eflags
      useresp := if c.ring = 0 then c.mem (c.reg .esp) else c.reg .esp
      ss := if c.ring = 0 then c.mem (c.reg .esp + 4) else c.seg .ss }
  other : ∀ a, a + 4 < regsOf tss c ∨ (kernelStack tss c).reg .esp ≤ a → d.mem a = c.mem a
  ring : d.ring = 0
  stack : d.seg .ss = (kernelStack tss c).seg .ss
  data : ∀ s ∈ dataSegs, d.seg s = 0x10
  masked : d.eflags.testBit 9 = false

theorem kernelStack_reg (c : Core) {r : Reg} (hr : r ≠ .esp) :
    (kernelStack tss c).reg r = c.reg r := by
  unfold kernelStack Core.inner
  split
  · rfl
  · exact Core.setReg_of_ne hr

theorem kernelStack_mem (c : Core) : (kernelStack tss c).mem = c.mem := by
  unfold kernelStack Core.inner
  split <;> rfl

theorem kernelStack_seg (c : Core) {s : Seg} (hs : s ≠ .ss) :
    (kernelStack tss c).seg s = c.seg s := by
  unfold kernelStack Core.inner
  split
  · rfl
  · exact Core.setSeg_of_ne hs

variable (idt) in
theorem enter_some (h : Arises stubs tss v software error c) :
    ∃ d, enter (idtInit stubs idt) tss v software error c = some (d.run (stub v ++ commonEntry)) ∧
      Pushed c (kernelStack tss c)
        (c.outerWords ++ [c.eflags, c.seg .cs, c.eip] ++ error.toList) d ∧
      d.seg .cs = 0x08 ∧ ∀ s, s ≠ .cs → d.seg s = (kernelStack tss c).seg s := by
  have hopen : (software && decide (dpl v < c.ring)) = false := by
    cases hsw : software with
    | false => rfl
    | true =>
      have hlt : c.ring < 4 := Nat.mod_lt _ (by decide)
      rw [Bool.true_and, decide_eq_false_iff_not, dpl]
      rcases h.allowed hsw with h0 | h128
      · rw [h0]
        exact Nat.not_lt_zero _
      · rw [if_pos h128]
        omega
  unfold enter Core.deliver
  rw [idtInit_gate h.vector h.stub, hopen]
  refine ⟨_, rfl, ⟨⟨rfl, rfl⟩, fun r hr => ?_, testBit_cli _⟩, Core.setSeg_self, fun s hs => ?_⟩
  · exact (Core.pushAll_reg hr).trans (kernelStack_reg c hr)
  · exact (Core.setSeg_of_ne hs).trans (congrFun Core.pushAll_seg s)

variable (idt) in
theorem enter_entered (h : Arises stubs tss v software error c) :
    ∃ d, enter (idtInit stubs idt) tss v software error c = some d ∧ Entered tss v error c d := by
  obtain ⟨d0, hrun, hp, hcs0, hseg0⟩ := enter_some idt h
  obtain ⟨hroom, hroom'⟩ := h.room
  have hm : c.outerWords.length ≤ 2 := by
    unfold Core.outerWords
    split
    · exact Nat.zero_le _
    · exact le_rfl
  obtain ⟨hp1, hseg1⟩ := stub_run hp h.error
  have hsp : ((kernelStack tss c).pushAll (c.outerWords ++ [c.eflags, c.seg .cs, c.eip] ++
      [error.getD 0, v])).reg .esp = regsOf tss c + 36 := by
    rw [Core.pushAll_esp (by simp; omega) (by omega), regsOf]
    simp
    omega
  have hds1 : (d0.run (stub v)).seg .ds = c.seg .ds := by
    rw [hseg1, hseg0 _ (by decide), kernelStack_seg c (by decide)]
  have hlo : 40 ≤ regsOf tss c + 36 := by
    unfold regsOf
    omega
  have hhi : regsOf tss c + 36 < 2 ^ 32 := by
    unfold regsOf
    omega
  have hc := commonEntry_run hp1 hds1 hsp hlo hhi
  rw [← Core.run_append] at hc
  refine ⟨_, hrun, ?_⟩
  generalize d0.run (stub v ++ commonEntry) = d at *
  have hlist : c.outerWords ++ [c.eflags, c.seg .cs, c.eip] ++ [error.getD 0, v] ++
      savedWords c (regsOf tss c + 36) (regsOf tss c + 36 - 36) =
      c.outerWords ++ ([c.eflags, c.seg .cs, c.eip, error.getD 0, v] ++
        savedWords c (regsOf tss c + 36) (regsOf tss c)) := by
    rw [Nat.add_sub_cancel, List.append_assoc, List.append_assoc]
    rfl
  have hstack := hc.stack
  rw [hlist] at hstack
  have hlen : ([c.eflags, c.seg .cs, c.eip, error.getD 0, v] ++
      savedWords c (regsOf tss c + 36) (regsOf tss c)).length = 15 := rfl
  have hbase : regsOf tss c + 4 * (c.outerWords.length + 14) = (kernelStack tss c).reg .esp := by
    unfold regsOf
    omega
  -- the words above the stack left, from the flags down to the pointer to the registers
  have hword : ∀ j w a, ([c.eflags, c.seg .cs, c.eip, error.getD 0, v] ++
      savedWords c (regsOf tss c + 36) (regsOf tss c))[j]? = some w →
      a + 4 * (j + 1) = regsOf tss c + 56 → d.mem a = w := by
    intro j w a hj ha
    have := hstack.word (i := c.outerWords.length + j) (v := w)
      (by rw [List.length_append, hlen]; omega) (by omega)
      (by rw [List.getElem?_append_right (by omega), Nat.add_sub_cancel_left, hj])
    rwa [show (kernelStack tss c).reg .esp - 4 * (c.outerWords.length + j + 1) = a by omega] at this
  have hother : ∀ a, a + 4 < regsOf tss c ∨ (kernelStack tss c).reg .esp ≤ a →
      d.mem a = c.mem a := fun a ha => by
    rw [hstack.other (by rw [List.length_append, hlen]; omega) (by omega)
      (by rw [List.length_append, hlen]; omega), kernelStack_mem]
  have hesp : d.reg .esp + 4 = regsOf tss c := by
    have := hc.esp
    omega
  have houter : d.mem (regsOf tss c + 56) =
        (if c.ring = 0 then c.mem (c.reg .esp) else c.reg .esp) ∧
      d.mem (regsOf tss c + 60) =
        (if c.ring = 0 then c.mem (c.reg .esp + 4) else c.seg .ss) := by
    by_cases hr : c.ring = 0
    · have hnil : c.outerWords = [] := if_pos hr
      have hself : kernelStack tss c = c := if_pos hr
      rw [hnil, hself] at hbase
      rw [if_pos hr, if_pos hr, ← hbase]
      exact ⟨hother _ (.inr (by rw [hself, ← hbase]; simp)),
        hother _ (.inr (by rw [hself, ← hbase]; simp))⟩
    · have htwo : c.outerWords = [c.seg .ss, c.reg .esp] := if_neg hr
      rw [htwo] at hbase hstack
      rw [if_neg hr, if_neg hr]
      have hat : ∀ i w a, [c.seg .ss, c.reg .esp][i]? = some w →
          a + 4 * (i + 1) = regsOf tss c + 64 → d.mem a = w := by
        intro i w a hi ha
        have hlt := (List.getElem?_eq_some_iff.mp hi).1
        have := hstack.word (i := i) (v := w) (by rw [List.length_append, hlen]; simp; omega)
          (by omega) (by rw [List.getElem?_append_left hlt, hi])
        simp only [List.length_cons, List.length_nil] at hbase
        rwa [show (kernelStack tss c).reg .esp - 4 * (i + 1) = a by omega] at this
      exact ⟨hat 1 _ _ rfl (by omega), hat 0 _ _ rfl (by omega)⟩
  exact
    { esp := hesp
      regs := hword 14 _ _ rfl (by omega)
      saved := by
        unfold Registers.read
        congr 1
        · exact hword 13 _ _ rfl (by omega)
        · exact hword 12 _ _ rfl (by omega)
        · exact hword 11 _ _ rfl (by omega)
        · exact hword 10 _ _ rfl (by omega)
        · exact hword 9 _ _ rfl (by omega)
        · exact hword 8 _ _ rfl (by omega)
        · exact hword 7 _ _ rfl (by omega)
        · exact hword 6 _ _ rfl (by omega)
        · exact hword 5 _ _ rfl (by omega)
        · exact hword 4 _ _ rfl (by omega)
        · exact hword 3 _ _ rfl (by omega)
        · exact hword 2 _ _ rfl (by omega)
        · exact hword 1 _ _ rfl (by omega)
        · exact hword 0 _ _ rfl (by omega)
        · exact houter.1
        · exact houter.2
      other := hother
      ring := by
        rw [Core.ring, hc.kept _ (by decide), hseg1, hcs0]
      stack := by rw [hc.kept _ (by decide), hseg1, hseg0 _ (by decide)]
      data := hc.data
      masked := hc.masked }

-- What the C calling convention promises of a handler that returns, and that it leaves the saved
-- registers as they are, except that irq_handler stores the result of a system call in eax.
structure Handles (tss : Tss) (c d d' : Core) : Prop where
  esp : d'.reg .esp = d.reg .esp
  cs : d'.seg .cs = d.seg .cs
  ss : d'.seg .ss = d.seg .ss
  frame : ∀ k, k < c.outerWords.length + 14 → k ≠ 8 →
    d'.mem (regsOf tss c + 4 * k) = d.mem (regsOf tss c + 4 * k)

-- The interrupted program goes on as it was, with the saved eax and with ds in es, fs and gs.
structure GoesOn (tss : Tss) (c d' c' : Core) : Prop where
  reg : ∀ r, r ≠ .eax → c'.reg r = c.reg r
  eax : c'.reg .eax = d'.mem (regsOf tss c + 32)
  eip : c'.eip = c.eip
  eflags : c'.eflags = c.eflags
  cs : c'.seg .cs = c.seg .cs
  ss : c'.seg .ss = c.seg .ss
  data : ∀ s ∈ dataSegs, c'.seg s = c.seg .ds
  mem : c'.mem = d'.mem

theorem goesOn_of_left {d' c' : Core} (h : Arises stubs tss v software error c)
    (hd : Entered tss v error c d) (hh : Handles tss c d d')
    (hl : Left (.read d'.mem (regsOf tss c)) (regsOf tss c) d' c') : GoesOn tss c d' c' := by
  have hsame : ∀ k, k < c.outerWords.length + 14 → k ≠ 8 →
      d'.mem (regsOf tss c + 4 * k) = d.mem (regsOf tss c + 4 * k) := hh.frame
  have hsaved := hd.saved
  rw [Registers.read, Registers.mk.injEq] at hsaved
  obtain ⟨hds, hedi, hesi, hebp, -, hebx, hedx, hecx, -, -, -, heip, hcs, hfl, huser, hss⟩ := hsaved
  have hcs' : (Registers.read d'.mem (regsOf tss c)).cs = c.seg .cs :=
    (hsame 12 (by omega) (by decide)).trans hcs
  have hring' : d'.ring = 0 := (congrArg (· % 4) hh.cs).trans hd.ring
  have hstack : c'.reg .esp = c.reg .esp ∧ c'.seg .ss = c.seg .ss := by
    by_cases hr : c.ring = 0
    · have hself : kernelStack tss c = c := if_pos hr
      have hnil : c.outerWords = [] := if_pos hr
      obtain ⟨hesp, hs⟩ := hl.inner (by rw [hcs', hring']; exact hr)
      have hroom := h.room.1
      refine ⟨?_, ?_⟩
      · rw [hself] at hroom
        rw [hesp, regsOf, hself, hnil]
        simp
        omega
      · rw [hs, hh.ss, hd.stack, hself]
    · have htwo : c.outerWords.length = 2 := by
        rw [show c.outerWords = [c.seg .ss, c.reg .esp] from if_neg hr]
        rfl
      rw [if_neg hr] at huser hss
      obtain ⟨hesp, hs⟩ := hl.outer (by rw [hcs', hring']; exact hr)
      exact ⟨hesp.trans ((hsame 14 (by omega) (by decide)).trans huser),
        hs.trans ((hsame 15 (by omega) (by decide)).trans hss)⟩
  exact
    { reg := fun r hr => by
        cases r with
        | eax => exact absurd rfl hr
        | ecx => exact hl.ecx.trans ((hsame 7 (by omega) (by decide)).trans hecx)
        | edx => exact hl.edx.trans ((hsame 6 (by omega) (by decide)).trans hedx)
        | ebx => exact hl.ebx.trans ((hsame 5 (by omega) (by decide)).trans hebx)
        | esp => exact hstack.1
        | ebp => exact hl.ebp.trans ((hsame 3 (by omega) (by decide)).trans hebp)
        | esi => exact hl.esi.trans ((hsame 2 (by omega) (by decide)).trans hesi)
        | edi => exact hl.edi.trans ((hsame 1 (by omega) (by decide)).trans hedi)
      eax := hl.eax
      eip := hl.eip.trans ((hsame 11 (by omega) (by decide)).trans heip)
      eflags := hl.eflags.trans ((hsame 13 (by omega) (by decide)).trans hfl)
      cs := hl.cs.trans hcs'
      ss := hstack.2
      data := fun s hs => by
        rw [hl.data s hs, show (Registers.read d'.mem (regsOf tss c)).ds = dsWord c from
          (hsame 0 (by omega) (by decide)).trans hds, dsWord, u16, u16]
        have := h.ds
        omega
      mem := hl.mem }

variable (idt) in
theorem interrupt_returns (h : Arises stubs tss v software error c) :
    ∃ d, enter (idtInit stubs idt) tss v software error c = some d ∧ Entered tss v error c d ∧
      ∀ handler : Core → Core, Handles tss c d (handler d) →
        ∃ c', interrupt (idtInit stubs idt) tss v software error handler c = some c' ∧
          GoesOn tss c (handler d) c' := by
  obtain ⟨d, hrun, hd⟩ := enter_entered idt h
  refine ⟨d, hrun, hd, fun handler hh => ⟨_, congrArg (Option.map _) hrun, ?_⟩⟩
  have hroom := h.room
  have hp : regsOf tss c + 4 * (c.outerWords.length + 14) ≤ (kernelStack tss c).reg .esp := by
    have hlen : c.outerWords.length ≤ 2 := by
      unfold Core.outerWords
      split
      · exact Nat.zero_le _
      · exact le_rfl
    unfold regsOf
    omega
  refine goesOn_of_left h hd hh (commonExit_run ?_ (by omega))
  rw [hh.esp, hd.esp]

-- Other vectors are refused, and so is all that ring 3 asks for but system calls.
theorem enter_refused (hs : stubs v < 2 ^ 32) (hlt : v < 256)
    (h : ¬Vector v ∨ (software = true ∧ c.ring ≠ 0 ∧ v ≠ 0x80)) :
    enter (idtInit stubs idt) tss v software error c = none := by
  unfold enter Core.deliver
  by_cases hv : Vector v
  · obtain ⟨rfl, hr, h128⟩ := h.resolve_left fun hn => hn hv
    rw [idtInit_gate hv hs, dpl, if_neg h128, if_pos (by simpa using Nat.pos_of_ne_zero hr)]
    rfl
  · rw [idtInit_absent hv hlt, Bool.not_false, Bool.true_or, if_pos rfl]
    rfl

-- A program in ring 3 makes a system call, and goes on with its result in eax.
def userCore : Core :=
  ⟨fun r => if r = .esp then 0x10003000 else 5, fun s => if s = .cs then 0x23 else 0x2B, 0x8048000,
    0x202, fun _ => 0⟩

def exampleTss : Tss := ⟨0x8002000, 0x10⟩

def answer (d : Core) : Core := d.store (d.mem (d.reg .esp) + 32) 77

theorem userCore_arises :
    Arises (fun v => 0x100000 + v) exampleTss 0x80 true none userCore :=
  ⟨.inr rfl, by decide, fun _ => .inr rfl, rfl, by decide, by decide⟩

theorem interrupt_returns_syscall :
    ∃ c', interrupt (idtInit (fun v => 0x100000 + v) fun _ => ⟨0, 0, 0, 0, 0⟩) exampleTss 0x80 true
        none answer userCore = some c' ∧ c'.reg .eax = 77 ∧ c'.reg .esp = 0x10003000 ∧
      c'.eip = 0x8048000 ∧ c'.ring = 3 := by
  obtain ⟨d, -, hd, h⟩ := interrupt_returns (fun _ => ⟨0, 0, 0, 0, 0⟩) userCore_arises
  have hwrite : (answer d).mem = Function.update d.mem (regsOf exampleTss userCore + 32) 77 := by
    rw [answer, hd.regs]
    rfl
  obtain ⟨c', hrun, hc⟩ := h answer
    { esp := rfl
      cs := rfl
      ss := rfl
      frame := fun k _ hk => by
        rw [hwrite]
        exact Function.update_of_ne (by omega) _ _ }
  refine ⟨c', hrun, ?_, hc.reg .esp (by decide), hc.eip, ?_⟩
  · rw [hc.eax, hwrite, Function.update_self]
  · rw [Core.ring, hc.cs]
    rfl

end Whole

end Interrupts
