import SabakaOS.Process.InterruptStubs

namespace Interrupts

open Word X86

def selUserCode : Nat := 0x23

def selUserData : Nat := 0x2B

-- The compiler has user_esp and user_eip in two registers; neither is eax.
def enterUsermode (userEsp userEip : Reg) : List Instr :=
  [.movAxImm selUserData, .movSegAx .ds, .movSegAx .es, .movSegAx .fs, .movSegAx .gs,
    .pushImm selUserData, .push userEsp, .pushf, .pop .eax, .orImm .eax 0x200, .push .eax,
    .pushImm selUserCode, .push userEip, .iret]

section UserMode

variable {c d : Core} {l : List Nat} {userEsp userEip : Reg}

-- The program runs in ring 3 with interrupts on; the kernel's memory is only written below esp.
structure Started (userEsp userEip : Reg) (c c' : Core) : Prop where
  eip : c'.eip = c.reg userEip
  esp : c'.reg .esp = c.reg userEsp
  cs : c'.seg .cs = selUserCode
  ss : c'.seg .ss = selUserData
  data : ∀ s ∈ dataSegs, c'.seg s = selUserData
  eflags : c'.eflags = c.eflags ||| 0x200
  reg : ∀ r, r ≠ .eax → r ≠ .esp → c'.reg r = c.reg r
  mem : ∀ a, a < c.reg .esp - 20 ∨ c.reg .esp ≤ a → c'.mem a = c.mem a

-- pushf and pop leave the stack pointer where it was, and the word they used is pushed over.
theorem flags_pushed (h : Core.Stacked c l d) (hlo : 4 ≤ d.reg .esp) (hlt : d.reg .esp < 2 ^ 32) :
    ∃ d', d.run [.pushf, .pop .eax, .orImm .eax 0x200, .push .eax] = d' ∧
      Core.Stacked c (l ++ [d.eflags ||| 0x200]) d' ∧ d'.seg = d.seg ∧
      ∀ r, r ≠ .eax → r ≠ .esp → d'.reg r = d.reg r := by
  have hpush : (d.push d.eflags).reg .esp = d.reg .esp - 4 := Core.push_esp hlo hlt
  have heax : ((d.push d.eflags).pop .eax).reg .eax = d.eflags := by
    rw [Core.pop_self (by omega), hpush, Core.push_mem hlo hlt, Function.update_self]
  have hesp : ((d.push d.eflags).pop .eax).reg .esp = d.reg .esp := by
    rw [Core.pop_esp (by decide) (by omega), hpush]
    omega
  have hmem : ((d.push d.eflags).pop .eax).mem =
      Function.update d.mem (sub32 (d.reg .esp) 4) d.eflags := rfl
  have hreg : ∀ r, r ≠ .eax → r ≠ .esp → ((d.push d.eflags).pop .eax).reg r = d.reg r :=
    fun r hr he => (Core.pop_of_ne hr he).trans (Core.push_reg he)
  have hseg : ((d.push d.eflags).pop .eax).seg = d.seg := rfl
  have hrun : d.run [.pushf, .pop .eax, .orImm .eax 0x200, .push .eax] =
      ((d.push d.eflags).pop .eax).run [.orImm .eax 0x200, .push .eax] := rfl
  rw [hrun]
  generalize (d.push d.eflags).pop .eax = e at *
  have hlast : e.run [.orImm .eax 0x200, .push .eax] =
      (e.setReg .eax (d.eflags ||| 0x200)).push (d.eflags ||| 0x200) := by
    rw [← heax]
    exact congrArg (Core.push _) Core.setReg_self
  have hsame : (e.setReg .eax (d.eflags ||| 0x200)).reg .esp = d.reg .esp :=
    (Core.setReg_of_ne (by decide)).trans hesp
  refine ⟨_, hlast, ?_, hseg, fun r hr he => ?_⟩
  · have hp := h.push (d.eflags ||| 0x200)
    refine ⟨?_, ?_⟩
    · rw [← hp.mem, Core.push_mem_word, hsame, Core.setReg_mem, hmem, Function.update_idem]
      exact Core.push_mem_word.symm
    · rw [← hp.esp, Core.push_esp_word, hsame, Core.push_esp_word]
  · exact (Core.push_reg he).trans ((Core.setReg_of_ne hr).trans (hreg r hr he))

theorem iret_started (h : Core.Stacked c [selUserData, c.reg userEsp, c.eflags ||| 0x200,
      selUserCode, c.reg userEip] d) (hring : d.ring = 0) (hlo : 20 ≤ c.reg .esp)
    (hlt : c.reg .esp < 2 ^ 32) (hdata : ∀ s ∈ dataSegs, d.seg s = selUserData)
    (hreg : ∀ r, r ≠ .eax → r ≠ .esp → d.reg r = c.reg r) :
    Started userEsp userEip c d.iret := by
  have hesp : d.reg .esp = c.reg .esp - 20 := h.esp.trans (Core.pushAll_esp hlo hlt)
  have htop : ∀ i w k, [selUserData, c.reg userEsp, c.eflags ||| 0x200, selUserCode,
      c.reg userEip][i]? = some w → 4 * (i + 1) + k = 20 → d.top k = w := by
    intro i w k hi hk
    rw [Core.top_eq (by omega), hesp, ← h.word hlo hlt hi]
    congr 1
    omega
  have hcs : d.top 4 = selUserCode := htop 3 _ _ rfl rfl
  have hne : ¬d.top 4 % 4 = d.ring := by
    rw [hcs, hring]
    decide
  have hiret : d.iret = ((({ d with eip := d.top 0, eflags := d.top 8 } : Core).setSeg .cs
      (d.top 4)).setSeg .ss (d.top 16)).setReg .esp (d.top 12) := if_neg hne
  rw [hiret]
  exact
    { eip := htop 4 _ _ rfl rfl
      esp := Core.setReg_self.trans (htop 1 _ _ rfl rfl)
      cs := by rw [Core.setReg_seg, Core.setSeg_of_ne (by decide), Core.setSeg_self, hcs]
      ss := by
        rw [Core.setReg_seg, Core.setSeg_self]
        exact htop 0 _ 16 rfl rfl
      data := fun s hs => by
        have hss : s ≠ .ss := fun e => absurd (e ▸ hs) (by decide)
        have hsc : s ≠ .cs := fun e => absurd (e ▸ hs) (by decide)
        rw [Core.setReg_seg, Core.setSeg_of_ne hss, Core.setSeg_of_ne hsc]
        exact hdata s hs
      eflags := htop 2 _ _ rfl rfl
      reg := fun r hr he => (Core.setReg_of_ne he).trans (hreg r hr he)
      mem := fun a ha => h.other hlo hlt ha }

theorem enterUsermode_started (hring : c.ring = 0) (hlo : 20 ≤ c.reg .esp)
    (hlt : c.reg .esp < 2 ^ 32) (hesp : userEsp ≠ .eax ∧ userEsp ≠ .esp)
    (heip : userEip ≠ .eax ∧ userEip ≠ .esp) :
    Started userEsp userEip c (c.run (enterUsermode userEsp userEip)) := by
  have hax : u16 ((c.exec (.movAxImm selUserData)).reg .eax) = selUserData := by
    rw [show (c.exec (.movAxImm selUserData)).reg .eax = c.reg .eax / 65536 * 65536 +
      u16 selUserData from Core.setReg_self, selUserData]
    unfold u16
    omega
  obtain ⟨d1, hrun1, hmem1, hreg1, hfl1, hkept1, hdata1⟩ := movSegs_run hax
  have hother : ∀ r, r ≠ .eax → d1.reg r = c.reg r := fun r hr =>
    (congrFun hreg1 r).trans (Core.setReg_of_ne hr)
  have hs1 : Core.Stacked c [] d1 := ⟨hmem1, hother _ (by decide)⟩
  have hs2 := (hs1.push selUserData).push (c.reg userEsp)
  have hdesp : ((d1.push selUserData).push (c.reg userEsp)).reg .esp = c.reg .esp - 8 :=
    hs2.esp.trans (Core.pushAll_esp (show 8 ≤ c.reg .esp by omega) hlt)
  obtain ⟨d2, hrun2, hs3, hseg2, hreg2⟩ := flags_pushed hs2 (by omega) (by omega)
  have hfl : ((d1.push selUserData).push (c.reg userEsp)).eflags = c.eflags := hfl1
  rw [hfl] at hs3
  have hreg : ∀ r, r ≠ .eax → r ≠ .esp → d2.reg r = c.reg r := fun r hr he =>
    (hreg2 r hr he).trans ((Core.push_reg he).trans ((Core.push_reg he).trans (hother r hr)))
  have huser : (d1.push selUserData).reg userEsp = c.reg userEsp :=
    (Core.push_reg hesp.2).trans (hother _ hesp.1)
  have hentry : (d2.push selUserCode).reg userEip = c.reg userEip :=
    (Core.push_reg heip.2).trans (hreg _ heip.1 heip.2)
  have hcode : enterUsermode userEsp userEip = [.movAxImm selUserData] ++
      ([.movSegAx .ds, .movSegAx .es, .movSegAx .fs, .movSegAx .gs] ++
        ([.pushImm selUserData, .push userEsp] ++ ([.pushf, .pop .eax, .orImm .eax 0x200,
          .push .eax] ++ [.pushImm selUserCode, .push userEip, .iret]))) := rfl
  have hpushes : d1.run [.pushImm selUserData, .push userEsp] =
      (d1.push selUserData).push (c.reg userEsp) := by
    rw [← huser]
    rfl
  have hlast : d2.run [.pushImm selUserCode, .push userEip, .iret] =
      ((d2.push selUserCode).push (c.reg userEip)).iret := by
    rw [Core.run_cons, Core.run_cons, Core.run_cons, Core.run_nil, ← hentry]
    simp only [Core.exec]
  have hrun : c.run (enterUsermode userEsp userEip) =
      ((d2.push selUserCode).push (c.reg userEip)).iret := by
    rw [hcode, Core.run_append, Core.run_cons, Core.run_nil, Core.run_append, hrun1,
      Core.run_append, hpushes, Core.run_append, hrun2, hlast]
  have hseg : ∀ s, ((d2.push selUserCode).push (c.reg userEip)).seg s = d1.seg s := fun s =>
    congrFun hseg2 s
  rw [hrun]
  refine iret_started ((hs3.push selUserCode).push (c.reg userEip)) ?_ hlo hlt
    (fun s hs => (hseg s).trans (hdata1 s hs)) fun r hr he => ?_
  · rw [Core.ring, hseg, hkept1 _ (by decide)]
    exact hring
  · exact (Core.push_reg he).trans ((Core.push_reg he).trans (hreg r hr he))

theorem Started.ring {c' : Core} (h : Started userEsp userEip c c') : c'.ring = 3 := by
  rw [Core.ring, h.cs]
  rfl

theorem Started.interruptible {c' : Core} (h : Started userEsp userEip c c') :
    c'.eflags.testBit 9 = true := by
  rw [h.eflags, Nat.testBit_or, show Nat.testBit 0x200 9 = true from rfl, Bool.or_true]

-- What an interrupt finds before the program has run, and saves on the stack the TSS names.
structure Interrupted (tss : Tss) (userEsp userEip : Reg) (c d : Core) : Prop where
  esp : d.reg .esp + 68 = tss.esp0
  ss : d.seg .ss = tss.ss0
  ring : d.ring = 0
  masked : d.eflags.testBit 9 = false
  eip : (Registers.read d.mem (tss.esp0 - 64)).eip = c.reg userEip
  cs : (Registers.read d.mem (tss.esp0 - 64)).cs = selUserCode
  eflags : (Registers.read d.mem (tss.esp0 - 64)).eflags = c.eflags ||| 0x200
  enabled : (Registers.read d.mem (tss.esp0 - 64)).eflags.testBit 9 = true
  useresp : (Registers.read d.mem (tss.esp0 - 64)).useresp = c.reg userEsp
  userss : (Registers.read d.mem (tss.esp0 - 64)).ss = selUserData
  ds : (Registers.read d.mem (tss.esp0 - 64)).ds % 65536 = selUserData

variable {stubs : Nat → Nat} {tss : Tss} {v : Nat} {software : Bool} {error : Option Nat}

theorem Started.interrupted {c' : Core} (h : Started userEsp userEip c c')
    (hroom : 68 ≤ tss.esp0) (hd : Entered tss v error c' d) :
    Interrupted tss userEsp userEip c d := by
  have hring : c'.ring ≠ 0 := by
    rw [h.ring]
    decide
  have hstack : kernelStack tss c' = (c'.setSeg .ss tss.ss0).setReg .esp tss.esp0 := if_neg hring
  have hesp : (kernelStack tss c').reg .esp = tss.esp0 := by
    rw [hstack]
    exact Core.setReg_self
  have hss : (kernelStack tss c').seg .ss = tss.ss0 := by
    rw [hstack, Core.setReg_seg]
    exact Core.setSeg_self
  have hregs : regsOf tss c' = tss.esp0 - 64 := by
    rw [regsOf, hesp, show c'.outerWords = [c'.seg .ss, c'.reg .esp] from if_neg hring]
    rfl
  have hat := hd.esp
  have hsaved := hd.saved
  rw [hregs] at hat hsaved
  exact
    { esp := by omega
      ss := hd.stack.trans hss
      ring := hd.ring
      masked := hd.masked
      eip := (congrArg Registers.eip hsaved).trans h.eip
      cs := (congrArg Registers.cs hsaved).trans h.cs
      eflags := (congrArg Registers.eflags hsaved).trans h.eflags
      enabled := (congrArg (fun r => r.eflags.testBit 9) hsaved).trans h.interruptible
      useresp := (congrArg Registers.useresp hsaved).trans ((if_neg hring).trans h.esp)
      userss := (congrArg Registers.ss hsaved).trans ((if_neg hring).trans h.ss)
      ds := by
        have hword : dsWord c' % 65536 = selUserData := by
          rw [dsWord, h.data _ (by decide), selUserData]
          unfold u16
          omega
        rw [congrArg Registers.ds hsaved]
        exact hword }

-- Every vector that the kernel serves, system calls among them, can be the first to come.
theorem user_mode_interrupted (hring : c.ring = 0) (hlo : 20 ≤ c.reg .esp)
    (hlt : c.reg .esp < 2 ^ 32) (hesp : userEsp ≠ .eax ∧ userEsp ≠ .esp)
    (heip : userEip ≠ .eax ∧ userEip ≠ .esp) (idt : Nat → IdtEntry) (hv : Vector v)
    (hstub : stubs v < 2 ^ 32) (hopen : software = true → v = 0x80)
    (herr : error.isSome = pushesError v) (hroom : 68 ≤ tss.esp0 ∧ tss.esp0 + 8 < 2 ^ 32) :
    Started userEsp userEip c (c.run (enterUsermode userEsp userEip)) ∧
      ∃ d, enter (idtInit stubs idt) tss v software error
          (c.run (enterUsermode userEsp userEip)) = some d ∧
        Interrupted tss userEsp userEip c d := by
  have h := enterUsermode_started hring hlo hlt hesp heip
  have hne : (c.run (enterUsermode userEsp userEip)).ring ≠ 0 := by
    rw [h.ring]
    decide
  have hstack : (kernelStack tss (c.run (enterUsermode userEsp userEip))).reg .esp = tss.esp0 := by
    rw [kernelStack, Core.inner, if_neg hne]
    exact Core.setReg_self
  have harises : Arises stubs tss v software error (c.run (enterUsermode userEsp userEip)) :=
    { vector := hv
      stub := hstub
      allowed := fun hs => .inr (hopen hs)
      error := herr
      room := by rwa [hstack]
      ds := by
        rw [h.data _ (by decide)]
        decide }
  obtain ⟨d, hrun, hd⟩ := enter_entered idt harises
  exact ⟨h, d, hrun, h.interrupted hroom.1 hd⟩

-- The kernel starts a program at 0x8048000, and the timer interrupts it at once.
def kernelCore : Core :=
  ⟨fun r => if r = .esp then 0x8001000 else if r = .ecx then 0xBFFFF000 else 0x8048000,
    fun s => if s = .cs then 0x08 else 0x10, 0x100000, 2, fun _ => 0⟩

theorem user_mode_interrupted_timer :
    ∃ d, enter (idtInit (fun v => 0x100000 + v) fun _ => ⟨0, 0, 0, 0, 0⟩) exampleTss 32 false
        none (kernelCore.run (enterUsermode .ecx .edx)) = some d ∧
      Interrupted exampleTss .ecx .edx kernelCore d :=
  (user_mode_interrupted (by decide) (by decide) (by decide) (by decide) (by decide)
    (fun _ => ⟨0, 0, 0, 0, 0⟩) (.inl (by decide)) (by decide) (fun h => Bool.noConfusion h)
    (by decide) (by decide)).2

end UserMode

end Interrupts
