import Mathlib.Logic.Function.Basic
import SabakaOS.Library.Word

namespace X86

open Word

inductive Reg where
  | eax
  | ecx
  | edx
  | ebx
  | esp
  | ebp
  | esi
  | edi
  deriving DecidableEq, Repr

inductive Seg where
  | cs
  | ss
  | ds
  | es
  | fs
  | gs
  deriving DecidableEq, Repr

-- mem a is the double word at address a; every address that is used is a multiple of four.
structure Core where
  reg : Reg → Nat
  seg : Seg → Nat
  eip : Nat
  eflags : Nat
  mem : Nat → Nat

inductive Instr where
  | push (r : Reg)
  | pushImm (v : Nat)
  | pop (r : Reg)
  | load (dst base : Reg) (disp : Nat)
  | store (base src : Reg)
  | addImm (r : Reg) (v : Nat)
  | orImm (r : Reg) (v : Nat)
  | movAxImm (v : Nat)
  | movAxSeg (s : Seg)
  | movSegAx (s : Seg)
  | pusha
  | popa
  | pushf
  | cli
  | ret
  | iret

-- An entry of the interrupt table, as the processor reads it.
structure Gate where
  offset : Nat
  selector : Nat
  present : Bool
  dpl : Nat
  masks : Bool

namespace Core

def setReg (c : Core) (r : Reg) (v : Nat) : Core := { c with reg := Function.update c.reg r v }

def setSeg (c : Core) (s : Seg) (v : Nat) : Core := { c with seg := Function.update c.seg s v }

def store (c : Core) (a v : Nat) : Core := { c with mem := Function.update c.mem a v }

def top (c : Core) (k : Nat) : Nat := c.mem (u32 (c.reg .esp + k))

def drop (c : Core) (k : Nat) : Core := c.setReg .esp (u32 (c.reg .esp + k))

def push (c : Core) (v : Nat) : Core :=
  (c.store (sub32 (c.reg .esp) 4) v).setReg .esp (sub32 (c.reg .esp) 4)

def pop (c : Core) (r : Reg) : Core := (c.drop 4).setReg r (c.top 0)

def pushAll (c : Core) (l : List Nat) : Core := l.foldl push c

def popAll (c : Core) (l : List Reg) : Core := l.foldl pop c

-- The privilege level is that of the code segment.
def ring (c : Core) : Nat := c.seg .cs % 4

-- The low half of eax is written, the high half kept.
def setAx (c : Core) (v : Nat) : Core := c.setReg .eax (c.reg .eax / 65536 * 65536 + u16 v)

def iret (c : Core) : Core :=
  let back := ({ c with eip := c.top 0, eflags := c.top 8 } : Core).setSeg .cs (c.top 4)
  if c.top 4 % 4 = c.ring then back.drop 12
  else (back.setSeg .ss (c.top 16)).setReg .esp (c.top 12)

def exec (c : Core) : Instr → Core
  | .push r => c.push (c.reg r)
  | .pushImm v => c.push v
  | .pop r => c.pop r
  | .load dst base disp => c.setReg dst (c.mem (u32 (c.reg base + disp)))
  | .store base src => c.store (c.reg base) (c.reg src)
  | .addImm r v => c.setReg r (u32 (c.reg r + v))
  | .orImm r v => c.setReg r (c.reg r ||| v)
  | .movAxImm v => c.setAx v
  | .movAxSeg s => c.setAx (c.seg s)
  | .movSegAx s => c.setSeg s (u16 (c.reg .eax))
  | .pusha => c.pushAll [c.reg .eax, c.reg .ecx, c.reg .edx, c.reg .ebx, c.reg .esp, c.reg .ebp,
      c.reg .esi, c.reg .edi]
  | .popa => (((c.popAll [.edi, .esi, .ebp]).drop 4).popAll [.ebx, .edx, .ecx, .eax])
  | .pushf => c.push c.eflags
  | .cli => { c with eflags := c.eflags &&& 0xFFFFFDFF }
  | .ret => { c.drop 4 with eip := c.top 0 }
  | .iret => c.iret

def run (c : Core) (code : List Instr) : Core := code.foldl exec c

-- The stack that is left is pushed only where the stack is changed.
def outerWords (c : Core) : List Nat := if c.ring = 0 then [] else [c.seg .ss, c.reg .esp]

-- The stack an interrupt pushes to.
def inner (c : Core) (esp0 ss0 : Nat) : Core :=
  if c.ring = 0 then c else (c.setSeg .ss ss0).setReg .esp esp0

-- An interrupt or exception through a gate into ring 0, its error code pushed if it has one.
-- Only a programmed interrupt is refused where the gate does not let this ring use it.
def deliver (c : Core) (g : Gate) (esp0 ss0 : Nat) (software : Bool) (error : Option Nat) :
    Option Core :=
  if !g.present || (software && decide (g.dpl < c.ring)) then none
  else
    let pushed := (c.inner esp0 ss0).pushAll
      (c.outerWords ++ [c.eflags, c.seg .cs, c.eip] ++ error.toList)
    let eflags := if g.masks then c.eflags &&& 0xFFFFFDFF else c.eflags
    some (({ pushed with eip := g.offset, eflags := eflags } : Core).setSeg .cs g.selector)

section Lemmas

variable {c : Core} {r : Reg} {l : List Nat} {rs : List Reg} {a i k v w : Nat}

@[simp] theorem setReg_mem : (c.setReg r v).mem = c.mem := rfl

@[simp] theorem setReg_seg : (c.setReg r v).seg = c.seg := rfl

@[simp] theorem setReg_eip : (c.setReg r v).eip = c.eip := rfl

@[simp] theorem setReg_eflags : (c.setReg r v).eflags = c.eflags := rfl

theorem run_cons (c : Core) (i : Instr) (code : List Instr) :
    c.run (i :: code) = (c.exec i).run code := rfl

theorem run_nil (c : Core) : c.run [] = c := rfl

@[simp] theorem store_reg : (c.store a v).reg = c.reg := rfl

@[simp] theorem store_self : (c.store a v).mem a = v := Function.update_self ..

theorem store_of_ne {b : Nat} (h : b ≠ a) : (c.store a v).mem b = c.mem b :=
  Function.update_of_ne h ..

@[simp] theorem store_seg : (c.store a v).seg = c.seg := rfl

@[simp] theorem store_eflags : (c.store a v).eflags = c.eflags := rfl

@[simp] theorem setReg_self : (c.setReg r v).reg r = v := Function.update_self ..

theorem setReg_of_ne {r' : Reg} (h : r' ≠ r) : (c.setReg r v).reg r' = c.reg r' :=
  Function.update_of_ne h ..

theorem run_append (c : Core) (code code' : List Instr) :
    c.run (code ++ code') = (c.run code).run code' :=
  List.foldl_append

@[simp] theorem push_seg : (c.push v).seg = c.seg := rfl

@[simp] theorem push_eip : (c.push v).eip = c.eip := rfl

@[simp] theorem push_eflags : (c.push v).eflags = c.eflags := rfl

@[simp] theorem push_reg (h : r ≠ .esp) : (c.push v).reg r = c.reg r := setReg_of_ne h

theorem push_esp_word : (c.push v).reg .esp = sub32 (c.reg .esp) 4 := setReg_self

theorem push_mem_word : (c.push v).mem = Function.update c.mem (sub32 (c.reg .esp) 4) v := rfl

theorem push_esp (h : 4 ≤ c.reg .esp) (hlt : c.reg .esp < 2 ^ 32) :
    (c.push v).reg .esp = c.reg .esp - 4 :=
  push_esp_word.trans (sub32_of_le hlt h)

theorem push_mem (h : 4 ≤ c.reg .esp) (hlt : c.reg .esp < 2 ^ 32) :
    (c.push v).mem = Function.update c.mem (c.reg .esp - 4) v := by
  rw [push_mem_word, sub32_of_le hlt h]

theorem top_eq (h : c.reg .esp + k < 2 ^ 32) : c.top k = c.mem (c.reg .esp + k) := by
  rw [top, u32_of_lt h]

@[simp] theorem drop_mem : (c.drop k).mem = c.mem := rfl

@[simp] theorem drop_seg : (c.drop k).seg = c.seg := rfl

@[simp] theorem drop_eflags : (c.drop k).eflags = c.eflags := rfl

theorem drop_of_ne (h : r ≠ .esp) : (c.drop k).reg r = c.reg r := setReg_of_ne h

theorem drop_esp (h : c.reg .esp + k < 2 ^ 32) : (c.drop k).reg .esp = c.reg .esp + k :=
  setReg_self.trans (u32_of_lt h)

theorem pop_self (h : c.reg .esp < 2 ^ 32) : (c.pop r).reg r = c.mem (c.reg .esp) :=
  setReg_self.trans (top_eq h)

theorem pop_esp (hr : r ≠ .esp) (h : c.reg .esp + 4 < 2 ^ 32) :
    (c.pop r).reg .esp = c.reg .esp + 4 :=
  (setReg_of_ne (Ne.symm hr)).trans (drop_esp h)

theorem pop_of_ne {r' : Reg} (h : r' ≠ r) (he : r' ≠ .esp) : (c.pop r).reg r' = c.reg r' :=
  (setReg_of_ne h).trans (setReg_of_ne he)

theorem pushAll_cons : c.pushAll (v :: l) = (c.push v).pushAll l := rfl

theorem pushAll_keeps {β : Type} (f : Core → β) (hf : ∀ c v, f (c.push v) = f c) :
    f (c.pushAll l) = f c := by
  induction l generalizing c with
  | nil => rfl
  | cons v l ih => exact ih.trans (hf c v)

@[simp] theorem pushAll_seg : (c.pushAll l).seg = c.seg := pushAll_keeps seg fun _ _ => rfl

@[simp] theorem pushAll_eip : (c.pushAll l).eip = c.eip := pushAll_keeps eip fun _ _ => rfl

@[simp] theorem pushAll_eflags : (c.pushAll l).eflags = c.eflags :=
  pushAll_keeps eflags fun _ _ => rfl

theorem pushAll_reg (hr : r ≠ .esp) : (c.pushAll l).reg r = c.reg r :=
  pushAll_keeps (fun c => c.reg r) fun _ _ => push_reg hr

theorem pushAll_esp (h : 4 * l.length ≤ c.reg .esp) (hlt : c.reg .esp < 2 ^ 32) :
    (c.pushAll l).reg .esp = c.reg .esp - 4 * l.length := by
  induction l generalizing c with
  | nil => rfl
  | cons v l ih =>
    rw [List.length_cons] at h ⊢
    have hp := push_esp (v := v) (by omega) hlt
    refine (ih (c := c.push v) ?_ ?_).trans ?_
    all_goals omega

theorem pushAll_mem_of_out (h : 4 * l.length ≤ c.reg .esp) (hlt : c.reg .esp < 2 ^ 32)
    (ha : a < c.reg .esp - 4 * l.length ∨ c.reg .esp ≤ a) : (c.pushAll l).mem a = c.mem a := by
  induction l generalizing c with
  | nil => rfl
  | cons v l ih =>
    rw [List.length_cons] at h ha
    have hp := push_esp (v := v) (by omega) hlt
    refine (ih (c := c.push v) ?_ ?_ ?_).trans ?_
    · omega
    · omega
    · omega
    · rw [push_mem (by omega) hlt, Function.update_of_ne (by omega)]

theorem pushAll_mem (h : 4 * l.length ≤ c.reg .esp) (hlt : c.reg .esp < 2 ^ 32)
    (hi : l[i]? = some v) : (c.pushAll l).mem (c.reg .esp - 4 * (i + 1)) = v := by
  induction l generalizing c i with
  | nil => cases hi
  | cons w l ih =>
    rw [List.length_cons] at h
    have hp := push_esp (v := w) (by omega) hlt
    cases i with
    | zero =>
      obtain rfl := Option.some.inj hi
      refine (pushAll_mem_of_out (c := c.push w) (by omega) (by omega) (by omega)).trans ?_
      rw [push_mem (by omega) hlt, Function.update_self]
    | succ i =>
      have := ih (c := c.push w) (by omega) (by omega) hi
      rwa [hp, show c.reg .esp - 4 - 4 * (i + 1) = c.reg .esp - 4 * (i + 1 + 1) by omega] at this

theorem exec_push : c.exec (.push r) = c.push (c.reg r) := rfl

theorem exec_store {base : Reg} : c.exec (.store base r) = c.store (c.reg base) (c.reg r) := rfl

theorem exec_load {dst base : Reg} {d : Nat} (h : c.reg base + d < 2 ^ 32) :
    c.exec (.load dst base d) = c.setReg dst (c.mem (c.reg base + d)) := by
  rw [← u32_of_lt h]
  rfl

theorem run_push (h : .esp ∉ rs) : c.run (rs.map .push) = c.pushAll (rs.map c.reg) := by
  induction rs generalizing c with
  | nil => rfl
  | cons r rs ih =>
    have hr : rs.map (c.push (c.reg r)).reg = rs.map c.reg := List.map_congr_left fun r' hr' =>
      push_reg (ne_of_mem_of_not_mem (List.mem_cons_of_mem _ hr') h)
    refine (ih (c := c.push (c.reg r)) fun hm => h (List.mem_cons_of_mem _ hm)).trans ?_
    rw [hr]
    rfl

theorem run_pop (c : Core) (rs : List Reg) : c.run (rs.map .pop) = c.popAll rs := List.foldl_map

theorem popAll_keeps {β : Type} (f : Core → β) (hf : ∀ c, ∀ r ∈ rs, f (c.pop r) = f c) :
    f (c.popAll rs) = f c := by
  induction rs generalizing c with
  | nil => rfl
  | cons r rs ih => exact (ih fun c r hr => hf c r (by simp [hr])).trans (hf c r (by simp))

@[simp] theorem pop_mem : (c.pop r).mem = c.mem := rfl

@[simp] theorem pop_seg : (c.pop r).seg = c.seg := rfl

@[simp] theorem popAll_mem : (c.popAll rs).mem = c.mem := popAll_keeps mem fun _ _ _ => rfl

@[simp] theorem popAll_seg : (c.popAll rs).seg = c.seg := popAll_keeps seg fun _ _ _ => rfl

@[simp] theorem popAll_eip : (c.popAll rs).eip = c.eip := popAll_keeps eip fun _ _ _ => rfl

@[simp] theorem popAll_eflags : (c.popAll rs).eflags = c.eflags :=
  popAll_keeps eflags fun _ _ _ => rfl

theorem popAll_of_not_mem (hr : r ∉ rs) (he : r ≠ .esp) : (c.popAll rs).reg r = c.reg r :=
  popAll_keeps (fun c => c.reg r) fun _ _ hm => pop_of_ne (ne_of_mem_of_not_mem hm hr).symm he

theorem popAll_esp (hrs : .esp ∉ rs) (h : c.reg .esp + 4 * rs.length < 2 ^ 32) :
    (c.popAll rs).reg .esp = c.reg .esp + 4 * rs.length := by
  induction rs generalizing c with
  | nil => rfl
  | cons r rs ih =>
    rw [List.length_cons] at h ⊢
    have hp := pop_esp (c := c) (r := r) (fun e => hrs (e ▸ List.mem_cons_self)) (by omega)
    refine (ih (c := c.pop r) (fun hm => hrs (List.mem_cons_of_mem _ hm)) ?_).trans ?_
    all_goals omega

theorem popAll_reg (hrs : .esp ∉ rs) (hn : rs.Nodup) (h : c.reg .esp + 4 * rs.length < 2 ^ 32)
    (hi : rs[i]? = some r) : (c.popAll rs).reg r = c.mem (c.reg .esp + 4 * i) := by
  induction rs generalizing c i with
  | nil => cases hi
  | cons r' rs ih =>
    rw [List.length_cons] at h
    have hne : r' ≠ .esp := fun e => hrs (e ▸ List.mem_cons_self)
    have hp := pop_esp (c := c) hne (by omega)
    obtain ⟨hnot, hn⟩ := List.nodup_cons.mp hn
    cases i with
    | zero =>
      obtain rfl := Option.some.inj hi
      exact (popAll_of_not_mem (c := c.pop r') hnot hne).trans (pop_self (by omega))
    | succ i =>
      refine (ih (c := c.pop r') (fun hm => hrs (List.mem_cons_of_mem _ hm)) hn (by omega)
        hi).trans ?_
      rw [hp]
      exact congrArg c.mem (by omega)

@[simp] theorem setSeg_reg {s : Seg} : (c.setSeg s v).reg = c.reg := rfl

@[simp] theorem setSeg_mem {s : Seg} : (c.setSeg s v).mem = c.mem := rfl

@[simp] theorem setSeg_eip {s : Seg} : (c.setSeg s v).eip = c.eip := rfl

@[simp] theorem setSeg_eflags {s : Seg} : (c.setSeg s v).eflags = c.eflags := rfl

theorem setSeg_self {s : Seg} : (c.setSeg s v).seg s = v := Function.update_self ..

theorem setSeg_of_ne {s s' : Seg} (h : s' ≠ s) : (c.setSeg s v).seg s' = c.seg s' :=
  Function.update_of_ne h ..

-- The stack of d is that of c with the words of l pushed on it.
structure Stacked (c : Core) (l : List Nat) (d : Core) : Prop where
  mem : d.mem = (c.pushAll l).mem
  esp : d.reg .esp = (c.pushAll l).reg .esp

theorem pushAll_append {l' : List Nat} : c.pushAll (l ++ l') = (c.pushAll l).pushAll l' :=
  List.foldl_append

theorem Stacked.word {d : Core} (h : Stacked c l d) (hl : 4 * l.length ≤ c.reg .esp)
    (hlt : c.reg .esp < 2 ^ 32) (hi : l[i]? = some v) : d.mem (c.reg .esp - 4 * (i + 1)) = v := by
  rw [h.mem]
  exact pushAll_mem hl hlt hi

theorem Stacked.other {d : Core} (h : Stacked c l d) (hl : 4 * l.length ≤ c.reg .esp)
    (hlt : c.reg .esp < 2 ^ 32) (ha : a < c.reg .esp - 4 * l.length ∨ c.reg .esp ≤ a) :
    d.mem a = c.mem a := by
  rw [h.mem]
  exact pushAll_mem_of_out hl hlt ha

theorem Stacked.push {d : Core} (h : Stacked c l d) (v : Nat) :
    Stacked c (l ++ [v]) (d.push v) := by
  constructor
  · rw [pushAll_append, push_mem_word, h.mem, h.esp]
    exact push_mem_word.symm
  · rw [pushAll_append, push_esp_word, h.esp]
    exact push_esp_word.symm

theorem Stacked.pushAll {d : Core} {l' : List Nat} (h : Stacked c l d) :
    Stacked c (l ++ l') (d.pushAll l') := by
  induction l' generalizing l d with
  | nil => rwa [List.append_nil]
  | cons v l' ih =>
    rw [pushAll_cons, List.append_cons]
    exact ih (h.push v)

theorem Stacked.setReg {d : Core} (h : Stacked c l d) (hr : r ≠ .esp) :
    Stacked c l (d.setReg r v) :=
  ⟨h.mem, (setReg_of_ne hr.symm).trans h.esp⟩

theorem Stacked.setSeg {d : Core} {s : Seg} (h : Stacked c l d) : Stacked c l (d.setSeg s v) :=
  ⟨h.mem, h.esp⟩

-- popa takes up the words pusha has pushed, except that of the stack pointer.
structure Restored (c c' : Core) : Prop where
  edi : c'.reg .edi = c.mem (c.reg .esp)
  esi : c'.reg .esi = c.mem (c.reg .esp + 4)
  ebp : c'.reg .ebp = c.mem (c.reg .esp + 8)
  ebx : c'.reg .ebx = c.mem (c.reg .esp + 16)
  edx : c'.reg .edx = c.mem (c.reg .esp + 20)
  ecx : c'.reg .ecx = c.mem (c.reg .esp + 24)
  eax : c'.reg .eax = c.mem (c.reg .esp + 28)
  esp : c'.reg .esp = c.reg .esp + 32
  mem : c'.mem = c.mem
  seg : c'.seg = c.seg

theorem popa_restored (h : c.reg .esp + 32 < 2 ^ 32) : Restored c (c.exec .popa) := by
  have hfirst : ∀ i r, [Reg.edi, .esi, .ebp][i]? = some r →
      (c.popAll [.edi, .esi, .ebp]).reg r = c.mem (c.reg .esp + 4 * i) := fun i r hr =>
    popAll_reg (by decide) (by decide) (by simp; omega) hr
  have hesp : (c.popAll [.edi, .esi, .ebp]).reg .esp = c.reg .esp + 12 :=
    popAll_esp (by decide) (by simp; omega)
  have hmem : ((c.popAll [.edi, .esi, .ebp]).drop 4).mem = c.mem := by rw [drop_mem, popAll_mem]
  have hseg : ((c.popAll [.edi, .esi, .ebp]).drop 4).seg = c.seg := by rw [drop_seg, popAll_seg]
  have hskip : ((c.popAll [.edi, .esi, .ebp]).drop 4).reg .esp = c.reg .esp + 16 := by
    rw [drop_esp (by omega), hesp]
  have hdrop : ∀ r, r ≠ .esp → ((c.popAll [.edi, .esi, .ebp]).drop 4).reg r =
      (c.popAll [.edi, .esi, .ebp]).reg r := fun r hr => drop_of_ne hr
  change Restored c (((c.popAll [.edi, .esi, .ebp]).drop 4).popAll [.ebx, .edx, .ecx, .eax])
  generalize (c.popAll [.edi, .esi, .ebp]).drop 4 = d at *
  have hkept : ∀ r, r ∉ [Reg.ebx, .edx, .ecx, .eax] → r ≠ .esp →
      (d.popAll [.ebx, .edx, .ecx, .eax]).reg r = d.reg r := fun r hr hne =>
    popAll_of_not_mem hr hne
  have hlast : ∀ i r, [Reg.ebx, .edx, .ecx, .eax][i]? = some r →
      (d.popAll [.ebx, .edx, .ecx, .eax]).reg r = c.mem (c.reg .esp + 16 + 4 * i) := by
    intro i r hr
    rw [← hmem, ← hskip]
    exact popAll_reg (by decide) (by decide) (by simp; omega) hr
  exact
    { edi := (hkept _ (by decide) (by decide)).trans ((hdrop _ (by decide)).trans (hfirst 0 _ rfl))
      esi := (hkept _ (by decide) (by decide)).trans ((hdrop _ (by decide)).trans (hfirst 1 _ rfl))
      ebp := (hkept _ (by decide) (by decide)).trans ((hdrop _ (by decide)).trans (hfirst 2 _ rfl))
      ebx := hlast 0 _ rfl
      edx := hlast 1 _ rfl
      ecx := hlast 2 _ rfl
      eax := hlast 3 _ rfl
      esp := by
        rw [popAll_esp (by decide) (by simp; omega), hskip]
        rfl
      mem := popAll_mem.trans hmem
      seg := popAll_seg.trans hseg }

-- Where iret goes back to, from the words on the stack.
structure Returned (c c' : Core) : Prop where
  eip : c'.eip = c.mem (c.reg .esp)
  cs : c'.seg .cs = c.mem (c.reg .esp + 4)
  eflags : c'.eflags = c.mem (c.reg .esp + 8)
  mem : c'.mem = c.mem
  reg : ∀ r, r ≠ .esp → c'.reg r = c.reg r
  seg : ∀ s, s ≠ .cs → s ≠ .ss → c'.seg s = c.seg s
  inner : c.mem (c.reg .esp + 4) % 4 = c.ring →
    c'.reg .esp = c.reg .esp + 12 ∧ c'.seg .ss = c.seg .ss
  outer : c.mem (c.reg .esp + 4) % 4 ≠ c.ring →
    c'.reg .esp = c.mem (c.reg .esp + 12) ∧ c'.seg .ss = c.mem (c.reg .esp + 16)

theorem iret_returned (h : c.reg .esp + 20 < 2 ^ 32) : Returned c c.iret := by
  have h0 : c.top 0 = c.mem (c.reg .esp) := top_eq (by omega)
  have h4 : c.top 4 = c.mem (c.reg .esp + 4) := top_eq (by omega)
  have h8 : c.top 8 = c.mem (c.reg .esp + 8) := top_eq (by omega)
  have h12 : c.top 12 = c.mem (c.reg .esp + 12) := top_eq (by omega)
  have h16 : c.top 16 = c.mem (c.reg .esp + 16) := top_eq (by omega)
  unfold iret
  rw [h0, h4, h8, h12, h16]
  by_cases hr : c.mem (c.reg .esp + 4) % 4 = c.ring
  · rw [if_pos hr]
    exact
      { eip := rfl
        cs := by rw [drop_seg, setSeg_self]
        eflags := rfl
        mem := rfl
        reg := fun r hr => drop_of_ne hr
        seg := fun s hs _ => by rw [drop_seg, setSeg_of_ne hs]
        inner := fun _ => by
          have hlt : c.reg .esp + 12 < 2 ^ 32 := by omega
          exact ⟨drop_esp hlt, by rw [drop_seg, setSeg_of_ne (by decide)]⟩
        outer := fun hne => absurd hr hne }
  · rw [if_neg hr]
    exact
      { eip := rfl
        cs := by rw [setReg_seg, setSeg_of_ne (by decide), setSeg_self]
        eflags := rfl
        mem := rfl
        reg := fun r hr => setReg_of_ne hr
        seg := fun s hs hs' => by rw [setReg_seg, setSeg_of_ne hs', setSeg_of_ne hs]
        inner := fun he => absurd he hr
        outer := fun _ => ⟨setReg_self, by rw [setReg_seg, setSeg_self]⟩ }

end Lemmas

end Core

end X86
