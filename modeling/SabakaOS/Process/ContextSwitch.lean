import SabakaOS.Library.X86
import SabakaOS.Process.Occupancy

namespace Scheduler

open Word X86

def contextSwitch : List Instr :=
  [.push .ebp, .push .ebx, .push .esi, .push .edi,
    .load .eax .esp 20, .store .eax .esp,
    .load .esp .esp 24,
    .pop .edi, .pop .esi, .pop .ebx, .pop .ebp,
    .ret]

-- What context_switch leaves when it is entered at c with &prev->esp and next->esp.
structure Switched (c c' : Core) (prev next : Nat) : Prop where
  saved : c'.mem prev = c.reg .esp - 16
  edi : c'.mem (c.reg .esp - 16) = c.reg .edi
  esi : c'.mem (c.reg .esp - 12) = c.reg .esi
  ebx : c'.mem (c.reg .esp - 8) = c.reg .ebx
  ebp : c'.mem (c.reg .esp - 4) = c.reg .ebp
  other : ∀ a, a ≠ prev → a < c.reg .esp - 16 ∨ c.reg .esp ≤ a → c'.mem a = c.mem a
  newEdi : c'.reg .edi = c'.mem next
  newEsi : c'.reg .esi = c'.mem (next + 4)
  newEbx : c'.reg .ebx = c'.mem (next + 8)
  newEbp : c'.reg .ebp = c'.mem (next + 12)
  newEip : c'.eip = c'.mem (next + 16)
  newEsp : c'.reg .esp = next + 20
  seg : c'.seg = c.seg
  eflags : c'.eflags = c.eflags

section Run

variable {c : Core} {prev next : Nat}

-- The registers are pushed, the stack pointer stored and the other stack taken up.
theorem contextSwitch_save (hlo : 16 ≤ c.reg .esp) (hhi : c.reg .esp + 12 < 2 ^ 32)
    (hprev : c.mem (c.reg .esp + 4) = prev) (hnext : c.mem (c.reg .esp + 8) = next)
    (hout : prev + 4 ≤ c.reg .esp - 16 ∨ c.reg .esp + 12 ≤ prev) :
    c.run (contextSwitch.take 7) =
      (((c.pushAll [c.reg .ebp, c.reg .ebx, c.reg .esi, c.reg .edi]).setReg .eax prev).store prev
        (c.reg .esp - 16)).setReg .esp next := by
  have hesp : (c.pushAll [c.reg .ebp, c.reg .ebx, c.reg .esi, c.reg .edi]).reg .esp =
      c.reg .esp - 16 := Core.pushAll_esp hlo (by omega)
  have habove : ∀ a, c.reg .esp ≤ a →
      (c.pushAll [c.reg .ebp, c.reg .ebx, c.reg .esi, c.reg .edi]).mem a = c.mem a := fun a ha =>
    Core.pushAll_mem_of_out hlo (by omega) (.inr ha)
  change c.run ([.ebp, .ebx, .esi, .edi].map .push ++ [.load .eax .esp 20, .store .eax .esp,
    .load .esp .esp 24]) = _
  rw [Core.run_append, Core.run_push (by decide)]
  change (c.pushAll [c.reg .ebp, c.reg .ebx, c.reg .esi, c.reg .edi]).run _ = _
  generalize c.pushAll [c.reg .ebp, c.reg .ebx, c.reg .esi, c.reg .edi] = c1 at *
  have hprev1 : c1.mem (c1.reg .esp + 20) = prev := by
    rw [hesp, show c.reg .esp - 16 + 20 = c.reg .esp + 4 by omega, habove _ (by omega), hprev]
  have hnext1 : c1.mem (c1.reg .esp + 24) = next := by
    rw [hesp, show c.reg .esp - 16 + 24 = c.reg .esp + 8 by omega, habove _ (by omega), hnext]
  rw [Core.run_cons, Core.exec_load (by omega), hprev1, Core.run_cons, Core.exec_store,
    Core.setReg_self, Core.setReg_of_ne (by decide), Core.run_cons,
    Core.exec_load (by rw [Core.store_reg, Core.setReg_of_ne (by decide)]; omega), Core.store_reg,
    Core.setReg_of_ne (by decide), Core.store_of_ne (by omega), Core.setReg_mem, hnext1, hesp,
    Core.run_nil]

theorem contextSwitch_restore (h : c.reg .esp + 20 < 2 ^ 32) :
    c.run (contextSwitch.drop 7) =
      { (c.popAll [.edi, .esi, .ebx, .ebp]).drop 4 with eip := c.mem (c.reg .esp + 16) } := by
  have hesp : (c.popAll [.edi, .esi, .ebx, .ebp]).reg .esp = c.reg .esp + 16 :=
    Core.popAll_esp (by decide) (by simp; omega)
  have htop : (c.popAll [.edi, .esi, .ebx, .ebp]).top 0 = c.mem (c.reg .esp + 16) := by
    rw [Core.top_eq (by omega), hesp, Core.popAll_mem, Nat.add_zero]
  change c.run ([.edi, .esi, .ebx, .ebp].map .pop ++ [.ret]) = _
  rw [Core.run_append, Core.run_pop, ← htop]
  rfl

theorem contextSwitch_run (hlo : 16 ≤ c.reg .esp) (hhi : c.reg .esp + 12 < 2 ^ 32)
    (hprev : c.mem (c.reg .esp + 4) = prev) (hnext : c.mem (c.reg .esp + 8) = next)
    (hout : prev + 4 ≤ c.reg .esp - 16 ∨ c.reg .esp + 12 ≤ prev) (hn : next + 20 < 2 ^ 32) :
    Switched c (c.run contextSwitch) prev next := by
  have hpushed : ∀ i v k, [c.reg .ebp, c.reg .ebx, c.reg .esi, c.reg .edi][i]? = some v →
      k = 4 * (i + 1) → (c.pushAll [c.reg .ebp, c.reg .ebx, c.reg .esi, c.reg .edi]).mem
        (c.reg .esp - k) = v := fun i v k hv hk => hk ▸ Core.pushAll_mem hlo (by omega) hv
  have hother : ∀ a, a < c.reg .esp - 16 ∨ c.reg .esp ≤ a →
      (c.pushAll [c.reg .ebp, c.reg .ebx, c.reg .esi, c.reg .edi]).mem a = c.mem a := fun a ha =>
    Core.pushAll_mem_of_out hlo (by omega) ha
  rw [← List.take_append_drop 7 contextSwitch, Core.run_append,
    contextSwitch_save hlo hhi hprev hnext hout, contextSwitch_restore (by simpa using hn)]
  have hseg : (c.pushAll [c.reg .ebp, c.reg .ebx, c.reg .esi, c.reg .edi]).seg = c.seg :=
    Core.pushAll_seg
  have heflags : (c.pushAll [c.reg .ebp, c.reg .ebx, c.reg .esi, c.reg .edi]).eflags = c.eflags :=
    Core.pushAll_eflags
  generalize c.pushAll [c.reg .ebp, c.reg .ebx, c.reg .esi, c.reg .edi] = c1 at *
  generalize hc2 : ((c1.setReg .eax prev).store prev (c.reg .esp - 16)).setReg .esp next = c2
  have hesp : c2.reg .esp = next := hc2 ▸ Core.setReg_self
  have hsaved : c2.mem prev = c.reg .esp - 16 := hc2 ▸ Core.store_self
  have hmem : ∀ a, a ≠ prev → c2.mem a = c1.mem a := fun a ha => hc2 ▸ Core.store_of_ne ha
  have hpopped : ∀ i r k, [Reg.edi, .esi, .ebx, .ebp][i]? = some r → r ≠ .esp → k = 4 * i →
      ((c2.popAll [.edi, .esi, .ebx, .ebp]).drop 4).reg r = c2.mem (next + k) := by
    intro i r k hr hne hk
    rw [hk, ← hesp]
    exact (Core.drop_of_ne hne).trans
      (Core.popAll_reg (by decide) (by decide) (by rw [hesp]; simp; omega) hr)
  have hlast : ((c2.popAll [.edi, .esi, .ebx, .ebp]).drop 4).reg .esp = next + 20 := by
    have h16 : (c2.popAll [.edi, .esi, .ebx, .ebp]).reg .esp = next + 16 := by
      rw [← hesp]
      exact Core.popAll_esp (by decide) (by rw [hesp]; simp; omega)
    rw [Core.drop_esp (by omega), h16]
  have hkept : ((c2.popAll [.edi, .esi, .ebx, .ebp]).drop 4).mem = c2.mem := by
    rw [Core.drop_mem, Core.popAll_mem]
  have hseg3 : ((c2.popAll [.edi, .esi, .ebx, .ebp]).drop 4).seg = c.seg := by
    rw [Core.drop_seg, Core.popAll_seg, ← hc2, Core.setReg_seg, Core.store_seg, Core.setReg_seg,
      hseg]
  have heflags3 : ((c2.popAll [.edi, .esi, .ebx, .ebp]).drop 4).eflags = c.eflags := by
    rw [Core.drop_eflags, Core.popAll_eflags, ← hc2, Core.setReg_eflags, Core.store_eflags,
      Core.setReg_eflags, heflags]
  generalize (c2.popAll [.edi, .esi, .ebx, .ebp]).drop 4 = c3 at *
  rw [hesp, ← hkept]
  rw [← hkept] at hsaved hmem hpopped
  exact
    { saved := hsaved
      edi := (hmem _ (by omega)).trans (hpushed 3 _ 16 rfl rfl)
      esi := (hmem _ (by omega)).trans (hpushed 2 _ 12 rfl rfl)
      ebx := (hmem _ (by omega)).trans (hpushed 1 _ 8 rfl rfl)
      ebp := (hmem _ (by omega)).trans (hpushed 0 _ 4 rfl rfl)
      other := fun a hne ha => (hmem _ hne).trans (hother a ha)
      newEdi := hpopped 0 .edi 0 rfl (by decide) rfl
      newEsi := hpopped 1 .esi 4 rfl (by decide) rfl
      newEbx := hpopped 2 .ebx 8 rfl (by decide) rfl
      newEbp := hpopped 3 .ebp 12 rfl (by decide) rfl
      newEip := rfl
      newEsp := hlast
      seg := hseg3
      eflags := heflags3 }

end Run

-- The esp field of procs[i], the eleventh word of a Process.
def espAddr (sym : Symbols) (i : Slot) : Nat := processAddr sym i + 40

-- What a thread is to find when its call of context_switch returns: its registers and, from the
-- stack pointer up, the words of its stack.
structure Context where
  ebx : Nat
  esi : Nat
  edi : Nat
  ebp : Nat
  esp : Nat
  eip : Nat
  stack : Nat → Nat

-- c is the processor as context_switch is entered, its return address on the stack.
def Context.ofCall (c : Core) : Context where
  ebx := c.reg .ebx
  esi := c.reg .esi
  edi := c.reg .edi
  ebp := c.reg .ebp
  esp := c.reg .esp + 4
  eip := c.mem (c.reg .esp)
  stack n := c.mem (c.reg .esp + 4 + 4 * n)

-- proc_entry is entered as if it had been called with the process, func and arg.
def Context.ofCreate (sym : Symbols) (i : Slot) (func arg base : Nat) : Context where
  ebx := 0
  esi := 0
  edi := 0
  ebp := 0
  esp := base + procStackSize - 16
  eip := sym.procEntry
  stack n := [0, processAddr sym i, func, arg].getD n 0

-- The words process_create pushes on a new stack.
def frameWords (sym : Symbols) (i : Slot) (func arg : Nat) : List Nat :=
  [arg, func, processAddr sym i, 0, sym.procEntry, 0, 0, 0, 0]

def initialFrame (sym : Symbols) (i : Slot) (func arg base : Nat) (m : Nat → Nat) :
    (Nat → Nat) × Nat :=
  push m (u32 (base + procStackSize)) (frameWords sym i func arg)

-- A processor, the thread it executes, the stack each thread has from bottom to top, and what
-- the threads that do not execute are to find.
structure Kernel where
  cpu : Core
  current : Slot
  bottom : Slot → Nat
  top : Slot → Nat
  context : Slot → Option Context

namespace Kernel

def Occupied (k : Kernel) (i : Slot) : Prop := i = k.current ∨ k.context i ≠ none

def create (sym : Symbols) (k : Kernel) (i : Slot) (func arg base : Nat) : Kernel :=
  let frame := initialFrame sym i func arg base k.cpu.mem
  { k with
    cpu := { k.cpu with mem := Function.update frame.1 (espAddr sym i) frame.2 }
    bottom := Function.update k.bottom i base
    top := Function.update k.top i (base + procStackSize)
    context := Function.update k.context i (some (.ofCreate sym i func arg base)) }

def switch (k : Kernel) (j : Slot) : Kernel :=
  { k with
    cpu := k.cpu.run contextSwitch
    current := j
    context := Function.update
      (Function.update k.context k.current (some (.ofCall k.cpu))) j none }

-- The code of a thread writes neither to another thread's stack nor to an esp of the table.
structure Own (sym : Symbols) (k : Kernel) (c : Core) : Prop where
  others : ∀ i, k.context i ≠ none → ∀ a, k.bottom i ≤ a → a < k.top i → c.mem a = k.cpu.mem a
  table : ∀ i, c.mem (espAddr sym i) = k.cpu.mem (espAddr sym i)

-- What kmalloc gives for a stack overlaps neither a stack in use nor the table.
structure FreshStack (sym : Symbols) (k : Kernel) (i : Slot) (base : Nat) : Prop where
  small : base + procStackSize < 2 ^ 32
  others : ∀ j, j ≠ i → k.Occupied j → base + procStackSize ≤ k.bottom j ∨ k.top j ≤ base
  table : ∀ j, espAddr sym j + 4 ≤ base ∨ base + procStackSize ≤ espAddr sym j

-- do_switch has called context_switch(&prev->esp, next->esp), with room left on the stack.
structure Calls (sym : Symbols) (k : Kernel) (j : Slot) : Prop where
  target : k.context j ≠ none
  room : k.bottom k.current + 16 ≤ k.cpu.reg .esp ∧ k.cpu.reg .esp + 12 ≤ k.top k.current
  prev : k.cpu.mem (k.cpu.reg .esp + 4) = espAddr sym k.current
  next : k.cpu.mem (k.cpu.reg .esp + 8) = k.cpu.mem (espAddr sym j)

inductive Turn where
  | own (c : Core)
  | create (i : Slot) (func arg base : Nat)
  | discard (i : Slot)
  | switch (j : Slot)

def turn (sym : Symbols) (k : Kernel) : Turn → Kernel → Prop
  | .own c, k' => Own sym k c ∧ k' = { k with cpu := c }
  | .create i func arg base, k' =>
    i ≠ k.current ∧ FreshStack sym k i base ∧ k' = create sym k i func arg base
  | .discard i, k' => k' = { k with context := Function.update k.context i none }
  | .switch j, k' => Calls sym k j ∧ k' = switch k j

-- The boot code goes on as process 0, on the boot stack.
structure Boot (sym : Symbols) (k : Kernel) : Prop where
  first : k.current = 0
  alone : ∀ i, k.context i = none
  small : k.top 0 < 2 ^ 32
  table : ∀ j, espAddr sym j + 4 ≤ k.bottom 0 ∨ k.top 0 ≤ espAddr sym j

def machine (sym : Symbols) : System Kernel Turn where
  init := Boot sym
  step := turn sym

-- The frame context_switch has left, or process_create has made, for context x.
structure Parked (sym : Symbols) (k : Kernel) (i : Slot) (x : Context) : Prop where
  bottom : k.bottom i + 20 ≤ x.esp
  top : x.esp ≤ k.top i
  saved : k.cpu.mem (espAddr sym i) = x.esp - 20
  edi : k.cpu.mem (x.esp - 20) = x.edi
  esi : k.cpu.mem (x.esp - 20 + 4) = x.esi
  ebx : k.cpu.mem (x.esp - 20 + 8) = x.ebx
  ebp : k.cpu.mem (x.esp - 20 + 12) = x.ebp
  eip : k.cpu.mem (x.esp - 20 + 16) = x.eip
  stack : ∀ n, x.esp + 4 * n < k.top i → k.cpu.mem (x.esp + 4 * n) = x.stack n

structure Inv (sym : Symbols) (k : Kernel) : Prop where
  running : k.context k.current = none
  parked : ∀ i x, k.context i = some x → Parked sym k i x
  small : ∀ i, k.Occupied i → k.top i < 2 ^ 32
  table : ∀ i j, k.Occupied i → espAddr sym j + 4 ≤ k.bottom i ∨ k.top i ≤ espAddr sym j
  apart : ∀ i j, k.Occupied i → k.Occupied j → i ≠ j → k.top i ≤ k.bottom j ∨ k.top j ≤ k.bottom i

-- The thread goes on after its call, with its registers and its stack as they were.
structure Resumes (x : Context) (top : Nat) (c : Core) : Prop where
  ebx : c.reg .ebx = x.ebx
  esi : c.reg .esi = x.esi
  edi : c.reg .edi = x.edi
  ebp : c.reg .ebp = x.ebp
  esp : c.reg .esp = x.esp
  eip : c.eip = x.eip
  stack : ∀ n, x.esp + 4 * n < top → c.mem (x.esp + 4 * n) = x.stack n

section Inv

variable {sym : Symbols} {k k' : Kernel} {c : Core} {i j : Slot} {x : Context}
  {func arg base : Nat}

theorem espAddr_inj (h : espAddr sym i = espAddr sym j) : i = j := by
  unfold espAddr processAddr at h
  exact Fin.ext (by omega)

-- A parked frame depends on its stack and its esp in the table only.
theorem Parked.congr (h : Parked sym k i x) (hb : k'.bottom i = k.bottom i)
    (ht : k'.top i = k.top i)
    (hm : ∀ a, k.bottom i ≤ a → a < k.top i → k'.cpu.mem a = k.cpu.mem a)
    (he : k'.cpu.mem (espAddr sym i) = k.cpu.mem (espAddr sym i)) : Parked sym k' i x := by
  obtain ⟨hbot, htop, hs, h0, h1, h2, h3, h4, hst⟩ := h
  exact
    { bottom := by rw [hb]; exact hbot
      top := by rw [ht]; exact htop
      saved := he.trans hs
      edi := (hm _ (by omega) (by omega)).trans h0
      esi := (hm _ (by omega) (by omega)).trans h1
      ebx := (hm _ (by omega) (by omega)).trans h2
      ebp := (hm _ (by omega) (by omega)).trans h3
      eip := (hm _ (by omega) (by omega)).trans h4
      stack := fun n hn => by
        rw [ht] at hn
        exact (hm _ (by omega) hn).trans (hst n hn) }

theorem Inv.boot (h : Boot sym k) : Inv sym k := by
  have hocc : ∀ i, k.Occupied i → i = 0 := fun i hi =>
    hi.elim (fun e => e.trans h.first) fun hc => absurd (h.alone i) hc
  refine ⟨h.alone _, fun i x hx => ?_, fun i hi => ?_, fun i j hi => ?_, fun i j hi hj hij => ?_⟩
  · rw [h.alone i] at hx
    cases hx
  · rw [hocc i hi]
    exact h.small
  · rw [hocc i hi]
    exact h.table j
  · exact absurd ((hocc i hi).trans (hocc j hj).symm) hij

theorem Inv.own (h : Inv sym k) (ho : Own sym k c) : Inv sym { k with cpu := c } := by
  refine ⟨h.running, fun i x hx => ?_, h.small, h.table, h.apart⟩
  exact (h.parked i x hx).congr rfl rfl (ho.others i (by rw [hx]; simp)) (ho.table i)

theorem Inv.discard (h : Inv sym k) (i : Slot) :
    Inv sym { k with context := Function.update k.context i none } := by
  have hctx : ∀ j x, Function.update k.context i none j = some x → k.context j = some x := by
    intro j x hx
    rw [Function.update_apply] at hx
    split at hx
    · cases hx
    · exact hx
  have hocc : ∀ j, Occupied { k with context := Function.update k.context i none } j →
      k.Occupied j := by
    rintro j (hj | hj)
    · exact .inl hj
    · obtain ⟨x, hx⟩ := Option.ne_none_iff_exists'.mp hj
      exact .inr (by rw [hctx j x hx]; simp)
  refine ⟨?_, fun j x hx => ?_, fun j hj => h.small j (hocc j hj),
    fun j l hj => h.table j l (hocc j hj), fun j l hj hl => h.apart j l (hocc j hj) (hocc l hl)⟩
  · change Function.update k.context i none k.current = none
    rw [Function.update_apply, h.running, ite_self]
  · exact (h.parked j x (hctx j x hx)).congr rfl rfl (fun _ _ _ => rfl) rfl

theorem push_pushAll (c : Core) (l : List Nat) :
    push c.mem (c.reg .esp) l = ((c.pushAll l).mem, (c.pushAll l).reg .esp) := by
  induction l generalizing c with
  | nil => rfl
  | cons v l ih =>
    rw [push, Core.pushAll_cons, ← ih, Core.push_esp_word, Core.push_mem_word]

structure IsFrame (sym : Symbols) (i : Slot) (func arg base : Nat) (m m' : Nat → Nat) : Prop where
  word : ∀ n v, (frameWords sym i func arg)[n]? = some v →
    m' (base + procStackSize - 4 * (n + 1)) = v
  other : ∀ a, a < base ∨ base + procStackSize ≤ a → m' a = m a

variable (sym i func arg) in
theorem initialFrame_spec (m : Nat → Nat) (hb : base + procStackSize < 2 ^ 32) :
    (initialFrame sym i func arg base m).2 = base + procStackSize - 36 ∧
      IsFrame sym i func arg base m (initialFrame sym i func arg base m).1 := by
  have hsize : procStackSize = 8192 := rfl
  obtain ⟨c, hesp, rfl⟩ : ∃ c : Core, c.reg .esp = base + procStackSize ∧ c.mem = m :=
    ⟨⟨fun _ => base + procStackSize, fun _ => 0, 0, 0, m⟩, rfl, rfl⟩
  have hlen : (frameWords sym i func arg).length = 9 := rfl
  have hsp := Core.pushAll_esp (c := c) (l := frameWords sym i func arg) (by omega) (by omega)
  rw [initialFrame, u32_of_lt hb, ← hesp, push_pushAll]
  dsimp only
  refine ⟨?_, fun n v hv => ?_, fun a ha => ?_⟩
  · rw [hsp, hlen]
  · have := Core.pushAll_mem (c := c) (by omega) (by omega) hv
    rwa [← hesp]
  · exact Core.pushAll_mem_of_out (c := c) (by omega) (by omega) (by omega)

theorem create_parked (hf : FreshStack sym k i base) :
    Parked sym (create sym k i func arg base) i (.ofCreate sym i func arg base) := by
  have hsize : procStackSize = 8192 := rfl
  obtain ⟨hsp, hword, -⟩ := initialFrame_spec sym i func arg k.cpu.mem hf.small
  have hesp : (Context.ofCreate sym i func arg base).esp = base + procStackSize - 16 := rfl
  have hin : ∀ n v a, (frameWords sym i func arg)[n]? = some v →
      a = base + procStackSize - 4 * (n + 1) → (create sym k i func arg base).cpu.mem a = v := by
    rintro n v a hv rfl
    have hn : n < 9 := (List.getElem?_eq_some_iff.mp hv).1
    refine (Function.update_of_ne ?_ _ _).trans (hword n v hv)
    have := hf.table i
    omega
  have htop : (create sym k i func arg base).top i = base + procStackSize :=
    Function.update_self ..
  have hbot : (create sym k i func arg base).bottom i = base := Function.update_self ..
  exact
    { bottom := by omega
      top := by omega
      saved := by
        refine (Function.update_self ..).trans (hsp.trans ?_)
        omega
      edi := hin 8 _ _ rfl (by omega)
      esi := hin 7 _ _ rfl (by omega)
      ebx := hin 6 _ _ rfl (by omega)
      ebp := hin 5 _ _ rfl (by omega)
      eip := hin 4 _ _ rfl (by omega)
      stack := fun n hn => by
        have hn4 : n < 4 := by omega
        refine hin (3 - n) _ _ ?_ (by omega)
        match n, hn4 with
        | 0, _ => rfl
        | 1, _ => rfl
        | 2, _ => rfl
        | 3, _ => rfl }

theorem Inv.create (h : Inv sym k) (hi : i ≠ k.current) (hf : FreshStack sym k i base) :
    Inv sym (create sym k i func arg base) := by
  obtain ⟨-, hframe⟩ := initialFrame_spec sym i func arg k.cpu.mem hf.small
  have hctx : ∀ j, j ≠ i → (Kernel.create sym k i func arg base).context j = k.context j :=
    fun j hj => Function.update_of_ne hj ..
  have hbot : ∀ j, j ≠ i → (Kernel.create sym k i func arg base).bottom j = k.bottom j :=
    fun j hj => Function.update_of_ne hj ..
  have htop : ∀ j, j ≠ i → (Kernel.create sym k i func arg base).top j = k.top j :=
    fun j hj => Function.update_of_ne hj ..
  have hbot' : (Kernel.create sym k i func arg base).bottom i = base := Function.update_self ..
  have htop' : (Kernel.create sym k i func arg base).top i = base + procStackSize :=
    Function.update_self ..
  have hocc : ∀ j, j ≠ i → (Kernel.create sym k i func arg base).Occupied j → k.Occupied j :=
    fun j hj => Or.imp_right (hctx j hj ▸ ·)
  refine ⟨(hctx _ hi.symm).trans h.running, fun j x hx => ?_, fun j hj => ?_, fun j l hj => ?_,
    fun j l hj hl hjl => ?_⟩
  · by_cases hji : j = i
    · subst hji
      have hself : (Kernel.create sym k j func arg base).context j =
          some (.ofCreate sym j func arg base) := Function.update_self ..
      obtain rfl := Option.some.inj (hself.symm.trans hx)
      exact create_parked hf
    · rw [hctx j hji] at hx
      have hj : k.Occupied j := .inr (by rw [hx]; simp)
      refine (h.parked j x hx).congr (hbot j hji) (htop j hji) (fun a ha ha' => ?_) ?_
      · have hap := hf.others j hji hj
        have htab := h.table j i hj
        refine (Function.update_of_ne (by omega) _ _).trans (hframe.other a (by omega))
      · have htab := hf.table j
        exact (Function.update_of_ne (fun he => hji (espAddr_inj he)) _ _).trans
          (hframe.other _ (by omega))
  · by_cases hji : j = i
    · rw [hji, htop']
      exact hf.small
    · rw [htop j hji]
      exact h.small j (hocc j hji hj)
  · by_cases hji : j = i
    · rw [hji, htop', hbot']
      exact hf.table l
    · rw [htop j hji, hbot j hji]
      exact h.table j l (hocc j hji hj)
  · by_cases hji : j = i
    · have hli : l ≠ i := fun e => hjl (hji.trans e.symm)
      rw [hji, htop', hbot', htop l hli, hbot l hli]
      exact hf.others l hli (hocc l hli hl)
    · by_cases hli : l = i
      · rw [hli, htop', hbot', htop j hji, hbot j hji]
        exact (hf.others j hji (hocc j hji hj)).symm
      · rw [htop j hji, hbot j hji, htop l hli, hbot l hli]
        exact h.apart j l (hocc j hji hj) (hocc l hli hl) hjl

theorem Inv.switched (h : Inv sym k) (hx : k.context j = some x) (hc : Calls sym k j) :
    Switched k.cpu (k.cpu.run contextSwitch) (espAddr sym k.current) (x.esp - 20) := by
  have hp := h.parked j x hx
  have hsmall := h.small j (.inr hc.target)
  have hcur := h.small k.current (.inl rfl)
  have htab := h.table k.current k.current (.inl rfl)
  obtain ⟨hroom, hroom'⟩ := hc.room
  have hbot := hp.bottom
  have htop := hp.top
  exact contextSwitch_run (by omega) (by omega) hc.prev (hc.next.trans hp.saved) (by omega)
    (by omega)

-- A stack that is not the one left is as it was.
theorem Inv.untouched (h : Inv sym k) (hx : k.context j = some x) (hc : Calls sym k j)
    (hi : k.Occupied i) (hne : i ≠ k.current) {a : Nat} (ha : k.bottom i ≤ a) (ha' : a < k.top i) :
    (k.cpu.run contextSwitch).mem a = k.cpu.mem a := by
  have hap := h.apart i k.current hi (.inl rfl) hne
  have htab := h.table i k.current hi
  obtain ⟨hroom, hroom'⟩ := hc.room
  exact (h.switched hx hc).other a (by omega) (by omega)

theorem Inv.left (h : Inv sym k) (hx : k.context j = some x) (hc : Calls sym k j) :
    Parked sym (switch k j) k.current (.ofCall k.cpu) := by
  have hs := h.switched hx hc
  have htab := h.table k.current k.current (.inl rfl)
  obtain ⟨hroom, hroom'⟩ := hc.room
  have hesp : (Context.ofCall k.cpu).esp - 20 = k.cpu.reg .esp - 16 := by
    change k.cpu.reg .esp + 4 - 20 = _
    omega
  exact
    { bottom := show _ + 20 ≤ k.cpu.reg .esp + 4 by
        change k.bottom k.current + 20 ≤ _
        omega
      top := show k.cpu.reg .esp + 4 ≤ k.top k.current by omega
      saved := by
        rw [hesp]
        exact hs.saved
      edi := by
        rw [hesp]
        exact hs.edi
      esi := by
        rw [hesp, show k.cpu.reg .esp - 16 + 4 = k.cpu.reg .esp - 12 by omega]
        exact hs.esi
      ebx := by
        rw [hesp, show k.cpu.reg .esp - 16 + 8 = k.cpu.reg .esp - 8 by omega]
        exact hs.ebx
      ebp := by
        rw [hesp, show k.cpu.reg .esp - 16 + 12 = k.cpu.reg .esp - 4 by omega]
        exact hs.ebp
      eip := by
        rw [hesp, show k.cpu.reg .esp - 16 + 16 = k.cpu.reg .esp by omega]
        exact hs.other _ (by omega) (.inr le_rfl)
      stack := fun n hn => by
        change k.cpu.reg .esp + 4 + 4 * n < k.top k.current at hn
        exact hs.other (k.cpu.reg .esp + 4 + 4 * n) (by omega) (.inr (by omega)) }

theorem Inv.switch (h : Inv sym k) (hc : Calls sym k j) : Inv sym (switch k j) := by
  obtain ⟨x, hx⟩ := Option.ne_none_iff_exists'.mp hc.target
  have hj : j ≠ k.current := by
    rintro rfl
    exact hc.target h.running
  have hctx : ∀ i, i ≠ j → i ≠ k.current → (Kernel.switch k j).context i = k.context i :=
    fun i hij hik => (Function.update_of_ne hij ..).trans (Function.update_of_ne hik ..)
  have hself : (Kernel.switch k j).context j = none := Function.update_self ..
  have hold : (Kernel.switch k j).context k.current = some (.ofCall k.cpu) :=
    (Function.update_of_ne hj.symm ..).trans (Function.update_self ..)
  have hocc : ∀ i, (Kernel.switch k j).Occupied i → k.Occupied i := by
    rintro i (hi | hi)
    · exact .inr (hi ▸ hc.target)
    · by_cases hik : i = k.current
      · exact .inl hik
      · have hij : i ≠ j := by
          rintro rfl
          exact hi hself
        exact .inr (hctx i hij hik ▸ hi)
  refine ⟨hself, fun i y hy => ?_, fun i hi => h.small i (hocc i hi),
    fun i l hi => h.table i l (hocc i hi), fun i l hi hl => h.apart i l (hocc i hi) (hocc l hl)⟩
  by_cases hij : i = j
  · rw [hij, hself] at hy
    cases hy
  · by_cases hik : i = k.current
    · subst hik
      obtain rfl := Option.some.inj (hold.symm.trans hy)
      exact h.left hx hc
    · rw [hctx i hij hik] at hy
      have hi : k.Occupied i := .inr (by rw [hy]; simp)
      refine (h.parked i y hy).congr rfl rfl (fun a ha ha' => h.untouched hx hc hi hik ha ha') ?_
      have htab := h.table k.current i (.inl rfl)
      obtain ⟨hroom, hroom'⟩ := hc.room
      exact (h.switched hx hc).other _ (fun he => hik (espAddr_inj he)) (by omega)

def invariant (sym : Symbols) : (machine sym).Invariant where
  holds := Inv sym
  start := Inv.boot
  step := by
    rintro k (c | ⟨i, func, arg, base⟩ | i | j) k' h ht
    · obtain ⟨ho, rfl⟩ := ht
      exact h.own ho
    · obtain ⟨hi, hf, rfl⟩ := ht
      exact h.create hi hf
    · obtain rfl := ht
      exact h.discard i
    · obtain ⟨hc, rfl⟩ := ht
      exact h.switch hc

theorem Inv.resumes (h : Inv sym k) (hx : k.context j = some x) (hc : Calls sym k j) :
    Resumes x (k.top j) (k.cpu.run contextSwitch) := by
  have hj : j ≠ k.current := by
    rintro rfl
    exact hc.target h.running
  have hs := h.switched hx hc
  have hp := h.parked j x hx
  have hbot := hp.bottom
  have htop := hp.top
  have hin : ∀ a, k.bottom j ≤ a → a < k.top j →
      (k.cpu.run contextSwitch).mem a = k.cpu.mem a := fun a ha ha' =>
    h.untouched hx hc (.inr hc.target) hj ha ha'
  exact
    { ebx := hs.newEbx.trans ((hin _ (by omega) (by omega)).trans hp.ebx)
      esi := hs.newEsi.trans ((hin _ (by omega) (by omega)).trans hp.esi)
      edi := hs.newEdi.trans ((hin _ (by omega) (by omega)).trans hp.edi)
      ebp := hs.newEbp.trans ((hin _ (by omega) (by omega)).trans hp.ebp)
      esp := hs.newEsp.trans (by omega)
      eip := hs.newEip.trans ((hin _ (by omega) (by omega)).trans hp.eip)
      stack := fun n hn => (hin _ (by omega) hn).trans (hp.stack n hn) }

-- The turns that neither resume thread i nor end it.
def Turn.Apart (i : Slot) : Turn → Prop
  | .own _ => True
  | .create j _ _ _ => j ≠ i
  | .discard j => j ≠ i
  | .switch j => j ≠ i

-- What happens while thread i does not execute.
inductive Away (sym : Symbols) (i : Slot) : Kernel → Kernel → Prop where
  | refl (k : Kernel) : Away sym i k k
  | step {k k' k'' : Kernel} {t : Turn} : Away sym i k k' → t.Apart i →
      (machine sym).step k' t k'' → Away sym i k k''

theorem Away.own {k2 : Kernel} (h : Away sym i k k') (ht : (machine sym).step k' (.own c) k2) :
    Away sym i k k2 :=
  .step (t := .own c) h trivial ht

theorem Away.reach (h : Away sym i k k') (hr : (machine sym).Reach k) : (machine sym).Reach k' := by
  induction h with
  | refl => exact hr
  | step _ _ ht ih => exact ih.next ht

theorem Away.kept (h : Away sym i k k') (hx : k.context i = some x)
    (hr : (machine sym).Reach k) : k'.context i = some x ∧ k'.top i = k.top i := by
  induction h with
  | refl => exact ⟨hx, rfl⟩
  | @step k1 k2 t hk hapart ht ih =>
    obtain ⟨hx1, htop⟩ := ih
    have hne : i ≠ k1.current := by
      rintro rfl
      have hrun := ((invariant sym).reach (hk.reach hr)).running
      rw [hx1] at hrun
      cases hrun
    cases t with
    | own c =>
      obtain ⟨-, rfl⟩ := ht
      exact ⟨hx1, htop⟩
    | create j func arg base =>
      obtain ⟨-, -, rfl⟩ := ht
      exact ⟨(Function.update_of_ne hapart.symm ..).trans hx1,
        (Function.update_of_ne hapart.symm ..).trans htop⟩
    | discard j =>
      obtain rfl := ht
      exact ⟨(Function.update_of_ne hapart.symm ..).trans hx1, htop⟩
    | switch j =>
      obtain ⟨-, rfl⟩ := ht
      exact ⟨(Function.update_of_ne hapart.symm ..).trans
        ((Function.update_of_ne hne ..).trans hx1), htop⟩

theorem Away.resumes {k3 : Kernel} (h : Away sym i k k') (hx : k.context i = some x)
    (hr : (machine sym).Reach k) (hback : (machine sym).step k' (.switch i) k3) :
    Resumes x (k.top i) k3.cpu := by
  obtain ⟨hc, rfl⟩ := hback
  obtain ⟨hx', htop⟩ := h.kept hx hr
  rw [← htop]
  exact ((invariant sym).reach (h.reach hr)).resumes hx' hc

theorem threads_resume {k1 k2 k3 : Kernel} (hr : (machine sym).Reach k)
    (haway : Away sym i k1 k2) (hback : (machine sym).step k2 (.switch i) k3) :
    (∀ j, i = k.current → (machine sym).step k (.switch j) k1 →
      Resumes (.ofCall k.cpu) (k.top i) k3.cpu) ∧
    (∀ func arg base, (machine sym).step k (.create i func arg base) k1 →
      Resumes (.ofCreate sym i func arg base) (base + procStackSize) k3.cpu) := by
  refine ⟨?_, fun func arg base ht => ?_⟩
  · rintro j rfl ht
    have hreach := hr.next ht
    obtain ⟨hc, rfl⟩ := ht
    have hj : k.current ≠ j := by
      rintro rfl
      exact hc.target ((invariant sym).reach hr).running
    exact haway.resumes ((Function.update_of_ne hj ..).trans (Function.update_self ..)) hreach hback
  · have hreach := hr.next ht
    obtain ⟨-, -, rfl⟩ := ht
    have := haway.resumes (Function.update_self ..) hreach hback
    rwa [show (Kernel.create sym k i func arg base).top i = base + procStackSize from
      Function.update_self ..] at this

-- The frame of a call of context_switch to thread j, where the stack pointer is.
def callFrame (sym : Symbols) (k : Kernel) (j : Slot) : Core :=
  (k.cpu.store (k.cpu.reg .esp + 4) (espAddr sym k.current)).store (k.cpu.reg .esp + 8)
    (k.cpu.mem (espAddr sym j))

theorem Inv.call (h : Inv sym k) (hj : k.context j ≠ none)
    (hroom : k.bottom k.current + 16 ≤ k.cpu.reg .esp ∧ k.cpu.reg .esp + 12 ≤ k.top k.current) :
    Own sym k (callFrame sym k j) ∧ Calls sym { k with cpu := callFrame sym k j } j := by
  have hkeep : ∀ a, a ≠ k.cpu.reg .esp + 4 → a ≠ k.cpu.reg .esp + 8 →
      (callFrame sym k j).mem a = k.cpu.mem a := fun a h1 h2 =>
    (Core.store_of_ne h2).trans (Core.store_of_ne h1)
  have htab : ∀ i, (callFrame sym k j).mem (espAddr sym i) = k.cpu.mem (espAddr sym i) := by
    intro i
    have := h.table k.current i (.inl rfl)
    exact hkeep _ (by omega) (by omega)
  refine ⟨⟨fun i hi a ha ha' => ?_, htab⟩, hj, hroom, ?_, ?_⟩
  · have hne : i ≠ k.current := by
      rintro rfl
      exact hi h.running
    have := h.apart i k.current (.inr hi) (.inl rfl) hne
    exact hkeep a (by omega) (by omega)
  · change (callFrame sym k j).mem (k.cpu.reg .esp + 4) = _
    exact (Core.store_of_ne (by omega)).trans Core.store_self
  · exact Core.store_self.trans (htab j).symm

end Inv

section Scheduled

variable {sym : Symbols} {k : Kernel} {s s' : Sched} {i j : Slot} {x : Context}

-- The table of the scheduler's model is the one in memory.
structure Agrees (sym : Symbols) (k : Kernel) (s : Sched) : Prop where
  current : k.current = s.currentIdx
  esp : ∀ i, k.cpu.mem (espAddr sym i) = (s.procs i).esp

theorem doSwitch_esp (s : Sched) (sp : Nat) (hj : j ≠ s.currentIdx) (i : Slot) :
    ((doSwitch s j sp).procs i).esp = if i = s.currentIdx then sp else (s.procs i).esp := by
  unfold doSwitch
  rw [if_neg hj]
  by_cases hi : i = s.currentIdx
  · subst hi
    rw [if_pos rfl]
    simp [setProc]
  · rw [if_neg hi]
    by_cases hij : i = j
    · subst hij
      simp [setProc, hi]
    · simp [setProc, hi, hij]

-- context_switch does to the table and the stack pointer what do_switch is modelled to do.
theorem Agrees.switch (h : Inv sym k) (ha : Agrees sym k s) (hx : k.context j = some x)
    (hc : Calls sym k j) : Agrees sym (k.switch j) (doSwitch s j (k.cpu.reg .esp - 16)) ∧
      (k.switch j).cpu.reg .esp = (doSwitch s j (k.cpu.reg .esp - 16)).cpuEsp + 20 := by
  have hj : j ≠ s.currentIdx := by
    rintro rfl
    exact hc.target (ha.current ▸ h.running)
  have hs := h.switched hx hc
  obtain ⟨hroom, hroom'⟩ := hc.room
  refine ⟨⟨?_, fun i => ?_⟩, ?_⟩
  · unfold doSwitch
    rw [if_neg hj]
    rfl
  · rw [doSwitch_esp s _ hj]
    split
    · next hi =>
      rw [hi, ← ha.current]
      exact hs.saved
    · next hi =>
      have htab := h.table k.current i (.inl rfl)
      rw [← ha.esp i]
      exact hs.other _ (fun he => hi ((espAddr_inj he).trans ha.current)) (by omega)
  · have hcpu : (doSwitch s j (k.cpu.reg .esp - 16)).cpuEsp = (s.procs j).esp := by
      unfold doSwitch
      rw [if_neg hj]
      simp [setProc, hj]
    rw [hcpu, ← ha.esp j, (h.parked j x hx).saved]
    exact hs.newEsp

-- process_create and process_create_user leave the stack memory and the esp of initialFrame.
theorem processCreate_frame {func arg priority stack : Nat} {name : List UInt8}
    (h : processCreate sym s func arg name priority stack = (some i, s')) :
    (s'.stackMem, (s'.procs i).esp) = initialFrame sym i func arg stack s.stackMem := by
  unfold processCreate at h
  split at h
  · cases h
  · split_ifs at h
    · cases h
    · obtain ⟨hi, rfl⟩ := Prod.mk.inj h
      obtain rfl := Option.some.inj hi
      simp [counted, setProc, initialFrame, frameWords]

theorem processCreateUser_frame {entry priority kstack : Nat} {name : List UInt8} {mapped : Bool}
    (h : processCreateUser sym s entry name priority kstack mapped = (some i, s')) :
    (s'.stackMem, (s'.procs i).esp) = initialFrame sym i 0 0 kstack s.stackMem := by
  unfold processCreateUser at h
  split at h
  · cases h
  · simp only at h
    split_ifs at h
    · cases h
    · cases h
    · obtain ⟨hi, rfl⟩ := Prod.mk.inj h
      obtain rfl := Option.some.inj hi
      simp [counted, setProc, initialFrame, frameWords]

end Scheduled

section Example

def exampleSymbols : Symbols := ⟨1000, 5000⟩

def bootKernel : Kernel where
  cpu := ⟨fun r => if r = .esp then 105000 else 3, fun _ => 16, 4000, 2, fun _ => 0⟩
  current := 0
  bottom := fun _ => 100000
  top := fun _ => 110000
  context := fun _ => none

def createdKernel : Kernel := create exampleSymbols bootKernel 1 7 9 200000

def callingKernel : Kernel := { createdKernel with cpu := callFrame exampleSymbols createdKernel 1 }

def switchedKernel : Kernel := callingKernel.switch 1

def backKernel : Kernel :=
  { switchedKernel with cpu := callFrame exampleSymbols switchedKernel 0 }

theorem bootKernel_boot : Boot exampleSymbols bootKernel :=
  ⟨rfl, fun _ => rfl, by decide, by decide⟩

theorem bootKernel_create :
    (machine exampleSymbols).step bootKernel (.create 1 7 9 200000) createdKernel :=
  ⟨by decide, ⟨by decide, fun _ _ _ => .inr (show 110000 ≤ 200000 by decide), by decide⟩, rfl⟩

theorem createdKernel_reach : (machine exampleSymbols).Reach createdKernel :=
  (System.Reach.start bootKernel_boot).next bootKernel_create

theorem createdKernel_call : Own exampleSymbols createdKernel callingKernel.cpu ∧
    Calls exampleSymbols callingKernel 1 :=
  ((invariant exampleSymbols).reach createdKernel_reach).call (by rintro ⟨⟩)
    (by constructor <;> decide)

theorem createdKernel_own :
    (machine exampleSymbols).step createdKernel (.own callingKernel.cpu) callingKernel :=
  ⟨createdKernel_call.1, rfl⟩

theorem callingKernel_switch :
    (machine exampleSymbols).step callingKernel (.switch 1) switchedKernel :=
  ⟨createdKernel_call.2, rfl⟩

theorem switchedKernel_reach : (machine exampleSymbols).Reach switchedKernel :=
  (createdKernel_reach.next createdKernel_own).next callingKernel_switch

theorem switchedKernel_call : Own exampleSymbols switchedKernel backKernel.cpu ∧
    Calls exampleSymbols backKernel 0 :=
  ((invariant exampleSymbols).reach switchedKernel_reach).call (by rintro ⟨⟩)
    (by constructor <;> decide)

theorem switchedKernel_own :
    (machine exampleSymbols).step switchedKernel (.own backKernel.cpu) backKernel :=
  ⟨switchedKernel_call.1, rfl⟩

theorem backKernel_switch :
    (machine exampleSymbols).step backKernel (.switch 0) (backKernel.switch 0) :=
  ⟨switchedKernel_call.2, rfl⟩

-- Process 0 starts thread 1 and is switched back to.
theorem threads_resume_twice :
    Resumes (.ofCreate exampleSymbols 1 7 9 200000) 208192 switchedKernel.cpu ∧
      Resumes (.ofCall callingKernel.cpu) 110000 (backKernel.switch 0).cpu :=
  ⟨(threads_resume (.start bootKernel_boot) (.own (.refl createdKernel) createdKernel_own)
      callingKernel_switch).2 7 9 200000 bootKernel_create,
    (threads_resume (createdKernel_reach.next createdKernel_own)
      (.own (.refl switchedKernel) switchedKernel_own) backKernel_switch).1 1 rfl
      callingKernel_switch⟩

end Example

end Kernel

end Scheduler
