import SabakaOS.Process.LoadRun

namespace Elf

open Word ByteMemory Prog Paging Pmm

def procUserStackSize : Nat := 8192

-- segments holds p_vaddr and p_memsz of what was loaded for the process.
structure UserProcess where
  segments : List (Nat × Nat)
  userStackVirt : Nat
  brkStart : Nat
  brkCurr : Nat

def UserProcess.Owns (p : UserProcess) (x : Nat) : Prop :=
  (∃ seg ∈ p.segments, seg.1 ≤ x ∧ x < seg.1 + seg.2) ∨
    (p.userStackVirt - procUserStackSize ≤ x ∧ x < p.userStackVirt) ∨
    (p.brkStart ≤ x ∧ x < p.brkCurr)

-- The frame at a physical address is not one that pmm_alloc may hand out.
def FrameUsed (m : Machine) (a : Nat) : Prop :=
  a / pageSize < m.pmm.totalPages → bitmapTest m.pmm.bitmap (a / pageSize) = true

-- The kernel owns what is in use of the identity window, and the heap.
def Belongs (live : List UserProcess) (m : Machine) (x : Nat) : Prop :=
  (x < heapVirt ∧ FrameUsed m x) ∨ (heapVirt ≤ x ∧ x < heapVirt + heapSize) ∨
    ∃ p ∈ live, p.Owns x

-- An address is translated as before and the byte there is the same.
def Unharmed (s s' : AddressSpace) (x : Nat) : Prop :=
  walk s'.machine.tables (x / 4096) = walk s.machine.tables (x / 4096) ∧ peek s' x = peek s x

section Isolation

variable {kernelEnd size x : Nat} {sym : Symbols} {s s' : AddressSpace} {P P' : Pool Nat}
  {done : List Nat} {img : Nat → Option UInt8} {data : Nat → UInt8} {live : List UserProcess}
  {m : Machine}

theorem walk_aligned {t : Tables} {q f : Nat} (h : walk t q = some f) : f % 4096 = 0 := by
  unfold walk at h
  split at h
  · dsimp only at h
    split at h
    · cases h
    · obtain rfl := Option.some.inj h
      rw [show 4096 = 2 ^ 12 by decide, Nat.and_mod_two_pow,
        show frameMask % 2 ^ 12 = 0 by decide, Nat.and_zero]
  · cases h

theorem frameUsed_iff (h : Held kernelEnd P m) (i : Nat) :
    FrameUsed m (i * 4096) ↔ (i < 8192 → i ∈ P.inUse) := by
  have htotal : m.pmm.totalPages = 8192 := h.rep.pages
  have hi : i * 4096 / pageSize = i := Nat.mul_div_cancel i (by decide)
  rw [FrameUsed, hi, htotal]
  refine forall_congr' fun hlt => ?_
  have hbit : bitmapTest m.pmm.bitmap i = decide (i ∈ P.inUse) := h.rep.bits i hlt
  rw [hbit, decide_eq_true_eq]

theorem unharmed_of_not_mem (h : Held kernelEnd P s.machine)
    (h' : Loading kernelEnd s P.inUse P' s' done img) (hx : x < 4294967296)
    (hused : ∀ f, walk s.machine.tables (x / 4096) = some f → FrameUsed s.machine f)
    (hn : x / 4096 ∉ done) : Unharmed s s' x := by
  have hwalk := h'.others (x / 4096) (by omega) hn
  refine ⟨hwalk, ?_⟩
  rw [peek, peek, hwalk]
  cases hw : walk s.machine.tables (x / 4096) with
  | none => rfl
  | some f =>
    obtain ⟨i, rfl⟩ : ∃ i, f = i * 4096 := ⟨f / 4096, by have := walk_aligned hw; omega⟩
    have hu : i < 8192 → i ∈ P.inUse := (frameUsed_iff h i).mp (hused _ hw)
    refine congrArg some (h'.kept _ ?_)
    rw [frame_div i (Nat.mod_lt x (by decide))]
    by_cases hi : i < 8192
    · exact .inl (hu hi)
    · exact .inr fun hm => hi (h'.held.rep.bound i hm)

theorem harmed_of_mem (h : Held kernelEnd P s.machine)
    (h' : Loading kernelEnd s P.inUse P' s' done img)
    (hused : ∀ f, walk s.machine.tables (x / 4096) = some f → FrameUsed s.machine f)
    (hm : x / 4096 ∈ done) : ¬Unharmed s s' x := by
  rintro ⟨hwalk, -⟩
  obtain ⟨-, i, hi, hiU, hw⟩ := h'.own _ hm
  have hu := hused (i * 4096) (hwalk ▸ hw)
  exact hiU ((frameUsed_iff h i).mp hu (h'.held.rep.bound i hi))

section Intruder

theorem sixBoot_used_frames {ram : Nat → UInt8} (x : Nat)
    (hx : Belongs [] (AddressSpace.mk sixBoot ram).machine x) (f : Nat)
    (hf : walk (AddressSpace.mk sixBoot ram).machine.tables (x / 4096) = some f) :
    FrameUsed sixBoot f := by
  rcases hx with ⟨hlow, hu⟩ | ⟨hge, hlt⟩ | ⟨p, hp, -⟩
  · rw [heapVirt] at hlow
    have hw := walk_pagingInit sixLinked.placed ⟨fun _ => 0, fun _ => 0⟩
      (show x / 4096 < 1048576 by omega)
    rw [if_pos (by omega)] at hw
    obtain rfl := Option.some.inj (hw.symm.trans hf)
    unfold FrameUsed at hu ⊢
    rwa [show x / 4096 * 4096 / pageSize = x / pageSize from Nat.mul_div_cancel _ (by decide)]
  · rw [heapVirt] at hge
    rw [heapVirt, heapSize] at hlt
    have hw := walk_pagingInit sixLinked.placed ⟨fun _ => 0, fun _ => 0⟩
      (show x / 4096 < 1048576 by omega)
    rw [if_neg (by omega)] at hw
    cases hw.symm.trans hf
  · exact absurd hp List.not_mem_nil

def bootSpace : AddressSpace := ⟨sixBoot, fun _ => 0⟩

theorem bootSpace_reach :
    ((machine sixSymbols 0x600000).restrict tablesKept).Reach bootSpace.machine :=
  .start ⟨_, _, rfl⟩

theorem oneByte_confined {vaddr : Nat} {data : Nat → UInt8} (h : phdrs data = [oneByte vaddr])
    (hc : (oneByte vaddr).Confined) :
    ∀ ph ∈ phdrs data, Loadable ph → ph.Fits size → ph.Confined := by
  intro ph hm _ _
  rw [h, List.mem_singleton] at hm
  exact hm ▸ hc

end Intruder

end Isolation

end Elf
