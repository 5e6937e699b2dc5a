import Mathlib.Data.Nat.Bitwise
import SabakaOS.Library.Word
import SabakaOS.Library.Loop
import SabakaOS.Library.Run

namespace Paging

open Word Loop

def pagePresent : Nat := 0x1

def pageWrite : Nat := 0x2

def pageUser : Nat := 0x4

-- ~0xFFF as a 32-bit constant.
def frameMask : Nat := 0xFFFFF000

-- The addresses of the two statically allocated page tables.
structure Symbols where
  pageTableLow : Nat
  pageTableHighKernel : Nat

-- mem holds the words of the page tables at their physical addresses.
structure Tables where
  pageDirectory : Nat → Nat
  mem : Nat → Nat

def pdIdx (virt : Nat) : Nat := virt >>> 22

def ptIdx (virt : Nat) : Nat := (virt >>> 12) &&& 0x3FF

def pagingInit (sym : Symbols) (p : Tables) : Tables :=
  let zeroed := upto 1024 (fun i d => Function.update d i 0) p.pageDirectory
  let low := upto 1024 (fun i m => Function.update m (sym.pageTableLow + 4 * i)
    (i * 4096 ||| pagePresent ||| pageWrite)) p.mem
  let high := upto 1024 (fun i m => Function.update m (sym.pageTableHighKernel + 4 * i)
    ((0x400000 + i * 4096) ||| pagePresent ||| pageWrite)) low
  { pageDirectory := Function.update
      (Function.update zeroed 0 (sym.pageTableLow ||| pagePresent ||| pageWrite)) 1
      (sym.pageTableHighKernel ||| pagePresent ||| pageWrite)
    mem := high }

-- frame is what pmm_alloc returns if it is called.
def getOrCreatePt (p : Tables) (pdIdx frame : Nat) : Nat × Tables :=
  if p.pageDirectory pdIdx &&& pagePresent = 0 then
    let p :=
      { pageDirectory := Function.update p.pageDirectory pdIdx
          (frame ||| pagePresent ||| pageWrite ||| pageUser)
        mem := upto 1024 (fun i m => Function.update m (frame + 4 * i) 0) p.mem }
    (p.pageDirectory pdIdx &&& frameMask, p)
  else (p.pageDirectory pdIdx &&& frameMask, p)

def entry (phys flags : Nat) : Nat := (phys &&& frameMask) ||| (flags &&& 0xFFF) ||| pagePresent

def pagingMap (p : Tables) (virt phys flags frame : Nat) : Tables :=
  let r := getOrCreatePt p (pdIdx virt) frame
  { r.2 with mem := Function.update r.2.mem (r.1 + 4 * ptIdx virt) (entry phys flags) }

def pagingUnmap (p : Tables) (virt : Nat) : Tables :=
  if p.pageDirectory (pdIdx virt) &&& pagePresent = 0 then p
  else
    let pt := p.pageDirectory (pdIdx virt) &&& frameMask
    { p with mem := Function.update p.mem (pt + 4 * ptIdx virt) 0 }

def pagingGetPhysaddr (p : Tables) (virt : Nat) : Nat :=
  if p.pageDirectory (pdIdx virt) &&& pagePresent = 0 then 0
  else
    let pt := p.pageDirectory (pdIdx virt) &&& frameMask
    let pte := p.mem (pt + 4 * ptIdx virt)
    if pte &&& pagePresent = 0 then 0 else (pte &&& frameMask) + (virt &&& 0xFFF)

def pagingIsMapped (p : Tables) (virt : Nat) : Bool := pagingGetPhysaddr p virt != 0

theorem pdIdx_eq (virt : Nat) : pdIdx virt = virt / 4096 / 1024 := by
  rw [pdIdx, Nat.shiftRight_eq_div_pow, Nat.div_div_eq_div_mul]

theorem ptIdx_eq (virt : Nat) : ptIdx virt = virt / 4096 % 1024 := by
  rw [ptIdx, Nat.shiftRight_eq_div_pow]
  exact Nat.and_two_pow_sub_one_eq_mod _ 10

theorem and_frameMask {x : Nat} (h : x < 4294967296) : x &&& frameMask = x / 4096 * 4096 :=
  and_highBits 20 12 h

theorem frame_or (a : Nat) {x flags : Nat} (hx : x = 4096 * a) (ha : a < 1048576)
    (hf : flags &&& frameMask = 0) : (x ||| flags) &&& frameMask = x := by
  rw [Nat.and_or_distrib_right, hf, Nat.or_zero, and_frameMask (by omega)]
  omega

theorem or_present (x y : Nat) : (x ||| pagePresent ||| y) &&& pagePresent ≠ 0 := by
  intro h
  have hb := congrArg (Nat.testBit · 0) h
  simp [pagePresent] at hb

theorem entry_present (phys flags : Nat) : entry phys flags &&& pagePresent ≠ 0 := by
  have := or_present ((phys &&& frameMask) ||| (flags &&& 0xFFF)) 0
  rwa [Nat.or_zero] at this

theorem entry_frame (phys flags : Nat) : entry phys flags &&& frameMask = phys &&& frameMask := by
  rw [entry, Nat.and_or_distrib_right, Nat.and_or_distrib_right, Nat.and_assoc, Nat.and_assoc,
    show 0xFFF &&& frameMask = 0 by decide, show pagePresent &&& frameMask = 0 by decide,
    Nat.and_self, Nat.and_zero, Nat.or_zero, Nat.or_zero]

end Paging
