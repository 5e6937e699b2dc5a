import Mathlib.Data.Finset.Image
import Mathlib.Data.Finset.Range
import SabakaOS.Library.Word
import SabakaOS.Library.Loop
import SabakaOS.Library.Bitmap
import SabakaOS.Library.Pool
import SabakaOS.Library.Run

structure Pmm where
  bitmap : Nat → BitVec 8
  totalPages : Nat
  usedPages : Nat
  bitmapSize : Nat

namespace Pmm

open Word Loop

def pageSize : Nat := 4096

def bitmapSet (bitmap : Nat → BitVec 8) (page : Nat) : Nat → BitVec 8 := Bitmap.set bitmap page

def bitmapClear (bitmap : Nat → BitVec 8) (page : Nat) : Nat → BitVec 8 := Bitmap.clear bitmap page

def bitmapTest (bitmap : Nat → BitVec 8) (page : Nat) : Bool := Bitmap.test bitmap page

def firstFree (kernelEnd : Nat) : Nat := u32 (kernelEnd + pageSize - 1) / pageSize

def pmmInit (p : Pmm) (kernelEnd memSizeBytes : Nat) : Pmm :=
  let totalPages := memSizeBytes / pageSize
  let bitmapSize := totalPages / 8
  let filled := upto bitmapSize (fun i m => Function.update m i 0xFF#8) p.bitmap
  let first := firstFree kernelEnd
  let freed := upto (totalPages - first)
    (fun k s => (bitmapClear s.1 (first + k), sub32 s.2 1)) (filled, totalPages)
  { bitmap := upto 256 (fun i m => bitmapSet m i) freed.1
    totalPages := totalPages
    usedPages := freed.2
    bitmapSize := bitmapSize }

-- The first component is the returned pointer; 0 is nullptr.
def pmmAlloc (p : Pmm) : Nat × Pmm :=
  match (List.range p.totalPages).find? (fun i => !bitmapTest p.bitmap i) with
  | some i => (u32 (i * pageSize),
      { p with bitmap := bitmapSet p.bitmap i, usedPages := u32 (p.usedPages + 1) })
  | none => (0, p)

def pmmFree (p : Pmm) (addr : Nat) : Pmm :=
  let page := addr / pageSize
  if bitmapTest p.bitmap page then
    { p with bitmap := bitmapClear p.bitmap page, usedPages := sub32 p.usedPages 1 }
  else p

theorem test_bitmapSet (m : Nat → BitVec 8) (i j : Nat) :
    bitmapTest (bitmapSet m i) j = (bitmapTest m j || decide (i = j)) :=
  Bitmap.test_set (by decide) m i j

theorem test_bitmapClear (m : Nat → BitVec 8) (i j : Nat) :
    bitmapTest (bitmapClear m i) j = (bitmapTest m j && decide (i ≠ j)) :=
  Bitmap.test_clear (by decide) m i j

theorem test_fill (m : Nat → BitVec 8) (n : Nat) {j : Nat} (h : j < 8 * n) :
    bitmapTest (upto n (fun i m => Function.update m i 0xFF#8) m) j = true := by
  have hfill : ∀ k < n, upto n (fun i m => Function.update m i 0xFF#8) m k = 0xFF#8 := by
    refine upto_inv (fun i (m' : Nat → BitVec 8) => ∀ k < i, m' k = 0xFF#8) (by simp) (fun i t _ ih k hk => ?_)
    by_cases he : k = i
    · rw [he, Function.update_self]
    · rw [Function.update_of_ne he, ih k (by omega)]
  have hk : j % 8 < 8 := Nat.mod_lt _ (by decide)
  rw [bitmapTest, Bitmap.test_eq_bit (by decide), hfill _ (by omega),
    show (0xFF#8) = BitVec.allOnes 8 from by decide, BitVec.getLsbD_allOnes]
  simpa using hk

theorem free_loop (m : Nat → BitVec 8) (first used n : Nat) (hn : n ≤ used)
    (hu : used < 4294967296) :
    let s := upto n (fun k (s : (Nat → BitVec 8) × Nat) =>
      (bitmapClear s.1 (first + k), sub32 s.2 1)) (m, used)
    s.2 = used - n ∧
      ∀ j, bitmapTest s.1 j = (bitmapTest m j && decide (j < first ∨ first + n ≤ j)) := by
  refine upto_inv (fun i (s : (Nat → BitVec 8) × Nat) => s.2 = used - i ∧ ∀ j,
    bitmapTest s.1 j = (bitmapTest m j && decide (j < first ∨ first + i ≤ j))) ?_ ?_
  · refine ⟨rfl, fun j => ?_⟩
    have hj : j < first ∨ first + 0 ≤ j := by omega
    rw [decide_eq_true hj, Bool.and_true]
  · rintro i ⟨m', u⟩ hi ⟨hu', hb⟩
    simp only at hu' hb ⊢
    refine ⟨by rw [hu', sub32_of_le (by omega) (by omega)]; omega, fun j => ?_⟩
    rw [test_bitmapClear, hb, Bool.and_assoc]
    congr 1
    rw [Bool.eq_iff_iff]
    simp only [Bool.and_eq_true, decide_eq_true_eq]
    omega

theorem low_loop (m : Nat → BitVec 8) (n j : Nat) :
    bitmapTest (upto n (fun i m => bitmapSet m i) m) j = (bitmapTest m j || decide (j < n)) := by
  refine upto_inv (fun i (m' : Nat → BitVec 8) => bitmapTest m' j = (bitmapTest m j || decide (j < i))) (by simp) ?_
  intro i t _ ih
  rw [test_bitmapSet, ih, Bool.or_assoc]
  congr 1
  rw [Bool.eq_iff_iff]
  simp only [Bool.or_eq_true, decide_eq_true_eq]
  omega

section Boot

variable {kernelEnd memSize : Nat}

theorem firstFree_spec (hk : kernelEnd ≤ 2 ^ 30) (i : Nat) :
    i < firstFree kernelEnd ↔ i * pageSize < kernelEnd := by
  rw [firstFree, pageSize, u32_of_lt (by omega)]
  omega

theorem pmmInit_spec (p : Pmm) (hm : 32768 ∣ memSize) (hmax : memSize ≤ 2 ^ 30)
    (hlow : 2 ^ 20 ≤ kernelEnd) (hend : kernelEnd ≤ memSize) :
    (pmmInit p kernelEnd memSize).usedPages = firstFree kernelEnd ∧
      ∀ i < memSize / pageSize,
        bitmapTest (pmmInit p kernelEnd memSize).bitmap i = decide (i < firstFree kernelEnd) := by
  have hfirst : 256 ≤ firstFree kernelEnd ∧ firstFree kernelEnd ≤ memSize / pageSize := by
    rw [firstFree, pageSize, u32_of_lt (by omega)]
    omega
  have hpages : 8 * (memSize / pageSize / 8) = memSize / pageSize := by
    rw [pageSize]
    omega
  obtain ⟨hused, hbits⟩ := free_loop
    (upto (memSize / pageSize / 8) (fun i m => Function.update m i 0xFF#8) p.bitmap)
    (firstFree kernelEnd) (memSize / pageSize) (memSize / pageSize - firstFree kernelEnd)
    (by omega) (by rw [pageSize]; omega)
  refine ⟨by rw [pmmInit]; simp only; omega, fun i hi => ?_⟩
  rw [pmmInit]
  simp only
  rw [low_loop, hbits, test_fill _ _ (by omega), Bool.true_and, Bool.eq_iff_iff]
  simp only [Bool.or_eq_true, decide_eq_true_eq]
  omega

end Boot

structure State where
  pmm : Pmm
  held : Finset Nat

inductive Act where
  | alloc
  | free (addr : Nat)

-- held collects the addresses pmm_alloc handed out and pmm_free has not taken back.
def step : State → Act → State → Prop
  | s, .alloc, s' => s' =
      { pmm := (pmmAlloc s.pmm).2
        held := if (pmmAlloc s.pmm).1 = 0 then s.held else insert (pmmAlloc s.pmm).1 s.held }
  | s, .free addr, s' => addr ∈ s.held ∧
      s' = { pmm := pmmFree s.pmm addr, held := s.held.erase addr }

def system (kernelEnd memSize : Nat) : System State Act where
  init s := ∃ p, s = { pmm := pmmInit p kernelEnd memSize, held := ∅ }
  step := step

end Pmm
