import Mathlib.Order.Interval.Finset.Nat
import SabakaOS.Memory.PageEntries

namespace Paging

open Word Pmm

-- The address space with the two fields of the process that makes the calls.
structure UserHeap where
  space : AddressSpace
  brkStart : Nat
  brkCurr : Nat

def pageEnd (addr : Nat) : Nat := u32 (addr + 4095) &&& frameMask

def sysBrk (s : UserHeap) (addr : Nat) : Nat × UserHeap :=
  if addr = 0 then (s.brkCurr, s)
  else if addr < s.brkStart then (s.brkCurr, s)
  else if s.brkCurr < addr ∧ pageEnd s.brkCurr < pageEnd addr then
    let r := pagingAllocRegion s.space.machine (pageEnd s.brkCurr)
      (sub32 (pageEnd addr) (pageEnd s.brkCurr)) (pagePresent ||| pageWrite ||| pageUser)
    let s := { s with space := { s.space with machine := r.2 } }
    if r.1 then (addr, { s with brkCurr := addr }) else (s.brkCurr, s)
  else (addr, { s with brkCurr := addr })

-- The pages that the call asks for.
def brkPages (s : UserHeap) (addr : Nat) : List (Nat × Nat) :=
  if addr ≠ 0 ∧ s.brkStart ≤ addr ∧ s.brkCurr < addr ∧ pageEnd s.brkCurr < pageEnd addr then
    regionPages (pageEnd s.brkCurr) (sub32 (pageEnd addr) (pageEnd s.brkCurr)) userFlags
  else []

-- taken counts the frames that the calls have had for pages; none is ever given back. top is the
-- highest break so far, rounded to a page.
structure BrkRun where
  heap : UserHeap
  taken : Nat
  top : Nat

def brkStep (x : BrkRun) (addr : Nat) : BrkRun where
  heap := (sysBrk x.heap addr).2
  taken := x.taken + (got (brkPages x.heap addr) x.heap.space.machine).length
  top := max x.top (pageEnd (sysBrk x.heap addr).2.brkCurr)

-- A process starts with an empty heap at a page border, elf.load_end or 0x40000000.
def brkCalls (sym : Symbols) (kernelEnd : Nat) : System BrkRun Nat where
  init x := ((machine sym kernelEnd).restrict tablesKept).Reach x.heap.space.machine ∧
    4096 ∣ x.heap.brkStart ∧ x.heap.brkStart < 4294967296 ∧ x.heap.brkCurr = x.heap.brkStart ∧
    x.taken = 0 ∧ x.top = x.heap.brkStart
  step x addr x' := addr < 4294967296 ∧ x' = brkStep x addr

def mappedPages (x : BrkRun) : Finset Nat :=
  (Finset.range 1048576).filter fun q => x.heap.brkStart ≤ q * 4096 ∧ q * 4096 < x.top ∧
    (walk x.heap.space.machine.tables q).isSome = true

structure BrkLaw (x : BrkRun) (addr : Nat) : Prop where
  granted : (sysBrk x.heap addr).1 = addr → ∀ a, x.heap.brkStart ≤ a → a < addr →
    UserWritable (brkStep x addr).heap.space.machine.tables (a / 4096)
  refused : (sysBrk x.heap addr).1 ≠ addr → (brkStep x addr).heap.brkCurr = x.heap.brkCurr ∧
    (brkStep x addr).heap.space.machine.tables = x.heap.space.machine.tables
  kept : ∀ q, (q + 1) * 4096 ≤ x.heap.brkCurr → (q + 1) * 4096 ≤ (brkStep x addr).heap.brkCurr →
    walk (brkStep x addr).heap.space.machine.tables q = walk x.heap.space.machine.tables q ∧
      (x.heap.brkStart ≤ q * 4096 → ∀ f, walk x.heap.space.machine.tables q = some f →
        SameFrame x.heap.space (brkStep x addr).heap.space f)
  counted : (brkStep x addr).taken = (mappedPages (brkStep x addr)).card

-- A call that has to map pages finds no frame at all, or a frame for each of them and for each
-- page table they need; it grows from the highest break so far, and not below 8 MiB.
def Covered (x : BrkRun) (addr : Nat) : Prop :=
  x.heap.brkStart ≤ addr → x.heap.brkCurr < addr → addr ≤ 0xFFFFF000 ∧
    (pageEnd x.heap.brkCurr < pageEnd addr → pmmFreePages x.heap.space.machine.pmm = 0 ∨
      x.top ≤ pageEnd x.heap.brkCurr ∧ 0x800000 ≤ pageEnd x.heap.brkCurr ∧
      neededFrames x.heap.space.machine.tables (brkPages x.heap addr) ≤
        pmmFreePages x.heap.space.machine.pmm ∧
      TablesReached (brkPages x.heap addr) x.heap.space.machine)

section Calls

variable {s : UserHeap} {addr : Nat}

theorem pageEnd_eq (h : addr ≤ 0xFFFFF000) : pageEnd addr = (addr + 4095) / 4096 * 4096 := by
  rw [pageEnd, u32_of_lt (by omega), and_frameMask (by omega)]

theorem le_pageEnd (h : addr ≤ 0xFFFFF000) : addr ≤ pageEnd addr := by
  rw [pageEnd_eq h]
  omega

theorem pageEnd_dvd (h : addr ≤ 0xFFFFF000) : 4096 ∣ pageEnd addr := by
  rw [pageEnd_eq h]
  exact Nat.dvd_mul_left ..

theorem pageEnd_le {t : Nat} (h : addr ≤ t) (ht : 4096 ∣ t) (hmax : t ≤ 0xFFFFF000) :
    pageEnd addr ≤ t := by
  rw [pageEnd_eq (by omega)]
  omega

theorem sysBrk_low (h : addr = 0 ∨ addr < s.brkStart) : sysBrk s addr = (s.brkCurr, s) := by
  rw [sysBrk]
  split
  · rfl
  · rw [if_pos (h.resolve_left ‹_›)]

theorem brkPages_nil (h : ¬(addr ≠ 0 ∧ s.brkStart ≤ addr ∧ s.brkCurr < addr ∧
    pageEnd s.brkCurr < pageEnd addr)) : brkPages s addr = [] := if_neg h

theorem brkPages_grown (h : addr ≠ 0 ∧ s.brkStart ≤ addr ∧ s.brkCurr < addr ∧
    pageEnd s.brkCurr < pageEnd addr) : brkPages s addr =
      regionPages (pageEnd s.brkCurr) (sub32 (pageEnd addr) (pageEnd s.brkCurr)) userFlags :=
  if_pos h

theorem sysBrk_high (h0 : addr ≠ 0) (h : s.brkStart ≤ addr) :
    let r := mapAll (brkPages s addr) s.space.machine
    let brk := if r.1 then addr else s.brkCurr
    sysBrk s addr = (brk,
      { space := { s.space with machine := r.2 }, brkStart := s.brkStart, brkCurr := brk }) := by
  intro r brk
  rw [sysBrk, if_neg h0, if_neg (Nat.not_lt.mpr h)]
  by_cases hg : s.brkCurr < addr ∧ pageEnd s.brkCurr < pageEnd addr
  · have hr : r = pagingAllocRegion s.space.machine (pageEnd s.brkCurr)
        (sub32 (pageEnd addr) (pageEnd s.brkCurr)) (pagePresent ||| pageWrite ||| pageUser) := by
      rw [pagingAllocRegion_eq, ← userFlags, ← brkPages_grown ⟨h0, h, hg⟩]
    rw [if_pos hg, ← hr]
    dsimp only [brk]
    cases r.1 with
    | false => rfl
    | true => rfl
  · have hr : r = (true, s.space.machine) := by
      dsimp only [r]
      rw [brkPages_nil fun hall => hg hall.2.2, mapAll]
    dsimp only [brk]
    rw [if_neg hg, hr]
    rfl

theorem mem_brkPages {q : Nat} (h0 : addr ≠ 0) (h : s.brkStart ≤ addr) (hlt : s.brkCurr < addr)
    (hmax : addr ≤ 0xFFFFF000) (hgrow : pageEnd s.brkCurr < pageEnd addr) :
    q ∈ (brkPages s addr).map (fun v => v.1 / 4096) ↔
      pageEnd s.brkCurr ≤ q * 4096 ∧ q * 4096 < pageEnd addr := by
  rw [brkPages_grown ⟨h0, h, hlt, hgrow⟩]
  have hbound : (addr + 4095) / 4096 * 4096 < 4294967296 := by omega
  have hnew := pageEnd_eq hmax
  have hold : pageEnd s.brkCurr = (s.brkCurr + 4095) / 4096 * 4096 := pageEnd_eq (by omega)
  rw [hnew, hold] at hgrow ⊢
  have hsub := sub32_of_le hbound hgrow.le
  rw [hsub, mem_regionPages (by omega)]
  constructor
  · rintro ⟨i, hi, rfl⟩
    unfold pageAt u32
    omega
  · rintro ⟨hlo, hhi⟩
    refine ⟨q - (s.brkCurr + 4095) / 4096, by omega, ?_⟩
    unfold pageAt u32
    omega

end Calls

section Invariant

variable {sym : Symbols} {kernelEnd addr q : Nat} {x : BrkRun}

structure HeapKept (sym : Symbols) (kernelEnd : Nat) (x : BrkRun) : Prop where
  reach : ((machine sym kernelEnd).restrict tablesKept).Reach x.heap.space.machine
  start : 4096 ∣ x.heap.brkStart
  start_le : x.heap.brkStart ≤ x.heap.brkCurr
  curr_le : x.heap.brkCurr ≤ x.top
  top : 4096 ∣ x.top
  top_le : x.top ≤ 0xFFFFF000
  pages : ∀ q, x.heap.brkStart ≤ q * 4096 → q * 4096 < x.top →
    UserWritable x.heap.space.machine.tables q ∧ OwnPage x.heap.space.machine q
  taken : x.heap.brkStart + x.taken * 4096 = x.top

theorem HeapKept.mapped (h : HeapKept sym kernelEnd x) :
    x.taken = (mappedPages x).card := by
  have hpages : mappedPages x = Finset.Ico (x.heap.brkStart / 4096) (x.top / 4096) := by
    have hstart := h.start
    have htop := h.top
    have hle := h.top_le
    ext q
    rw [mappedPages, Finset.mem_filter, Finset.mem_range, Finset.mem_Ico]
    constructor
    · rintro ⟨-, hlo, hhi, -⟩
      omega
    · rintro ⟨hlo, hhi⟩
      have hlo : x.heap.brkStart ≤ q * 4096 := by omega
      have hhi : q * 4096 < x.top := by omega
      exact ⟨by omega, hlo, hhi, (h.pages q hlo hhi).1.mapped⟩
  have htaken := h.taken
  rw [hpages, Nat.card_Ico]
  omega

-- A call that maps pages and finds what it needs.
structure Growing (x : BrkRun) (addr : Nat) : Prop where
  ne : addr ≠ 0
  start_le : x.heap.brkStart ≤ addr
  lt : x.heap.brkCurr < addr
  addr_le : addr ≤ 0xFFFFF000
  grows : pageEnd x.heap.brkCurr < pageEnd addr
  top : x.top ≤ pageEnd x.heap.brkCurr
  open_slots : 0x800000 ≤ pageEnd x.heap.brkCurr
  enough : neededFrames x.heap.space.machine.tables (brkPages x.heap addr) ≤
    pmmFreePages x.heap.space.machine.pmm
  reached : TablesReached (brkPages x.heap addr) x.heap.space.machine

def grownPages (x : BrkRun) (addr : Nat) : List Nat :=
  (brkPages x.heap addr).map fun v => v.1 / 4096

def grownTo (x : BrkRun) (addr : Nat) : Machine :=
  (mapAll (brkPages x.heap addr) x.heap.space.machine).2

theorem Growing.mem (g : Growing x addr) : q ∈ grownPages x addr ↔
    pageEnd x.heap.brkCurr ≤ q * 4096 ∧ q * 4096 < pageEnd addr :=
  mem_brkPages g.ne g.start_le g.lt g.addr_le g.grows

theorem Growing.size_le (g : Growing x addr) :
    sub32 (pageEnd addr) (pageEnd x.heap.brkCurr) ≤ 0xFFFFF000 := by
  have hle : pageEnd addr ≤ 0xFFFFF000 := by
    have := g.addr_le
    rw [pageEnd_eq g.addr_le]
    omega
  rw [sub32_of_le (by omega) g.grows.le]
  omega

theorem Growing.mapped (hb : Bounds kernelEnd memSize) {P : Pool Nat} (g : Growing x addr)
    (h : Held kernelEnd P x.heap.space.machine) :
    (mapAll (brkPages x.heap addr) x.heap.space.machine).1 = true ∧
      TablesSeen (brkPages x.heap addr) x.heap.space.machine ∧
      Entered x.heap.space.machine (grownTo x addr) (grownPages x addr) ∧ ∃ P' img,
        Loading kernelEnd ⟨x.heap.space.machine, fun _ => 0⟩ P.inUse P'
          ⟨grownTo x addr, fun _ => 0⟩ (grownPages x addr) img ∧
        Tabled x.heap.space.machine (grownTo x addr) (grownPages x addr) := by
  obtain ⟨hok, hseen⟩ := h.counted.mapAll_enough hb g.enough
  have hpages := brkPages_grown ⟨g.ne, g.start_le, g.lt, g.grows⟩
  have henough := g.enough
  have hreached := g.reached
  have hall : ∀ v ∈ brkPages x.heap addr, v.1 < 4294967296 ∧ v.2 = userFlags := fun v hv => by
    rw [hpages] at hv
    obtain ⟨i, -, rfl⟩ := List.mem_map.mp hv
    exact ⟨u32_lt _, rfl⟩
  have hnd : (grownPages x addr).Nodup := by
    rw [grownPages, hpages]
    exact regionPages_nodup g.size_le
  refine ⟨hok, hseen hreached, h.entered hb hall hnd (hseen hreached) hok, ?_⟩
  rw [hpages] at henough hreached
  obtain ⟨-, P', img, hL, hm⟩ := region_mapped hb h g.size_le hreached henough
  rw [pagingAllocRegion_eq, ← hpages] at hL hm
  exact ⟨P', img, hL, hm⟩

variable {P : Pool Nat} {m : Machine}

theorem brkStart_kept (s : UserHeap) (addr : Nat) : (sysBrk s addr).2.brkStart = s.brkStart := by
  by_cases h : addr = 0 ∨ addr < s.brkStart
  · rw [sysBrk_low h]
  · rw [not_or, Nat.not_lt] at h
    rw [sysBrk_high h.1 h.2]

theorem brkCurr_returned (s : UserHeap) (addr : Nat) :
    (sysBrk s addr).2.brkCurr = (sysBrk s addr).1 := by
  by_cases h : addr = 0 ∨ addr < s.brkStart
  · rw [sysBrk_low h]
  · rw [not_or, Nat.not_lt] at h
    rw [sysBrk_high h.1 h.2]

theorem mapAll_full (hb : Bounds kernelEnd memSize) {l : List (Nat × Nat)}
    (h : Counted kernelEnd P m) (hfull : pmmFreePages m.pmm = 0) (hl : l ≠ []) :
    mapAll l m = (false, m) ∧ got l m = [] := by
  cases l with
  | nil => exact absurd rfl hl
  | cons v l =>
    rcases h.page hb v.1 v.2 with ⟨-, hnone⟩ | ⟨P1, m1, -, -, -, hlt, -⟩
    · rw [mapAll, got, hnone]
      exact ⟨rfl, rfl⟩
    · omega

-- The call leaves the address space alone or maps pages.
theorem HeapKept.call (hb : Bounds kernelEnd memSize) (hs : sym.Linked kernelEnd)
    (h : HeapKept sym kernelEnd x) (hc : Covered x addr) :
    ((brkStep x addr).heap.space = x.heap.space ∧ (brkStep x addr).taken = x.taken ∧
      x.heap.brkStart ≤ (sysBrk x.heap addr).1 ∧ (sysBrk x.heap addr).1 ≤ x.top ∧
      ((sysBrk x.heap addr).1 ≠ addr → (sysBrk x.heap addr).1 = x.heap.brkCurr)) ∨
    Growing x addr := by
  by_cases hlow : addr = 0 ∨ addr < x.heap.brkStart
  · rw [brkStep, sysBrk_low hlow, brkPages_nil fun hg => hlow.elim hg.1 (Nat.not_lt.mpr hg.2.1)]
    exact .inl ⟨rfl, rfl, h.start_le, h.curr_le, fun _ => rfl⟩
  rw [not_or, Nat.not_lt] at hlow
  obtain ⟨hne, hstart⟩ := hlow
  by_cases hg : x.heap.brkCurr < addr ∧ pageEnd x.heap.brkCurr < pageEnd addr
  · obtain ⟨hmax, hgrow⟩ := hc hstart hg.1
    rcases hgrow hg.2 with hfull | ⟨htop, hopen, henough, hreached⟩
    · left
      obtain ⟨P, hheld⟩ := (heldInvariant hb hs).reach h.reach
      have hfirst : pageEnd x.heap.brkCurr / 4096 ∈ grownPages x addr := by
        rw [grownPages, mem_brkPages hne hstart hg.1 hmax hg.2,
          Nat.div_mul_cancel (pageEnd_dvd (by omega))]
        exact ⟨le_rfl, hg.2⟩
      have hpages : brkPages x.heap addr ≠ [] := fun hnil => by
        rw [grownPages, hnil] at hfirst
        exact List.not_mem_nil hfirst
      obtain ⟨hmap, hgot⟩ := mapAll_full hb hheld.counted hfull hpages
      rw [brkStep, sysBrk_high hne hstart, hmap, hgot]
      exact ⟨rfl, rfl, h.start_le, h.curr_le, fun _ => rfl⟩
    · exact .inr ⟨hne, hstart, hg.1, hmax, hg.2, htop, hopen, henough, hreached⟩
  · left
    have hnil := brkPages_nil (s := x.heap) fun hall => hg hall.2.2
    rw [brkStep, sysBrk_high hne hstart, hnil]
    refine ⟨rfl, rfl, hstart, ?_, fun hno => absurd rfl hno⟩
    change addr ≤ x.top
    rcases Nat.lt_or_ge x.heap.brkCurr addr with hlt | hle
    · have hsame : pageEnd addr ≤ pageEnd x.heap.brkCurr := Nat.not_lt.mp fun hgt => hg ⟨hlt, hgt⟩
      exact (le_pageEnd (hc hstart hlt).1).trans
        (hsame.trans (pageEnd_le h.curr_le h.top h.top_le))
    · exact hle.trans h.curr_le

theorem Growing.length (g : Growing x addr) :
    pageEnd x.heap.brkCurr + (brkPages x.heap addr).length * 4096 = pageEnd addr := by
  have hgrow := g.grows
  have hmax := g.addr_le
  have hcurr := g.lt
  rw [brkPages_grown ⟨g.ne, g.start_le, g.lt, g.grows⟩, regionPages, List.length_map,
    List.length_range']
  have hcurr : x.heap.brkCurr ≤ 0xFFFFF000 := by omega
  obtain ⟨i, hi⟩ := pageEnd_dvd hcurr
  obtain ⟨j, hj⟩ := pageEnd_dvd hmax
  have hle := pageEnd_le hmax (by decide) le_rfl
  rw [hi, hj] at hgrow ⊢
  rw [hj] at hle
  rw [sub32_of_le (by omega) hgrow.le, u32_of_lt (by omega)]
  omega

theorem brkStep_mapped (h0 : addr ≠ 0) (hstart : x.heap.brkStart ≤ addr)
    (hok : (mapAll (brkPages x.heap addr) x.heap.space.machine).1 = true) :
    brkStep x addr =
      { heap :=
          { space := { x.heap.space with machine := grownTo x addr }
            brkStart := x.heap.brkStart
            brkCurr := addr }
        taken := x.taken + (brkPages x.heap addr).length
        top := max x.top (pageEnd addr) } := by
  rw [brkStep, sysBrk_high h0 hstart, hok, got_all hok, List.length_map]
  rfl

theorem brkStep_shrunk (h0 : addr ≠ 0) (hstart : x.heap.brkStart ≤ addr)
    (hle : addr ≤ x.heap.brkCurr) : brkStep x addr =
      { x with heap := { x.heap with brkCurr := addr }, top := max x.top (pageEnd addr) } := by
  have hnil : brkPages x.heap addr = [] := brkPages_nil fun hg => Nat.not_lt.mpr hle hg.2.2.1
  rw [brkStep_mapped h0 hstart (by rw [hnil]; rfl), grownTo, hnil]
  rfl

theorem HeapKept.top_eq (h : HeapKept sym kernelEnd x) (g : Growing x addr) :
    pageEnd x.heap.brkCurr = x.top :=
  (pageEnd_le h.curr_le h.top h.top_le).antisymm g.top

theorem HeapKept.grow (hb : Bounds kernelEnd memSize) (hs : sym.Linked kernelEnd)
    (h : HeapKept sym kernelEnd x) (g : Growing x addr) :
    HeapKept sym kernelEnd (brkStep x addr) := by
  obtain ⟨P, hheld⟩ := (heldInvariant hb hs).reach h.reach
  obtain ⟨hok, hseen, he, P', img, hL, hm⟩ := g.mapped hb hheld
  have htop := h.top_eq g
  have hlen := g.length
  have htaken := h.taken
  have hgrows := g.grows
  rw [brkStep_mapped g.ne g.start_le hok, max_eq_right (by omega)]
  refine ⟨?_, h.start, g.start_le, le_pageEnd g.addr_le, pageEnd_dvd g.addr_le,
    pageEnd_le g.addr_le (by decide) le_rfl, fun q hlo hhi => ?_, ?_⟩
  · refine mapAll_reach h.reach (fun v hv => ?_) hseen
    rw [brkPages_grown ⟨g.ne, g.start_le, g.lt, g.grows⟩] at hv
    obtain ⟨i, -, rfl⟩ := List.mem_map.mp hv
    exact u32_lt _
  · have hbound : ∀ q ∈ grownPages x addr, q < 1048576 := fun q hq => (hL.own q hq).1
    by_cases hq : q ∈ grownPages x addr
    · obtain ⟨hlt, i, hi, -, hw⟩ := hL.own q hq
      have hhigh : 0x800 ≤ q := by
        have := (g.mem.mp hq).1
        have := g.open_slots
        omega
      have hopen : OpenSlots x.heap.space.machine.tables :=
        (openInvariant sym kernelEnd).reach h.reach.of_restrict
      refine ⟨he.writable_new hopen hlt hhigh hq (walk_present hw), i, ?_, hw, hm.data q hq i hw⟩
      rwa [hL.held.counted.usedFrames]
    · have hold : q * 4096 < x.top := by
        by_contra hge
        exact hq (g.mem.mpr ⟨by omega, hhi⟩)
      have hqlt : q < 1048576 := by
        have := h.top_le
        omega
      obtain ⟨hw, hown⟩ := h.pages q hlo hold
      exact ⟨he.writable_old hheld hbound hqlt hq hw, hown.old hm (hL.others q hqlt hq)⟩
  · change x.heap.brkStart + (x.taken + (brkPages x.heap addr).length) * 4096 = pageEnd addr
    rw [Nat.add_mul, ← Nat.add_assoc, htaken, ← htop, hlen]

theorem HeapKept.granted (hb : Bounds kernelEnd memSize) (hs : sym.Linked kernelEnd)
    (h : HeapKept sym kernelEnd x) (g : Growing x addr) : (sysBrk x.heap addr).1 = addr := by
  obtain ⟨P, hheld⟩ := (heldInvariant hb hs).reach h.reach
  rw [sysBrk_high g.ne g.start_le, (g.mapped hb hheld).1]
  rfl

-- The pages below the old break are not among those mapped.
theorem HeapKept.below (hb : Bounds kernelEnd memSize) (hs : sym.Linked kernelEnd)
    (h : HeapKept sym kernelEnd x) (g : Growing x addr) (hq : (q + 1) * 4096 ≤ x.heap.brkCurr) :
    walk (brkStep x addr).heap.space.machine.tables q = walk x.heap.space.machine.tables q ∧
      (x.heap.brkStart ≤ q * 4096 → ∀ f, walk x.heap.space.machine.tables q = some f →
        SameFrame x.heap.space (brkStep x addr).heap.space f) := by
  obtain ⟨P, hheld⟩ := (heldInvariant hb hs).reach h.reach
  obtain ⟨hok, -, he, P', img, hL, -⟩ := g.mapped hb hheld
  have hcurr := h.curr_le
  have htop := h.top_eq g
  have hbound := h.top_le
  have hno : q ∉ grownPages x addr := fun hin => by
    have := (g.mem.mp hin).1
    omega
  rw [brkStep_mapped g.ne g.start_le hok]
  refine ⟨hL.others q (by omega) hno, fun hlo f hf => ?_⟩
  obtain ⟨-, i, hi, hw, htab⟩ := h.pages q hlo (by omega)
  obtain rfl := Option.some.inj (hw.symm.trans hf)
  exact he.sameFrame hheld (fun q hq => (hL.own q hq).1) x.heap.space.ram hi htab

theorem HeapKept.step (hb : Bounds kernelEnd memSize) (hs : sym.Linked kernelEnd)
    (h : HeapKept sym kernelEnd x) (hc : Covered x addr) :
    HeapKept sym kernelEnd (brkStep x addr) := by
  rcases h.call hb hs hc with ⟨hspace, htaken, hlo, hhi, -⟩ | g
  · have hcurr : (brkStep x addr).heap.brkCurr = (sysBrk x.heap addr).1 := brkCurr_returned ..
    have hstart : (brkStep x addr).heap.brkStart = x.heap.brkStart := brkStart_kept ..
    have htop : (brkStep x addr).top = x.top := by
      refine max_eq_left (pageEnd_le ?_ h.top h.top_le)
      rwa [brkCurr_returned]
    constructor
    · rw [hspace]
      exact h.reach
    · rw [hstart]
      exact h.start
    · rwa [hstart, hcurr]
    · rwa [htop, hcurr]
    · rw [htop]
      exact h.top
    · rw [htop]
      exact h.top_le
    · rw [hspace, hstart, htop]
      exact h.pages
    · rw [hstart, htaken, htop]
      exact h.taken
  · exact h.grow hb hs g

def heapInvariant (hb : Bounds kernelEnd memSize) (hs : sym.Linked kernelEnd) :
    ((brkCalls sym kernelEnd).restrict Covered).Invariant where
  holds := HeapKept sym kernelEnd
  start := by
    rintro x ⟨hreach, hstart, hlt, hcurr, htaken, htop⟩
    have hle : x.heap.brkStart ≤ 0xFFFFF000 := by omega
    rw [← hcurr] at htop
    constructor
    · exact hreach
    · exact hstart
    · exact hcurr.ge
    · exact htop.ge
    · rwa [htop, hcurr]
    · rwa [htop, hcurr]
    · intro q hlo hhi
      omega
    · rw [htaken, htop, hcurr]
      omega
  step := by
    rintro x addr x' h ⟨hc, -, rfl⟩
    exact h.step hb hs hc

end Invariant

theorem sys_brk_lawful {sym : Symbols} {kernelEnd : Nat} (hb : Bounds kernelEnd memSize)
    (hs : sym.Linked kernelEnd) : ∀ x, ((brkCalls sym kernelEnd).restrict Covered).Reach x →
      ∀ addr < 4294967296, Covered x addr → BrkLaw x addr := by
  intro x hx addr _ hc
  have h := (heapInvariant hb hs).reach hx
  have h' := h.step hb hs hc
  have hcurr : (brkStep x addr).heap.brkCurr = (sysBrk x.heap addr).1 := brkCurr_returned ..
  have hstart : (brkStep x addr).heap.brkStart = x.heap.brkStart := brkStart_kept ..
  refine ⟨fun hret a hlo hhi => ?_, fun hno => ?_, fun q hq hq' => ?_, h'.mapped⟩
  · have hb := h.start
    have htop := h'.curr_le
    have hdvd := h'.top
    rw [hcurr, hret] at htop
    refine (h'.pages (a / 4096) ?_ (by omega)).1
    rw [hstart]
    omega
  · rcases h.call hb hs hc with ⟨hspace, -, -, -, hsame⟩ | g
    · rw [hcurr, hspace]
      exact ⟨hsame hno, rfl⟩
    · exact absurd (h.granted hb hs g) hno
  · rcases h.call hb hs hc with ⟨hspace, -⟩ | g
    · rw [hspace]
      exact ⟨rfl, fun _ _ _ _ _ => ⟨rfl, rfl⟩⟩
    · exact h.below hb hs g hq

-- The page of the first calls of a process whose heap starts at 0x40000000.
def firstPage : List (Nat × Nat) := [(0x40000000, userFlags)]

-- Its heap while the break is where it started.
def firstHeap (m : Machine) (taken top : Nat) : BrkRun where
  heap := { space := { machine := m, ram := fun _ => 0 }
            brkStart := 0x40000000
            brkCurr := 0x40000000 }
  taken := taken
  top := top

def emptyHeap : BrkRun := firstHeap sixBoot 0 0x40000000

-- After the page has been asked for and left.
def shrunkHeap : BrkRun := firstHeap (mapAll firstPage sixBoot).2 1 0x40001000

section First

variable {m : Machine} {taken top : Nat}

theorem brkPages_first : brkPages (firstHeap m taken top).heap 0x40001000 = firstPage := by
  have hgrown : 0x40001000 ≠ 0 ∧ 0x40000000 ≤ 0x40001000 ∧ 0x40000000 < 0x40001000 ∧
      pageEnd 0x40000000 < pageEnd 0x40001000 := by decide
  refine (brkPages_grown hgrown).trans ?_
  dsimp only [firstHeap]
  decide

theorem firstPage_high : ∀ v ∈ firstPage, v.1 < 4294967296 ∧ 2048 ≤ v.1 / 4096 := by
  decide

theorem firstPage_room {u : Nat} (hu : u ≤ 0x600 + 2) : u + 2 * firstPage.length ≤ 2048 := by
  rw [firstPage, List.length_singleton]
  omega

theorem brkStep_first (hok : (mapAll firstPage m).1 = true) :
    brkStep (firstHeap m taken top) 0x40001000 =
      { heap :=
          { space := { machine := (mapAll firstPage m).2, ram := fun _ => 0 }
            brkStart := 0x40000000
            brkCurr := 0x40001000 }
        taken := taken + 1
        top := max top 0x40001000 } := by
  have hend : pageEnd 0x40001000 = 0x40001000 := by decide
  rw [brkStep_mapped (by decide) (show 0x40000000 ≤ 0x40001000 by decide) (by rwa [brkPages_first]),
    grownTo, brkPages_first, hend]
  rfl

theorem mappedPages_single {x : BrkRun} (hstart : x.heap.brkStart = 0x40000000)
    (htop : x.top = 0x40001000) : (mappedPages x).card ≤ 1 := by
  have hpage : mappedPages x ⊆ {0x40000} := by
    intro q hq
    rw [mappedPages, Finset.mem_filter, htop, hstart] at hq
    rw [Finset.mem_singleton]
    omega
  exact (Finset.card_le_card hpage).trans_eq (Finset.card_singleton _)

-- The page is mapped a second time and its first frame is lost.
theorem not_lawful_shrunk (hok : (mapAll firstPage m).1 = true) :
    ¬BrkLaw (firstHeap m 1 0x40001000) 0x40001000 := by
  intro h
  have hcount := h.counted
  rw [brkStep_first hok] at hcount
  have hsingle := hcount.trans_le (mappedPages_single rfl (max_self _))
  exact absurd hsingle (show ¬1 + 1 ≤ 1 by decide)

end First

theorem TablesSeen.reached {l : List (Nat × Nat)} {m : Machine} (h : TablesSeen l m) :
    TablesReached l m := by
  induction l generalizing m with
  | nil => trivial
  | cons v l ih => exact ⟨fun hp _ => (h.1.1 hp).2, h.1.2, fun m' hm => ih (h.2 m' hm)⟩

theorem emptyHeap_reach :
    ((brkCalls sixSymbols 0x600000).restrict Covered).Reach emptyHeap :=
  .start ⟨.start ⟨_, _, sixBoot.eq_1⟩, by decide, by decide, rfl, rfl, rfl⟩

theorem sys_brk_lawful_first : BrkLaw emptyHeap 0x40001000 := by
  have hpages : brkPages emptyHeap.heap 0x40001000 = firstPage := brkPages_first
  have hfree := low_sixBoot.free
  have hneed := neededFrames_le sixBoot.tables firstPage
  have hseen := (low_sixBoot.all (firstPage_room (by decide)) firstPage_high).1
  refine sys_brk_lawful sixBounds sixLinked _ emptyHeap_reach _ (by decide) fun _ _ =>
    ⟨by decide, fun _ => .inr ⟨by decide, by decide, ?_, ?_⟩⟩
  · rw [hpages]
    rw [firstPage, List.length_singleton] at hneed
    change neededFrames sixBoot.tables firstPage ≤ pmmFreePages sixBoot.pmm
    exact hneed.trans (by omega)
  · rw [hpages]
    exact hseen.reached

theorem shrunkHeap_reach : (brkCalls sixSymbols 0x600000).Reach shrunkHeap := by
  have hok := (low_sixBoot.all (firstPage_room (by decide)) firstPage_high).2
  have hend : pageEnd 0x40000000 = 0x40000000 := by decide
  have hshrunk : brkStep (brkStep emptyHeap 0x40001000) 0x40000000 = shrunkHeap := by
    rw [emptyHeap, brkStep_first hok, brkStep_shrunk (by decide) (by decide) (by decide), hend]
    rfl
  have hreach := emptyHeap_reach.of_restrict.next (a := 0x40001000) ⟨by decide, rfl⟩
  rw [← hshrunk]
  exact hreach.next (a := 0x40000000) ⟨by decide, rfl⟩

theorem sys_brk_lawful_fails : (brkCalls sixSymbols 0x600000).Reach shrunkHeap ∧
    ¬BrkLaw shrunkHeap 0x40001000 := by
  obtain ⟨P, u, hu, hlow⟩ := low_sixBoot.ends (firstPage_room (by decide)) firstPage_high
  exact ⟨shrunkHeap_reach, not_lawful_shrunk (hlow.all (firstPage_room hu) firstPage_high).2⟩

end Paging
