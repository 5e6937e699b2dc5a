import SabakaOS.Memory.FrameAccounting
import SabakaOS.Memory.Translation

namespace Paging

open Word Loop Pmm

-- calls remembers what was mapped, newest first. obtained remembers each frame that became a
-- page table and what its address translated to when the kernel filled it with zeros.
structure Machine where
  pmm : Pmm
  tables : Tables
  calls : List Call
  obtained : List (Nat × Nat)

def Machine.map (m : Machine) (virt phys flags : Nat) : Machine :=
  if Present m.tables (pdIdx virt) then
    { m with
      tables := pagingMap m.tables virt phys flags 0
      calls := .map virt phys flags 0 :: m.calls }
  else
    let r := pmmAlloc m.pmm
    { pmm := r.2
      tables := pagingMap m.tables virt phys flags r.1
      calls := .map virt phys flags r.1 :: m.calls
      obtained := if r.1 = 0 then m.obtained
        else (r.1, pagingGetPhysaddr m.tables r.1) :: m.obtained }

-- One turn of the loop in paging_alloc_region; none when there is no page left.
def Machine.page (m : Machine) (virt flags : Nat) : Option Machine :=
  let r := pmmAlloc m.pmm
  if r.1 = 0 then none else some (({ m with pmm := r.2 } : Machine).map virt r.1 flags)

def pagesFrom (virt flags i : Nat) : Nat → Machine → Bool × Machine
  | 0, m => (true, m)
  | n + 1, m =>
    match m.page (u32 (virt + i * 4096)) flags with
    | none => (false, m)
    | some m => pagesFrom virt flags (i + 1) n m

def pagingAllocRegion (m : Machine) (virt size flags : Nat) : Bool × Machine :=
  pagesFrom virt flags 0 (u32 (size + 4095) / 4096) m

def memSize : Nat := 32 * 1024 * 1024

def heapVirt : Nat := 8 * 1024 * 1024

def heapSize : Nat := 4 * 1024 * 1024

def boot (sym : Symbols) (kernelEnd : Nat) (p : Pmm) (t : Tables) : Machine where
  pmm := pmmInit p kernelEnd memSize
  tables := pagingInit sym t
  calls := []
  obtained := []

inductive Act where
  | map (virt phys flags : Nat)
  | page (virt flags : Nat)

def machine (sym : Symbols) (kernelEnd : Nat) : System Machine Act where
  init m := ∃ p t, m = boot sym kernelEnd p t
  step m a m' :=
    match a with
    | .map virt phys flags => virt < 4294967296 ∧ m' = m.map virt phys flags
    | .page virt flags => virt < 4294967296 ∧ m.page virt flags = some m'

-- A frame that is about to become a page table is one the kernel has mapped to itself, and a
-- page table is not mapped away.
def Machine.tableKept (m : Machine) (virt phys : Nat) : Prop :=
  (¬ Present m.tables (pdIdx virt) → (pmmAlloc m.pmm).1 ≠ 0 ∧
      target m.calls ((pmmAlloc m.pmm).1 / 4096) = some (pmmAlloc m.pmm).1) ∧
    ∀ x ∈ m.obtained, virt / 4096 = x.1 / 4096 → phys &&& frameMask = x.1

def tablesKept (m : Machine) : Act → Prop
  | .map virt phys _ => m.tableKept virt phys
  | .page virt _ => ({ m with pmm := (pmmAlloc m.pmm).2 } : Machine).tableKept virt (pmmAlloc m.pmm).1

def SelfMapped (m : Machine) : Prop :=
  ∀ x ∈ m.obtained, x.2 = x.1 ∧ ∀ o < 4096, pagingGetPhysaddr m.tables (x.1 + o) = x.1 + o

structure Symbols.Linked (sym : Symbols) (kernelEnd : Nat) : Prop where
  placed : sym.Placed
  low : sym.pageTableLow < kernelEnd
  high : sym.pageTableHighKernel < kernelEnd

structure Held (kernelEnd : Nat) (P : Pool Nat) (m : Machine) : Prop where
  rep : Rep kernelEnd (memSize / pageSize) ⟨m.pmm, P.held.image (· * pageSize)⟩ P
  tables : ∀ d < 1024, Present m.tables d → ∃ i ∈ P.inUse, tableOf m.tables d = i * pageSize
  translates : Translates m.tables m.calls
  self : ∀ x ∈ m.obtained, x.2 = x.1 ∧ 4096 ∣ x.1 ∧ x.1 < memSize ∧
    target m.calls (x.1 / 4096) = some x.1

section Step

variable {p : Tables} {kernelEnd frame : Nat} {P : Pool Nat} {m : Machine}

theorem getOrCreatePt_tableOf (h : Wired p) {e d : Nat} (hf : ¬ Present p e → Fresh p frame)
    (hp : Present (getOrCreatePt p e frame).2 d) :
    (Present p d ∧ tableOf (getOrCreatePt p e frame).2 d = tableOf p d) ∨
      (¬ Present p e ∧ d = e ∧ tableOf (getOrCreatePt p e frame).2 d = frame) := by
  by_cases he : Present p e
  · have hr : (getOrCreatePt p e frame).2 = p := by rw [getOrCreatePt, if_neg he]
    rw [hr] at hp ⊢
    exact .inl ⟨hp, rfl⟩
  · by_cases hd : d = e
    · obtain ⟨-, ht, -⟩ := walk_create h he (hf he)
      exact .inr ⟨he, hd, by rw [hd, ht]⟩
    · have hpd : (getOrCreatePt p e frame).2.pageDirectory d = p.pageDirectory d := by
        rw [getOrCreatePt, if_pos (not_not.mp he)]
        exact Function.update_of_ne hd ..
      rw [Present, hpd] at hp
      exact .inl ⟨hp, by rw [tableOf, hpd, tableOf]⟩

theorem pagingMap_tableOf (h : Wired p) {virt phys flags d : Nat}
    (hf : ¬ Present p (pdIdx virt) → Fresh p frame)
    (hp : Present (pagingMap p virt phys flags frame) d) :
    (Present p d ∧ tableOf (pagingMap p virt phys flags frame) d = tableOf p d) ∨
      (¬ Present p (pdIdx virt) ∧ d = pdIdx virt ∧
        tableOf (pagingMap p virt phys flags frame) d = frame) := by
  rw [pagingMap_eq] at hp ⊢
  exact getOrCreatePt_tableOf h hf hp

theorem Held.fresh (h : Held kernelEnd P m) {i : Nat} (hi : i ∉ P.inUse)
    (hlt : i < memSize / pageSize) : Fresh m.tables (i * pageSize) := by
  have hn : memSize / pageSize = 8192 := by decide
  refine ⟨⟨i, Nat.mul_comm ..⟩, by rw [pageSize]; omega, fun d hd hp he => ?_⟩
  obtain ⟨j, hj, hjt⟩ := h.tables d hd hp
  have hij : j = i := Nat.eq_of_mul_eq_mul_right (by decide) (hjt.symm.trans he)
  exact hi (hij ▸ hj)

theorem Held.physaddr (h : Held kernelEnd P m) {f o : Nat} (ha : 4096 ∣ f) (hb : f < memSize)
    (ho : o < 4096) (ht : target m.calls (f / 4096) = some f) :
    pagingGetPhysaddr m.tables (f + o) = f + o := by
  have hs : memSize = 33554432 := by decide
  have hlow : (f + o) &&& 0xFFF = (f + o) % 4096 := Nat.and_two_pow_sub_one_eq_mod _ 12
  rw [pagingGetPhysaddr_eq, show (f + o) / 4096 = f / 4096 by omega,
    h.translates.walk_eq _ (by omega), ht, hlow]
  simp only
  omega

-- A slot that has no table translates nothing, so no frame mapped to itself lies below it.
theorem Held.target_ne (h : Held kernelEnd P m) {virt f : Nat} (hv : virt < 4294967296)
    (hp : ¬ Present m.tables (pdIdx virt)) (ht : target m.calls (f / 4096) = some f) : f / 4096 ≠ virt / 4096 := by
  intro he
  rw [← h.translates.walk_eq _ (by omega), he, walk, if_neg (by rwa [← pdIdx_eq])] at ht
  cases ht

theorem Held.map (hb : Bounds kernelEnd memSize) (h : Held kernelEnd P m) {virt : Nat}
    (hv : virt < 4294967296) (phys flags : Nat) (hk : m.tableKept virt phys) :
    ∃ P', Held kernelEnd P' (m.map virt phys flags) ∧
      (Present m.tables (pdIdx virt) → P' = P) ∧
      (¬ Present m.tables (pdIdx virt) → ∃ i, i ∉ P.inUse ∧
        (pmmAlloc m.pmm).1 = i * pageSize ∧ P'.inUse = insert i P.inUse) := by
  have hself : ∀ c : Call, c.page = virt / 4096 → c.target = some (phys &&& frameMask) →
      ∀ x ∈ m.obtained, x.2 = x.1 ∧ 4096 ∣ x.1 ∧ x.1 < memSize ∧
        target (c :: m.calls) (x.1 / 4096) = some x.1 := by
    intro c hc ht x hx
    obtain ⟨h1, h2, h3, h4⟩ := h.self x hx
    refine ⟨h1, h2, h3, ?_⟩
    rw [target_cons, hc]
    split
    · next he => rw [ht, hk.2 x hx he.symm]
    · exact h4
  by_cases hp : Present m.tables (pdIdx virt)
  · refine ⟨P, ?_, fun _ => rfl, fun hn => absurd hp hn⟩
    rw [Machine.map, if_pos hp]
    refine ⟨h.rep, fun d hd hpd => ?_, ?_, hself _ rfl rfl⟩
    · rcases pagingMap_tableOf h.translates.wired (fun hn => absurd hp hn) hpd with ht | ht
      · rw [ht.2]
        exact h.tables d hd ht.1
      · exact absurd hp ht.1
    · exact h.translates.run (c := .map virt phys flags 0) ⟨hv, fun hn => absurd hp hn⟩
  · obtain ⟨hne, htgt⟩ := hk.1 hp
    rcases pmmAlloc_cases hb h.rep with ⟨-, hnone⟩ | ⟨i, hi, hlt, hr, hpos, hrep⟩
    · exact absurd (congrArg Prod.fst hnone) hne
    · change (pmmAlloc m.pmm).1 = _ at hr
      have hf := h.fresh hi hlt
      rw [← hr] at hf
      have hin : ∀ j, j ∈ P.inUse → j ∈ (P.take i hi).inUse := fun j hj =>
        (P.mem_take hi).mpr (.inr hj)
      refine ⟨P.take i hi, ?_, fun hyes => absurd hyes hp, fun _ => ⟨i, hi, hr, ?_⟩⟩
      · rw [Machine.map, if_neg hp]
        refine ⟨hrep _ ?_, fun d hd hpd => ?_, ?_, fun x hx => ?_⟩
        · rw [Pool.take_held, Finset.image_insert]
        · rcases pagingMap_tableOf h.translates.wired (fun _ => hf) hpd with ht | ht
          · obtain ⟨j, hj, hjt⟩ := h.tables d hd ht.1
            exact ⟨j, hin j hj, ht.2.trans hjt⟩
          · exact ⟨i, (P.mem_take hi).mpr (.inl rfl), ht.2.2.trans hr⟩
        · exact h.translates.run (c := .map virt phys flags _) ⟨hv, fun _ => hf⟩
        · simp only [if_neg hne] at hx ⊢
          rcases List.mem_cons.mp hx with rfl | hx
          · have hbound : (pmmAlloc m.pmm).1 < memSize := by
              have hs : memSize / pageSize * pageSize = memSize := by decide
              rw [hr, ← hs]
              exact Nat.mul_lt_mul_of_pos_right hlt (by decide)
            have hself := h.physaddr hf.aligned hbound (show 0 < 4096 by decide) htgt
            rw [Nat.add_zero] at hself
            refine ⟨hself, hf.aligned, hbound, ?_⟩
            exact (target_cons _ _ _).trans ((if_neg (h.target_ne hv hp htgt)).trans htgt)
          · exact hself _ rfl rfl x hx
      · ext j
        rw [P.mem_take hi, Finset.mem_insert]

theorem Held.alloc (hb : Bounds kernelEnd memSize) (h : Held kernelEnd P m)
    (hne : (pmmAlloc m.pmm).1 ≠ 0) :
    ∃ P' i, i ∉ P.inUse ∧ (pmmAlloc m.pmm).1 = i * pageSize ∧ P'.inUse = insert i P.inUse ∧
      Held kernelEnd P' { m with pmm := (pmmAlloc m.pmm).2 } := by
  rcases pmmAlloc_cases hb h.rep with ⟨-, hnone⟩ | ⟨i, hi, hlt, hr, -, hrep⟩
  · exact absurd (congrArg Prod.fst hnone) hne
  · refine ⟨P.take i hi, i, hi, hr, ?_, hrep _ ?_, fun d hd hp => ?_, h.translates, h.self⟩
    · ext j
      rw [P.mem_take hi, Finset.mem_insert]
    · rw [Pool.take_held, Finset.image_insert]
    · obtain ⟨j, hj, hjt⟩ := h.tables d hd hp
      exact ⟨j, (P.mem_take hi).mpr (.inr hj), hjt⟩

end Step

section Runs

variable {sym : Symbols} {kernelEnd : Nat}

theorem boot_held (hb : Bounds kernelEnd memSize) (hs : sym.Linked kernelEnd) (p : Pmm)
    (t : Tables) : Held kernelEnd (bootPool kernelEnd) (boot sym kernelEnd p t) := by
  refine ⟨init_rep hb p, fun d hd hp => ?_, ⟨pagingInit_wired hs.placed t,
    fun q hq => walk_pagingInit hs.placed t hq⟩, fun x hx => (List.not_mem_nil hx).elim⟩
  have hres : ∀ a, 4096 ∣ a → a < kernelEnd → ∃ i ∈ (bootPool kernelEnd).inUse, a = i * pageSize := by
    rintro a ⟨i, rfl⟩ ha
    refine ⟨i, Finset.mem_union_left _ (Finset.mem_range.mpr ?_), Nat.mul_comm ..⟩
    rw [firstFree_spec (hb.fits.trans hb.capacity), pageSize]
    omega
  obtain ⟨ht0, ht1⟩ := pagingInit_tableOf hs.placed t
  rcases (pagingInit_present t hd).mp hp with rfl | rfl
  · rw [boot, ht0]
    exact hres _ hs.placed.low hs.low
  · rw [boot, ht1]
    exact hres _ hs.placed.high hs.high

def heldInvariant (hb : Bounds kernelEnd memSize) (hs : sym.Linked kernelEnd) :
    ((machine sym kernelEnd).restrict tablesKept).Invariant where
  holds m := ∃ P, Held kernelEnd P m
  start := by
    rintro m ⟨p, t, rfl⟩
    exact ⟨_, boot_held hb hs p t⟩
  step := by
    rintro m a m' ⟨P, h⟩ ⟨hk, ht⟩
    cases a with
    | map virt phys flags =>
      obtain ⟨hv, rfl⟩ := ht
      obtain ⟨P', h', -⟩ := h.map hb hv phys flags hk
      exact ⟨P', h'⟩
    | page virt flags =>
      obtain ⟨hv, ht⟩ := ht
      rw [Machine.page] at ht
      split at ht
      · cases ht
      · next hne =>
        obtain rfl := Option.some.inj ht
        obtain ⟨P1, i, -, -, -, h1⟩ := h.alloc hb hne
        obtain ⟨P2, h2, -⟩ := h1.map hb hv _ flags hk
        exact ⟨P2, h2⟩

theorem pagesFrom_reach (virt flags i n : Nat) {m : Machine} (h : (machine sym kernelEnd).Reach m) :
    (machine sym kernelEnd).Reach (pagesFrom virt flags i n m).2 := by
  induction n generalizing i m with
  | zero => exact h
  | succ n ih =>
    rw [pagesFrom]
    cases hp : m.page (u32 (virt + i * 4096)) flags with
    | none => exact h
    | some m' =>
      refine ih (i + 1) (h.next (a := .page (u32 (virt + i * 4096)) flags) ⟨u32_lt _, hp⟩)

theorem pagingAllocRegion_reach {m : Machine} (h : (machine sym kernelEnd).Reach m)
    (virt size flags : Nat) :
    (machine sym kernelEnd).Reach (pagingAllocRegion m virt size flags).2 :=
  pagesFrom_reach virt flags 0 _ h

end Runs

section Heap

-- The heap as booted on a kernel that ends at 6 MiB, once its first k pages are mapped.
structure HeapMapped (k : Nat) (P : Pool Nat) (m : Machine) : Prop where
  held : Held 0x600000 P m
  used : ∀ j, j ∈ P.inUse ↔ j < 0x600 + k + 1
  slots : ∀ d < 1024, Present m.tables d ↔ d ≤ 2
  tables : ∀ x ∈ m.obtained, x.1 < heapVirt
  pages : ∀ j < k, target m.calls (0x800 + j) =
    some ((0x600 + j + if j = 0 then 0 else 1) * 4096)

theorem sixBounds : Bounds 0x600000 memSize := ⟨by decide, by decide, by decide, by decide⟩

def sixSymbols : Symbols := ⟨0x200000, 0x201000⟩

theorem sixLinked : sixSymbols.Linked 0x600000 :=
  ⟨⟨by decide, by decide, by decide, by decide⟩, by decide, by decide⟩

def sixBoot : Machine :=
  boot sixSymbols 0x600000 ⟨fun _ => 0#8, 0, 0, 0⟩ ⟨fun _ => 0, fun _ => 0⟩

theorem sixBoot_used (j : Nat) : j ∈ (bootPool 0x600000).inUse ↔ j < 0x600 := by
  simp [Pool.inUse, bootPool, firstFree, pageSize, u32]

variable {P : Pool Nat} {m : Machine} {k : Nat}

theorem pagingMap_present {p : Tables} {virt phys flags frame d : Nat} :
    Present (pagingMap p virt phys flags frame) d ↔ Present p d ∨ d = pdIdx virt := by
  rw [pagingMap_eq]
  change Present (getOrCreatePt p (pdIdx virt) frame).2 d ↔ _
  by_cases he : Present p (pdIdx virt)
  · rw [getOrCreatePt, if_neg he]
    exact ⟨.inl, fun h => h.elim id fun hd => hd ▸ he⟩
  · rw [getOrCreatePt, if_pos (not_not.mp he)]
    change Function.update p.pageDirectory (pdIdx virt)
      (frame ||| pagePresent ||| pageWrite ||| pageUser) d &&& pagePresent ≠ 0 ↔ _
    by_cases hd : d = pdIdx virt
    · subst hd
      rw [Function.update_self, Nat.or_assoc]
      exact iff_of_true (or_present _ _) (.inr rfl)
    · rw [Function.update_of_ne hd]
      exact ⟨.inl, fun h => h.resolve_right hd⟩

theorem Machine.map_present (m : Machine) (virt phys flags d : Nat) :
    Present (m.map virt phys flags).tables d ↔ Present m.tables d ∨ d = pdIdx virt := by
  unfold Machine.map
  split
  · exact pagingMap_present
  · exact pagingMap_present

theorem Machine.map_target (m : Machine) (virt phys flags q : Nat) :
    target (m.map virt phys flags).calls q =
      if q = virt / 4096 then some (phys &&& frameMask) else target m.calls q := by
  unfold Machine.map
  split
  · exact target_cons _ _ _
  · exact target_cons _ _ _

theorem Machine.map_obtained {x : Nat × Nat} (m : Machine) (virt phys flags : Nat)
    (hx : x ∈ (m.map virt phys flags).obtained) :
    x ∈ m.obtained ∨ ¬ Present m.tables (pdIdx virt) ∧ x.1 = (pmmAlloc m.pmm).1 := by
  unfold Machine.map at hx
  split at hx
  · exact .inl hx
  · next hp =>
    simp only at hx
    split at hx
    · exact .inl hx
    · rcases List.mem_cons.mp hx with rfl | hx
      · exact .inr ⟨hp, rfl⟩
      · exact .inl hx

theorem frame_target (u : Nat) (hu : u < 8192) : u * pageSize &&& frameMask = u * 4096 := by
  rw [pageSize, and_frameMask (by omega), Nat.mul_div_cancel u (by decide)]

theorem Held.least (h : Held 0x600000 P m) {u : Nat} (hu : u < 8192)
    (hused : ∀ j, j ∈ P.inUse ↔ j < u) : (pmmAlloc m.pmm).1 = u * pageSize :=
  pmmAlloc_least h.rep (by decide) hu (fun j hj => (hused j).mpr hj)
    fun hm => absurd ((hused u).mp hm) (Nat.lt_irrefl u)

theorem Machine.page_eq {virt : Nat} (flags : Nat) (hne : (pmmAlloc m.pmm).1 ≠ 0) :
    m.page virt flags =
      some (({ m with pmm := (pmmAlloc m.pmm).2 } : Machine).map virt (pmmAlloc m.pmm).1 flags) :=
  if_neg hne

theorem heap_first (flags : Nat) :
    ∃ P m, sixBoot.page heapVirt flags = some m ∧ HeapMapped 1 P m := by
  have h0 : Held 0x600000 (bootPool 0x600000) sixBoot := boot_held sixBounds sixLinked _ _
  have hr0 : (pmmAlloc sixBoot.pmm).1 = 0x600 * pageSize := h0.least (by decide) sixBoot_used
  have hne : (pmmAlloc sixBoot.pmm).1 ≠ 0 := by
    rw [hr0]
    decide
  obtain ⟨P1, i, -, hri, hP1, h1⟩ := h0.alloc sixBounds hne
  have hi : i = 0x600 := Nat.eq_of_mul_eq_mul_right (by decide) (hri.symm.trans hr0)
  have hused1 : ∀ j, j ∈ P1.inUse ↔ j < 0x601 := fun j => by
    rw [hP1, hi, Finset.mem_insert, sixBoot_used]
    omega
  have hr1 := h1.least (by decide) hused1
  have hslots : ∀ d < 1024, Present sixBoot.tables d ↔ d = 0 ∨ d = 1 := fun d hd =>
    pagingInit_present _ hd
  have hd : pdIdx heapVirt = 2 := by decide
  have hp : ¬ Present sixBoot.tables (pdIdx heapVirt) := by
    rw [hd, hslots 2 (by decide)]
    decide
  obtain ⟨P2, h2, -, hP2⟩ := h1.map sixBounds (show heapVirt < 4294967296 by decide)
    (pmmAlloc sixBoot.pmm).1 flags
    ⟨fun _ => ⟨by rw [hr1]; decide, by rw [hr1]; decide⟩,
      fun x hx => (List.not_mem_nil hx).elim⟩
  obtain ⟨i', -, hri', hP2⟩ := hP2 hp
  have hi' : i' = 0x601 := Nat.eq_of_mul_eq_mul_right (by decide) (hri'.symm.trans hr1)
  refine ⟨P2, _, Machine.page_eq flags hne, h2, fun j => ?_, fun d hlt => ?_, fun x hx => ?_,
    fun j hj => ?_⟩
  · rw [hP2, hi', Finset.mem_insert, hused1]
    omega
  · rw [Machine.map_present, hslots d hlt, hd]
    omega
  · rcases Machine.map_obtained _ _ _ _ hx with hx | ⟨-, hx⟩
    · exact (List.not_mem_nil hx).elim
    · rw [hx, hr1]
      decide
  · obtain rfl : j = 0 := by omega
    rw [Machine.map_target, hr0, frame_target _ (by decide)]
    rfl

theorem HeapMapped.next (h : HeapMapped k P m) (h0 : 0 < k) (hk : k < 1024) (flags : Nat) :
    ∃ P' m', m.page (heapVirt + k * 4096) flags = some m' ∧ HeapMapped (k + 1) P' m' := by
  have hr : (pmmAlloc m.pmm).1 = (0x600 + k + 1) * pageSize := h.held.least (by omega) h.used
  have hne : (pmmAlloc m.pmm).1 ≠ 0 := by
    rw [hr, pageSize]
    omega
  obtain ⟨P1, i, -, hri, hP1, h1⟩ := h.held.alloc sixBounds hne
  have hi : i = 0x600 + k + 1 := Nat.eq_of_mul_eq_mul_right (by decide) (hri.symm.trans hr)
  have hv : heapVirt + k * 4096 < 4294967296 := by
    rw [heapVirt]
    omega
  have hpage : (heapVirt + k * 4096) / 4096 = 0x800 + k := by
    rw [heapVirt]
    omega
  have hd : pdIdx (heapVirt + k * 4096) = 2 := by
    rw [pdIdx_eq, hpage]
    omega
  have hp : Present m.tables (pdIdx (heapVirt + k * 4096)) := by
    rw [hd]
    exact (h.slots 2 (by decide)).mpr le_rfl
  obtain ⟨P2, h2, hP2, -⟩ := h1.map sixBounds hv (pmmAlloc m.pmm).1 flags
    ⟨fun hn => absurd hp hn, fun x hx he => by
      have := h.tables x hx
      rw [heapVirt] at this
      omega⟩
  obtain rfl := hP2 hp
  refine ⟨P2, _, Machine.page_eq flags hne, h2, fun j => ?_, fun d hlt => ?_, fun x hx => ?_,
    fun j hj => ?_⟩
  · rw [hP1, hi, Finset.mem_insert, h.used]
    omega
  · rw [Machine.map_present, h.slots d hlt, hd]
    omega
  · rcases Machine.map_obtained _ _ _ _ hx with hx | ⟨hn, -⟩
    · exact h.tables x hx
    · exact absurd hp hn
  · rw [Machine.map_target, hpage, hr, frame_target _ (by omega)]
    by_cases hjk : j = k
    · rw [if_pos (by omega), if_neg (by omega), hjk]
    · rw [if_neg (by omega)]
      exact h.pages j (by omega)

theorem HeapMapped.rest (h : HeapMapped k P m) (h0 : 0 < k) (flags n : Nat) (hn : k + n ≤ 1024) :
    ∃ P' m', pagesFrom heapVirt flags k n m = (true, m') ∧ HeapMapped (k + n) P' m' := by
  induction n generalizing k P m with
  | zero => exact ⟨P, m, rfl, h⟩
  | succ n ih =>
    obtain ⟨P1, m1, hp, h1⟩ := h.next h0 (by omega) flags
    obtain ⟨P2, m2, hr, h2⟩ := ih h1 k.succ_pos (by omega)
    have hv : u32 (heapVirt + k * 4096) = heapVirt + k * 4096 :=
      u32_of_lt (by rw [heapVirt]; omega)
    refine ⟨P2, m2, ?_, by rwa [show k + (n + 1) = k + 1 + n by omega]⟩
    rw [pagesFrom, hv, hp]
    exact hr

theorem heap_mapped (flags : Nat) :
    ∃ P m, pagingAllocRegion sixBoot heapVirt heapSize flags = (true, m) ∧ HeapMapped 1024 P m := by
  obtain ⟨P1, m1, hp, h1⟩ := heap_first flags
  obtain ⟨P2, m2, hr, h2⟩ := h1.rest Nat.one_pos flags 1023 (by decide)
  refine ⟨P2, m2, ?_, h2⟩
  rw [pagingAllocRegion, show u32 (heapSize + 4095) / 4096 = 1023 + 1 by decide, pagesFrom,
    show u32 (heapVirt + 0 * 4096) = heapVirt by decide, hp]
  exact hr

end Heap

end Paging
