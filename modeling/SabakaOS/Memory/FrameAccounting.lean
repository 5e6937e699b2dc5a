import SabakaOS.Memory.Pmm

namespace Pmm

open Word

structure Rep (kernelEnd total : Nat) (s : State) (P : Pool Nat) : Prop where
  pages : s.pmm.totalPages = total
  reserved : P.reserved = Finset.range (firstFree kernelEnd)
  held : s.held = P.held.image (· * pageSize)
  bound : ∀ i ∈ P.inUse, i < total
  bits : ∀ i < total, bitmapTest s.pmm.bitmap i = decide (i ∈ P.inUse)
  used : s.pmm.usedPages = P.used

section Step

variable {kernelEnd total : Nat} {s : State} {P : Pool Nat}

theorem Rep.mem_held (h : Rep kernelEnd total s P) {i : Nat} :
    i * pageSize ∈ s.held ↔ i ∈ P.held := by
  rw [h.held, Finset.mem_image]
  constructor
  · rintro ⟨j, hj, he⟩
    have : j = i := Nat.eq_of_mul_eq_mul_right (by decide) he
    rwa [← this]
  · exact fun hi => ⟨i, hi, rfl⟩

theorem Rep.used_le (h : Rep kernelEnd total s P) : P.used ≤ total := by
  have hsub : P.inUse ⊆ Finset.range total := fun i hi => Finset.mem_range.mpr (h.bound i hi)
  simpa [Pool.used] using Finset.card_le_card hsub

theorem Rep.used_lt (h : Rep kernelEnd total s P) {i : Nat} (hi : i < total)
    (hf : i ∉ P.inUse) : P.used < total := by
  have hsub : P.inUse ⊆ (Finset.range total).erase i := fun j hj =>
    Finset.mem_erase.mpr ⟨fun he => hf (he ▸ hj), Finset.mem_range.mpr (h.bound j hj)⟩
  have hcard := Finset.card_le_card hsub
  rw [Finset.card_erase_of_mem (Finset.mem_range.mpr hi), Finset.card_range] at hcard
  change P.inUse.card < total
  omega

theorem pmmAlloc_none (h : Rep kernelEnd total s P) (hall : ∀ i < total, i ∈ P.inUse) :
    pmmAlloc s.pmm = (0, s.pmm) := by
  have hfind : (List.range s.pmm.totalPages).find? (fun i => !bitmapTest s.pmm.bitmap i) = none := by
    rw [h.pages]
    refine List.find?_eq_none.mpr (fun i hi => ?_)
    have hi := List.mem_range.mp hi
    simp [h.bits i hi, hall i hi]
  rw [pmmAlloc, hfind]

theorem pmmAlloc_some (h : Rep kernelEnd total s P) (htotal : total ≤ 262144)
    {k : Nat} (hk : k < total) (hfree : k ∉ P.inUse) :
    ∃ i, ∃ hi : i ∉ P.inUse, i < total ∧ (pmmAlloc s.pmm).1 = i * pageSize ∧
      ∀ held, held = insert (i * pageSize) s.held →
        Rep kernelEnd total { pmm := (pmmAlloc s.pmm).2, held := held } (P.take i hi) := by
  cases hfind : (List.range s.pmm.totalPages).find? (fun i => !bitmapTest s.pmm.bitmap i) with
  | none =>
    rw [h.pages] at hfind
    have := List.find?_eq_none.mp hfind k (List.mem_range.mpr hk)
    simp [h.bits k hk, hfree] at this
  | some i =>
    have hlt : i < total := by
      simpa [h.pages] using List.mem_range.mp (List.mem_of_find?_eq_some hfind)
    have hi : i ∉ P.inUse := by
      simpa [h.bits i hlt] using List.find?_some hfind
    refine ⟨i, hi, hlt, ?_, fun held hheld => ?_⟩
    · rw [pmmAlloc, hfind]
      exact u32_of_lt (by rw [pageSize]; omega)
    · have hused := h.used_lt hlt hi
      rw [pmmAlloc, hfind]
      refine ⟨h.pages, h.reserved, ?_, ?_, ?_, ?_⟩
      · simp [hheld, h.held, Finset.image_insert]
      · intro j hj
        rcases (P.mem_take hi).mp hj with rfl | hj
        · exact hlt
        · exact h.bound j hj
      · intro j hj
        rw [test_bitmapSet, h.bits j hj, Bool.eq_iff_iff]
        simp only [Bool.or_eq_true, decide_eq_true_eq, P.mem_take hi]
        rw [or_comm, eq_comm]
      · simp only [P.used_take hi, h.used]
        exact u32_of_lt (by omega)

-- First fit: the lowest page not in use is the one handed out.
theorem pmmAlloc_least (h : Rep kernelEnd total s P) (htotal : total ≤ 262144) {k : Nat}
    (hk : k < total) (hused : ∀ j < k, j ∈ P.inUse) (hfree : k ∉ P.inUse) :
    (pmmAlloc s.pmm).1 = k * pageSize := by
  have hfind : (List.range s.pmm.totalPages).find? (fun i => !bitmapTest s.pmm.bitmap i) =
      some k := by
    rw [List.find?_range_eq_some, h.pages]
    refine ⟨by simp [h.bits k hk, hfree], List.mem_range.mpr hk, fun j hj => ?_⟩
    simp [h.bits j (hj.trans hk), hused j hj]
  rw [pmmAlloc, hfind]
  exact u32_of_lt (by rw [pageSize]; omega)

theorem pmmFree_rep (h : Rep kernelEnd total s P) (htotal : total ≤ 262144) {addr : Nat}
    (ha : addr ∈ s.held) :
    ∃ i ∈ P.held, addr = i * pageSize ∧
      Rep kernelEnd total { pmm := pmmFree s.pmm addr, held := s.held.erase addr } (P.give i) := by
  rw [h.held] at ha
  obtain ⟨i, hi, rfl⟩ := Finset.mem_image.mp ha
  have hin : i ∈ P.inUse := P.mem_inUse.mpr (Or.inr hi)
  have hlt := h.bound i hin
  have hpage : i * pageSize / pageSize = i := Nat.mul_div_cancel i (by decide)
  have htest : bitmapTest s.pmm.bitmap i = true := by simp [h.bits i hlt, hin]
  have hle := h.used_le
  have hgive := P.used_give hi
  refine ⟨i, hi, rfl, ?_⟩
  simp only [pmmFree, hpage, htest, if_true]
  refine ⟨h.pages, h.reserved, ?_, ?_, ?_, ?_⟩
  · have hinj : Function.Injective (· * pageSize) := fun a b he =>
      Nat.eq_of_mul_eq_mul_right (by decide) he
    simp [h.held, Finset.image_erase hinj]
  · exact fun j hj => h.bound j ((P.mem_give hi).mp hj).2
  · intro j hj
    rw [test_bitmapClear, h.bits j hj, Bool.eq_iff_iff]
    simp only [Bool.and_eq_true, decide_eq_true_eq, P.mem_give hi]
    rw [and_comm, ne_comm]
  · simp only [h.used]
    rw [sub32_of_le (by omega) (by omega)]
    omega

end Step

section Runs

variable {kernelEnd memSize : Nat}

structure Bounds (kernelEnd memSize : Nat) : Prop where
  aligned : 32768 ∣ memSize
  capacity : memSize ≤ 2 ^ 30
  image : 2 ^ 20 ≤ kernelEnd
  fits : kernelEnd ≤ memSize

theorem Bounds.pages (hb : Bounds kernelEnd memSize) : memSize / pageSize ≤ 262144 := by
  have := hb.capacity
  rw [pageSize]
  omega

theorem Bounds.first_le (hb : Bounds kernelEnd memSize) :
    firstFree kernelEnd ≤ memSize / pageSize := by
  obtain ⟨h1, h2, h3, h4⟩ := hb
  rw [firstFree, pageSize, u32_of_lt (by omega)]
  omega

def bootPool (kernelEnd : Nat) : Pool Nat where
  reserved := Finset.range (firstFree kernelEnd)
  held := ∅
  disjoint := Finset.disjoint_empty_right _

theorem init_rep (hb : Bounds kernelEnd memSize) (p : Pmm) :
    Rep kernelEnd (memSize / pageSize)
      { pmm := pmmInit p kernelEnd memSize, held := ∅ } (bootPool kernelEnd) := by
  obtain ⟨hused, hbits⟩ := pmmInit_spec p hb.aligned hb.capacity hb.image hb.fits
  have hin : ∀ i, i ∈ (bootPool kernelEnd).inUse ↔ i < firstFree kernelEnd := by
    simp [Pool.inUse, bootPool]
  refine ⟨rfl, rfl, rfl, fun i hi => ?_, fun i hi => ?_, ?_⟩
  · exact Nat.lt_of_lt_of_le ((hin i).mp hi) hb.first_le
  · rw [hbits i hi, Bool.eq_iff_iff, decide_eq_true_eq, decide_eq_true_eq, hin]
  · simp [hused, Pool.used, Pool.inUse, bootPool]

theorem Rep.frame_pos (hb : Bounds kernelEnd memSize) {s : State} {P : Pool Nat}
    (h : Rep kernelEnd (memSize / pageSize) s P) {i : Nat} (hi : i ∉ P.reserved) :
    i * pageSize ≠ 0 ∧ 2 ^ 20 ≤ i * pageSize ∧ kernelEnd ≤ i * pageSize := by
  rw [h.reserved, Finset.mem_range, firstFree_spec (hb.fits.trans hb.capacity)] at hi
  have := hb.image
  omega

theorem pmmAlloc_cases (hb : Bounds kernelEnd memSize) {s : State} {P : Pool Nat}
    (h : Rep kernelEnd (memSize / pageSize) s P) :
    ((∀ i < memSize / pageSize, i ∈ P.inUse) ∧ pmmAlloc s.pmm = (0, s.pmm)) ∨
    ∃ i, ∃ hi : i ∉ P.inUse, i < memSize / pageSize ∧ (pmmAlloc s.pmm).1 = i * pageSize ∧
      i * pageSize ≠ 0 ∧ ∀ held, held = insert (i * pageSize) s.held →
        Rep kernelEnd (memSize / pageSize) { pmm := (pmmAlloc s.pmm).2, held := held }
          (P.take i hi) := by
  by_cases hall : ∀ i < memSize / pageSize, i ∈ P.inUse
  · exact Or.inl ⟨hall, pmmAlloc_none h hall⟩
  · push Not at hall
    obtain ⟨k, hk, hfree⟩ := hall
    obtain ⟨i, hi, hlt, hr, hrep⟩ := pmmAlloc_some h hb.pages hk hfree
    have hres : i ∉ P.reserved := fun hm => hi (P.mem_inUse.mpr (Or.inl hm))
    exact Or.inr ⟨i, hi, hlt, hr, (h.frame_pos hb hres).1, hrep⟩

theorem step_rep (hb : Bounds kernelEnd memSize) {s s' : State} {a : Act}
    (h : ∃ P, Rep kernelEnd (memSize / pageSize) s P) (ht : step s a s') :
    ∃ P, Rep kernelEnd (memSize / pageSize) s' P := by
  obtain ⟨P, hP⟩ := h
  cases a with
  | alloc =>
    rcases pmmAlloc_cases hb hP with ⟨-, hnone⟩ | ⟨i, hi, -, hr, hpos, hrep⟩
    · refine ⟨P, ?_⟩
      rw [show s' = s from by rw [ht, hnone]; rfl]
      exact hP
    · refine ⟨P.take i hi, ?_⟩
      rw [show s' = _ from ht]
      exact hrep _ (by rw [hr, if_neg hpos])
  | free addr =>
    obtain ⟨ha, rfl⟩ := ht
    obtain ⟨i, -, -, hrep⟩ := pmmFree_rep hP hb.pages ha
    exact ⟨P.give i, hrep⟩

def repInvariant (hb : Bounds kernelEnd memSize) : (system kernelEnd memSize).Invariant where
  holds s := ∃ P, Rep kernelEnd (memSize / pageSize) s P
  start := by
    rintro s ⟨p, rfl⟩
    exact ⟨_, init_rep hb p⟩
  step := step_rep hb

theorem Rep.counted {s : State} {P : Pool Nat} (h : Rep kernelEnd (memSize / pageSize) s P) :
    s.pmm.usedPages =
      ((Finset.range s.pmm.totalPages).filter (fun i => bitmapTest s.pmm.bitmap i)).card := by
  rw [h.used, Pool.used]
  congr 1
  ext i
  rw [Finset.mem_filter, Finset.mem_range, h.pages]
  constructor
  · intro hi
    have hlt := h.bound i hi
    exact ⟨hlt, by simp [h.bits i hlt, hi]⟩
  · rintro ⟨hlt, ht⟩
    simpa [h.bits i hlt] using ht

-- alloc and realloc speak of the pmm_alloc (or pmm_free then pmm_alloc) issued next.
structure Accounted (kernelEnd : Nat) (s : State) : Prop where
  counted : s.pmm.usedPages =
    ((Finset.range s.pmm.totalPages).filter (fun i => bitmapTest s.pmm.bitmap i)).card
  inUse : ∀ i < s.pmm.totalPages, bitmapTest s.pmm.bitmap i = true ↔
    i * pageSize < kernelEnd ∨ i * pageSize ∈ s.held
  null_iff : (pmmAlloc s.pmm).1 = 0 ↔ ∀ i < s.pmm.totalPages, bitmapTest s.pmm.bitmap i = true
  fresh : (pmmAlloc s.pmm).1 ≠ 0 → ∃ i < s.pmm.totalPages, (pmmAlloc s.pmm).1 = i * pageSize ∧
    i * pageSize ∉ s.held ∧ 2 ^ 20 ≤ i * pageSize ∧ kernelEnd ≤ i * pageSize
  realloc : ∀ addr ∈ s.held,
    let p := pmmAlloc (pmmFree s.pmm addr)
    p.1 ≠ 0 ∧ p.1 ∉ s.held.erase addr ∧ p.2.usedPages = s.pmm.usedPages ∧
      ∀ i < s.pmm.totalPages, bitmapTest p.2.bitmap i = true ↔
        i * pageSize = p.1 ∨ (bitmapTest s.pmm.bitmap i = true ∧ i * pageSize ≠ addr)

theorem Rep.bit_iff {s : State} {P : Pool Nat} (h : Rep kernelEnd (memSize / pageSize) s P)
    {i : Nat} (hi : i < s.pmm.totalPages) :
    bitmapTest s.pmm.bitmap i = true ↔ i ∈ P.inUse := by
  rw [h.pages] at hi
  rw [h.bits i hi, decide_eq_true_eq]

theorem Rep.realloc (hb : Bounds kernelEnd memSize) {s : State} {P : Pool Nat}
    (h : Rep kernelEnd (memSize / pageSize) s P) {addr : Nat} (ha : addr ∈ s.held) :
    let p := pmmAlloc (pmmFree s.pmm addr)
    p.1 ≠ 0 ∧ p.1 ∉ s.held.erase addr ∧ p.2.usedPages = s.pmm.usedPages ∧
      ∀ i < s.pmm.totalPages, bitmapTest p.2.bitmap i = true ↔
        i * pageSize = p.1 ∨ (bitmapTest s.pmm.bitmap i = true ∧ i * pageSize ≠ addr) := by
  obtain ⟨j, hj, rfl, hfree⟩ := pmmFree_rep h hb.pages ha
  have hjin : j ∉ (P.give j).inUse := fun hm => ((P.mem_give hj).mp hm).1 rfl
  have hjlt := h.bound j (P.mem_inUse.mpr (Or.inr hj))
  rcases pmmAlloc_cases hb hfree with ⟨hall, -⟩ | ⟨i, hi, hlt, hr, hpos, hrep⟩
  · exact absurd (hall j hjlt) hjin
  · have hnew := hrep _ rfl
    simp only at hr hnew
    refine ⟨by rw [hr]; exact hpos, ?_, ?_, fun k hk => ?_⟩
    · rw [hr]
      intro hm
      exact hi ((P.give j).mem_inUse.mpr (Or.inr (hfree.mem_held.mp hm)))
    · have h1 := (P.give j).used_take hi
      have h2 := P.used_give hj
      have h3 : (pmmAlloc (pmmFree s.pmm (j * pageSize))).2.usedPages = _ := hnew.used
      have h4 := h.used
      omega
    · have hk' : k < (pmmAlloc (pmmFree s.pmm (j * pageSize))).2.totalPages := by
        have hp : (pmmAlloc (pmmFree s.pmm (j * pageSize))).2.totalPages = _ := hnew.pages
        rwa [hp, ← h.pages]
      have hmul : ∀ a b : Nat, a * pageSize = b * pageSize ↔ a = b := fun a b =>
        Nat.mul_left_inj (by decide)
      rw [hnew.bit_iff hk', (P.give j).mem_take hi, P.mem_give hj, h.bit_iff hk, hr, hmul]
      rw [Ne, Ne, hmul, and_comm (a := ¬k = j)]

theorem frames_accounted (hb : Bounds kernelEnd memSize) {s : State}
    (h : (system kernelEnd memSize).Reach s) : Accounted kernelEnd s := by
  obtain ⟨P, hP⟩ := (repInvariant hb).reach h
  have hlow : ∀ i, i * pageSize < kernelEnd ↔ i ∈ P.reserved := fun i => by
    rw [hP.reserved, Finset.mem_range, firstFree_spec (hb.fits.trans hb.capacity)]
  refine ⟨hP.counted, fun i hi => ?_, ?_, fun hr => ?_, fun addr ha => hP.realloc hb ha⟩
  · rw [hP.bit_iff hi, P.mem_inUse, hlow, hP.mem_held]
  · rcases pmmAlloc_cases hb hP with ⟨hall, hnone⟩ | ⟨i, hi, hlt, hr, hpos, -⟩
    · rw [hnone]
      refine iff_of_true rfl (fun i hi => (hP.bit_iff hi).mpr (hall i ?_))
      rwa [← hP.pages]
    · have hlt' : i < s.pmm.totalPages := by rwa [hP.pages]
      rw [hr]
      exact iff_of_false hpos (fun hall => hi ((hP.bit_iff hlt').mp (hall i hlt')))
  · rcases pmmAlloc_cases hb hP with ⟨-, hnone⟩ | ⟨i, hi, hlt, hr', -, -⟩
    · exact absurd (by rw [hnone]) hr
    · have hres : i ∉ P.reserved := fun hm => hi (P.mem_inUse.mpr (Or.inl hm))
      have hheld : i ∉ P.held := fun hm => hi (P.mem_inUse.mpr (Or.inr hm))
      refine ⟨i, by rwa [hP.pages], hr', fun hm => hheld (hP.mem_held.mp hm), ?_⟩
      exact (hP.frame_pos hb hres).2

theorem frames_accounted_boot :
    Accounted 0x200000 { pmm := pmmInit ⟨fun _ => 0#8, 0, 0, 0⟩ 0x200000 0x2000000, held := ∅ } :=
  frames_accounted (show Bounds 0x200000 0x2000000 from
    ⟨by decide, by decide, by decide, by decide⟩)
    (.start ⟨_, rfl⟩)

end Runs

end Pmm
