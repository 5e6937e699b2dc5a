import SabakaOS.Memory.RegionFrames

namespace Paging

open Word Pmm

def pageAt (virt o : Nat) : Nat := u32 (virt + o) / 4096

-- The page has a frame of its own that was free before.
def NewPage (m m' : Machine) (virt size q : Nat) : Prop :=
  ∃ f, walk m'.tables q = some (f * 4096) ∧ f ∉ usedFrames m.pmm ∧ f ∈ usedFrames m'.pmm ∧
    (∀ o < size, walk m'.tables (pageAt virt o) = some (f * 4096) → pageAt virt o = q) ∧
    ∀ d < 1024, Present m'.tables d → tableOf m'.tables d ≠ f * 4096

-- The slot has the page table it had, or one whose frame was free before.
def TableOk (m m' : Machine) (d : Nat) : Prop :=
  Present m'.tables d ∧
    ((Present m.tables d ∧ tableOf m'.tables d = tableOf m.tables d) ∨
      ∃ f, f ∉ usedFrames m.pmm ∧ f ∈ usedFrames m'.pmm ∧ tableOf m'.tables d = f * 4096)

structure Atomic (m : Machine) (virt size flags : Nat) : Prop where
  all : (pagingAllocRegion m virt size flags).1 = true → ∀ o < size,
    NewPage m (pagingAllocRegion m virt size flags).2 virt size (pageAt virt o) ∧
      TableOk m (pagingAllocRegion m virt size flags).2 (pageAt virt o / 1024)
  nothing : (pagingAllocRegion m virt size flags).1 = false →
    (pagingAllocRegion m virt size flags).2.tables = m.tables ∧
      usedFrames (pagingAllocRegion m virt size flags).2.pmm = usedFrames m.pmm

-- There is nothing to do, no frame at all, or a frame for each page and each missing page table
-- of a region that the pages counted from its first one cover.
def Roomy (m : Machine) (virt size flags : Nat) : Prop :=
  size = 0 ∨ size ≤ 0xFFFFF000 ∧ (pmmFreePages m.pmm = 0 ∨
    neededFrames m.tables (regionPages virt size flags) ≤ pmmFreePages m.pmm ∧
      virt % 4096 + size ≤ (size + 4095) / 4096 * 4096)

section Pages

variable {virt size flags : Nat}

theorem regionPages_nil (h : size = 0 ∨ 0xFFFFF000 < size) (hs : size < 4294967296) :
    regionPages virt size flags = [] := by
  have hn : u32 (size + 4095) / 4096 = 0 := by
    unfold u32
    omega
  rw [regionPages, hn]
  rfl

theorem regionPages_map (hs : size ≤ 0xFFFFF000) :
    (regionPages virt size flags).map (fun v => v.1 / 4096) =
      (List.range ((size + 4095) / 4096)).map fun i => pageAt virt (i * 4096) := by
  rw [regionPages, u32_of_lt (by omega), List.map_map, List.range_eq_range']
  rfl

theorem page_start {i : Nat} (hi : i < (size + 4095) / 4096) : i * 4096 < size := by
  omega

theorem pageAt_inj {i j : Nat} (hi : i < 1048576) (hj : j < 1048576)
    (h : pageAt virt (i * 4096) = pageAt virt (j * 4096)) : i = j := by
  unfold pageAt u32 at h
  omega

theorem regionPages_nodup (hs : size ≤ 0xFFFFF000) :
    ((regionPages virt size flags).map fun v => v.1 / 4096).Nodup := by
  rw [regionPages_map hs]
  refine List.Nodup.map_on (fun i hi j hj h => ?_) List.nodup_range
  rw [List.mem_range] at hi hj
  exact pageAt_inj (by omega) (by omega) h

theorem mem_regionPages (hs : size ≤ 0xFFFFF000) {q : Nat} :
    q ∈ (regionPages virt size flags).map (fun v => v.1 / 4096) ↔
      ∃ i < (size + 4095) / 4096, pageAt virt (i * 4096) = q := by
  rw [regionPages_map hs, List.mem_map]
  simp only [List.mem_range]

theorem pageAt_zero (hpos : 0 < size) (hs : size ≤ 0xFFFFF000) :
    pageAt virt 0 ∈ (regionPages virt size flags).map fun v => v.1 / 4096 :=
  (mem_regionPages hs).mpr ⟨0, by omega, by rw [Nat.zero_mul]⟩

theorem pageAt_mem (hs : size ≤ 0xFFFFF000)
    (hfit : virt % 4096 + size ≤ (size + 4095) / 4096 * 4096) {o : Nat} (ho : o < size) :
    pageAt virt o ∈ (regionPages virt size flags).map fun v => v.1 / 4096 := by
  refine (mem_regionPages hs).mpr ⟨(virt % 4096 + o) / 4096, by omega, ?_⟩
  unfold pageAt u32
  omega

theorem pageAt_last (hs : size ≤ 0xFFFFF000) (hpos : 0 < size)
    (hfit : (size + 4095) / 4096 * 4096 < virt % 4096 + size) :
    pageAt virt (size - 1) ∉ (regionPages virt size flags).map fun v => v.1 / 4096 := by
  rw [mem_regionPages hs]
  rintro ⟨i, hi, he⟩
  unfold pageAt u32 at he
  omega

end Pages

section Atomicity

variable {kernelEnd virt size flags : Nat} {P : Pool Nat} {m : Machine}

theorem zero_used (hb : Bounds kernelEnd memSize) (h : Counted kernelEnd P m) :
    0 ∈ usedFrames m.pmm := by
  have hfirst : 0 < firstFree kernelEnd := by
    have := hb.image
    rw [firstFree_spec (hb.fits.trans hb.capacity)]
    omega
  rw [h.usedFrames, P.mem_inUse, h.reserved]
  exact .inl (Finset.mem_range.mpr hfirst)

-- size + 4095 wraps around.
theorem not_atomic_wrapped (h : 0xFFFFF000 < size) (hs : size < 4294967296) :
    ¬Atomic m virt size flags := by
  intro ha
  have hall := ha.all
  rw [pagingAllocRegion_eq, regionPages_nil (.inr h) hs] at hall
  obtain ⟨⟨f, -, hno, hyes, -⟩, -⟩ := hall rfl 0 (by omega)
  exact hno hyes

theorem not_atomic_short (hb : Bounds kernelEnd memSize) (h : Counted kernelEnd P m)
    (hs : size ≤ 0xFFFFF000) (hfree : pmmFreePages m.pmm ≠ 0)
    (hlt : pmmFreePages m.pmm < neededFrames m.tables (regionPages virt size flags)) :
    ¬Atomic m virt size flags := by
  intro ha
  obtain ⟨P', h', -, hless, -⟩ := h.mapAll hb (regionPages virt size flags)
  cases hr : (pagingAllocRegion m virt size flags).1 with
  | false =>
    obtain ⟨-, hused⟩ := ha.nothing hr
    rw [pagingAllocRegion_eq, h'.usedFrames, h.usedFrames] at hused
    have hne : regionPages virt size flags ≠ [] := fun he => by
      rw [he] at hlt
      exact Nat.not_lt_zero _ hlt
    have hc := h.free
    have hc' := h'.free
    rw [Pool.used, hused, ← Pool.used] at hc'
    have := hless hne hfree
    omega
  | true =>
    have hok := hr
    rw [pagingAllocRegion_eq] at hok
    obtain ⟨v, hv, hp, hnull⟩ := h.mapAll_null hb hlt hok
    obtain ⟨i, hi, he⟩ := (mem_regionPages hs).mp (List.mem_map_of_mem hv)
    obtain ⟨-, -, htable⟩ := ha.all hr (i * 4096) (page_start hi)
    rw [pagingAllocRegion_eq, he, ← pdIdx_eq, hnull] at htable
    rcases htable with ⟨hp', -⟩ | ⟨f, hno, -, hf⟩
    · exact hp hp'
    · obtain rfl : f = 0 := by omega
      exact hno (zero_used hb h)

-- Where there is a frame for everything, each page is new and so is each page table made.
theorem region_mapped (hb : Bounds kernelEnd memSize) (h : Held kernelEnd P m)
    (hs : size ≤ 0xFFFFF000) (hk : TablesReached (regionPages virt size flags) m)
    (hle : neededFrames m.tables (regionPages virt size flags) ≤ pmmFreePages m.pmm) :
    (pagingAllocRegion m virt size flags).1 = true ∧ ∃ P' img,
      Loading kernelEnd ⟨m, fun _ => 0⟩ P.inUse P'
          ⟨(pagingAllocRegion m virt size flags).2, fun _ => 0⟩
          ((regionPages virt size flags).map fun v => v.1 / 4096) img ∧
        Tabled m (pagingAllocRegion m virt size flags).2
          ((regionPages virt size flags).map fun v => v.1 / 4096) := by
  obtain ⟨hok, hseen⟩ := h.counted.mapAll_enough hb hle
  have hlt : ∀ v ∈ regionPages virt size flags, v.1 < 4294967296 := fun v hv => by
    obtain ⟨i, -, rfl⟩ := List.mem_map.mp hv
    exact u32_lt _
  have hnd : ((regionPages virt size flags).map fun v => v.1 / 4096).Nodup := regionPages_nodup hs
  obtain ⟨P', img, hL, hm⟩ := Loading.region hb (Loading.start (s := ⟨m, fun _ => 0⟩) h)
    (Tabled.start m) hlt (by rwa [List.append_nil]) (hseen hk) hok
  rw [List.append_nil] at hL hm
  rw [pagingAllocRegion_eq]
  exact ⟨hok, P', img, hL, hm⟩

theorem not_atomic_edge (hb : Bounds kernelEnd memSize) (h : Held kernelEnd P m)
    (hpos : 0 < size) (hs : size ≤ 0xFFFFF000)
    (hk : TablesReached (regionPages virt size flags) m)
    (hle : neededFrames m.tables (regionPages virt size flags) ≤ pmmFreePages m.pmm)
    (hedge : (size + 4095) / 4096 * 4096 < virt % 4096 + size) : ¬Atomic m virt size flags := by
  intro ha
  obtain ⟨hok, P', img, hL, hm⟩ := region_mapped hb h hs hk hle
  have hlast : size - 1 < size := Nat.sub_lt hpos Nat.one_pos
  obtain ⟨⟨f, hw, hno, hyes, hown, htab⟩, -⟩ := ha.all hok (size - 1) hlast
  have hout : pageAt virt (size - 1) ∉ (regionPages virt size flags).map fun v => v.1 / 4096 :=
    pageAt_last hs hpos hedge
  rcases hm.fresh f hyes hno with ⟨q, hq, hwq⟩ | ⟨d, hd, hpd, hf⟩
  · obtain ⟨i, hi, he⟩ := (mem_regionPages hs).mp hq
    rw [← he] at hq hwq
    rw [hown (i * 4096) (page_start hi) hwq] at hq
    exact hout hq
  · exact htab d hd hpd hf

theorem atomic_roomy (hb : Bounds kernelEnd memSize) (h : Held kernelEnd P m)
    (hs : size ≤ 0xFFFFF000) (hk : TablesReached (regionPages virt size flags) m)
    (hle : neededFrames m.tables (regionPages virt size flags) ≤ pmmFreePages m.pmm)
    (hfit : virt % 4096 + size ≤ (size + 4095) / 4096 * 4096) : Atomic m virt size flags := by
  obtain ⟨hok, P', img, hL, hm⟩ := region_mapped hb h hs hk hle
  refine ⟨fun _ o ho => ?_, fun hno => Bool.noConfusion (hok.symm.trans hno)⟩
  have hq : pageAt virt o ∈ (regionPages virt size flags).map fun v => v.1 / 4096 :=
    pageAt_mem hs hfit ho
  obtain ⟨hlt, i, hi, hnew, hw⟩ := hL.own _ hq
  refine ⟨⟨i, hw, ?_, ?_, fun o' ho' he => ?_, hm.data _ hq i hw⟩, ?_⟩
  · rwa [h.counted.usedFrames]
  · rwa [hL.held.counted.usedFrames]
  · exact hL.apart _ (pageAt_mem hs hfit ho') _ hq (he.trans hw.symm)
  · have hpres : Present (pagingAllocRegion m virt size flags).2.tables (pageAt virt o / 1024) :=
      walk_present hw
    exact ⟨hpres, hm.tables _ (by omega) hpres⟩

theorem atomic_full (hb : Bounds kernelEnd memSize) (h : Counted kernelEnd P m) (hpos : 0 < size)
    (hs : size ≤ 0xFFFFF000) (hfree : pmmFreePages m.pmm = 0) : Atomic m virt size flags := by
  obtain ⟨-, -, -, -, hsame⟩ := h.mapAll hb (regionPages virt size flags)
  obtain ⟨hm, hl⟩ := hsame hfree
  rw [← pagingAllocRegion_eq] at hm hl
  refine ⟨fun hok => ?_, fun _ => by rw [hm]; exact ⟨rfl, rfl⟩⟩
  have hfirst : pageAt virt 0 ∈ (regionPages virt size flags).map fun v => v.1 / 4096 :=
    pageAt_zero hpos hs
  rw [hl hok] at hfirst
  exact absurd hfirst List.not_mem_nil

theorem atomic_empty : Atomic m virt 0 flags := by
  refine ⟨fun _ o ho => absurd ho (Nat.not_lt_zero o), fun hno => ?_⟩
  rw [pagingAllocRegion_eq, regionPages_nil (.inl rfl) (by decide)] at hno
  cases hno

end Atomicity

section Window

variable {u : Nat} {P : Pool Nat} {m : Machine} {l : List (Nat × Nat)}

theorem Low.ends (h : Low u P m) (hu : u + 2 * l.length ≤ 2048)
    (hl : ∀ v ∈ l, v.1 < 4294967296 ∧ 2048 ≤ v.1 / 4096) :
    ∃ P' u', u' ≤ u + 2 * l.length ∧ Low u' P' (mapAll l m).2 := by
  induction l generalizing u P m with
  | nil => exact ⟨P, u, le_rfl, h⟩
  | cons v l ih =>
    rw [List.length_cons] at hu ⊢
    obtain ⟨hv, hout⟩ := hl v List.mem_cons_self
    obtain ⟨-, P1, m1, u1, hp, hle, h1⟩ := h.page (by omega) hv hout v.2
    obtain ⟨P2, u2, hle2, h2⟩ := ih h1 (by omega) fun w hw => hl w (List.mem_cons_of_mem v hw)
    rw [mapAll, hp]
    exact ⟨P2, u2, by omega, h2⟩

theorem Low.free (h : Low u P m) : pmmFreePages m.pmm + u = 8192 := by
  have hfree := h.held.counted.free
  have hcard : P.used = u := by
    rw [Pool.used, show P.inUse = Finset.range u from Finset.ext fun j => by
      rw [h.used, Finset.mem_range], Finset.card_range]
  rwa [hcard, show memSize / pageSize = 8192 by decide] at hfree

-- The first page below each of eight page tables, from 0x10000000 on.
def firstPages : List (Nat × Nat) :=
  (List.range 8).map fun i => (0x10000000 + i * 0x400000, 7)

theorem firstPages_high : ∀ v ∈ firstPages, v.1 < 4294967296 ∧ 2048 ≤ v.1 / 4096 := by
  intro v hv
  obtain ⟨i, hi, rfl⟩ := List.mem_map.mp hv
  rw [List.mem_range] at hi
  dsimp only
  omega

theorem firstPages_length : firstPages.length = 8 := by
  rw [firstPages, List.length_map, List.length_range]

theorem firstPages_all : TablesSeen firstPages sixBoot ∧ (mapAll firstPages sixBoot).1 = true :=
  low_sixBoot.all (by rw [firstPages_length]; omega) firstPages_high

theorem firstPages_reach :
    ((machine sixSymbols 0x600000).restrict tablesKept).Reach (mapAll firstPages sixBoot).2 := by
  have hboot : ((machine sixSymbols 0x600000).restrict tablesKept).Reach sixBoot :=
    .start ⟨_, _, sixBoot.eq_1⟩
  exact mapAll_reach hboot (fun v hv => (firstPages_high v hv).1) firstPages_all.1

theorem firstPages_low : ∃ P u, u ≤ 0x610 ∧ Low u P (mapAll firstPages sixBoot).2 := by
  obtain ⟨P, u, hle, h⟩ := low_sixBoot.ends (l := firstPages)
    (by rw [firstPages_length]; omega) firstPages_high
  rw [firstPages_length] at hle
  exact ⟨P, u, by omega, h⟩

theorem firstPages_reached {virt size : Nat} (hv : 0x10000000 ≤ virt)
    (hs : virt + size ≤ 0x12000000) :
    TablesReached (regionPages virt size 7) (mapAll firstPages sixBoot).2 := by
  obtain ⟨P, u, -, hlow⟩ := firstPages_low
  have hpages : ∀ v ∈ regionPages virt size 7, 0x10000000 ≤ v.1 ∧ v.1 < 0x12000000 := by
    intro v hmem
    obtain ⟨i, hi, rfl⟩ := List.mem_map.mp hmem
    rw [List.mem_range'_1, u32_of_lt (by omega)] at hi
    dsimp only
    rw [u32_of_lt (by omega)]
    omega
  refine tablesReached_present (fun v hmem => ?_) fun v hmem x hx => ?_
  · obtain ⟨hlo, hhi⟩ := hpages v hmem
    obtain ⟨w, hw, hslot⟩ : ∃ w ∈ firstPages, pdIdx w.1 = pdIdx v.1 := by
      refine ⟨_, List.mem_map_of_mem (List.mem_range.mpr
        (show v.1 / 0x400000 - 64 < 8 by omega)), ?_⟩
      rw [pdIdx_eq, pdIdx_eq]
      omega
    rw [← hslot]
    exact mapAll_present firstPages_all.2 hw
  · obtain ⟨hlo, -⟩ := hpages v hmem
    have hlt := hlow.tables x hx
    rw [heapVirt] at hlt
    omega

end Window

section Runs

variable {sym : Symbols} {kernelEnd : Nat}

end Runs

end Paging
