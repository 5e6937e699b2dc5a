import SabakaOS.Memory.HeapTiling

namespace Heap

open Word ByteMemory

variable {start size : Nat} {h h' : HeapState} {l : List Block} {n p ptr : Nat}

def InList (h : HeapState) (b : Nat) : Prop := ∃ bs, ListFrom h.mem h.heapHead bs ∧ b ∈ bs

def FreeBlock (h : HeapState) (b : Nat) : Prop := InList h b ∧ (header h.mem b).free = true

def Allocated (h : HeapState) (b n : Nat) : Prop :=
  InList h b ∧ (header h.mem b).free = false ∧ n ≤ (header h.mem b).size

-- What kmalloc promises of its result r; the rounding is the integer one.
structure Allocates (h : HeapState) (n : Nat) (r : Nat × HeapState) : Prop where
  null : r.1 = 0 ↔ ∀ b, FreeBlock h b → (header h.mem b).size < (n + 7) / 8 * 8
  block : r.1 ≠ 0 → ∃ b, r.1 = b + sizeofBlock ∧ FreeBlock h b ∧ Allocated r.2 b n

-- What krealloc promises of its result r.
def Reallocates (n : Nat) (r : Nat × HeapState) : Prop :=
  r.1 ≠ 0 → ∃ b, r.1 = u32 (b + sizeofBlock) ∧ Allocated r.2 b n

-- No free block has a payload whose address is not null.
def NoPayload (h : HeapState) : Prop := ∀ b, FreeBlock h b → u32 (b + sizeofBlock) = 0

theorem roundUp_of_le (hn : n ≤ 2 ^ 32 - 8) : roundUp n = (n + 7) / 8 * 8 := by
  unfold roundUp u32
  omega

theorem roundUp_of_gt (hn : 2 ^ 32 - 8 < n) (hlt : n < 2 ^ 32) : roundUp n = 0 := by
  unfold roundUp u32
  omega

theorem le_roundUp (hn : n ≤ 2 ^ 32 - 8) : n ≤ roundUp n := by
  rw [roundUp_of_le hn]
  omega

section Blocks

theorem Rep.inList (ha : Arena start size) (hr : Rep start size h l) {b : Nat} :
    InList h b ↔ ∃ c ∈ l, c.addr = b := by
  have hpos := ha.start_ne
  have hlist := hr.linked.listFrom hr.tiles (by omega)
  rw [← hr.head] at hlist
  constructor
  · rintro ⟨bs, hbs, hb⟩
    rw [hbs.unique hlist] at hb
    exact List.mem_map.mp hb
  · rintro ⟨c, hc, rfl⟩
    exact ⟨_, hlist, List.mem_map_of_mem hc⟩

theorem Rep.freeBlock (ha : Arena start size) (hr : Rep start size h l) {b : Nat} :
    FreeBlock h b ↔ ∃ c ∈ l, c.addr = b ∧ c.free = true := by
  constructor
  · rintro ⟨hb, hfree⟩
    obtain ⟨c, hc, rfl⟩ := (hr.inList ha).mp hb
    rw [(hr.linked.header_of_mem c hc).2.1] at hfree
    exact ⟨c, hc, rfl, hfree⟩
  · rintro ⟨c, hc, rfl, hfree⟩
    refine ⟨(hr.inList ha).mpr ⟨c, hc, rfl⟩, ?_⟩
    rw [(hr.linked.header_of_mem c hc).2.1]
    exact hfree

theorem Rep.allocated (ha : Arena start size) (hr : Rep start size h l) {c : Block} (hc : c ∈ l)
    (hused : c.free = false) (hn : n ≤ c.size) : Allocated h c.addr n := by
  obtain ⟨hsize, hfree, -⟩ := hr.linked.header_of_mem c hc
  exact ⟨(hr.inList ha).mpr ⟨c, hc, rfl⟩, hfree.trans hused, hsize ▸ hn⟩

theorem Rep.size_lt (ha : Arena start size) (hr : Rep start size h l) {c : Block} (hc : c ∈ l) :
    0 < c.addr ∧ c.addr + sizeofBlock + c.size ≤ 2 ^ 32 := by
  have hbounds := hr.tiles.bounds c hc
  have hpos := ha.start_ne
  have hend := ha.fits
  rw [sizeofBlock]
  omega

-- A block that ends the address space is the last one.
theorem Tiles.nothing_after {a e : Nat} {l1 l2 : List Block} {b : Block} (ht : Tiles a (l1 ++ b :: l2) e)
    (he : e ≤ 2 ^ 32) (hb : 2 ^ 32 ≤ b.addr + sizeofBlock) : l2 = [] := by
  obtain ⟨d, -, hd, ht2⟩ := tiles_append.mp ht
  cases l2 with
  | nil => rfl
  | cons c l2 =>
    have hbounds := ht2.bounds c (by simp)
    omega

end Blocks

section Kmalloc

theorem Rep.allocates (ha : Arena start size) (hr : Rep start size h l) (hpos : 0 < n)
    (hn : n ≤ 2 ^ 32 - 8) (hw : ¬splitWraps h n) : ∃ r, Heap.kmalloc h n = some r ∧ Allocates h n r := by
  have hup := roundUp_of_le hn
  rcases hr.kmalloc ha hw with ⟨he, hnone⟩ | ⟨l1, b, l2, h', hl, -, hfree, hsize, he, -, -, hrep⟩
  · refine ⟨_, he, ⟨fun _ => ?_, fun _ => rfl⟩, fun hne => absurd rfl hne⟩
    intro b hb
    obtain ⟨c, hc, rfl, hcfree⟩ := (hr.freeBlock ha).mp hb
    rw [(hr.linked.header_of_mem c hc).1, ← hup]
    by_contra hge
    exact hnone.resolve_left (by omega) c hc ⟨hcfree, by omega⟩
  · have hb : b ∈ l := by simp [hl]
    have hroom := hr.size_lt ha hb
    have hp : u32 (b.addr + sizeofBlock) = b.addr + sizeofBlock := u32_of_lt (by omega)
    have hfits : FreeBlock h b.addr := (hr.freeBlock ha).mpr ⟨b, hb, rfl, hfree⟩
    refine ⟨_, he, ⟨fun hnull => ?_, fun hsmall => ?_⟩, fun _ => ⟨b.addr, hp, hfits, ?_⟩⟩
    · rw [hp] at hnull
      omega
    · have hlt := hsmall _ hfits
      rw [(hr.linked.header_of_mem b hb).1] at hlt
      omega
    · obtain ⟨x, hx, hused, haddr, hxsize⟩ := mem_carved (l := l2) hsize
      rw [← haddr]
      exact hrep.allocated ha (List.mem_append_right l1 hx) hused ((le_roundUp hn).trans hxsize)

-- A size within 8 of 2^32 rounds up to 0, and every free block fits.
theorem Rep.kmalloc_wrapped (ha : Arena start size) (hr : Rep start size h l)
    (hn : 2 ^ 32 - 8 < n) (hlt : n < 2 ^ 32) :
    ∃ r, Heap.kmalloc h n = some r ∧ (r.1 = 0 ↔ NoPayload h) := by
  have hup := roundUp_of_gt hn hlt
  have hw : ¬splitWraps h n := by
    rintro ⟨-, hwrap, -⟩
    rw [hup] at hwrap
    exact absurd hwrap (by decide)
  rcases hr.kmalloc ha hw with ⟨he, hnone⟩ | ⟨l1, b, l2, h', hl, hskip, hfree, -, he, -⟩
  · refine ⟨_, he, fun _ b hb => ?_, fun _ => rfl⟩
    obtain ⟨c, hc, rfl, hcfree⟩ := (hr.freeBlock ha).mp hb
    exact absurd ⟨hcfree, by omega⟩ (hnone.resolve_left (by omega) c hc)
  · have hb : b ∈ l := by simp [hl]
    refine ⟨_, he, fun hnull => ?_, fun hno => hno _ ((hr.freeBlock ha).mpr ⟨b, hb, rfl, hfree⟩)⟩
    have hroom := hr.size_lt ha hb
    have htop : 2 ^ 32 ≤ b.addr + sizeofBlock := by
      by_contra hbelow
      rw [u32_of_lt (by omega)] at hnull
      omega
    have ht := hr.tiles
    rw [hl] at ht
    obtain rfl := ht.nothing_after ha.fits htop
    intro a hfa
    obtain ⟨c, hc, rfl, hcfree⟩ := (hr.freeBlock ha).mp hfa
    rw [hl] at hc
    rcases List.mem_append.mp hc with hc | hc
    · exact absurd ⟨hcfree, by omega⟩ (hskip c hc)
    · rw [List.mem_singleton.mp hc]
      exact hnull

theorem Rep.nothing_large (ha : Arena start size) (hr : Rep start size h l)
    (hn : 2 ^ 32 - 8 < n) : ∀ b, FreeBlock h b → (header h.mem b).size < (n + 7) / 8 * 8 := by
  intro b hb
  obtain ⟨c, hc, rfl, -⟩ := (hr.freeBlock ha).mp hb
  have hroom := hr.size_lt ha hc
  rw [(hr.linked.header_of_mem c hc).1]
  omega

end Kmalloc

section Krealloc

theorem Rep.reallocates (ha : Arena start size) (hr : Rep start size h l) (hp : Live h ptr)
    (hne : ptr ≠ 0) (hn : n ≤ 2 ^ 32 - 8) (hw : staysPut h ptr n ∨ ¬splitWraps h n) :
    ∃ r, Heap.krealloc h ptr n = some r ∧ Reallocates n r := by
  obtain ⟨p, h', l', he, hrep, hserves⟩ := hr.krealloc ha (.inr hp) hw
  refine ⟨_, he, fun hp0 => ?_⟩
  obtain ⟨c, hc, hused, haddr, hsize⟩ := (hserves hne).resolve_left hp0
  exact ⟨c.addr, haddr, hrep.allocated ha hc hused ((le_roundUp hn).trans hsize)⟩

theorem Rep.krealloc_wrapped (ha : Arena start size) (hr : Rep start size h l) (hp : Live h ptr)
    (hne : ptr ≠ 0) (hn : 2 ^ 32 - 8 < n) (hlt : n < 2 ^ 32) :
    Heap.krealloc h ptr n = some (ptr, h) ∧ ¬Reallocates n (ptr, h) := by
  obtain ⟨c, hc, -, rfl⟩ := hr.live ha hp
  have hback := hr.ptr_sub ha hc
  have hh := hr.linked.header_of_mem c hc
  constructor
  · unfold Heap.krealloc
    simp only [hne, if_false, hback, hh.2.2, hh.1, roundUp_of_gt hn hlt, ne_eq, not_true,
      Nat.zero_le, if_true, show n ≠ 0 by omega]
  · intro hre
    obtain ⟨b, hb, hin, -, hsize⟩ := hre hne
    obtain ⟨d, hd, rfl⟩ := (hr.inList ha).mp hin
    have haddr := hr.ptr_sub ha hd
    rw [← hb, hback] at haddr
    have hroom := hr.size_lt ha hc
    rw [← haddr, hh.1] at hsize
    rw [sizeofBlock] at hroom
    omega

end Krealloc

-- A size that the rounding does not carry past 2^32 is served as promised, any other is not:
-- kmalloc hands out whatever block is free first, and krealloc takes any block to be large enough.
theorem heap_allocates (ha : Arena start size)
    (hs : ((system start size).restrict splitsFit).Reach h) :
    (∀ n, 0 < n → n < 2 ^ 32 → splitsFit h (.kmalloc n) → ∃ r, kmalloc h n = some r ∧
      (Allocates h n r ↔ n ≤ 2 ^ 32 - 8 ∨ NoPayload h)) ∧
    ∀ ptr n, Live h ptr → ptr ≠ 0 → 0 < n → n < 2 ^ 32 → splitsFit h (.krealloc ptr n) →
      ∃ r, krealloc h ptr n = some r ∧ (Reallocates n r ↔ n ≤ 2 ^ 32 - 8) := by
  obtain ⟨l, hr⟩ := (repInvariant ha).reach hs
  constructor
  · intro n hpos hlt hw
    by_cases hn : n ≤ 2 ^ 32 - 8
    · obtain ⟨r, he, hall⟩ := hr.allocates ha hpos hn hw
      exact ⟨r, he, fun _ => .inl hn, fun _ => hall⟩
    · obtain ⟨r, he, hnull⟩ := hr.kmalloc_wrapped ha (by omega) hlt
      have hlarge := hr.nothing_large ha (n := n) (by omega)
      refine ⟨r, he, fun hall => .inr (hnull.mp (hall.null.mpr hlarge)), fun hno => ?_⟩
      have hzero := hnull.mpr (hno.resolve_left hn)
      exact ⟨⟨fun _ => hlarge, fun _ => hzero⟩, fun hne => absurd hzero hne⟩
  · intro ptr n hp hne hpos hlt hw
    by_cases hn : n ≤ 2 ^ 32 - 8
    · obtain ⟨r, he, hre⟩ := hr.reallocates ha hp hne hn hw
      exact ⟨r, he, fun _ => hn, fun _ => hre⟩
    · obtain ⟨he, hnot⟩ := hr.krealloc_wrapped ha hp hne (by omega) hlt
      exact ⟨_, he, fun hre => absurd hre hnot, fun hle => absurd hle hn⟩

-- A block of 100 bytes, which a krealloc to 0xFFFFFFFF bytes leaves as it is.
theorem heap_allocates_start :
    Arena 0x800000 0x400000 ∧ ∃ r, kmalloc (heapInit blankHeap 0x800000 0x400000) 100 = some r ∧
      Allocates (heapInit blankHeap 0x800000 0x400000) 100 r ∧
      ∃ r', krealloc r.2 r.1 0xFFFFFFFF = some r' ∧ ¬Reallocates 0xFFFFFFFF r' := by
  have ha : Arena 0x800000 0x400000 := ⟨by decide, by decide, by decide⟩
  have hstart : ((system 0x800000 0x400000).restrict splitsFit).Reach
      (heapInit blankHeap 0x800000 0x400000) := .start ⟨blankHeap, rfl⟩
  have hfit : splitsFit (heapInit blankHeap 0x800000 0x400000) (.kmalloc 100) :=
    fun hw => absurd hw.2.1 (by decide)
  obtain ⟨r, he, hiff⟩ := (heap_allocates ha hstart).1 100 (by decide) (by decide) hfit
  have hall := hiff.mpr (.inl (by decide))
  have hrun : (kmalloc (heapInit blankHeap 0x800000 0x400000) 100).map (·.1) = some 0x800014 := by
    decide +kernel
  rw [he] at hrun
  have hptr : r.1 = 0x800014 := Option.some.inj hrun
  have hne : r.1 ≠ 0 := by
    rw [hptr]
    decide
  obtain ⟨b, hb, -, ⟨bs, hbs, hin⟩, hused, -⟩ := hall.block hne
  have hlive : Live r.2 r.1 := by
    refine ⟨bs, hbs, b, hin, hused, ?_⟩
    rw [← hb, hptr]
    rfl
  have hnext : ((system 0x800000 0x400000).restrict splitsFit).Reach r.2 :=
    .next (a := .kmalloc 100) hstart ⟨hfit, show 100 < 2 ^ 32 by decide, by rw [exec, he]; rfl⟩
  obtain ⟨r', he', hiff'⟩ := (heap_allocates ha hnext).2 r.1 0xFFFFFFFF hlive hne (by decide)
    (by decide) (.inr fun hw => absurd hw.2.1 (by decide))
  exact ⟨ha, r, he, hall, r', he', fun hre => absurd (hiff'.mp hre) (by decide)⟩

-- kmalloc(0xFFFFFFFF) is handed an empty block.
theorem heap_allocates_fails :
    ∃ h, (system 0x800000 0x400000).Reach h ∧ ∃ r, kmalloc h 0xFFFFFFFF = some r ∧
      ¬Allocates h 0xFFFFFFFF r := by
  have hrun : (kmalloc (heapInit blankHeap 0x800000 0x400000) 0xFFFFFFFF).map (·.1) =
      some 0x800014 := by decide +kernel
  obtain ⟨r, hr, hv⟩ := Option.map_eq_some_iff.mp hrun
  refine ⟨_, .start ⟨blankHeap, rfl⟩, r, hr, fun hall => ?_⟩
  have ha : Arena 0x800000 0x400000 := ⟨by decide, by decide, by decide⟩
  have hnull := hall.null.mpr ((init_rep ha blankHeap).nothing_large ha (by decide))
  rw [hv] at hnull
  exact absurd hnull (by decide)

end Heap
