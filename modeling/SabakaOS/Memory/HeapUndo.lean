import SabakaOS.Memory.HeapAllocation
import SabakaOS.Memory.HeapBytes

namespace Heap

open Word ByteMemory

variable {start size : Nat} {h h' : HeapState} {r p : Nat} {b : Block} {l l1 l2 : List Block}
  {m m' : Memory}

-- The same blocks in the same order, with the same headers, and as many bytes in use.
structure SameList (h h' : HeapState) : Prop where
  blocks : ∃ bs, ListFrom h.mem h.heapHead bs ∧ ListFrom h'.mem h'.heapHead bs ∧
    ∀ b ∈ bs, header h'.mem b = header h.mem b
  used : h'.usedBytes = h.usedBytes

section Inverse

theorem Linked.same_headers {p n : Nat} (h1 : Linked m p l n) (h2 : Linked m' p l n) :
    ∀ b ∈ l, header m' b.addr = header m b.addr := by
  induction l generalizing p with
  | nil => exact fun b hb => absurd hb List.not_mem_nil
  | cons c l ih =>
    intro b hb
    rcases List.mem_cons.mp hb with rfl | hb
    · rw [h1.1, h2.1]
    · exact ih h1.2 h2.2 b hb

theorem Rep.sameList (ha : Arena start size) (hr : Rep start size h l)
    (hr' : Rep start size h' l) : SameList h h' := by
  have hpos := ha.start_ne
  refine ⟨⟨l.map Block.addr, ?_, ?_, fun a hmem => ?_⟩, hr'.used.trans hr.used.symm⟩
  · rw [hr.head]
    exact hr.linked.listFrom hr.tiles (by omega)
  · rw [hr'.head]
    exact hr'.linked.listFrom hr'.tiles (by omega)
  · obtain ⟨b, hb, rfl⟩ := List.mem_map.mp hmem
    exact hr.linked.same_headers hr'.linked b hb

-- Next to a free block no block is free, so it is not merged with one.
theorem joinNext_spread (hs : Spread (b :: l2)) (hb : b.free = true) : joinNext b l2 = b :: l2 := by
  cases l2 with
  | nil => rfl
  | cons y l2 =>
    have hy := (spread_cons.mp hs).1 y rfl
    exact joinNext_used fun hf => hy ⟨hb, hf⟩

theorem joinPrev_spread (hs : Spread (l1 ++ b :: l2)) (hb : b.free = true) :
    joinPrev l1 (b :: l2) = l1 ++ b :: l2 := by
  rw [joinPrev]
  split
  · next x hx =>
    have hxb := (spread_append.mp hs).2.2 x hx b rfl
    rw [if_neg fun hf => hxb ⟨hf, hb⟩]
  · next hnone =>
    rw [List.getLast?_eq_none_iff.mp hnone]
    rfl

theorem freed_carved (hs : Spread (l1 ++ b :: l2)) (hb : b.free = true) (r : Nat) :
    ∃ c t, carved b r l2 = c :: t ∧ c.addr = b.addr ∧ c.free = false ∧
      freed l1 c t = l1 ++ b :: l2 := by
  have hsb := (spread_append.mp hs).2.1
  unfold carved
  split
  · refine ⟨_, l2, rfl, rfl, rfl, ?_⟩
    have hback : { b with free := true } = b := by rw [← hb]
    rw [freed]
    simp only
    rw [hback, joinNext_spread hsb hb, joinPrev_spread hs hb]
  · next hsize =>
    refine ⟨_, _, rfl, rfl, rfl, ?_⟩
    rw [sizeofBlock, minSplit] at hsize
    have hback : { addr := b.addr, size := r + 20 + (b.size - r - 20), free := true } = b := by
      rw [show r + 20 + (b.size - r - 20) = b.size by omega, ← hb]
    rw [freed, joinNext_free rfl]
    simp only [sizeofBlock]
    rw [hback, joinPrev_spread hs hb]

theorem Rep.kmalloc_kfree (ha : Arena start size) (hr : Rep start size h l) {n : Nat}
    (hw : ¬splitWraps h n) (hk : Heap.kmalloc h n = some (p, h')) (hp : p ≠ 0) :
    Rep start size (Heap.kfree h' p) l := by
  rcases hr.kmalloc ha hw with ⟨he, -⟩ | ⟨l1, b, l2, h1, rfl, -, hfree, -, he, -, -, hrep⟩
  · obtain ⟨rfl, -⟩ := Prod.mk.inj (Option.some.inj (he.symm.trans hk))
    exact absurd rfl hp
  · obtain ⟨rfl, rfl⟩ := Prod.mk.inj (Option.some.inj (he.symm.trans hk))
    obtain ⟨c, t, hc, haddr, hused, hback⟩ := freed_carved hr.spread hfree (roundUp n)
    rw [hc] at hrep
    rw [← haddr] at hp ⊢
    rw [hrep.kfree_eq ha hused hp, ← hback]
    exact hrep.merged ha

end Inverse

section Twice

-- The freed block keeps its free flag, as a block of the list or as stale bytes.
theorem Rep.kfree_flag (ha : Arena start size) (hr : Rep start size h (l1 ++ b :: l2)) :
    (header (tryMerge (setFree h.mem b.addr true) b.addr) b.addr).free = true := by
  have hpos := ha.start_ne
  have hend := ha.fits
  have hb : b ∈ l1 ++ b :: l2 := by simp
  have hbounds := hr.tiles.bounds b hb
  have hkept := tryMerge_same hr.tiles hend (by omega) hr.linked (b.addr + 4)
    (not_linkFields_other hr.tiles hb (.inl (by omega)))
  have hflag : setFree h.mem b.addr true (b.addr + 4) = 1 := by
    rw [setFree, u32_of_lt (by omega), Function.update_self]
    rfl
  rw [header_eq _ (by omega)]
  simp only
  rw [hkept, hflag]
  rfl

theorem Rep.kfree_twice (ha : Arena start size) (hr : Rep start size h l) (hp : Live h p) :
    Heap.kfree (Heap.kfree h p) p = Heap.kfree h p := by
  obtain ⟨b, hb, hused, rfl⟩ := hr.live ha hp
  by_cases hz : u32 (b.addr + sizeofBlock) = 0
  · rw [hz]
    rfl
  · have hsub := hr.ptr_sub ha hb
    obtain ⟨l1, l2, rfl⟩ := List.append_of_mem hb
    rw [hr.kfree_eq ha hused hz]
    conv_lhs => rw [Heap.kfree]
    simp only
    rw [if_neg hz, hsub, hr.kfree_flag ha, if_pos (.inr rfl)]

end Twice

section NullHead

-- A heap at address 0 has no block: its head is the null pointer.
theorem no_live (hz : h.heapHead = 0) : ¬Live h p := by
  rintro ⟨bs, hbs, b, hb, -⟩
  rw [hz] at hbs
  cases hbs with
  | nil => exact absurd hb List.not_mem_nil
  | cons hne => exact hne rfl

theorem kmalloc_null (hz : h.heapHead = 0) (n : Nat) : kmalloc h n = some (0, h) := by
  unfold kmalloc
  split
  · rfl
  · simp only
    rw [hz]
    cases links h with
    | zero => rfl
    | succ k => rfl

def nullInvariant (size : Nat) : ((system 0 size).restrict splitsFit).Invariant where
  holds h := h.heapHead = 0
  start := by
    rintro h ⟨h0, rfl⟩
    rfl
  step := by
    rintro h a h' hz ⟨-, hok, he⟩
    cases a with
    | kmalloc n =>
      rw [exec, kmalloc_null hz] at he
      obtain rfl := Option.some.inj he
      exact hz
    | krealloc ptr n =>
      obtain rfl := hok.2.resolve_right (no_live hz)
      rw [exec, krealloc, if_pos rfl, kmalloc_null hz] at he
      obtain rfl := Option.some.inj he
      exact hz
    | kfree ptr =>
      obtain rfl := hok.resolve_right (no_live hz)
      obtain rfl := Option.some.inj he
      exact hz
    | store ptr off v => exact absurd hok.1 (no_live hz)

end NullHead

theorem kmalloc_kfree_restores (hfits : sizeofBlock ≤ size) (hend : start + size ≤ 2 ^ 32)
    (hs : ((system start size).restrict splitsFit).Reach h) :
    (∀ n p h', n < 2 ^ 32 → splitsFit h (.kmalloc n) → kmalloc h n = some (p, h') → p ≠ 0 →
      SameList h (kfree h' p)) ∧
    ∀ p, Live h p → kfree (kfree h p) p = kfree h p := by
  by_cases hz : start = 0
  · subst hz
    have hnull := (nullInvariant size).reach hs
    refine ⟨fun n p h' _ _ hk hp => ?_, fun p hp => absurd hp (no_live hnull)⟩
    obtain ⟨rfl, -⟩ := Prod.mk.inj (Option.some.inj ((kmalloc_null hnull n).symm.trans hk))
    exact absurd rfl hp
  · have ha : Arena start size := ⟨hz, hfits, hend⟩
    obtain ⟨l, hr⟩ := (repInvariant ha).reach hs
    exact ⟨fun n p h' _ hw hk hp => hr.sameList ha (hr.kmalloc_kfree ha hw hk hp),
      fun p hp => hr.kfree_twice ha hp⟩

theorem kmalloc_kfree_restores_start :
    ((∀ n p h', n < 2 ^ 32 →
        splitsFit (heapInit blankHeap 0x800000 0x400000) (.kmalloc n) →
        kmalloc (heapInit blankHeap 0x800000 0x400000) n = some (p, h') → p ≠ 0 →
        SameList (heapInit blankHeap 0x800000 0x400000) (kfree h' p)) ∧
      ∀ p, Live (heapInit blankHeap 0x800000 0x400000) p →
        kfree (kfree (heapInit blankHeap 0x800000 0x400000) p) p =
          kfree (heapInit blankHeap 0x800000 0x400000) p) ∧
    splitsFit (heapInit blankHeap 0x800000 0x400000) (.kmalloc 100) :=
  ⟨kmalloc_kfree_restores (by decide) (by decide) (.start ⟨blankHeap, rfl⟩),
    fun hw => absurd hw.2.1 (by decide)⟩

-- The split whose bound wraps leaves a second header that the merge does not know again.
theorem kmalloc_kfree_changes :
    ∃ p h', kmalloc (heapInit blankHeap 8 4294967288) 4294967264 = some (p, h') ∧ p ≠ 0 ∧
      ¬SameList (heapInit blankHeap 8 4294967288) (kfree h' p) := by
  have hrun : ((kmalloc (heapInit blankHeap 8 4294967288) 4294967264).map fun r =>
      (r.1, (header (kfree r.2 r.1).mem 8).size)) = some (28, 4294967264) := by
    decide +kernel
  obtain ⟨r, hr, hv⟩ := Option.map_eq_some_iff.mp hrun
  simp only [Prod.mk.injEq] at hv
  have ha : Arena 8 4294967288 := ⟨by decide, by decide, by decide⟩
  have hrep := init_rep ha blankHeap
  have hlist := hrep.linked.listFrom hrep.tiles (by decide)
  refine ⟨r.1, r.2, hr, by rw [hv.1]; decide, fun hsame => ?_⟩
  obtain ⟨bs, hbs, -, hheaders⟩ := hsame.blocks
  have hhead := hheaders 8 (by rw [hbs.unique hlist]; exact List.mem_singleton_self 8)
  rw [hrep.linked.1] at hhead
  have hsize := congrArg Header.size hhead
  rw [hv.2] at hsize
  exact absurd hsize (by decide)

end Heap
