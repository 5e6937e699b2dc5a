import SabakaOS.Memory.HeapTiling

namespace Heap

open Word ByteMemory

variable {start size : Nat} {h h' : HeapState} {a e p r : Nat} {b x y : Block}
  {l l1 l2 : List Block} {m m' m'' : Memory}

-- Every byte outside the set is the same in both memories.
def SameOutside (s : Nat → Prop) (m m' : Memory) : Prop := ∀ k, ¬s k → m' k = m k

theorem SameOutside.trans {s : Nat → Prop} (h1 : SameOutside s m m') (h2 : SameOutside s m' m'') :
    SameOutside s m m'' := fun k hk => (h2 k hk).trans (h1 k hk)

theorem SameOutside.mono {s t : Nat → Prop} (hs : SameOutside s m m') (hst : ∀ k, s k → t k) :
    SameOutside t m m' := fun k hk => hs k fun h => hk (hst k h)

-- The size and the two links of the header at b.
def LinkField (b k : Nat) : Prop := b ≤ k ∧ k < b + 4 ∨ b + 8 ≤ k ∧ k < b + 16

def LinkFields (l : List Block) (k : Nat) : Prop := ∃ c ∈ l, LinkField c.addr k

theorem LinkFields.addrs {l l' : List Block} (h : ∀ c ∈ l, ∃ d ∈ l', d.addr = c.addr) (k : Nat)
    (hk : LinkFields l k) : LinkFields l' k := by
  obtain ⟨c, hc, hf⟩ := hk
  obtain ⟨d, hd, hsame⟩ := h c hc
  exact ⟨d, hd, by rwa [hsame]⟩

section Fields

variable {v k : Nat}

theorem setSize_same (hb : a + 20 ≤ 2 ^ 32) : SameOutside (LinkField a) m (setSize m a v) := by
  intro k hk
  unfold LinkField at hk
  rw [setSize, u32_of_lt (by omega), writeLE_of_not_mem _ _ _ _ (by omega)]

theorem setNext_same (hb : a + 20 ≤ 2 ^ 32) : SameOutside (LinkField a) m (setNext m a v) := by
  intro k hk
  unfold LinkField at hk
  rw [setNext, u32_of_lt (by omega), writeLE_of_not_mem _ _ _ _ (by omega)]

theorem setPrev_same (hb : a + 20 ≤ 2 ^ 32) : SameOutside (LinkField a) m (setPrev m a v) := by
  intro k hk
  unfold LinkField at hk
  rw [setPrev, u32_of_lt (by omega), writeLE_of_not_mem _ _ _ _ (by omega)]

theorem setMagic_same (hb : a + 20 ≤ 2 ^ 32) (hk : k < a ∨ a + 20 ≤ k) :
    setMagic m a v k = m k := by
  rw [setMagic, u32_of_lt (by omega), writeLE_of_not_mem _ _ _ _ (by omega)]

theorem setFree_same (hb : a + 20 ≤ 2 ^ 32) (f : Bool) (hk : k ≠ a + 4) :
    setFree m a f k = m k := by
  rw [setFree, u32_of_lt (by omega), Function.update_of_ne hk]

theorem writeHeader_same {hd : Header} (hb : a + 20 ≤ 2 ^ 32) (hk : k < a ∨ a + 20 ≤ k) :
    writeHeader m a hd k = m k := by
  have hfield : ¬LinkField a k := by
    unfold LinkField
    omega
  rw [writeHeader, setMagic_same hb hk, setPrev_same hb k hfield, setNext_same hb k hfield,
    setFree_same hb hd.free (by omega), setSize_same hb k hfield]

theorem setPrevOf_same (ht : Tiles a l e) (he : e ≤ 2 ^ 32) (q : Nat) :
    SameOutside (LinkFields l) m (setPrevOf m (headAddr 0 l) q) := by
  intro k hk
  cases l with
  | nil => rfl
  | cons c l =>
    have hc := ht.bounds c List.mem_cons_self
    unfold setPrevOf
    split
    · exact setPrev_same (by simp only [headAddr]; omega) k
        fun h => hk ⟨c, List.mem_cons_self, h⟩
    · rfl

end Fields

section Merge

theorem absorb_same (ht : Tiles x.addr (x :: y :: l) e) (he : e ≤ 2 ^ 32)
    (hl : Linked m p (x :: y :: l) 0) :
    SameOutside (LinkFields (x :: y :: l)) m (absorb m x.addr y.addr) := by
  intro k hk
  have hx := ht.bounds x List.mem_cons_self
  have hself : ¬LinkField x.addr k := fun hf => hk ⟨x, List.mem_cons_self, hf⟩
  have hrest : ¬LinkFields l k := fun hf => hk (LinkFields.addrs (fun c hc =>
    ⟨c, List.mem_cons_of_mem x (List.mem_cons_of_mem y hc), rfl⟩) k hf)
  rw [absorb_eq ht he hl, setPrevOf_same ht.2.2 he x.addr k hrest, setNext_same (by omega) k hself,
    setSize_same (by omega) k hself]

theorem mergeNext_same (ht : Tiles b.addr (b :: l) e) (he : e ≤ 2 ^ 32)
    (hl : Linked m p (b :: l) 0) : SameOutside (LinkFields (b :: l)) m (mergeNext m b.addr) := by
  have hnext : (header m b.addr).next = headAddr 0 l := by rw [hl.1]
  rw [mergeNext, hnext]
  split
  · next hfree =>
    cases l with
    | nil => exact absurd hfree (by simp [freeBlock, headAddr])
    | cons y l => exact absorb_same ht he hl
  · exact fun k _ => rfl

theorem lastAddr_concat (p : Nat) (l : List Block) (x : Block) :
    lastAddr p (l ++ [x]) = x.addr := by
  induction l generalizing p with
  | nil => rfl
  | cons c l ih => exact ih c.addr

theorem mergePrev_same (ht : Tiles a (l1 ++ b :: l2) e) (he : e ≤ 2 ^ 32)
    (hl : Linked m 0 (l1 ++ b :: l2) 0) :
    SameOutside (LinkFields (l1 ++ b :: l2)) m (mergePrev m b.addr) := by
  have hprev : (header m b.addr).prev = lastAddr 0 l1 := by rw [(linked_append.mp hl).2.1]
  rw [mergePrev, hprev]
  split
  · next hfree =>
    rcases l1.eq_nil_or_concat with rfl | ⟨l0, x, rfl⟩
    · exact absurd hfree (by simp [freeBlock, lastAddr])
    · rw [List.concat_eq_append] at ht hl ⊢
      rw [lastAddr_concat]
      rw [List.append_assoc] at ht hl ⊢
      obtain ⟨d, -, hx⟩ := tiles_append.mp ht
      rw [← hx.1] at hx
      refine (absorb_same hx he (linked_append.mp hl).2).mono fun k => LinkFields.addrs
        (fun c hc => ⟨c, List.mem_append_right l0 hc, rfl⟩) k
  · exact fun k _ => rfl

theorem joinNext_addrs (b : Block) (l : List Block) :
    ∀ c ∈ joinNext b l, ∃ d ∈ b :: l, d.addr = c.addr := by
  intro c hc
  cases l with
  | nil => exact ⟨c, hc, rfl⟩
  | cons y l =>
    by_cases hy : y.free = true
    · rw [joinNext_free hy] at hc
      rcases List.mem_cons.mp hc with rfl | hc
      · exact ⟨b, List.mem_cons_self, rfl⟩
      · exact ⟨c, List.mem_cons_of_mem b (List.mem_cons_of_mem y hc), rfl⟩
    · rw [joinNext_used hy] at hc
      exact ⟨c, hc, rfl⟩

-- A block is freed and merged by writes into sizes and links of the list alone.
theorem tryMerge_same (ht : Tiles a (l1 ++ b :: l2) e) (he : e ≤ 2 ^ 32) (ha : 0 < a)
    (hl : Linked m 0 (l1 ++ b :: l2) 0) :
    SameOutside (LinkFields (l1 ++ b :: l2)) (setFree m b.addr true)
      (tryMerge (setFree m b.addr true) b.addr) := by
  obtain ⟨d, h1, h2⟩ := tiles_append.mp ht
  have hd : b.addr = d := h2.1
  have had := h1.le
  have hle := h2.2.le
  rw [sizeofBlock] at hle
  rw [← hd] at h1 h2
  obtain ⟨-, hlb⟩ := linked_append.mp hl
  have hapart : ∀ c, c + 20 ≤ 2 ^ 32 → Apart b.addr c →
      header (setFree m b.addr true) c = header m c := fun c hc hd =>
    setFree_apart (by omega) hc hd true
  have ht2 : Tiles b.addr ({ b with free := true } :: l2) e := h2
  have hl2 : Linked (setFree m b.addr true) (lastAddr 0 l1) ({ b with free := true } :: l2) 0 := by
    refine ⟨by rw [header_setFree (by omega), hlb.1], linked_above h2.2 hlb.2 (fun c h1 h2 => ?_)⟩
    exact hapart c (by omega) (by unfold Apart; rw [sizeofBlock] at h1; omega)
  have hnext := mergeNext_same ht2 he hl2
  obtain ⟨hl3, hb3⟩ := mergeNext_spec ht2 he (show 0 < b.addr by omega) hl2
  obtain ⟨c, t, hc, hca, -⟩ := joinNext_cons { b with free := true } l2
  have hb1 : Below m (setFree m b.addr true) b.addr := fun c hc => hapart c (by omega) (.inr hc)
  have hl4 := hl.suffix h1 (by rw [hc]; exact hca) hl3 (hb1.trans hb3)
  have ht4 : Tiles a (l1 ++ joinNext { b with free := true } l2) e :=
    tiles_append.mpr ⟨_, h1, tiles_joinNext ht2⟩
  have haddrs : ∀ c ∈ l1 ++ joinNext { b with free := true } l2,
      ∃ d ∈ l1 ++ b :: l2, d.addr = c.addr := by
    intro c hc
    rcases List.mem_append.mp hc with hc | hc
    · exact ⟨c, List.mem_append_left _ hc, rfl⟩
    · obtain ⟨d, hd, hsame⟩ := joinNext_addrs _ _ c hc
      rcases List.mem_cons.mp hd with rfl | hd
      · exact ⟨b, by simp, hsame⟩
      · exact ⟨d, by simp [hd], hsame⟩
  rw [hc] at hl4 ht4 haddrs
  have hprev := (mergePrev_same ht4 he hl4).mono (LinkFields.addrs haddrs)
  rw [hca] at hprev
  refine SameOutside.trans (hnext.mono fun k => LinkFields.addrs (fun c hc => ?_) k) hprev
  rcases List.mem_cons.mp hc with rfl | hc
  · exact ⟨b, by simp, rfl⟩
  · exact ⟨c, by simp [hc], rfl⟩

end Merge

section Split

-- The bytes of a block, its header with its payload.
def Extent (b : Block) (k : Nat) : Prop := b.addr ≤ k ∧ k < b.addr + 20 + b.size

theorem trySplit_same (ht : Tiles b.addr (b :: l) e) (he : e ≤ 2 ^ 32)
    (hl : Linked m p (b :: l) 0) (hr : r + sizeofBlock + minSplit < 2 ^ 32) :
    SameOutside (fun k => Extent b k ∨ LinkFields l k) m
      (setFree (trySplit m b.addr r) b.addr false) := by
  intro k hk
  obtain ⟨hin, hlink⟩ := not_or.mp hk
  have hb := ht.bounds b List.mem_cons_self
  unfold Extent at hin
  have hfield : ¬LinkField b.addr k := by
    unfold LinkField
    omega
  rw [setFree_same (by omega) false (by omega)]
  by_cases hsize : b.size < r + sizeofBlock + minSplit
  · rw [trySplit_small hl hr hsize]
  · rw [trySplit_eq ht he hl hr hsize]
    rw [sizeofBlock, minSplit] at hsize
    rw [setSize_same (by omega) k hfield, setNext_same (by omega) k hfield,
      setPrevOf_same ht.2 he _ k hlink, sizeofBlock,
      writeHeader_same (by omega) (by omega)]

end Split

section Payload

-- A byte of the payload of x.
def InPayload (x : Block) (k : Nat) : Prop := x.addr + 20 ≤ k ∧ k < x.addr + 20 + x.size

theorem InPayload.not_linkFields (ht : Tiles a l e) (hx : x ∈ l) {k : Nat} (hk : InPayload x k) :
    ¬LinkFields l k := by
  rintro ⟨c, hc, hf⟩
  have hap := ht.payload_apart hx hc
  unfold InPayload at hk
  unfold LinkField at hf
  omega

theorem not_linkFields_other (ht : Tiles a l e) (hx : x ∈ l) {k : Nat}
    (hk : x.addr + 4 ≤ k ∧ k < x.addr + 8 ∨ x.addr + 16 ≤ k ∧ k < x.addr + 20) :
    ¬LinkFields l k := by
  rintro ⟨c, hc, hf⟩
  have hap := ht.payload_apart hx hc
  have hpa := ht.payload_apart hc hx
  unfold LinkField at hf
  omega

end Payload

end Heap
