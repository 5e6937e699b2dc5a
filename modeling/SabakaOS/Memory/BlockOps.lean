import Mathlib.Data.List.Chain
import SabakaOS.Memory.BlockList

namespace Heap

open Word ByteMemory

variable {a e p n r : Nat} {b x y : Block} {l l1 l2 : List Block} {m m' : Memory}

def joinNext (b : Block) : List Block → List Block
  | [] => [b]
  | y :: l => if y.free then { b with size := b.size + sizeofBlock + y.size } :: l else b :: y :: l

def carved (b : Block) (r : Nat) (l : List Block) : List Block :=
  if b.size < r + sizeofBlock + minSplit then { b with free := false } :: l
  else { b with size := r, free := false } ::
    { addr := b.addr + sizeofBlock + r, size := b.size - r - sizeofBlock, free := true } :: l

def Below (m m' : Memory) (a : Nat) : Prop := ∀ c, c + 20 ≤ a → header m' c = header m c

theorem Below.trans {m1 m2 m3 : Memory} (h : Below m1 m2 a) (h' : Below m2 m3 a) : Below m1 m3 a :=
  fun c hc => (h' c hc).trans (h c hc)

theorem headAddr_lt (h : Tiles a l e) (he : e ≤ 2 ^ 32) : headAddr 0 l < 2 ^ 32 := by
  cases l with
  | nil => exact Nat.two_pow_pos 32
  | cons b l =>
    have := h.bounds b (by simp)
    simp only [headAddr]
    omega

theorem setPrevOf_below (h : Tiles a l e) (he : e ≤ 2 ^ 32) (q : Nat) :
    Below m (setPrevOf m (headAddr 0 l) q) a := by
  intro c hc
  unfold setPrevOf
  split
  · rename_i hne
    cases l with
    | nil => exact absurd rfl hne
    | cons b l =>
      have := h.bounds b (by simp)
      exact setPrev_apart (by simp only [headAddr]; omega) (by omega)
        (by unfold Apart; simp only [headAddr]; omega)
  · rfl

theorem setPrevOf_linked (h : Tiles a l e) (he : e ≤ 2 ^ 32) (ha : 0 < a) (hl : Linked m p l 0)
    {q : Nat} (hq : q < 2 ^ 32) : Linked (setPrevOf m (headAddr 0 l) q) q l 0 := by
  cases l with
  | nil => trivial
  | cons b l =>
    have hb := h.bounds b (by simp)
    have hne : b.addr ≠ 0 := by omega
    simp only [headAddr, setPrevOf, ne_eq, hne, not_false_eq_true, if_true]
    refine hl.reprev (fun c hc => ?_) (fun c hc => ?_)
    · obtain rfl : b = c := by simpa using hc
      exact header_setPrev (by omega) hq
    · have hc' := (h.2.bounds c hc)
      rw [sizeofBlock, ← h.1] at hc'
      exact setPrev_apart (by omega) (by omega) (by unfold Apart; omega)

theorem linked_above (h : Tiles a l e) (hl : Linked m p l n)
    (hc : ∀ c, a ≤ c → c + 20 ≤ e → header m' c = header m c) : Linked m' p l n :=
  hl.congr (fun b hb => hc _ (h.bounds b hb).1 (by have := h.bounds b hb; omega))

theorem absorb_eq (ht : Tiles x.addr (x :: y :: l) e) (he : e ≤ 2 ^ 32)
    (hl : Linked m p (x :: y :: l) 0) :
    absorb m x.addr y.addr = setPrevOf (setNext (setSize m x.addr (x.size + sizeofBlock + y.size))
      x.addr (headAddr 0 l)) (headAddr 0 l) x.addr := by
  obtain ⟨-, hy, htl⟩ := ht
  rw [← hy] at htl
  have hyle := htl.le
  rw [sizeofBlock] at hy htl hyle
  obtain ⟨hhx, hhy, -⟩ := hl
  simp only [headAddr] at hhx
  have hsize : u32 ((header m x.addr).size + sizeofBlock + (header m y.addr).size) =
      x.size + sizeofBlock + y.size := by
    rw [hhx, hhy]
    exact u32_of_lt (show x.size + 20 + y.size < 4294967296 by omega)
  have hynext : ∀ v, (header (setSize m x.addr v) y.addr).next = headAddr 0 l := fun v => by
    rw [setSize_apart (by omega) (by omega) (by unfold Apart; omega), hhy]
  have hself : ∀ m', header (setNext m' x.addr (headAddr 0 l)) x.addr =
      { header m' x.addr with next := headAddr 0 l } := fun m' =>
    header_setNext (by omega) (headAddr_lt htl he)
  rw [absorb, hsize, hynext, hself]

theorem absorb_spec (ht : Tiles x.addr (x :: y :: l) e) (he : e ≤ 2 ^ 32) (hx : 0 < x.addr)
    (hl : Linked m p (x :: y :: l) 0) :
    Linked (absorb m x.addr y.addr) p
        ({ x with size := x.size + sizeofBlock + y.size } :: l) 0 ∧
      Below m (absorb m x.addr y.addr) x.addr := by
  rw [absorb_eq ht he hl]
  obtain ⟨-, hy, htl⟩ := ht
  rw [← hy] at htl
  have hyle := htl.le
  rw [sizeofBlock] at hy htl hyle
  obtain ⟨hhx, hhy, hll⟩ := hl
  simp only [headAddr] at hhx
  set m1 := setSize m x.addr (x.size + sizeofBlock + y.size) with hm1
  set m2 := setNext m1 x.addr (headAddr 0 l) with hm2
  have hself1 : header m1 x.addr = { header m x.addr with size := x.size + sizeofBlock + y.size } :=
    header_setSize (by omega) (by rw [sizeofBlock]; omega)
  have hself2 : header m2 x.addr = { header m1 x.addr with next := headAddr 0 l } :=
    header_setNext (by omega) (headAddr_lt htl he)
  have hapart : ∀ c, c + 20 ≤ 2 ^ 32 → Apart x.addr c → header m2 c = header m c := fun c hc hd => by
    rw [hm2, setNext_apart (by omega) hc hd, hm1, setSize_apart (by omega) hc hd]
  have hl2 : Linked m2 y.addr l 0 := linked_above htl hll
    (fun c h1 h2 => hapart c (by omega) (by unfold Apart; omega))
  refine ⟨⟨?_, setPrevOf_linked htl he (by omega) hl2 (by omega)⟩, fun c hc => ?_⟩
  · rw [setPrevOf_below htl he _ x.addr (by omega), hself2, hself1, hhx]
  · rw [setPrevOf_below htl he _ c (by omega), hapart c (by omega) (.inr hc)]

theorem freeBlock_head (ht : Tiles a l e) (ha : 0 < a) (hl : Linked m p l n) :
    freeBlock m (headAddr 0 l) = (l.head?.map Block.free).getD false := by
  cases l with
  | nil => rfl
  | cons b l =>
    have hb := ht.bounds b (by simp)
    simp only [headAddr, freeBlock, hl.1, List.head?_cons, Option.map_some, Option.getD_some,
      BEq.rfl, Bool.and_true]
    rw [show (b.addr != 0) = true by simp; omega, Bool.true_and]

theorem mergeNext_spec (ht : Tiles b.addr (b :: l) e) (he : e ≤ 2 ^ 32) (hb : 0 < b.addr)
    (hl : Linked m p (b :: l) 0) :
    Linked (mergeNext m b.addr) p (joinNext b l) 0 ∧ Below m (mergeNext m b.addr) b.addr := by
  have hnext : (header m b.addr).next = headAddr 0 l := by rw [hl.1]
  have hfree := freeBlock_head ht.2 (by omega) hl.2
  rw [mergeNext, hnext, hfree]
  cases l with
  | nil => exact ⟨hl, fun _ _ => rfl⟩
  | cons y l =>
    cases hy : y.free with
    | true =>
      simp only [joinNext, headAddr, List.head?_cons, Option.map_some, Option.getD_some, hy,
        if_true]
      exact absorb_spec ht he hb hl
    | false =>
      simp only [joinNext, List.head?_cons, Option.map_some, Option.getD_some, hy,
        Bool.false_eq_true, if_false]
      exact ⟨hl, fun _ _ => rfl⟩

theorem trySplit_small (hl : Linked m p (b :: l) 0) (hr : r + sizeofBlock + minSplit < 2 ^ 32)
    (hsize : b.size < r + sizeofBlock + minSplit) : trySplit m b.addr r = m := by
  rw [trySplit, u32_of_lt hr, hl.1, if_pos hsize]

-- The header of the rest, written behind the r bytes of b.
def restHeader (b : Block) (r : Nat) (l : List Block) : Header :=
  { size := b.size - r - sizeofBlock
    free := true
    next := headAddr 0 l
    prev := b.addr
    magic := heapMagic }

theorem trySplit_eq (ht : Tiles b.addr (b :: l) e) (he : e ≤ 2 ^ 32)
    (hl : Linked m p (b :: l) 0) (hr : r + sizeofBlock + minSplit < 2 ^ 32)
    (hsize : ¬b.size < r + sizeofBlock + minSplit) :
    trySplit m b.addr r = setSize (setNext (setPrevOf (writeHeader m (b.addr + sizeofBlock + r)
      (restHeader b r l)) (headAddr 0 l) (b.addr + sizeofBlock + r)) b.addr
        (b.addr + sizeofBlock + r)) b.addr r := by
  obtain ⟨-, htl⟩ := ht
  have hle := htl.le
  obtain ⟨hhb, -⟩ := hl
  rw [trySplit, u32_of_lt hr, hhb, if_neg hsize]
  simp only
  rw [sizeofBlock, minSplit] at *
  have hnb : u32 (b.addr + 20 + r) = b.addr + 20 + r := u32_of_lt (by omega)
  have hsub : sub32 b.size r = b.size - r := sub32_of_le (by omega) (by omega)
  have hrest : sub32 (sub32 b.size r) 20 = b.size - r - 20 := by
    rw [hsub, sub32_of_le (by omega) (by omega)]
  have hkept : ∀ h, header (writeHeader m (b.addr + 20 + r) h) b.addr = header m b.addr := fun h =>
    writeHeader_apart (by omega) (by omega) (by unfold Apart; omega)
  rw [hnb, hrest, hkept, hhb]
  rfl

theorem trySplit_spec (ht : Tiles b.addr (b :: l) e) (he : e ≤ 2 ^ 32) (hb : 0 < b.addr)
    (hl : Linked m p (b :: l) 0) (hr : r + sizeofBlock + minSplit < 2 ^ 32) :
    Linked (setFree (trySplit m b.addr r) b.addr false) p (carved b r l) 0 ∧
      Below m (setFree (trySplit m b.addr r) b.addr false) b.addr := by
  have htl := ht.2
  have hle := htl.le
  obtain ⟨hhb, hll⟩ := id hl
  rw [carved]
  split
  · next hsize =>
    rw [trySplit_small hl hr hsize]
    rw [sizeofBlock] at *
    have hself : header (setFree m b.addr false) b.addr = _ := header_setFree (by omega) false
    refine ⟨⟨by rw [hself, hhb], linked_above htl hll (fun c h1 h2 => ?_)⟩, fun c hc => ?_⟩
    · exact setFree_apart (by omega) (by omega) (by unfold Apart; omega) _
    · exact setFree_apart (by omega) (by omega) (.inr hc) _
  · next hsize =>
    rw [trySplit_eq ht he hl hr hsize]
    rw [sizeofBlock, minSplit] at *
    set nb := b.addr + 20 + r with hnbdef
    set hd := restHeader b r l with hhd
    set m1 := writeHeader m nb hd with hm1
    have hnext := headAddr_lt htl he
    have h1nb : header m1 nb = hd :=
      header_writeHeader (by omega) (by rw [hhd, restHeader]; simp only; omega)
        (by rw [hhd, restHeader]; exact hnext) (by rw [hhd, restHeader]; simp only; omega)
        (by rw [hhd, restHeader]; simp only [heapMagic]; omega)
    have h1 : ∀ c, c + 20 ≤ 2 ^ 32 → Apart nb c → header m1 c = header m c := fun c hc hd =>
      writeHeader_apart (by omega) hc hd
    set m2 := setPrevOf m1 (headAddr 0 l) nb with hm2
    set m3 := setNext m2 b.addr nb with hm3
    set m4 := setSize m3 b.addr r with hm4
    set m5 := setFree m4 b.addr false with hm5
    have h2 : Below m1 m2 (b.addr + 20 + b.size) := setPrevOf_below htl he nb
    have h5 : ∀ c, c + 20 ≤ 2 ^ 32 → Apart b.addr c → header m5 c = header m2 c := fun c hc hd => by
      rw [hm5, setFree_apart (by omega) hc hd, hm4, setSize_apart (by omega) hc hd, hm3,
        setNext_apart (by omega) hc hd]
    have h5b : header m5 b.addr = { size := r, free := false, next := nb, prev := p, magic := heapMagic } := by
      rw [hm5, header_setFree (by omega), hm4, header_setSize (by omega) (by omega), hm3,
        header_setNext (by omega) (by omega), h2 _ (by omega), h1 _ (by omega)
          (by unfold Apart; omega), hhb]
    have hl1 : Linked m1 b.addr l 0 := linked_above htl hll
      (fun c hc1 hc2 => h1 c (by omega) (by unfold Apart; omega))
    have hl2 : Linked m2 nb l 0 := setPrevOf_linked htl he (by omega) hl1 (by omega)
    clear_value m1 m2 m3 m4 m5
    refine ⟨⟨h5b, ?_, linked_above htl hl2 (fun c hc1 hc2 => ?_)⟩, fun c hc => ?_⟩
    · change header m5 nb = _
      rw [h5 nb (by omega) (by unfold Apart; omega), h2 nb (by omega), h1nb]
      rfl
    · exact h5 c (by omega) (by unfold Apart; omega)
    · rw [h5 c (by omega) (.inr hc), h2 c (by omega), h1 c (by omega) (by unfold Apart; omega)]

def joinPrev (l1 rest : List Block) : List Block :=
  match l1.getLast? with
  | some x => if x.free then l1.dropLast ++ joinNext x rest else l1 ++ rest
  | none => rest

def freed (l1 : List Block) (b : Block) (l2 : List Block) : List Block :=
  joinPrev l1 (joinNext { b with free := true } l2)

theorem mem_joinNext (hy : y ∈ l) (hused : y.free = false) : y ∈ joinNext b l := by
  cases l with
  | nil => cases hy
  | cons z l =>
    by_cases hz : z.free = true
    · rw [joinNext, if_pos hz]
      rcases List.mem_cons.mp hy with rfl | hy
      · rw [hused] at hz
        cases hz
      · exact List.mem_cons_of_mem _ hy
    · rw [joinNext, if_neg hz]
      exact List.mem_cons_of_mem _ hy

theorem freed_keeps (hy : y ∈ l1 ++ b :: l2) (hused : y.free = false) (hne : y ≠ b) :
    y ∈ freed l1 b l2 := by
  have hrest : y ∈ l1 ∨ y ∈ joinNext { b with free := true } l2 := by
    rcases List.mem_append.mp hy with h1 | h2
    · exact .inl h1
    · exact .inr (mem_joinNext ((List.mem_cons.mp h2).resolve_left hne) hused)
  unfold freed joinPrev
  split
  · rename_i x hx
    obtain ⟨l0, rfl⟩ := List.getLast?_eq_some_iff.mp hx
    split
    · rename_i hfree
      rw [List.dropLast_concat]
      rcases hrest with h1 | h2
      · rcases List.mem_append.mp h1 with h0 | hlast
        · exact List.mem_append_left _ h0
        · rw [List.mem_singleton.mp hlast, hfree] at hused
          cases hused
      · exact List.mem_append_right _ (mem_joinNext h2 hused)
    · exact List.mem_append.mpr hrest
  · rename_i hnone
    rw [List.getLast?_eq_none_iff.mp hnone] at hrest
    exact hrest.resolve_left (by simp)

theorem mem_carved (hr : r ≤ b.size) :
    ∃ x ∈ carved b r l, x.free = false ∧ x.addr = b.addr ∧ r ≤ x.size := by
  unfold carved
  split
  · exact ⟨_, List.mem_cons_self .., rfl, rfl, hr⟩
  · exact ⟨_, List.mem_cons_self .., rfl, rfl, le_rfl⟩

theorem joinNext_free (hy : y.free = true) : joinNext b (y :: l) =
    { b with size := b.size + sizeofBlock + y.size } :: l := by
  rw [joinNext, if_pos hy]

theorem joinNext_used (hy : ¬y.free = true) : joinNext b (y :: l) = b :: y :: l := by
  rw [joinNext, if_neg hy]

theorem joinNext_cons (b : Block) (l : List Block) :
    ∃ c t, joinNext b l = c :: t ∧ c.addr = b.addr ∧ c.free = b.free := by
  cases l with
  | nil => exact ⟨b, [], rfl, rfl, rfl⟩
  | cons y l =>
    by_cases hy : y.free = true
    · exact ⟨_, l, joinNext_free hy, rfl, rfl⟩
    · exact ⟨b, y :: l, joinNext_used hy, rfl, rfl⟩

theorem carved_cons (b : Block) (r : Nat) (l : List Block) :
    ∃ c t, carved b r l = c :: t ∧ c.addr = b.addr ∧ c.free = false := by
  unfold carved
  split
  · exact ⟨_, l, rfl, rfl, rfl⟩
  · exact ⟨_, _, rfl, rfl, rfl⟩

theorem Linked.suffix {s s' : List Block} {d : Nat} (ht : Tiles a l1 d) (hl : Linked m p (l1 ++ s) 0)
    (hh : headAddr 0 s' = headAddr 0 s) (hs : Linked m' (lastAddr p l1) s' 0)
    (hb : Below m m' d) : Linked m' p (l1 ++ s') 0 := by
  obtain ⟨hl1, -⟩ := linked_append.mp hl
  refine linked_append.mpr ⟨?_, hs⟩
  rw [hh]
  exact hl1.congr (fun c hc => hb _ (by have := ht.bounds c hc; omega))

theorem tiles_joinNext (h : Tiles a (b :: l) e) : Tiles a (joinNext b l) e := by
  cases l with
  | nil => exact h
  | cons y l =>
    obtain ⟨hb, hya, hl⟩ := h
    by_cases hy : y.free = true
    · rw [joinNext_free hy]
      exact ⟨hb, by simpa only [Nat.add_assoc] using hl⟩
    · rw [joinNext_used hy]
      exact ⟨hb, hya, hl⟩

theorem tiles_carved (h : Tiles a (b :: l) e) : Tiles a (carved b r l) e := by
  obtain ⟨hb, hl⟩ := h
  unfold carved
  split
  · exact ⟨hb, hl⟩
  · rename_i hsize
    rw [sizeofBlock, minSplit] at hsize
    rw [sizeofBlock] at hl
    refine ⟨hb, by rw [hb], ?_⟩
    simp only [sizeofBlock]
    rwa [show a + 20 + r + 20 + (b.size - r - 20) = a + 20 + b.size by omega]

theorem usedSize_append : usedSize (l1 ++ l2) = usedSize l1 + usedSize l2 := by
  simp [usedSize]

theorem usedSize_joinNext (hb : b.free = true) : usedSize (joinNext b l) = usedSize l := by
  cases l with
  | nil => simp [joinNext, usedSize, hb]
  | cons y l =>
    by_cases hy : y.free = true
    · rw [joinNext_free hy]
      simp [usedSize, hb, hy]
    · rw [joinNext_used hy]
      simp [usedSize, hb]

theorem usedSize_carved (b : Block) (r : Nat) (l : List Block) :
    usedSize (carved b r l) =
      (if b.size < r + sizeofBlock + minSplit then b.size else r) + usedSize l := by
  unfold carved
  split
  · simp [usedSize]
  · simp [usedSize]

theorem spread_append : Spread (l1 ++ l2) ↔ Spread l1 ∧ Spread l2 ∧
    ∀ x ∈ l1.getLast?, ∀ y ∈ l2.head?, ¬(x.free = true ∧ y.free = true) :=
  List.isChain_append

theorem spread_cons : Spread (b :: l) ↔
    (∀ y ∈ l.head?, ¬(b.free = true ∧ y.free = true)) ∧ Spread l :=
  List.isChain_cons

theorem spread_joinNext (h : Spread l) : Spread (joinNext b l) := by
  cases l with
  | nil => exact List.isChain_singleton _
  | cons y l =>
    by_cases hy : y.free = true
    · rw [joinNext_free hy]
      obtain ⟨hh, hl⟩ := spread_cons.mp h
      exact spread_cons.mpr ⟨fun z hz hf => hh z hz ⟨hy, hf.2⟩, hl⟩
    · rw [joinNext_used hy]
      refine spread_cons.mpr ⟨fun z hz hf => ?_, h⟩
      obtain rfl : y = z := by simpa using hz
      exact hy hf.2

theorem spread_carved (h : Spread (l1 ++ b :: l)) (hb : b.free = true) :
    Spread (l1 ++ carved b r l) := by
  obtain ⟨h1, hbl, -⟩ := spread_append.mp h
  obtain ⟨hh, hl⟩ := spread_cons.mp hbl
  have hsafe : ∀ y ∈ l.head?, y.free = false := fun y hy => by
    have := hh y hy
    simpa [hb] using this
  obtain ⟨c, t, hc, -, hcf⟩ := carved_cons b r l
  refine spread_append.mpr ⟨h1, ?_, fun x _ y hy hf => ?_⟩
  · unfold carved
    split
    · exact spread_cons.mpr ⟨fun y hy hf => (by cases hf.1), hl⟩
    · refine spread_cons.mpr ⟨fun y hy hf => (by cases hf.1), spread_cons.mpr ⟨fun y hy hf => ?_, hl⟩⟩
      simp [hsafe y hy] at hf
  · rw [hc] at hy
    obtain rfl : c = y := by simpa using hy
    simp [hcf] at hf

theorem tiles_joinPrev (h : Tiles a (l1 ++ l2) e) : Tiles a (joinPrev l1 l2) e := by
  rcases l1.eq_nil_or_concat with rfl | ⟨l0, x, rfl⟩
  · exact h
  · simp only [List.concat_eq_append, joinPrev, List.getLast?_append, List.getLast?_singleton,
      Option.some_or, List.dropLast_concat] at h ⊢
    split
    · rw [List.append_assoc, tiles_append] at h
      obtain ⟨d, h0, hx⟩ := h
      exact tiles_append.mpr ⟨d, h0, tiles_joinNext hx⟩
    · exact h

theorem usedSize_joinPrev : usedSize (joinPrev l1 l2) = usedSize l1 + usedSize l2 := by
  rcases l1.eq_nil_or_concat with rfl | ⟨l0, x, rfl⟩
  · simp [joinPrev, usedSize]
  · simp only [List.concat_eq_append, joinPrev, List.getLast?_append, List.getLast?_singleton,
      Option.some_or, List.dropLast_concat]
    split
    · rename_i hx
      rw [usedSize_append, usedSize_joinNext hx, usedSize_append]
      simp [usedSize, hx]
    · rw [usedSize_append]

theorem spread_joinPrev (h1 : Spread l1) (h2 : Spread l2) : Spread (joinPrev l1 l2) := by
  rcases l1.eq_nil_or_concat with rfl | ⟨l0, x, rfl⟩
  · exact h2
  · simp only [List.concat_eq_append, joinPrev, List.getLast?_append, List.getLast?_singleton,
      Option.some_or, List.dropLast_concat] at h1 ⊢
    obtain ⟨h0, -, hlast⟩ := spread_append.mp h1
    split
    · refine spread_append.mpr ⟨h0, spread_joinNext h2, fun y hy z hz hf => ?_⟩
      rename_i hx
      exact hlast y hy x (by simp) ⟨hf.1, hx⟩
    · refine spread_append.mpr ⟨h1, h2, fun y hy z hz hf => ?_⟩
      rename_i hx
      obtain rfl : x = y := by simpa using hy
      exact hx hf.1

theorem freed_tiles (h : Tiles a (l1 ++ b :: l2) e) : Tiles a (freed l1 b l2) e := by
  obtain ⟨d, h1, h2⟩ := tiles_append.mp h
  exact tiles_joinPrev (tiles_append.mpr ⟨d, h1, tiles_joinNext ⟨h2.1, h2.2⟩⟩)

theorem freed_usedSize : usedSize (freed l1 b l2) = usedSize l1 + usedSize l2 := by
  rw [freed, usedSize_joinPrev, usedSize_joinNext rfl]

theorem freed_spread (h : Spread (l1 ++ b :: l2)) : Spread (freed l1 b l2) := by
  obtain ⟨h1, h2, -⟩ := spread_append.mp h
  exact spread_joinPrev h1 (spread_joinNext (spread_cons.mp h2).2)

theorem mergePrev_spec (ht : Tiles a (l1 ++ b :: l2) e) (he : e ≤ 2 ^ 32) (ha : 0 < a)
    (hl : Linked m 0 (l1 ++ b :: l2) 0) (hb : b.free = true) :
    Linked (mergePrev m b.addr) 0 (joinPrev l1 (b :: l2)) 0 := by
  have hprev : (header m b.addr).prev = lastAddr 0 l1 := by rw [(linked_append.mp hl).2.1]
  rcases l1.eq_nil_or_concat with rfl | ⟨l0, x, rfl⟩
  · have hno : freeBlock m (header m b.addr).prev = false := by
      rw [hprev]
      rfl
    rwa [mergePrev, hno, if_neg (by simp)]
  · rw [List.concat_eq_append, List.append_assoc] at ht hl
    obtain ⟨d, ht0, htx⟩ := tiles_append.mp ht
    obtain ⟨-, hlx⟩ := linked_append.mp hl
    have hlast : lastAddr 0 (l0.concat x) = x.addr := by
      rw [List.concat_eq_append]
      clear * -
      generalize 0 = p
      induction l0 generalizing p with
      | nil => rfl
      | cons c l0 ih => exact ih c.addr
    have hd : x.addr = d := htx.1
    have had := ht0.le
    have hfree : freeBlock m x.addr = x.free := by
      have hhead := freeBlock_head htx (by omega) hlx
      exact hhead
    rw [mergePrev, hprev, hlast, hfree]
    simp only [List.concat_eq_append, joinPrev, List.getLast?_append, List.getLast?_singleton,
      Option.some_or, List.dropLast_concat]
    rw [← hd] at htx ht0
    split
    · obtain ⟨hnew, hbelow⟩ := absorb_spec htx he (by omega) hlx
      rw [joinNext, if_pos hb]
      exact hl.suffix ht0 rfl hnew hbelow
    · rw [List.append_assoc]
      exact hl

theorem tryMerge_spec (ht : Tiles a (l1 ++ b :: l2) e) (he : e ≤ 2 ^ 32) (ha : 0 < a)
    (hl : Linked m 0 (l1 ++ b :: l2) 0) :
    Linked (tryMerge (setFree m b.addr true) b.addr) 0 (freed l1 b l2) 0 := by
  obtain ⟨d, h1, h2⟩ := tiles_append.mp ht
  have hd : b.addr = d := h2.1
  have had := h1.le
  have hle := h2.2.le
  rw [sizeofBlock] at hle
  rw [← hd] at h1 h2
  obtain ⟨-, hlb⟩ := linked_append.mp hl
  set m1 := setFree m b.addr true with hm1
  have hapart : ∀ c, c + 20 ≤ 2 ^ 32 → Apart b.addr c → header m1 c = header m c := fun c hc hd =>
    setFree_apart (by omega) hc hd true
  have hself : header m1 b.addr = { header m b.addr with free := true } :=
    header_setFree (by omega) true
  have hl2 : Linked m1 (lastAddr 0 l1) ({ b with free := true } :: l2) 0 := by
    refine ⟨by rw [hself, hlb.1], linked_above h2.2 hlb.2 (fun c hc1 hc2 => ?_)⟩
    exact hapart c (by omega) (by unfold Apart; rw [sizeofBlock] at hc1; omega)
  have hb1 : Below m m1 b.addr := fun c hc => hapart c (by omega) (.inr hc)
  have ht2 : Tiles b.addr ({ b with free := true } :: l2) e := h2
  obtain ⟨hl3, hb3⟩ := mergeNext_spec ht2 he (show 0 < b.addr by omega) hl2
  obtain ⟨c, t, hc, hca, hcf⟩ := joinNext_cons { b with free := true } l2
  have hl4 := hl.suffix h1 (by rw [hc]; exact hca) hl3 (hb1.trans hb3)
  have ht4 : Tiles a (l1 ++ joinNext { b with free := true } l2) e :=
    tiles_append.mpr ⟨_, h1, tiles_joinNext ht2⟩
  rw [tryMerge, freed]
  rw [hc] at hl4 ht4 ⊢
  have hmerged := mergePrev_spec ht4 he ha hl4 hcf
  rwa [hca] at hmerged

end Heap
