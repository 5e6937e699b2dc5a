import Mathlib.Data.List.TakeWhile
import SabakaOS.Memory.BlockOps

namespace Heap

open Word ByteMemory

variable {start size : Nat} {h h' : HeapState} {l : List Block}

structure Arena (start size : Nat) : Prop where
  start_ne : start ≠ 0
  header_fits : sizeofBlock ≤ size
  fits : start + size ≤ 2 ^ 32

structure Rep (start size : Nat) (h : HeapState) (l : List Block) : Prop where
  head : h.heapHead = headAddr 0 l
  sz : h.heapSz = size
  tiles : Tiles start l (start + size)
  linked : Linked h.mem 0 l 0
  spread : Spread l
  used : h.usedBytes = usedSize l

-- kmalloc would let size + sizeof(Block) + MIN_SPLIT wrap in try_split.
def splitWraps (h : HeapState) (size : Nat) : Prop :=
  size ≠ 0 ∧ 2 ^ 32 ≤ roundUp size + sizeofBlock + minSplit ∧
    ∃ bs, ListFrom h.mem h.heapHead bs ∧ ∃ b ∈ bs, fits h.mem (roundUp size) b = true

def staysPut (h : HeapState) (ptr newSize : Nat) : Prop :=
  ptr ≠ 0 ∧ (newSize = 0 ∨ roundUp newSize ≤ (header h.mem (sub32 ptr sizeofBlock)).size)

def splitsFit (h : HeapState) : Act → Prop
  | .kmalloc size => ¬splitWraps h size
  | .krealloc ptr newSize => staysPut h ptr newSize ∨ ¬splitWraps h newSize
  | _ => True

theorem Linked.header_of_mem {m : Memory} {p n : Nat} (hl : Linked m p l n) :
    ∀ b ∈ l, (header m b.addr).size = b.size ∧ (header m b.addr).free = b.free ∧
      (header m b.addr).magic = heapMagic := by
  induction l generalizing p with
  | nil => exact fun b hb => absurd hb (by simp)
  | cons c l ih =>
    intro b hb
    rcases List.mem_cons.mp hb with rfl | hb
    · simp [hl.1]
    · exact ih hl.2 b hb

theorem Linked.listFrom {m : Memory} {p a e : Nat} (hl : Linked m p l 0) (ht : Tiles a l e)
    (ha : 0 < a) : ListFrom m (headAddr 0 l) (l.map Block.addr) := by
  induction l generalizing p a with
  | nil => exact .nil
  | cons b l ih =>
    refine .cons ?_ ?_
    · simp only [headAddr, ht.1]
      omega
    · simp only [headAddr, hl.1]
      exact ih hl.2 ht.2 (by omega)

theorem ListFrom.unique {m : Memory} {b : Nat} {bs cs : List Nat} (h1 : ListFrom m b bs)
    (h2 : ListFrom m b cs) : bs = cs := by
  induction h1 generalizing cs with
  | nil =>
    cases h2 with
    | nil => rfl
    | cons hne _ => exact absurd rfl hne
  | cons hne _ ih =>
    cases h2 with
    | nil => exact absurd rfl hne
    | cons _ h2 => rw [ih h2]

theorem findFree_spec {m : Memory} {p a e r k : Nat} (hl : Linked m p l 0) (ht : Tiles a l e)
    (ha : 0 < a) (hk : l.length ≤ k) :
    findFree m r k (headAddr 0 l) =
      some (headAddr 0 (l.dropWhile (fun b => !(b.free && decide (r ≤ b.size))))) := by
  induction l generalizing p a k with
  | nil =>
    cases k with
    | zero => rfl
    | succ k => rfl
  | cons b l ih =>
    obtain ⟨k, rfl⟩ : ∃ k', k = k' + 1 := ⟨k - 1, by simp at hk; omega⟩
    have hb : b.addr = a := ht.1
    obtain ⟨c, hc⟩ : ∃ c, b.addr = c + 1 := ⟨b.addr - 1, by omega⟩
    have hfits : fits m r (c + 1) = (b.free && decide (r ≤ b.size)) := by
      rw [← hc, fits, hl.1]
      simp
    have hnext : (header m (c + 1)).next = headAddr 0 l := by rw [← hc, hl.1]
    rw [headAddr, hc, findFree, hfits, hnext, List.dropWhile_cons]
    cases hq : (b.free && decide (r ≤ b.size)) with
    | true => simp [headAddr, hc]
    | false => simpa [hq] using ih hl.2 ht.2 (by omega) (by simpa using hk)

section Steps

theorem Rep.length_le (hr : Rep start size h l) : l.length ≤ links h := by
  have := hr.tiles.total
  rw [sizeofBlock] at this
  rw [links, hr.sz]
  omega

theorem Rep.usedSize_le (ha : Arena start size) (hr : Rep start size h l) : usedSize l + sizeofBlock ≤ size := by
  have htotal := hr.tiles.total
  have hfits := ha.header_fits
  cases l with
  | nil =>
    rw [sizeofBlock] at *
    simp [freeSize, usedSize] at htotal
    omega
  | cons b l =>
    rw [List.length_cons, sizeofBlock] at htotal
    rw [sizeofBlock]
    omega

def Fitting (r : Nat) (b : Block) : Prop := b.free = true ∧ r ≤ b.size

-- The outcomes of kmalloc: nullptr, or the first free block that fits, carved.
theorem Rep.kmalloc (ha : Arena start size) (hr : Rep start size h l) {sz : Nat} (hw : ¬splitWraps h sz) :
    (kmalloc h sz = some (0, h) ∧ (sz = 0 ∨ ∀ b ∈ l, ¬Fitting (roundUp sz) b)) ∨
    ∃ l1 b l2 h', l = l1 ++ b :: l2 ∧ (∀ x ∈ l1, ¬Fitting (roundUp sz) x) ∧ b.free = true ∧
      roundUp sz ≤ b.size ∧ kmalloc h sz = some (u32 (b.addr + sizeofBlock), h') ∧
      roundUp sz + sizeofBlock + minSplit < 2 ^ 32 ∧
      h'.mem = setFree (trySplit h.mem b.addr (roundUp sz)) b.addr false ∧
      Rep start size h' (l1 ++ carved b (roundUp sz) l2) := by
  have hpos := ha.start_ne
  have hend := ha.fits
  have hfind : findFree h.mem (roundUp sz) (links h) h.heapHead = some (headAddr 0
      (l.dropWhile (fun b => !(b.free && decide (roundUp sz ≤ b.size))))) := by
    rw [hr.head]
    exact findFree_spec hr.linked hr.tiles (by omega) hr.length_le
  unfold Heap.kmalloc
  by_cases hz : sz = 0
  · exact .inl ⟨by rw [if_pos hz], .inl hz⟩
  rw [if_neg hz]
  simp only
  rw [hfind, Option.map_some]
  cases hd : l.dropWhile (fun b => !(b.free && decide (roundUp sz ≤ b.size))) with
  | nil =>
    refine .inl ⟨rfl, .inr fun b hb hfit => ?_⟩
    have hskip := List.dropWhile_eq_nil_iff.mp hd b hb
    simp [hfit.1, hfit.2] at hskip
  | cons b l2 =>
    right
    have hb : (b.free && decide (roundUp sz ≤ b.size)) = true := by
      have := List.head?_dropWhile_not (fun b : Block => !(b.free && decide (roundUp sz ≤ b.size))) l
      rw [hd] at this
      simpa using this
    have hl := (List.takeWhile_append_dropWhile
      (p := fun b : Block => !(b.free && decide (roundUp sz ≤ b.size))) (l := l)).symm
    rw [hd] at hl
    have hskipped : ∀ x ∈ l.takeWhile (fun b => !(b.free && decide (roundUp sz ≤ b.size))),
        ¬Fitting (roundUp sz) x := by
      intro x hx hfit
      have hskip := List.mem_takeWhile_imp hx
      simp [hfit.1, hfit.2] at hskip
    generalize l.takeWhile _ = l1 at hl hskipped
    rw [Bool.and_eq_true, decide_eq_true_eq] at hb
    obtain ⟨hfree, hsize⟩ := hb
    subst hl
    obtain ⟨d, ht1, ht2⟩ := tiles_append.mp hr.tiles
    have hd' : b.addr = d := ht2.1
    rw [← hd'] at ht1 ht2
    have hmem : b ∈ l1 ++ b :: l2 := by simp
    have hbounds := hr.tiles.bounds b hmem
    have hnowrap : roundUp sz + sizeofBlock + minSplit < 2 ^ 32 := by
      by_contra hge
      refine hw ⟨hz, by omega, _, by rw [hr.head]; exact hr.linked.listFrom hr.tiles (by omega),
        b.addr, List.mem_map_of_mem hmem, ?_⟩
      have hh := hr.linked.header_of_mem b hmem
      rw [fits, hh.1, hh.2.1, hh.2.2, hfree]
      simp [hsize]
    obtain ⟨-, hlb⟩ := linked_append.mp hr.linked
    obtain ⟨hnew, hbelow⟩ := trySplit_spec ht2 hend (by omega) hlb hnowrap
    obtain ⟨c, t, hc, hca, -⟩ := carved_cons b (roundUp sz) l2
    have hlinked := hr.linked.suffix ht1 (by rw [hc]; exact hca) hnew hbelow
    have hneaddr : b.addr ≠ 0 := by omega
    simp only [headAddr, hneaddr, if_false]
    refine ⟨l1, b, l2, _, rfl, hskipped, hfree, hsize, rfl, hnowrap, rfl, ?_⟩
    have hhead : (header (setFree (trySplit h.mem b.addr (roundUp sz)) b.addr false) b.addr).size =
        if b.size < roundUp sz + sizeofBlock + minSplit then b.size else roundUp sz := by
      have hc' := hnew
      unfold carved at hc'
      split at hc'
      · rename_i hlt
        rw [hc'.1, if_pos hlt]
      · rename_i hlt
        rw [hc'.1, if_neg hlt]
    have hu := hr.usedSize_le ha
    have hused : usedSize (l1 ++ carved b (roundUp sz) l2) = usedSize (l1 ++ b :: l2) +
        if b.size < roundUp sz + sizeofBlock + minSplit then b.size else roundUp sz := by
      rw [usedSize_append, usedSize_append, usedSize_carved, usedSize_cons, hfree, if_pos rfl]
      omega
    have htiles : Tiles start (l1 ++ carved b (roundUp sz) l2) (start + size) :=
      tiles_append.mpr ⟨_, ht1, tiles_carved ht2⟩
    have hrep : Rep start size { h with
        mem := setFree (trySplit h.mem b.addr (roundUp sz)) b.addr false
        usedBytes := usedSize (l1 ++ carved b (roundUp sz) l2) } (l1 ++ carved b (roundUp sz) l2) :=
      ⟨by rw [hr.head, headAddr_append, headAddr_append, hc]; exact congrArg (headAddr · l1) hca.symm,
        hr.sz, htiles, hlinked, spread_carved hr.spread hfree, rfl⟩
    have hlt := hrep.usedSize_le ha
    rw [hhead, hr.used, u32_of_lt (by rw [← hused]; rw [sizeofBlock] at hlt; omega), ← hused]
    exact hrep

theorem Rep.live (ha : Arena start size) (hr : Rep start size h l) {ptr : Nat}
    (hp : Live h ptr) : ∃ b ∈ l, b.free = false ∧ ptr = u32 (b.addr + sizeofBlock) := by
  have hpos := ha.start_ne
  obtain ⟨bs, hbs, a, hab, hfree, rfl⟩ := hp
  rw [hr.head] at hbs
  rw [hbs.unique (hr.linked.listFrom hr.tiles (by omega))] at hab
  obtain ⟨b, hb, rfl⟩ := List.mem_map.mp hab
  exact ⟨b, hb, by rw [← hfree, (hr.linked.header_of_mem b hb).2.1], rfl⟩

theorem Rep.ptr_eq (ha : Arena start size) (hr : Rep start size h l) {b : Block} (hb : b ∈ l)
    (hp : u32 (b.addr + sizeofBlock) ≠ 0 ∨ 0 < b.size) :
    u32 (b.addr + sizeofBlock) = b.addr + sizeofBlock := by
  have hbounds := hr.tiles.bounds b hb
  have hend := ha.fits
  rw [sizeofBlock] at hp ⊢
  unfold u32 at hp ⊢
  omega

theorem Rep.ptr_sub (ha : Arena start size) (hr : Rep start size h l) {b : Block} (hb : b ∈ l) :
    sub32 (u32 (b.addr + sizeofBlock)) sizeofBlock = b.addr := by
  have hbounds := hr.tiles.bounds b hb
  have hend := ha.fits
  rw [sizeofBlock]
  unfold sub32 u32
  omega

theorem Tiles.head {a e : Nat} (ht : Tiles a l e) (hl : l ≠ []) : headAddr 0 l = a := by
  cases l with
  | nil => exact absurd rfl hl
  | cons b l => exact ht.1

theorem Rep.merged (ha : Arena start size) {l1 l2 : List Block} {b : Block}
    (hr : Rep start size h (l1 ++ b :: l2)) :
    Rep start size { h with
      mem := tryMerge (setFree h.mem b.addr true) b.addr
      usedBytes := usedSize l1 + usedSize l2 } (freed l1 b l2) := by
  have hpos := ha.start_ne
  have htiles := freed_tiles hr.tiles
  have hne : Heap.freed l1 b l2 ≠ [] := by
    intro he
    rw [he] at htiles
    have hz : start = start + size := htiles
    have := ha.header_fits
    rw [sizeofBlock] at this
    omega
  have hmerged := tryMerge_spec hr.tiles ha.fits (by omega) hr.linked
  generalize tryMerge (setFree h.mem b.addr true) b.addr = m at hmerged ⊢
  refine ⟨?_, hr.sz, htiles, hmerged, freed_spread hr.spread, freed_usedSize.symm⟩
  rw [htiles.head hne, hr.head]
  exact hr.tiles.head (by simp)

theorem Rep.kfree_eq (ha : Arena start size) {l1 l2 : List Block} {b : Block}
    (hr : Rep start size h (l1 ++ b :: l2)) (hfree : b.free = false)
    (hp : u32 (b.addr + sizeofBlock) ≠ 0) :
    Heap.kfree h (u32 (b.addr + sizeofBlock)) = { h with
      mem := tryMerge (setFree h.mem b.addr true) b.addr
      usedBytes := usedSize l1 + usedSize l2 } := by
  have hend := ha.fits
  have hb : b ∈ l1 ++ b :: l2 := by simp
  have hh := hr.linked.header_of_mem b hb
  have hbounds := hr.tiles.bounds b hb
  have hgo : ¬((header h.mem b.addr).magic ≠ heapMagic ∨ (header h.mem b.addr).free = true) := by
    rw [hh.2.1, hh.2.2, hfree]
    simp
  have hsize : (header (setFree h.mem b.addr true) b.addr).size = b.size := by
    rw [header_setFree (by omega)]
    exact hh.1
  have hsum : usedSize (l1 ++ b :: l2) = b.size + (usedSize l1 + usedSize l2) := by
    rw [usedSize_append, usedSize_cons, hfree]
    simp only [Bool.false_eq_true, if_false]
    omega
  have hu := hr.usedSize_le ha
  have hle : b.size ≤ h.usedBytes := by
    rw [hr.used, hsum]
    omega
  have hsub : sub32 h.usedBytes b.size = usedSize l1 + usedSize l2 := by
    rw [sub32_of_le (by rw [hr.used]; rw [sizeofBlock] at hu; omega) hle, hr.used, hsum]
    omega
  unfold Heap.kfree
  simp only
  rw [if_neg hp, hr.ptr_sub ha hb, if_neg hgo, hsize, if_pos hle, hsub]

theorem Rep.kfree (ha : Arena start size) (hr : Rep start size h l) {b : Block} (hb : b ∈ l)
    (hfree : b.free = false) :
    ∃ l', Rep start size (kfree h (u32 (b.addr + sizeofBlock))) l' ∧
      ∀ n ∈ l, n.free = false → n ≠ b → n ∈ l' := by
  by_cases hp : u32 (b.addr + sizeofBlock) = 0
  · refine ⟨l, ?_, fun n hn _ _ => hn⟩
    rw [hp]
    exact hr
  · obtain ⟨l1, l2, rfl⟩ := List.append_of_mem hb
    rw [hr.kfree_eq ha hfree hp]
    exact ⟨_, hr.merged ha, fun n hn hnf hne => freed_keeps hn hnf hne⟩

theorem Rep.payload (hr : Rep start size h l) {m : Memory} (ha : Arena start size)
    (hm : ∀ b ∈ l, ∀ k, b.addr ≤ k → k < b.addr + 20 → m k = h.mem k) :
    Rep start size { h with mem := m } l := by
  refine ⟨hr.head, hr.sz, hr.tiles, hr.linked.congr (fun b hb => ?_), hr.spread, hr.used⟩
  have := hr.tiles.bounds b hb
  have hend := ha.fits
  exact header_congr (by omega) (hm b hb)

theorem Tiles.payload_apart {a e : Nat} (ht : Tiles a l e) {b c : Block} (hb : b ∈ l)
    (hc : c ∈ l) : c.addr ≤ b.addr ∨ b.addr + 20 + b.size ≤ c.addr := by
  obtain ⟨l1, l2, rfl⟩ := List.append_of_mem hb
  obtain ⟨d, ht1, ht2, ht3⟩ := tiles_append.mp ht
  rw [sizeofBlock] at ht3
  rcases List.mem_append.mp hc with hc | hc
  · have := ht1.bounds c hc
    omega
  · rcases List.mem_cons.mp hc with rfl | hc
    · omega
    · have := ht3.bounds c hc
      omega

theorem roundUp_roundUp (n : Nat) : roundUp (roundUp n) = roundUp n := by
  unfold roundUp u32
  omega

-- A block of at least r bytes whose payload p is, as the list l has it.
def Serves (l : List Block) (r p : Nat) : Prop :=
  ∃ n ∈ l, n.free = false ∧ p = u32 (n.addr + sizeofBlock) ∧ r ≤ n.size

theorem mem_carved_tail {c x : Block} (r : Nat) {l1 l2 : List Block} (hc : c.free = true)
    (hx : x ∈ l1 ++ c :: l2) (hused : x.free = false) : x ∈ l1 ++ carved c r l2 := by
  have htail : ∀ y ∈ l2, y ∈ carved c r l2 := by
    intro y hy
    unfold carved
    split
    · exact List.mem_cons_of_mem _ hy
    · exact List.mem_cons_of_mem _ (List.mem_cons_of_mem _ hy)
  rcases List.mem_append.mp hx with hx | hx
  · exact List.mem_append_left _ hx
  · rcases List.mem_cons.mp hx with rfl | hx
    · rw [hc] at hused
      cases hused
    · exact List.mem_append_right _ (htail x hx)

-- The ways krealloc takes with a live block: it stays, there is no room, or it moves to the
-- payload of c, which is carved for it.
theorem Rep.krealloc_cases (ha : Arena start size) (hr : Rep start size h l) {b : Block}
    (hb : b ∈ l) (hfree : b.free = false) (hp : u32 (b.addr + sizeofBlock) ≠ 0) {newSize : Nat}
    (hn : newSize ≠ 0)
    (hw : staysPut h (u32 (b.addr + sizeofBlock)) newSize ∨ ¬splitWraps h newSize) :
    (roundUp newSize ≤ b.size ∧ Heap.krealloc h (u32 (b.addr + sizeofBlock)) newSize =
        some (u32 (b.addr + sizeofBlock), h)) ∨
    (b.size < roundUp newSize ∧
      Heap.krealloc h (u32 (b.addr + sizeofBlock)) newSize = some (0, h)) ∨
    ∃ (l1 : List Block) (c : Block) (l2 : List Block) (h' : HeapState),
      l = l1 ++ c :: l2 ∧ c.free = true ∧ b.size < roundUp newSize ∧
      roundUp newSize ≤ c.size ∧ c.addr + sizeofBlock < 2 ^ 32 ∧
      roundUp newSize + sizeofBlock + minSplit < 2 ^ 32 ∧
      h'.mem = setFree (trySplit h.mem c.addr (roundUp newSize)) c.addr false ∧
      Rep start size { h' with
        mem := copy h'.mem (c.addr + sizeofBlock) (b.addr + sizeofBlock) b.size }
        (l1 ++ carved c (roundUp newSize) l2) ∧
      Heap.krealloc h (u32 (b.addr + sizeofBlock)) newSize =
        some (c.addr + sizeofBlock, Heap.kfree { h' with
          mem := copy h'.mem (c.addr + sizeofBlock) (b.addr + sizeofBlock) b.size }
          (u32 (b.addr + sizeofBlock))) := by
  have hh := hr.linked.header_of_mem b hb
  have hsub := hr.ptr_sub ha hb
  unfold Heap.krealloc
  simp only [hp, hn, if_false, hsub, hh.1, hh.2.2, ne_eq, not_true]
  by_cases hfit : roundUp newSize ≤ b.size
  · exact .inl ⟨hfit, by rw [if_pos hfit]⟩
  have hlt := Nat.lt_of_not_le hfit
  rw [if_neg hfit]
  have hno : ¬splitWraps h (roundUp newSize) := by
    rintro ⟨-, hlen, hblk⟩
    rw [roundUp_roundUp] at hlen hblk
    refine hw.elim (fun hs => ?_) (fun hs => hs ⟨hn, hlen, hblk⟩)
    rcases hs.2 with h0 | hle
    · exact hn h0
    · rw [hsub, hh.1] at hle
      exact hfit hle
  rcases hr.kmalloc ha hno with ⟨he, -⟩ | ⟨l1, c, l2, h', hl, -, hcfree, hcsize, he, hnowrap, hmem, hrep⟩
  · rw [he]
    exact .inr (.inl ⟨hlt, rfl⟩)
  rw [roundUp_roundUp] at hcsize hrep hmem hnowrap
  have hcin : c ∈ l := by simp [hl]
  have hroom := (hr.tiles.bounds c hcin)
  have hend := ha.fits
  have hpos := ha.start_ne
  have hdst : u32 (c.addr + sizeofBlock) = c.addr + sizeofBlock := hr.ptr_eq ha hcin (.inr (by omega))
  have hsrc : u32 (b.addr + sizeofBlock) = b.addr + sizeofBlock := hr.ptr_eq ha hb (.inl hp)
  rw [hl] at hb
  have hb' := mem_carved_tail (roundUp newSize) hcfree hb hfree
  obtain ⟨n, hn', -, hna, hns⟩ := mem_carved (l := l2) hcsize
  have hnew := List.mem_append_right l1 hn'
  have hhb := hrep.linked.header_of_mem b hb'
  rw [he, Option.map_some]
  simp only
  rw [hhb.1, hdst, if_neg (by rw [sizeofBlock]; omega)]
  refine .inr (.inr ⟨l1, c, l2, h', hl, hcfree, hlt, hcsize, ?_, hnowrap, hmem, ?_,
    by rw [hsrc]⟩)
  · rw [sizeofBlock]
    omega
  · refine hrep.payload ha (fun x hx k hk1 hk2 => ?_)
    have hap := hrep.tiles.payload_apart hnew hx
    rw [sizeofBlock]
    exact copy_of_not_mem _ _ _ _ (by omega)

theorem Rep.krealloc (ha : Arena start size) (hr : Rep start size h l) {ptr newSize : Nat}
    (hp : ptr = 0 ∨ Live h ptr) (hw : staysPut h ptr newSize ∨ ¬splitWraps h newSize) :
    ∃ p h' l', krealloc h ptr newSize = some (p, h') ∧ Rep start size h' l' ∧
      (ptr ≠ 0 → p = 0 ∨ Serves l' (roundUp newSize) p) := by
  by_cases hz : ptr = 0
  · have hnull := hw.resolve_left (fun hs => hs.1 hz)
    unfold Heap.krealloc
    rw [if_pos hz]
    rcases hr.kmalloc ha hnull with ⟨he, -⟩ | ⟨l1, b, l2, h', -, -, -, -, he, -, -, hrep⟩
    · exact ⟨_, _, l, he, hr, fun hne => absurd hz hne⟩
    · exact ⟨_, _, _, he, hrep, fun hne => absurd hz hne⟩
  obtain ⟨b, hb, hfree, rfl⟩ := hr.live ha (hp.resolve_left hz)
  by_cases hn : newSize = 0
  · unfold Heap.krealloc
    rw [if_neg hz, if_pos hn]
    obtain ⟨l', hl', -⟩ := hr.kfree ha hb hfree
    exact ⟨_, _, l', rfl, hl', fun _ => .inl rfl⟩
  rcases hr.krealloc_cases ha hb hfree hz hn hw with ⟨hfit, he⟩ | ⟨-, he⟩ |
    ⟨l1, c, l2, h', rfl, hcfree, hlt, hcsize, hctop, -, -, hcopy, he⟩
  · exact ⟨_, _, l, he, hr, fun _ => .inr ⟨b, hb, hfree, rfl, hfit⟩⟩
  · exact ⟨0, h, l, he, hr, fun _ => .inl rfl⟩
  · obtain ⟨n, hn', hnfree, hna, hns⟩ := mem_carved (l := l2) hcsize
    obtain ⟨l', hl', hkeeps⟩ := hcopy.kfree ha (mem_carved_tail (roundUp newSize) hcfree hb hfree) hfree
    have hne : n ≠ b := by
      rintro rfl
      omega
    refine ⟨_, _, l', he, hl', fun _ => .inr ⟨n, hkeeps n (List.mem_append_right l1 hn') hnfree hne,
      hnfree, ?_, hns⟩⟩
    rw [hna]
    exact (u32_of_lt hctop).symm

theorem Rep.store (ha : Arena start size) (hr : Rep start size h l) {ptr off : Nat} {v : UInt8}
    (hp : Live h ptr) (ho : off < (header h.mem (sub32 ptr sizeofBlock)).size) :
    Rep start size { h with mem := Function.update h.mem (ptr + off) v } l := by
  obtain ⟨b, hb, -, rfl⟩ := hr.live ha hp
  have hbounds := hr.tiles.bounds b hb
  have hend := ha.fits
  refine hr.payload ha (fun c hc k h1 h2 => Function.update_of_ne ?_ _ _)
  have hap := hr.tiles.payload_apart hb hc
  rw [hr.ptr_sub ha hb, (hr.linked.header_of_mem b hb).1] at ho
  rw [hr.ptr_eq ha hb (.inr (by omega)), sizeofBlock]
  omega

theorem init_rep (ha : Arena start size) (h0 : HeapState) :
    Rep start size (heapInit h0 start size)
      [{ addr := start, size := size - sizeofBlock, free := true }] := by
  have hpos := ha.start_ne
  have hend := ha.fits
  have hsize := ha.header_fits
  have hsub : sub32 size sizeofBlock = size - sizeofBlock := sub32_of_le (by omega) hsize
  rw [sizeofBlock] at hsize hsub ⊢
  refine ⟨rfl, rfl, ⟨rfl, ?_⟩, ⟨?_, trivial⟩, List.isChain_singleton _, rfl⟩
  · change start + 20 + (size - 20) = start + size
    omega
  · rw [heapInit, sizeofBlock, hsub]
    refine header_writeHeader (by omega) ?_ ?_ ?_ ?_
    · change size - 20 < 2 ^ 32
      omega
    · exact Nat.two_pow_pos 32
    · exact Nat.two_pow_pos 32
    · change heapMagic < 2 ^ 32
      decide

theorem exec_rep (ha : Arena start size) (hr : Rep start size h l) {a : Act} (hok : allowed h a)
    (hw : splitsFit h a) : ∃ h' l', exec h a = some h' ∧ Rep start size h' l' := by
  cases a with
  | kmalloc sz =>
    rcases hr.kmalloc ha hw with ⟨he, -⟩ | ⟨l1, b, l2, h', -, -, -, -, he, -, -, hrep⟩
    · exact ⟨h, l, by rw [exec, he]; rfl, hr⟩
    · exact ⟨h', _, by rw [exec, he]; rfl, hrep⟩
  | krealloc ptr newSize =>
    obtain ⟨p, h', l', he, hrep, -⟩ := hr.krealloc ha hok.2 hw
    exact ⟨h', l', by rw [exec, he]; rfl, hrep⟩
  | kfree ptr =>
    rcases hok with rfl | hlive
    · exact ⟨h, l, rfl, hr⟩
    · obtain ⟨b, hb, hfree, rfl⟩ := hr.live ha hlive
      obtain ⟨l', hl', -⟩ := hr.kfree ha hb hfree
      exact ⟨_, l', rfl, hl'⟩
  | store ptr off v => exact ⟨_, l, rfl, hr.store ha hok.1 hok.2⟩

def repInvariant (ha : Arena start size) : ((system start size).restrict splitsFit).Invariant where
  holds h := ∃ l, Rep start size h l
  start := by
    rintro h ⟨h0, rfl⟩
    exact ⟨_, init_rep ha h0⟩
  step := by
    rintro h a h' ⟨l, hr⟩ ⟨hw, hok, he⟩
    obtain ⟨h'', l', he', hrep⟩ := exec_rep ha hr hok hw
    obtain rfl := Option.some.inj (he.symm.trans he')
    exact ⟨l', hrep⟩

end Steps

structure Tiled (start size : Nat) (h : HeapState) (bs : List Nat) : Prop where
  list : ListFrom h.mem h.heapHead bs
  first : bs.head? = some start
  next : bs.IsChain (fun a b => b = a + sizeofBlock + (header h.mem a).size)
  last : ∀ b ∈ bs.getLast?, b + sizeofBlock + (header h.mem b).size = start + size
  prev_first : (header h.mem start).prev = 0
  prev : bs.IsChain (fun a b => (header h.mem b).prev = a)
  magic : ∀ b ∈ bs, (header h.mem b).magic = heapMagic
  spread : bs.IsChain (fun a b => ¬((header h.mem a).free = true ∧ (header h.mem b).free = true))
  used : heapUsed h =
    (bs.map (fun b => if (header h.mem b).free then 0 else (header h.mem b).size)).sum
  total : ∃ f, heapFree h = some f ∧ f + heapUsed h + sizeofBlock * bs.length = heapTotal h

section Claims

theorem Tiles.isChain {a e : Nat} (ht : Tiles a l e) :
    l.IsChain (fun x y => y.addr = x.addr + sizeofBlock + x.size) := by
  induction l generalizing a with
  | nil => exact .nil
  | cons b l ih =>
    refine List.isChain_cons.mpr ⟨fun y hy => ?_, ih ht.2⟩
    have hne : l ≠ [] := by
      rintro rfl
      cases hy
    have hhead := ht.2.head hne
    obtain ⟨c, t, rfl⟩ := List.exists_cons_of_ne_nil hne
    obtain rfl : c = y := by simpa using hy
    rw [ht.1]
    exact hhead

theorem Tiles.last {a e : Nat} (ht : Tiles a l e) :
    ∀ b ∈ l.getLast?, b.addr + sizeofBlock + b.size = e := by
  intro b hb
  obtain ⟨l0, rfl⟩ := List.getLast?_eq_some_iff.mp hb
  obtain ⟨d, -, hd, he⟩ := tiles_append.mp ht
  rw [hd]
  exact he

theorem Linked.prevs {m : Memory} {p n : Nat} (hl : Linked m p l n) :
    l.IsChain (fun x y => (header m y.addr).prev = x.addr) := by
  induction l generalizing p with
  | nil => exact .nil
  | cons b l ih =>
    refine List.isChain_cons.mpr ⟨fun y hy => ?_, ih hl.2⟩
    cases l with
    | nil => cases hy
    | cons c l =>
      obtain rfl : c = y := by simpa using hy
      rw [hl.2.1]

theorem heapFreeFrom_spec {m : Memory} {p a e k : Nat} (hl : Linked m p l 0) (ht : Tiles a l e)
    (ha : 0 < a) (hs : freeSize l < 2 ^ 32) (hk : l.length ≤ k) :
    heapFreeFrom m k (headAddr 0 l) = some (freeSize l) := by
  induction l generalizing p a k with
  | nil =>
    cases k with
    | zero => rfl
    | succ k => rfl
  | cons b l ih =>
    obtain ⟨k, rfl⟩ : ∃ k', k = k' + 1 := ⟨k - 1, by simp at hk; omega⟩
    have hb : b.addr = a := ht.1
    obtain ⟨c, hc⟩ : ∃ c, b.addr = c + 1 := ⟨b.addr - 1, by omega⟩
    rw [freeSize_cons] at hs ⊢
    rw [headAddr, hc, heapFreeFrom, ← hc, hl.1]
    simp only
    rw [ih hl.2 ht.2 (by omega) (by omega) (by simpa using hk), Option.map_some, u32_of_lt hs]

theorem Rep.tiled (ha : Arena start size) (hr : Rep start size h l) :
    Tiled start size h (l.map Block.addr) := by
  have hpos := ha.start_ne
  have hend := ha.fits
  have hne : l ≠ [] := by
    rintro rfl
    have hz : start = start + size := hr.tiles
    have := ha.header_fits
    rw [sizeofBlock] at this
    omega
  have hhead := hr.tiles.head hne
  have hmem := hr.linked.header_of_mem
  have htotal := hr.tiles.total
  have hused : (List.map (fun b => if (header h.mem b).free = true then 0 else
      (header h.mem b).size) (l.map Block.addr)).sum = usedSize l := by
    rw [List.map_map, usedSize]
    congr 1
    refine List.map_congr_left (fun b hb => ?_)
    simp only [Function.comp, (hmem b hb).1, (hmem b hb).2.1]
  refine ⟨?_, ?_, ?_, fun b hb => ?_, ?_, ?_, fun b hb => ?_, ?_, ?_, ?_⟩
  · rw [hr.head]
    exact hr.linked.listFrom hr.tiles (by omega)
  · obtain ⟨c, t, rfl⟩ := List.exists_cons_of_ne_nil hne
    rw [← hhead]
    rfl
  · refine (List.isChain_map _).mpr (List.IsChain.imp_of_mem_imp (fun x y hx hy hxy => ?_)
      hr.tiles.isChain)
    rw [(hmem x hx).1, hxy]
  · rw [List.getLast?_map, Option.mem_def, Option.map_eq_some_iff] at hb
    obtain ⟨c, hc, rfl⟩ := hb
    rw [(hmem c (List.mem_of_getLast? hc)).1]
    exact hr.tiles.last c hc
  · obtain ⟨c, t, rfl⟩ := List.exists_cons_of_ne_nil hne
    rw [← hhead]
    simp only [headAddr, hr.linked.1]
  · exact (List.isChain_map _).mpr hr.linked.prevs
  · obtain ⟨c, hc, rfl⟩ := List.mem_map.mp hb
    exact (hmem c hc).2.2
  · refine (List.isChain_map _).mpr (List.IsChain.imp_of_mem_imp (fun x y hx hy hxy => ?_)
      hr.spread)
    rwa [(hmem x hx).2.1, (hmem y hy).2.1]
  · rw [hused]
    exact hr.used
  · refine ⟨freeSize l, ?_, ?_⟩
    · rw [heapFree, hr.head]
      exact heapFreeFrom_spec hr.linked hr.tiles (by omega) (by omega) hr.length_le
    · rw [List.length_map, heapUsed, heapTotal, hr.used, hr.sz]
      omega

def blankHeap : HeapState :=
  { mem := fun _ => 0, heapHead := 0, heapStart := 0, heapSz := 0, usedBytes := 0 }

end Claims

end Heap
