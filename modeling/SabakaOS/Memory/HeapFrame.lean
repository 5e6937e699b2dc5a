import SabakaOS.Memory.HeapUndo

namespace Heap

open Word ByteMemory

variable {start size : Nat} {h h' : HeapState} {n p ptr r : Nat} {b c x : Block}
  {l l1 l2 : List Block} {m m' : Memory}

def Used (h : HeapState) (b : Nat) : Prop := InList h b ∧ (header h.mem b).free = false

-- What stays allocated keeps its size and every byte of its payload.
def Framed (h h' : HeapState) : Prop := ∀ b, Used h b → Used h' b →
  (header h'.mem b).size = (header h.mem b).size ∧
    ∀ k, b + sizeofBlock ≤ k → k < b + sizeofBlock + (header h.mem b).size → h'.mem k = h.mem k

-- The block whose payload is at ptr.
def blockOf (ptr : Nat) : Nat := sub32 ptr sizeofBlock

def sizeAt (h : HeapState) (ptr : Nat) : Nat := (header h.mem (blockOf ptr)).size

-- Only the block of ptr may go.
def Stays (h h' : HeapState) (ptr : Nat) : Prop :=
  ∀ b, Used h b → ptr = 0 ∨ b ≠ blockOf ptr → Used h' b

section Blocks

theorem Rep.used_iff (ha : Arena start size) (hr : Rep start size h l) {a : Nat} :
    Used h a ↔ ∃ x ∈ l, x.addr = a ∧ x.free = false := by
  constructor
  · rintro ⟨hin, hfree⟩
    obtain ⟨x, hx, rfl⟩ := (hr.inList ha).mp hin
    rw [(hr.linked.header_of_mem x hx).2.1] at hfree
    exact ⟨x, hx, rfl, hfree⟩
  · rintro ⟨x, hx, rfl, hfree⟩
    exact ⟨(hr.inList ha).mpr ⟨x, hx, rfl⟩, by rw [(hr.linked.header_of_mem x hx).2.1, hfree]⟩

theorem Tiles.addr_inj {a e : Nat} (ht : Tiles a l e) (hb : b ∈ l) (hc : c ∈ l)
    (h : b.addr = c.addr) : b = c := by
  obtain ⟨l1, l2, rfl⟩ := List.append_of_mem hb
  obtain ⟨d, ht1, ht2, ht3⟩ := tiles_append.mp ht
  rcases List.mem_append.mp hc with hc | hc
  · have hbounds := ht1.bounds c hc
    omega
  · rcases List.mem_cons.mp hc with rfl | hc
    · rfl
    · have hbounds := ht3.bounds c hc
      rw [sizeofBlock] at hbounds
      omega

-- The used blocks that stay in the list, with their payloads.
def Keeps (l l' : List Block) (m m' : Memory) (gone : Block → Prop) : Prop :=
  ∀ x ∈ l, x.free = false → ¬gone x → x ∈ l' ∧ ∀ k, InPayload x k → m' k = m k

theorem mem_joinNext_cases {z : Block} (hz : z ∈ joinNext b l) :
    z = b ∨ z ∈ l ∨ z.free = b.free := by
  cases l with
  | nil => exact .inl (List.mem_singleton.mp hz)
  | cons y l =>
    by_cases hy : y.free = true
    · rw [joinNext_free hy] at hz
      rcases List.mem_cons.mp hz with rfl | hz
      · exact .inr (.inr rfl)
      · exact .inr (.inl (List.mem_cons_of_mem y hz))
    · rw [joinNext_used hy] at hz
      exact (List.mem_cons.mp hz).imp_right .inl

theorem mem_freed (hx : x ∈ freed l1 b l2) : x ∈ l1 ∨ x ∈ l2 ∨ x.free = true := by
  have hrest : ∀ z ∈ joinNext { b with free := true } l2, z ∈ l2 ∨ z.free = true := by
    intro z hz
    rcases mem_joinNext_cases hz with rfl | hz | hz
    · exact .inr rfl
    · exact .inl hz
    · exact .inr hz
  unfold freed joinPrev at hx
  split at hx
  · next y hy =>
    split at hx
    · next hfree =>
      rcases List.mem_append.mp hx with hx | hx
      · exact .inl (List.dropLast_subset l1 hx)
      · rcases mem_joinNext_cases hx with rfl | hx | hx
        · exact .inr (.inr hfree)
        · exact .inr (hrest x hx)
        · exact .inr (.inr (hx.trans hfree))
    · rcases List.mem_append.mp hx with hx | hx
      · exact .inl hx
      · exact .inr (hrest x hx)
  · exact .inr (hrest x hx)

theorem freed_gone {a e : Nat} (ht : Tiles a (l1 ++ b :: l2) e) (hx : x ∈ freed l1 b l2)
    (hused : x.free = false) : x.addr ≠ b.addr := by
  intro hsame
  obtain ⟨d, ht1, ht2, ht3⟩ := tiles_append.mp ht
  rcases mem_freed hx with hx | hx | hx
  · have hbounds := ht1.bounds x hx
    omega
  · have hbounds := ht3.bounds x hx
    rw [sizeofBlock] at hbounds
    omega
  · rw [hx] at hused
    cases hused

end Blocks

section Steps

theorem Rep.kmalloc_keeps (ha : Arena start size) (hr : Rep start size h (l1 ++ c :: l2))
    (hfree : c.free = true) (hnowrap : r + sizeofBlock + minSplit < 2 ^ 32)
    (hmem : h'.mem = setFree (trySplit h.mem c.addr r) c.addr false) :
    Keeps (l1 ++ c :: l2) (l1 ++ carved c r l2) h.mem h'.mem (fun _ => False) := by
  intro x hx hused _
  refine ⟨mem_carved_tail r hfree hx hused, fun k hk => ?_⟩
  have hc : c ∈ l1 ++ c :: l2 := by simp
  obtain ⟨d, -, ht2⟩ := tiles_append.mp hr.tiles
  rw [← ht2.1] at ht2
  have hsplit := trySplit_same ht2 ha.fits (linked_append.mp hr.linked).2 hnowrap k
  rw [hmem]
  refine hsplit (not_or.mpr ⟨fun hin => ?_, fun hf => ?_⟩)
  · have h1 := hr.tiles.payload_apart hx hc
    have h2 := hr.tiles.payload_apart hc hx
    have hne : x.addr ≠ c.addr := by
      intro hsame
      rw [hr.tiles.addr_inj hx hc hsame, hfree] at hused
      cases hused
    unfold InPayload at hk
    unfold Extent at hin
    omega
  · exact hk.not_linkFields hr.tiles hx
      (LinkFields.addrs (fun c' hc' => ⟨c', by simp [hc'], rfl⟩) k hf)

theorem Rep.kfree_keeps (ha : Arena start size) (hr : Rep start size h (l1 ++ b :: l2)) :
    Keeps (l1 ++ b :: l2) (freed l1 b l2) h.mem (tryMerge (setFree h.mem b.addr true) b.addr)
      (fun x => x = b) := by
  have hend := ha.fits
  intro x hx hused hne
  refine ⟨freed_keeps hx hused hne, fun k hk => ?_⟩
  have hb : b ∈ l1 ++ b :: l2 := by simp
  have hbounds := hr.tiles.bounds b hb
  have hap := hr.tiles.payload_apart hx hb
  rw [tryMerge_same hr.tiles hend (Nat.pos_of_ne_zero ha.start_ne) hr.linked k
    (hk.not_linkFields hr.tiles hx)]
  unfold InPayload at hk
  exact setFree_same (by omega) true (by omega)

theorem Rep.framed (ha : Arena start size) (hr : Rep start size h l) {l' : List Block}
    (hr' : Rep start size h' l') {gone : Block → Prop} (hk : Keeps l l' h.mem h'.mem gone)
    (hgone : ∀ x ∈ l, x.free = false → gone x → ¬Used h' x.addr) : Framed h h' := by
  intro a hu hu'
  obtain ⟨x, hx, rfl, hused⟩ := (hr.used_iff ha).mp hu
  obtain ⟨hin, hbytes⟩ := hk x hx hused fun hg => hgone x hx hused hg hu'
  rw [(hr.linked.header_of_mem x hx).1, (hr'.linked.header_of_mem x hin).1]
  exact ⟨rfl, fun k h1 h2 => hbytes k ⟨h1, h2⟩⟩

theorem Framed.refl (h : HeapState) : Framed h h := fun _ _ _ => ⟨rfl, fun _ _ _ => rfl⟩

theorem Stays.refl (h : HeapState) (ptr : Nat) : Stays h h ptr := fun _ hu _ => hu

theorem Rep.stays (ha : Arena start size) (hr : Rep start size h l) {l' : List Block}
    (hr' : Rep start size h' l') {gone : Block → Prop} (hk : Keeps l l' h.mem h'.mem gone)
    (hgone : ∀ x ∈ l, x.free = false → gone x → ptr ≠ 0 ∧ x.addr = blockOf ptr) :
    Stays h h' ptr := by
  intro a hu hother
  obtain ⟨x, hx, rfl, hused⟩ := (hr.used_iff ha).mp hu
  have hin := (hk x hx hused fun hg => hother.elim (hgone x hx hused hg).1
    fun hne => hne (hgone x hx hused hg).2).1
  exact (hr'.used_iff ha).mpr ⟨x, hin, rfl, hused⟩

theorem Rep.live_iff (ha : Arena start size) (hr : Rep start size h l) :
    Live h ptr ↔ ∃ b ∈ l, b.free = false ∧ ptr = u32 (b.addr + sizeofBlock) := by
  refine ⟨hr.live ha, ?_⟩
  rintro ⟨b, hb, hused, rfl⟩
  obtain ⟨bs, hbs, hin⟩ := (hr.inList ha).mpr ⟨b, hb, rfl⟩
  exact ⟨bs, hbs, b.addr, hin, by rw [(hr.linked.header_of_mem b hb).2.1, hused], rfl⟩

theorem Rep.not_live_freed (ha : Arena start size) (hr : Rep start size h (l1 ++ b :: l2))
    (hr' : Rep start size h' (freed l1 b l2)) : ¬Live h' (u32 (b.addr + sizeofBlock)) := by
  intro hlive
  obtain ⟨x, hx, hused, hsame⟩ := (hr'.live_iff ha).mp hlive
  have haddr := congrArg (sub32 · sizeofBlock) hsame
  simp only [hr'.ptr_sub ha hx, hr.ptr_sub ha (show b ∈ l1 ++ b :: l2 by simp)] at haddr
  exact freed_gone hr.tiles hx hused haddr.symm

theorem Rep.not_used_freed (ha : Arena start size) (hr : Rep start size h (l1 ++ b :: l2))
    (hr' : Rep start size h' (freed l1 b l2)) : ¬Used h' b.addr := by
  intro hu
  obtain ⟨x, hx, haddr, hused⟩ := (hr'.used_iff ha).mp hu
  exact freed_gone hr.tiles hx hused haddr

theorem Rep.kfree_freed (ha : Arena start size) (hr : Rep start size h (l1 ++ b :: l2))
    (hused : b.free = false) (hp : u32 (b.addr + sizeofBlock) ≠ 0) :
    Rep start size (Heap.kfree h (u32 (b.addr + sizeofBlock))) (freed l1 b l2) ∧
      Keeps (l1 ++ b :: l2) (freed l1 b l2) h.mem
        (Heap.kfree h (u32 (b.addr + sizeofBlock))).mem (fun x => x = b) := by
  have hkeeps := hr.kfree_keeps ha
  have hmerged := hr.merged ha
  rw [← hr.kfree_eq ha hused hp] at hmerged
  have hmem : (Heap.kfree h (u32 (b.addr + sizeofBlock))).mem =
      tryMerge (setFree h.mem b.addr true) b.addr := by rw [hr.kfree_eq ha hused hp]
  rw [← hmem] at hkeeps
  exact ⟨hmerged, hkeeps⟩

theorem Rep.kfree_frame (ha : Arena start size) (hr : Rep start size h l) (hlive : Live h ptr) :
    Framed h (Heap.kfree h ptr) ∧ Stays h (Heap.kfree h ptr) ptr := by
  obtain ⟨b, hb, hused, rfl⟩ := hr.live ha hlive
  by_cases hz : u32 (b.addr + sizeofBlock) = 0
  · rw [hz]
    exact ⟨Framed.refl h, Stays.refl h 0⟩
  · obtain ⟨l1, l2, rfl⟩ := List.append_of_mem hb
    obtain ⟨hmerged, hkeeps⟩ := hr.kfree_freed ha hused hz
    refine ⟨hr.framed ha hmerged hkeeps fun x _ _ hx => ?_, hr.stays ha hmerged hkeeps fun x _ _ hx => ?_⟩
    · rw [hx]
      exact hr.not_used_freed ha hmerged
    · rw [hx]
      exact ⟨hz, (hr.ptr_sub ha hb).symm⟩

theorem Rep.kmalloc_frame (ha : Arena start size) (hr : Rep start size h l)
    (hw : ¬splitWraps h n) (hk : Heap.kmalloc h n = some (p, h')) :
    Framed h h' ∧ Stays h h' 0 := by
  rcases hr.kmalloc ha hw with ⟨he, -⟩ | ⟨l1, c, l2, h1, rfl, -, hfree, -, he, hnowrap, hmem, hrep⟩
  · obtain ⟨-, rfl⟩ := Prod.mk.inj (Option.some.inj (he.symm.trans hk))
    exact ⟨Framed.refl h, Stays.refl h 0⟩
  · obtain ⟨-, rfl⟩ := Prod.mk.inj (Option.some.inj (he.symm.trans hk))
    have hkeeps := hr.kmalloc_keeps ha hfree hnowrap hmem
    exact ⟨hr.framed ha hrep hkeeps fun _ _ _ hf => hf.elim,
      hr.stays ha hrep hkeeps fun _ _ _ hf => hf.elim⟩

end Steps

section Krealloc

structure Resized (h : HeapState) (ptr n p : Nat) (h' : HeapState) : Prop where
  copied : p ≠ 0 → ∀ i, i < min (sizeAt h ptr) (sizeAt h' p) → h'.mem (p + i) = h.mem (ptr + i)
  live : p ≠ 0 → Live h' p
  released : p ≠ 0 → (¬Live h' ptr ↔ p ≠ ptr)
  refused : p = 0 → 0 < n → h' = h ∧ Live h' ptr

-- The bytes of b are copied into the payload of the carved block, and b is freed.
theorem Rep.moved (ha : Arena start size) (hr : Rep start size h (l1 ++ c :: l2))
    (hb : b ∈ l1 ++ c :: l2) (hused : b.free = false) (hp : u32 (b.addr + sizeofBlock) ≠ 0)
    (hcfree : c.free = true) (hlt : b.size < r) (hcsize : r ≤ c.size)
    (hctop : c.addr + sizeofBlock < 2 ^ 32) (hnowrap : r + sizeofBlock + minSplit < 2 ^ 32)
    {h1 : HeapState} (hmem : h1.mem = setFree (trySplit h.mem c.addr r) c.addr false)
    (hcopy : Rep start size { h1 with
      mem := copy h1.mem (c.addr + sizeofBlock) (b.addr + sizeofBlock) b.size }
      (l1 ++ carved c r l2)) :
    let h' := Heap.kfree { h1 with
      mem := copy h1.mem (c.addr + sizeofBlock) (b.addr + sizeofBlock) b.size }
      (u32 (b.addr + sizeofBlock))
    (Framed h h' ∧ Stays h h' (u32 (b.addr + sizeofBlock))) ∧
      Resized h (u32 (b.addr + sizeofBlock)) r (c.addr + sizeofBlock) h' := by
  intro h'
  have hcarve := hr.kmalloc_keeps ha hcfree hnowrap hmem
  obtain ⟨n, hn, hnused, hna, hns⟩ := mem_carved (l := l2) hcsize
  have hnew := List.mem_append_right l1 hn
  have hbnew := (hcarve b hb hused fun hf => hf).1
  have hne : n ≠ b := by
    rintro rfl
    omega
  have hcin : c ∈ l1 ++ c :: l2 := by simp
  obtain ⟨k1, k2, hk⟩ := List.append_of_mem hbnew
  have hcopied : ∀ x ∈ l1 ++ carved c r l2, x.addr ≠ c.addr → ∀ k, InPayload x k →
      copy h1.mem (c.addr + sizeofBlock) (b.addr + sizeofBlock) b.size k = h1.mem k := by
    intro x hx hother k hk
    have hap := hcopy.tiles.payload_apart hx hnew
    have hpa := hcopy.tiles.payload_apart hnew hx
    unfold InPayload at hk
    rw [sizeofBlock]
    exact copy_of_not_mem _ _ _ _ (by omega)
  rw [hk] at hcopy
  obtain ⟨hmerged, hfreed⟩ := hcopy.kfree_freed ha hused hp
  have hall : Keeps (l1 ++ c :: l2) (freed k1 b k2) h.mem h'.mem (fun x => x = b) := by
    intro x hx hxused hxb
    obtain ⟨hin, hbytes⟩ := hcarve x hx hxused fun hf => hf
    have hother : x.addr ≠ c.addr := by
      intro hsame
      rw [hr.tiles.addr_inj hx hcin hsame, hcfree] at hxused
      cases hxused
    obtain ⟨hin', hbytes'⟩ := hfreed x (hk ▸ hin) hxused hxb
    refine ⟨hin', fun k hkx => ?_⟩
    exact (hbytes' k hkx).trans ((hcopied x hin hother k hkx).trans (hbytes k hkx))
  have hgone := hcopy.not_live_freed ha hmerged
  have hptr := hr.ptr_eq ha hb (.inl hp)
  obtain ⟨hnin, hnbytes⟩ := hfreed n (hk ▸ hnew) hnused hne
  have hnlive : Live h' (c.addr + sizeofBlock) := by
    refine (hmerged.live_iff ha).mpr ⟨n, hnin, hnused, ?_⟩
    rw [hna]
    exact (u32_of_lt hctop).symm
  refine ⟨⟨hr.framed ha hmerged hall fun x _ _ hx => ?_, hr.stays ha hmerged hall fun x _ _ hx => ?_⟩,
    fun _ i hi => ?_, fun _ => hnlive, fun _ => ⟨fun _ hsame => ?_, fun _ => hgone⟩, fun hz => ?_⟩
  · rw [hx]
    exact hcopy.not_used_freed ha hmerged
  · rw [hx]
    exact ⟨hp, (hr.ptr_sub ha hb).symm⟩
  · have hsize : sizeAt h (u32 (b.addr + sizeofBlock)) = b.size := by
      rw [sizeAt, blockOf, hr.ptr_sub ha hb, (hr.linked.header_of_mem b hb).1]
    have hib : i < b.size := by omega
    have hkept := hnbytes (c.addr + sizeofBlock + i)
      ⟨by rw [hna, sizeofBlock]; omega, by rw [hna, sizeofBlock]; omega⟩
    have hsrc := (hcarve b hb hused fun hf => hf).2 (b.addr + sizeofBlock + i)
      ⟨by rw [sizeofBlock]; omega, by rw [sizeofBlock]; omega⟩
    rw [hptr]
    exact hkept.trans ((copy_at _ _ _ hib).trans hsrc)
  · rw [hsame] at hnlive
    exact hgone hnlive
  · rw [sizeofBlock] at hz
    omega

theorem Rep.krealloc_frame (ha : Arena start size) (hr : Rep start size h l) (hlive : Live h ptr)
    (hp : ptr ≠ 0) (hw : staysPut h ptr n ∨ ¬splitWraps h n) :
    ∃ p h', Heap.krealloc h ptr n = some (p, h') ∧ (Framed h h' ∧ Stays h h' ptr) ∧
      Resized h ptr n p h' := by
  have hfree := hr.kfree_frame ha hlive
  obtain ⟨b, hb, hused, rfl⟩ := hr.live ha hlive
  by_cases hn : n = 0
  · refine ⟨0, _, ?_, hfree, fun hne => absurd rfl hne, fun hne => absurd rfl hne,
      fun hne => absurd rfl hne, fun _ hpos => absurd hpos (by omega)⟩
    rw [Heap.krealloc, if_neg hp, if_pos hn]
  · rcases hr.krealloc_cases ha hb hused hp hn hw with ⟨-, he⟩ | ⟨-, he⟩ |
      ⟨l1, c, l2, h1, rfl, hcfree, hlt, hcsize, hctop, hnowrap, hmem, hcopy, he⟩
    · exact ⟨_, h, he, ⟨Framed.refl h, Stays.refl h _⟩, fun _ _ _ => rfl, fun _ => hlive,
        fun _ => ⟨fun hno => absurd hlive hno, fun hne => absurd rfl hne⟩, fun hz => absurd hz hp⟩
    · exact ⟨0, h, he, ⟨Framed.refl h, Stays.refl h _⟩, fun hne => absurd rfl hne,
        fun hne => absurd rfl hne, fun hne => absurd rfl hne, fun _ _ => ⟨rfl, hlive⟩⟩
    · obtain ⟨hframe, hresized⟩ := hr.moved ha hb hused hp hcfree hlt hcsize hctop hnowrap hmem hcopy
      exact ⟨_, _, he, hframe, hresized.copied, hresized.live, hresized.released,
        fun hz => absurd hz (by rw [sizeofBlock]; omega)⟩

end Krealloc

-- The block that an operation may take away.
def target : Act → Nat
  | .krealloc ptr _ => ptr
  | .kfree ptr => ptr
  | _ => 0

def isCall : Act → Bool
  | .store _ _ _ => false
  | _ => true

section Walk

-- The block list, for a heap of a few blocks.
def walk (m : Memory) : Nat → Nat → Option (List Nat)
  | _, 0 => some []
  | 0, _ + 1 => none
  | links + 1, b + 1 => (walk m links (header m (b + 1)).next).map ((b + 1) :: ·)

theorem walk_listFrom {k a : Nat} {bs : List Nat} (h : walk m k a = some bs) : ListFrom m a bs := by
  induction k generalizing a bs with
  | zero =>
    cases a with
    | zero =>
      obtain rfl := Option.some.inj h
      exact .nil
    | succ b => cases h
  | succ k ih =>
    cases a with
    | zero =>
      obtain rfl := Option.some.inj h
      exact .nil
    | succ b =>
      obtain ⟨t, ht, rfl⟩ := Option.map_eq_some_iff.mp h
      exact .cons b.succ_ne_zero (ih ht)

def usedIn (h : HeapState) (b : Nat) : Bool :=
  ((walk h.mem 8 h.heapHead).getD []).contains b && !(header h.mem b).free

theorem used_of_usedIn {b : Nat} (hb : usedIn h b = true) : Used h b := by
  obtain ⟨hin, hfree⟩ := Bool.and_eq_true_iff.mp hb
  rw [Bool.not_eq_true'] at hfree
  cases hw : walk h.mem 8 h.heapHead with
  | none =>
    rw [hw] at hin
    exact absurd hin (by simp)
  | some bs =>
    rw [hw] at hin
    exact ⟨⟨bs, walk_listFrom hw, by simpa using hin⟩, hfree⟩

def mayRun (h : HeapState) : Act → Bool
  | .kmalloc n => decide (n < 2 ^ 32)
  | .kfree ptr => usedIn h (blockOf ptr) && ptr == u32 (blockOf ptr + sizeofBlock)
  | _ => false

theorem allowed_of_mayRun {a : Act} (ha : mayRun h a = true) : allowed h a := by
  cases a with
  | kmalloc n =>
    have hn : n < 2 ^ 32 := of_decide_eq_true ha
    exact hn
  | kfree ptr =>
    obtain ⟨hu, hptr⟩ := Bool.and_eq_true_iff.mp ha
    obtain ⟨⟨bs, hbs, hb⟩, hfree⟩ := used_of_usedIn hu
    exact .inr ⟨bs, hbs, _, hb, hfree, eq_of_beq hptr⟩
  | krealloc ptr n => cases ha
  | store ptr off v => cases ha

def checked : HeapState → List Act → Option HeapState
  | h, [] => some h
  | h, a :: as => if mayRun h a then (exec h a).bind (checked · as) else none

theorem checked_reach {as : List Act} (hs : (system start size).Reach h)
    (he : checked h as = some h') : (system start size).Reach h' := by
  induction as generalizing h with
  | nil =>
    obtain rfl := Option.some.inj he
    exact hs
  | cons a as ih =>
    rw [checked] at he
    split at he
    · next hrun =>
      obtain ⟨h1, hstep, hrest⟩ := Option.bind_eq_some_iff.mp he
      exact ih (.next hs ⟨allowed_of_mayRun hrun, hstep⟩) hrest
    · cases he

end Walk

end Heap
