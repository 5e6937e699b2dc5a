import SabakaOS.Memory.AddressSpace

namespace Paging

open Word Pmm

def pmmFreePages (p : Pmm) : Nat := sub32 p.totalPages p.usedPages

def usedFrames (p : Pmm) : Finset Nat :=
  (Finset.range p.totalPages).filter fun i => bitmapTest p.bitmap i = true

-- The directory slots of the pages that have no page table yet.
def missingTables (t : Tables) (l : List (Nat × Nat)) : Finset Nat :=
  (l.map fun v => pdIdx v.1).toFinset.filter fun d => ¬Present t d

def neededFrames (t : Tables) (l : List (Nat × Nat)) : Nat :=
  l.length + (missingTables t l).card

-- The page tables are where the kernel sees them; nothing is said of one that gets no frame.
def TablesReached : List (Nat × Nat) → Machine → Prop
  | [], _ => True
  | v :: rest, m =>
    (¬Present m.tables (pdIdx v.1) → (pmmAlloc (pmmAlloc m.pmm).2).1 ≠ 0 →
      target m.calls ((pmmAlloc (pmmAlloc m.pmm).2).1 / 4096) =
        some (pmmAlloc (pmmAlloc m.pmm).2).1) ∧
    (∀ x ∈ m.obtained, v.1 / 4096 = x.1 / 4096 → (pmmAlloc m.pmm).1 &&& frameMask = x.1) ∧
    ∀ m', m.page v.1 v.2 = some m' → TablesReached rest m'

section Counting

variable {kernelEnd : Nat} {P : Pool Nat} {m m' : Machine} {l : List (Nat × Nat)}
  {v : Nat × Nat}

-- The part of Held that the allocator alone keeps.
def Counted (kernelEnd : Nat) (P : Pool Nat) (m : Machine) : Prop :=
  Rep kernelEnd (memSize / pageSize) ⟨m.pmm, P.held.image (· * pageSize)⟩ P

theorem Counted.usedFrames (h : Counted kernelEnd P m) : usedFrames m.pmm = P.inUse := by
  ext i
  have hpages : m.pmm.totalPages = memSize / pageSize := h.pages
  rw [Paging.usedFrames, Finset.mem_filter, Finset.mem_range]
  constructor
  · rintro ⟨hi, hb⟩
    exact (h.bit_iff hi).mp hb
  · intro hi
    have hlt : i < m.pmm.totalPages := hpages ▸ h.bound i hi
    exact ⟨hlt, (h.bit_iff hlt).mpr hi⟩

theorem Counted.free (h : Counted kernelEnd P m) :
    pmmFreePages m.pmm + P.used = memSize / pageSize := by
  have hpages : m.pmm.totalPages = memSize / pageSize := h.pages
  have hused : m.pmm.usedPages = P.used := h.used
  have hle := h.used_le
  have hn : memSize / pageSize = 8192 := by decide
  rw [pmmFreePages, hpages, hused, sub32_of_le (by omega) hle]
  omega

theorem Counted.alloc (hb : Bounds kernelEnd memSize) (h : Counted kernelEnd P m) :
    (pmmFreePages m.pmm = 0 ∧ pmmAlloc m.pmm = (0, m.pmm)) ∨
      ∃ P', (pmmAlloc m.pmm).1 ≠ 0 ∧ Counted kernelEnd P' { m with pmm := (pmmAlloc m.pmm).2 } ∧
        P.inUse ⊆ P'.inUse ∧
        pmmFreePages (pmmAlloc m.pmm).2 + 1 = pmmFreePages m.pmm := by
  have hfree := h.free
  rcases pmmAlloc_cases hb h with ⟨hall, hnone⟩ | ⟨i, hi, hlt, hr, hpos, hrep⟩
  · have hsub : Finset.range (memSize / pageSize) ⊆ P.inUse := fun i hi =>
      hall i (Finset.mem_range.mp hi)
    have hcard := Finset.card_le_card hsub
    rw [Finset.card_range] at hcard
    change _ ≤ P.used at hcard
    exact .inl ⟨by omega, hnone⟩
  · have hnext : Counted kernelEnd (P.take i hi) { m with pmm := (pmmAlloc m.pmm).2 } :=
      hrep _ (by rw [Pool.take_held, Finset.image_insert])
    have hfree' := hnext.free
    rw [P.used_take hi] at hfree'
    change pmmFreePages (pmmAlloc m.pmm).2 + _ = _ at hfree'
    refine .inr ⟨_, ?_, hnext, fun j hj => (P.mem_take hi).mpr (.inr hj), by omega⟩
    rw [show (pmmAlloc m.pmm).1 = i * pageSize from hr]
    exact hpos

theorem tableOf_null (t : Tables) {d : Nat} (hp : ¬Present t d) :
    tableOf (getOrCreatePt t d 0).2 d = 0 := by
  rw [getOrCreatePt, if_pos (not_not.mp hp)]
  change Function.update t.pageDirectory d (0 ||| pagePresent ||| pageWrite ||| pageUser) d &&&
    frameMask = 0
  rw [Function.update_self]
  decide

theorem map_tableOf_null (m : Machine) {virt : Nat} (phys flags : Nat)
    (hp : ¬Present m.tables (pdIdx virt)) (hnull : (pmmAlloc m.pmm).1 = 0) :
    tableOf (m.map virt phys flags).tables (pdIdx virt) = 0 := by
  rw [Machine.map, if_neg hp]
  change tableOf (getOrCreatePt m.tables (pdIdx virt) (pmmAlloc m.pmm).1).2 (pdIdx virt) = 0
  rw [hnull]
  exact tableOf_null m.tables hp

-- What one turn of the loop costs, and what happens where the page table is not to be had.
theorem Counted.page (hb : Bounds kernelEnd memSize) (h : Counted kernelEnd P m)
    (virt flags : Nat) : (pmmFreePages m.pmm = 0 ∧ m.page virt flags = none) ∨
      ∃ P' m', m.page virt flags = some m' ∧ Counted kernelEnd P' m' ∧ P.inUse ⊆ P'.inUse ∧
        pmmFreePages m'.pmm < pmmFreePages m.pmm ∧
        (∀ d, Present m'.tables d ↔ Present m.tables d ∨ d = pdIdx virt) ∧
        (pmmFreePages m'.pmm + (if Present m.tables (pdIdx virt) then 1 else 2) =
            pmmFreePages m.pmm ∨
          ¬Present m.tables (pdIdx virt) ∧ pmmFreePages m.pmm = 1 ∧ pmmFreePages m'.pmm = 0 ∧
            tableOf m'.tables (pdIdx virt) = 0) := by
  rcases h.alloc hb with ⟨hfree, hnone⟩ | ⟨P1, hne, h1, hsub, hfree⟩
  · refine .inl ⟨hfree, ?_⟩
    rw [Machine.page, hnone]
    rfl
  · have hpage : m.page virt flags = some _ := Machine.page_eq flags hne
    have hpres := fun d => Machine.map_present
      ({ m with pmm := (pmmAlloc m.pmm).2 } : Machine) virt (pmmAlloc m.pmm).1 flags d
    refine .inr ?_
    by_cases hp : Present m.tables (pdIdx virt)
    · have hpmm : (({ m with pmm := (pmmAlloc m.pmm).2 } : Machine).map virt
          (pmmAlloc m.pmm).1 flags).pmm = (pmmAlloc m.pmm).2 := by
        rw [Machine.map, if_pos hp]
      refine ⟨P1, _, hpage, ?_, hsub, ?_, hpres, .inl ?_⟩
      · rw [Counted, hpmm]
        exact h1
      · rw [hpmm]
        omega
      · rw [hpmm, if_pos hp]
        exact hfree
    · have hpmm : (({ m with pmm := (pmmAlloc m.pmm).2 } : Machine).map virt
          (pmmAlloc m.pmm).1 flags).pmm = (pmmAlloc (pmmAlloc m.pmm).2).2 := by
        rw [Machine.map, if_neg hp]
      rcases h1.alloc hb with ⟨hfree1, hnone1⟩ | ⟨P2, hne1, h2, hsub1, hfree1⟩
      · change pmmFreePages (pmmAlloc m.pmm).2 = 0 at hfree1
        change pmmAlloc (pmmAlloc m.pmm).2 = (0, (pmmAlloc m.pmm).2) at hnone1
        rw [hnone1] at hpmm
        refine ⟨P1, _, hpage, ?_, hsub, ?_, hpres, .inr ⟨hp, by omega, ?_, ?_⟩⟩
        · rw [Counted, hpmm]
          exact h1
        · rw [hpmm]
          change pmmFreePages (pmmAlloc m.pmm).2 < _
          omega
        · rw [hpmm]
          exact hfree1
        · exact map_tableOf_null _ _ _ hp (congrArg Prod.fst hnone1)
      · change pmmFreePages (pmmAlloc (pmmAlloc m.pmm).2).2 + 1 =
          pmmFreePages (pmmAlloc m.pmm).2 at hfree1
        refine ⟨P2, _, hpage, ?_, hsub.trans hsub1, ?_, hpres, .inl ?_⟩
        · rw [Counted, hpmm]
          exact h2
        · rw [hpmm]
          omega
        · rw [hpmm, if_neg hp]
          omega

theorem missingTables_cons {t t' : Tables} (hpres : ∀ d, Present t' d ↔ Present t d ∨ d = pdIdx v.1) :
    (missingTables t (v :: l)).card =
      (missingTables t' l).card + if Present t (pdIdx v.1) then 0 else 1 := by
  have hiff : ∀ d, ¬Present t' d ↔ ¬Present t d ∧ d ≠ pdIdx v.1 := fun d => by
    rw [hpres d, not_or]
  rw [missingTables, missingTables, List.map_cons, List.toFinset_cons]
  by_cases hp : Present t (pdIdx v.1)
  · rw [if_pos hp, Finset.filter_insert, if_neg (not_not.mpr hp), Nat.add_zero]
    refine congrArg Finset.card (Finset.filter_congr fun d _ => ?_)
    rw [hiff d]
    refine (and_iff_left_of_imp fun hd => ?_).symm
    rintro rfl
    exact hd hp
  · have hset : (insert (pdIdx v.1) (l.map fun v => pdIdx v.1).toFinset).filter
        (fun d => ¬Present t d) = insert (pdIdx v.1)
          ((l.map fun v => pdIdx v.1).toFinset.filter fun d => ¬Present t' d) := by
      ext d
      simp only [Finset.mem_filter, Finset.mem_insert, hiff d]
      by_cases hd : d = pdIdx v.1
      · simp [hd, hp]
      · simp [hd]
    rw [if_neg hp, hset, Finset.card_insert_of_notMem]
    simp only [Finset.mem_filter, hiff, ne_eq, not_true_eq_false, and_false, not_false_eq_true]

theorem neededFrames_cons {t t' : Tables} (hpres : ∀ d, Present t' d ↔ Present t d ∨ d = pdIdx v.1) :
    neededFrames t (v :: l) =
      neededFrames t' l + if Present t (pdIdx v.1) then 1 else 2 := by
  rw [neededFrames, neededFrames, missingTables_cons hpres, List.length_cons]
  split
  · omega
  · omega

theorem neededFrames_le (t : Tables) (l : List (Nat × Nat)) : neededFrames t l ≤ 2 * l.length := by
  have hcard : (missingTables t l).card ≤ l.length :=
    (Finset.card_filter_le _ _).trans ((List.toFinset_card_le _).trans (List.length_map _).le)
  rw [neededFrames]
  omega

theorem Counted.mapAll (hb : Bounds kernelEnd memSize) (h : Counted kernelEnd P m)
    (l : List (Nat × Nat)) : ∃ P', Counted kernelEnd P' (mapAll l m).2 ∧ P.inUse ⊆ P'.inUse ∧
      (l ≠ [] → pmmFreePages m.pmm ≠ 0 →
        pmmFreePages (mapAll l m).2.pmm < pmmFreePages m.pmm) ∧
      (pmmFreePages m.pmm = 0 → (mapAll l m).2 = m ∧ ((mapAll l m).1 = true → l = [])) := by
  induction l generalizing P m with
  | nil => exact ⟨P, h, subset_rfl, fun hne => absurd rfl hne, fun _ => ⟨rfl, fun _ => rfl⟩⟩
  | cons v l ih =>
    rw [Paging.mapAll]
    rcases h.page hb v.1 v.2 with ⟨hfree, hnone⟩ | ⟨P1, m1, hpage, h1, hsub, hlt, -, -⟩
    · rw [hnone]
      exact ⟨P, h, subset_rfl, fun _ hf => absurd hfree hf, fun _ => ⟨rfl, fun hf => by cases hf⟩⟩
    · rw [hpage]
      obtain ⟨P2, h2, hsub2, hlt2, hsame⟩ := ih h1
      refine ⟨P2, h2, hsub.trans hsub2, fun _ _ => ?_, fun hf => by omega⟩
      by_cases hf : pmmFreePages m1.pmm = 0
      · change pmmFreePages (Paging.mapAll l m1).2.pmm < _
        rw [(hsame hf).1]
        exact hlt
      · by_cases hl : l = []
        · subst hl
          exact hlt
        · exact (hlt2 hl hf).trans hlt

-- A page table that got no frame ends up at address 0.
theorem Counted.mapAll_null (hb : Bounds kernelEnd memSize) (h : Counted kernelEnd P m)
    (hlt : pmmFreePages m.pmm < neededFrames m.tables l) (hok : (Paging.mapAll l m).1 = true) :
    ∃ v ∈ l, ¬Present m.tables (pdIdx v.1) ∧
      tableOf (Paging.mapAll l m).2.tables (pdIdx v.1) = 0 := by
  induction l generalizing P m with
  | nil => exact absurd hlt (Nat.not_lt_zero _)
  | cons v l ih =>
    rw [Paging.mapAll] at hok ⊢
    rcases h.page hb v.1 v.2 with ⟨-, hnone⟩ | ⟨P1, m1, hpage, h1, -, -, hpres, hcost⟩
    · rw [hnone] at hok
      cases hok
    · rw [hpage] at hok ⊢
      rw [neededFrames_cons hpres] at hlt
      change (Paging.mapAll l m1).1 = true at hok
      rcases hcost with hcost | ⟨hp, -, hfree, hnull⟩
      · obtain ⟨w, hw, hp, hnull⟩ := ih h1 (by omega) hok
        exact ⟨w, List.mem_cons_of_mem v hw, fun hpw => hp ((hpres _).mpr (.inl hpw)), hnull⟩
      · obtain ⟨-, -, -, -, hsame⟩ := h1.mapAll hb l
        obtain ⟨hm, hl⟩ := hsame hfree
        refine ⟨v, List.mem_cons_self, hp, ?_⟩
        change tableOf (Paging.mapAll l m1).2.tables (pdIdx v.1) = 0
        rw [hm]
        exact hnull

theorem Counted.mapAll_enough (hb : Bounds kernelEnd memSize) (h : Counted kernelEnd P m)
    (hle : neededFrames m.tables l ≤ pmmFreePages m.pmm) :
    (Paging.mapAll l m).1 = true ∧ (TablesReached l m → TablesSeen l m) := by
  induction l generalizing P m with
  | nil => exact ⟨rfl, fun _ => trivial⟩
  | cons v l ih =>
    rw [Paging.mapAll]
    rcases h.page hb v.1 v.2 with ⟨hfree, -⟩ | ⟨P1, m1, hpage, h1, -, -, hpres, hcost⟩
    · rw [neededFrames, List.length_cons] at hle
      omega
    · rw [neededFrames_cons hpres] at hle
      have hcost' : pmmFreePages m1.pmm +
          (if Present m.tables (pdIdx v.1) then 1 else 2) = pmmFreePages m.pmm := by
        rcases hcost with hcost | ⟨hp, hfree, -, -⟩
        · exact hcost
        · rw [if_neg hp] at hle
          omega
      obtain ⟨hok, hseen⟩ := ih h1 (by omega)
      rw [hpage]
      refine ⟨hok, fun hr => ⟨⟨fun hp => ?_, hr.2.1⟩, fun m' hm => ?_⟩⟩
      · rw [if_neg hp] at hcost'
        have hne : (pmmAlloc (pmmAlloc m.pmm).2).1 ≠ 0 := by
          rcases h.alloc hb with ⟨hf, -⟩ | ⟨P2, -, h2, -, hfree⟩
          · omega
          · rcases h2.alloc hb with ⟨hf, -⟩ | ⟨P3, hne, -⟩
            · change pmmFreePages (pmmAlloc m.pmm).2 = 0 at hf
              omega
            · exact hne
        exact ⟨hne, hr.1 hp hne⟩
      · obtain rfl := Option.some.inj (hpage.symm.trans hm)
        exact hseen (hr.2.2 _ hm)

end Counting

section Tables

variable {kernelEnd virt flags : Nat} {P : Pool Nat} {m₀ m m' : Machine} {done : List Nat}

theorem Held.counted (h : Held kernelEnd P m) : Counted kernelEnd P m := h.rep

-- One turn of the loop takes the frame i for the page, and a frame for a page table if there is
-- none.
structure Turn (kernelEnd virt flags : Nat) (P P' : Pool Nat) (i frame : Nat) (m m' : Machine) :
    Prop where
  held : Held kernelEnd P' m'
  lt : i < 8192
  new : i ∉ P.inUse
  eq : m'.tables = pagingMap m.tables virt (i * 4096) flags frame
  table : ¬Present m.tables (pdIdx virt) → ∃ j < 8192, frame = j * 4096 ∧ j ∉ P.inUse ∧ j ≠ i
  taken : ∀ f, f ∈ P'.inUse ↔ f ∈ P.inUse ∨ f = i ∨
    ¬Present m.tables (pdIdx virt) ∧ frame = f * 4096

theorem walk_present {t : Tables} {q f : Nat} (hw : Paging.walk t q = some f) :
    Present t (q / 1024) := by
  by_contra hno
  rw [Paging.walk, if_neg hno] at hw
  cases hw

theorem mul_page_inj {a b : Nat} (h : a * 4096 = b * 4096) : a = b :=
  Nat.eq_of_mul_eq_mul_right (by decide) h

theorem Held.turn (hb : Bounds kernelEnd memSize) (h : Held kernelEnd P m)
    (hv : virt < 4294967296) (hk : tablesKept m (.page virt flags))
    (hp : m.page virt flags = some m') :
    ∃ P' i frame, Turn kernelEnd virt flags P P' i frame m m' := by
  rw [Machine.page] at hp
  split at hp
  · cases hp
  · rename_i hne
    obtain rfl := Option.some.inj hp
    obtain ⟨P1, i, hi, hri, hP1, h1⟩ := h.alloc hb hne
    obtain ⟨P2, h2, hsame, hnew⟩ := h1.map hb hv (pmmAlloc m.pmm).1 flags hk
    have hn : memSize / pageSize = 8192 := by decide
    have hlt : i < 8192 := by
      have := h1.rep.bound i (hP1 ▸ Finset.mem_insert_self _ _)
      omega
    by_cases hpres : Present m.tables (pdIdx virt)
    · refine ⟨P2, i, 0, h2, hlt, hi, ?_, fun hno => absurd hpres hno, fun f => ?_⟩
      · rw [Machine.map, if_pos hpres, hri, pageSize]
      · rw [hsame hpres, hP1, Finset.mem_insert, or_comm]
        simp [hpres]
    · obtain ⟨j, hj, hrj, hP2⟩ := hnew hpres
      rw [hP1, Finset.mem_insert, not_or] at hj
      have hjlt : j < 8192 := by
        have := h2.rep.bound j (hP2 ▸ Finset.mem_insert_self _ _)
        omega
      refine ⟨P2, i, j * 4096, h2, hlt, hi, ?_, fun _ => ⟨j, hjlt, rfl, hj.2, hj.1⟩, fun f => ?_⟩
      · rw [Machine.map, if_neg hpres]
        change pagingMap m.tables virt (pmmAlloc m.pmm).1 flags
          (pmmAlloc (pmmAlloc m.pmm).2).1 = _
        rw [hri, show (pmmAlloc (pmmAlloc m.pmm).2).1 = j * pageSize from hrj, pageSize]
      · have hjf : j * 4096 = f * 4096 ↔ f = j :=
          ⟨fun he => (mul_page_inj he).symm, fun he => by rw [he]⟩
        rw [hP2, hP1, Finset.mem_insert, Finset.mem_insert]
        simp only [hpres, not_false_eq_true, true_and, hjf]
        rw [or_comm, or_comm (a := f = i), or_assoc]

variable {P' : Pool Nat} {i frame : Nat}

theorem Turn.fresh (ht : Turn kernelEnd virt flags P P' i frame m m') (h : Held kernelEnd P m)
    (hno : ¬Present m.tables (pdIdx virt)) : Fresh m.tables frame := by
  obtain ⟨j, hj, rfl, hjP, -⟩ := ht.table hno
  exact h.fresh hjP (by rw [show memSize / pageSize = 8192 by decide]; exact hj)

theorem Turn.present (ht : Turn kernelEnd virt flags P P' i frame m m') (d : Nat) :
    Present m'.tables d ↔ Present m.tables d ∨ d = pdIdx virt := by
  rw [ht.eq]
  exact pagingMap_present

theorem Turn.tables (ht : Turn kernelEnd virt flags P P' i frame m m') (h : Held kernelEnd P m)
    {d : Nat} (hd : Present m'.tables d) :
    (Present m.tables d ∧ tableOf m'.tables d = tableOf m.tables d) ∨
      ¬Present m.tables (pdIdx virt) ∧ d = pdIdx virt ∧ tableOf m'.tables d = frame := by
  rw [ht.eq] at hd ⊢
  exact pagingMap_tableOf h.translates.wired (ht.fresh h) hd

theorem Turn.kept (ht : Turn kernelEnd virt flags P P' i frame m m') (h : Held kernelEnd P m)
    {d : Nat} (hd : Present m.tables d) :
    Present m'.tables d ∧ tableOf m'.tables d = tableOf m.tables d := by
  have hd' := (ht.present d).mpr (.inl hd)
  rcases ht.tables h hd' with ⟨-, he⟩ | ⟨hno, rfl, -⟩
  · exact ⟨hd', he⟩
  · exact absurd hd hno

theorem Turn.walk (ht : Turn kernelEnd virt flags P P' i frame m m') (h : Held kernelEnd P m)
    (hv : virt < 4294967296) {q : Nat} (hq : q < 1048576) : walk m'.tables q =
      if q = virt / 4096 then some (i * 4096) else walk m.tables q := by
  have hmask := frame_target i ht.lt
  rw [pageSize] at hmask
  rw [ht.eq, (walk_map h.translates.wired hv (ht.fresh h) _ flags).2 q hq, hmask]

-- Where the page tables and the frames of a region come from, against the state m₀ before it.
structure Tabled (m₀ m : Machine) (done : List Nat) : Prop where
  sub : usedFrames m₀.pmm ⊆ usedFrames m.pmm
  tables : ∀ d < 1024, Present m.tables d →
    (Present m₀.tables d ∧ tableOf m.tables d = tableOf m₀.tables d) ∨
      ∃ f, f ∉ usedFrames m₀.pmm ∧ f ∈ usedFrames m.pmm ∧ tableOf m.tables d = f * 4096
  fresh : ∀ f ∈ usedFrames m.pmm, f ∉ usedFrames m₀.pmm →
    (∃ q ∈ done, walk m.tables q = some (f * 4096)) ∨
      ∃ d < 1024, Present m.tables d ∧ tableOf m.tables d = f * 4096
  data : ∀ q ∈ done, ∀ f, walk m.tables q = some (f * 4096) →
    ∀ d < 1024, Present m.tables d → tableOf m.tables d ≠ f * 4096

theorem Tabled.start (m : Machine) : Tabled m m [] :=
  ⟨subset_rfl, fun _ _ hp => .inl ⟨hp, rfl⟩, fun _ hf hno => absurd hf hno,
    fun _ hq => absurd hq List.not_mem_nil⟩

theorem Tabled.turn (hm : Tabled m₀ m done) (h : Held kernelEnd P m)
    (hown : ∀ q ∈ done, q < 1048576 ∧ ∃ i ∈ P.inUse, Paging.walk m.tables q = some (i * 4096))
    (hq : virt / 4096 ∉ done) (hv : virt < 4294967296)
    (ht : Turn kernelEnd virt flags P P' i frame m m') :
    Tabled m₀ m' (virt / 4096 :: done) := by
  have hused := h.counted.usedFrames
  have hused' := ht.held.counted.usedFrames
  have hkeep : ∀ q ∈ done, Paging.walk m'.tables q = Paging.walk m.tables q := fun q hqd => by
    rw [ht.walk h hv (hown q hqd).1, if_neg]
    rintro rfl
    exact hq hqd
  have hself : Paging.walk m'.tables (virt / 4096) = some (i * 4096) := by
    rw [ht.walk h hv (by omega), if_pos rfl]
  have hmono : ∀ f, f ∈ usedFrames m.pmm → f ∈ usedFrames m'.pmm := fun f hf => by
    rw [hused', ht.taken]
    exact .inl (hused ▸ hf)
  refine ⟨fun f hf => hmono f (hm.sub hf), fun d hd hd' => ?_, fun f hf hno => ?_,
    fun q hqd f hw d hd hd' he => ?_⟩
  · rcases ht.tables h hd' with ⟨hdm, he⟩ | ⟨hno, rfl, he⟩
    · rcases hm.tables d hd hdm with ⟨hd0, he0⟩ | ⟨f, hf0, hf, hef⟩
      · exact .inl ⟨hd0, he.trans he0⟩
      · exact .inr ⟨f, hf0, hmono f hf, he.trans hef⟩
    · obtain ⟨j, -, hj, hjP, -⟩ := ht.table hno
      refine .inr ⟨j, fun hj0 => hjP (hused ▸ hm.sub hj0), ?_, he.trans hj⟩
      rw [hused']
      exact (ht.taken j).mpr (.inr (.inr ⟨hno, hj⟩))
  · rw [hused', ht.taken] at hf
    rcases hf with hf | rfl | ⟨hno', hframe⟩
    · rcases hm.fresh f (hused ▸ hf) hno with ⟨q, hqd, hw⟩ | ⟨d, hd, hdm, he⟩
      · exact .inl ⟨q, List.mem_cons_of_mem _ hqd, (hkeep q hqd).trans hw⟩
      · obtain ⟨hd', he'⟩ := ht.kept h hdm
        exact .inr ⟨d, hd, hd', he'.trans he⟩
    · exact .inl ⟨virt / 4096, List.mem_cons_self, hself⟩
    · have hd : pdIdx virt < 1024 := by
        rw [pdIdx_eq]
        omega
      have hd' := (ht.present (pdIdx virt)).mpr (.inr rfl)
      refine .inr ⟨pdIdx virt, hd, hd', ?_⟩
      rcases ht.tables h hd' with ⟨hdm, -⟩ | ⟨-, -, he⟩
      · exact absurd hdm hno'
      · exact he.trans hframe
  · rcases List.mem_cons.mp hqd with rfl | hqd
    · obtain rfl := mul_page_inj (Option.some.inj (hself.symm.trans hw))
      rcases ht.tables h hd' with ⟨hdm, he'⟩ | ⟨hno, -, he'⟩
      · obtain ⟨k, hk, hkt⟩ := h.tables d hd hdm
        rw [pageSize] at hkt
        exact ht.new (mul_page_inj (he.symm.trans (he'.trans hkt)) ▸ hk)
      · obtain ⟨j, -, hj, -, hne⟩ := ht.table hno
        exact hne (mul_page_inj (hj.symm.trans (he'.symm.trans he)))
    · rw [hkeep q hqd] at hw
      rcases ht.tables h hd' with ⟨hdm, he'⟩ | ⟨hno, -, he'⟩
      · exact hm.data q hqd f hw d hd hdm (he'.symm.trans he)
      · obtain ⟨j, -, hj, hjP, -⟩ := ht.table hno
        obtain ⟨-, k, hk, hwk⟩ := hown q hqd
        obtain rfl := mul_page_inj (Option.some.inj (hw.symm.trans hwk))
        exact hjP (mul_page_inj (he.symm.trans (he'.trans hj)) ▸ hk)

theorem Tabled.congr {done' : List Nat} (hm : Tabled m₀ m done)
    (hd : ∀ q, q ∈ done' ↔ q ∈ done) : Tabled m₀ m done' :=
  ⟨hm.sub, hm.tables, fun f hf hno => (hm.fresh f hf hno).imp_left fun ⟨q, hq, hw⟩ =>
    ⟨q, (hd q).mpr hq, hw⟩, fun q hq => hm.data q ((hd q).mp hq)⟩

theorem Loading.region (hb : Bounds kernelEnd memSize) {s₀ s : AddressSpace} {U : Finset Nat}
    {img : Nat → Option UInt8} {l : List (Nat × Nat)}
    (hL : Loading kernelEnd s₀ U P s done img) (hm : Tabled m₀ s.machine done)
    (hl : ∀ v ∈ l, v.1 < 4294967296)
    (hnd : (l.map (fun v : Nat × Nat => v.1 / 4096) ++ done).Nodup)
    (hk : TablesSeen l s.machine) (hok : (Paging.mapAll l s.machine).1 = true) :
    ∃ P' img', Loading kernelEnd s₀ U P' { s with machine := (Paging.mapAll l s.machine).2 }
        (l.map (fun v => v.1 / 4096) ++ done) img' ∧
      Tabled m₀ (Paging.mapAll l s.machine).2 (l.map (fun v => v.1 / 4096) ++ done) := by
  induction l generalizing s P done img with
  | nil => exact ⟨P, img, hL, hm⟩
  | cons v l ih =>
    rw [Paging.mapAll] at hok ⊢
    cases hp : s.machine.page v.1 v.2 with
    | none =>
      rw [hp] at hok
      cases hok
    | some m1 =>
      rw [hp] at hok
      have hv := hl v List.mem_cons_self
      rw [List.map_cons, List.cons_append, List.nodup_cons, List.mem_append, not_or] at hnd
      obtain ⟨P0, i, frame, hturn⟩ := hL.held.turn hb hv hk.1 hp
      have hown : ∀ q ∈ done, q < 1048576 ∧
          ∃ i ∈ P.inUse, Paging.walk s.machine.tables q = some (i * 4096) := fun q hq => by
        obtain ⟨hlt, j, hj, -, hw⟩ := hL.own q hq
        exact ⟨hlt, j, hj, hw⟩
      have hm1 := hm.turn hL.held hown hnd.1.2 hv hturn
      obtain ⟨P1, hL1⟩ := hL.page hb hv hk.1 hp
      have hperm : (l.map (fun v : Nat × Nat => v.1 / 4096) ++ v.1 / 4096 :: done).Perm
          (v.1 / 4096 :: (l.map (fun v => v.1 / 4096) ++ done)) := List.perm_middle
      obtain ⟨P2, img2, hL2, hm2⟩ := ih hL1 hm1 (fun w hw => hl w (List.mem_cons_of_mem v hw))
        (hperm.nodup_iff.mpr (List.nodup_cons.mpr ⟨by rw [List.mem_append, not_or]; exact hnd.1,
          hnd.2⟩)) (hk.2 m1 hp) hok
      exact ⟨P2, img2, hL2.congr fun q => hperm.mem_iff.symm, hm2.congr fun q => hperm.mem_iff.symm⟩

end Tables

section Reached

variable {sym : Symbols} {kernelEnd : Nat} {m : Machine} {l : List (Nat × Nat)}

theorem mapAll_reach (hm : ((machine sym kernelEnd).restrict tablesKept).Reach m)
    (hl : ∀ v ∈ l, v.1 < 4294967296) (hk : TablesSeen l m) :
    ((machine sym kernelEnd).restrict tablesKept).Reach (mapAll l m).2 := by
  induction l generalizing m with
  | nil => exact hm
  | cons v l ih =>
    rw [mapAll]
    cases hp : m.page v.1 v.2 with
    | none => exact hm
    | some m' =>
      exact ih (hm.next (a := .page v.1 v.2) ⟨hk.1, hl v List.mem_cons_self, hp⟩)
        (fun w hw => hl w (List.mem_cons_of_mem v hw)) (hk.2 m' hp)

theorem Machine.page_present {m' : Machine} {virt flags d : Nat} (hp : m.page virt flags = some m') :
    Present m'.tables d ↔ Present m.tables d ∨ d = pdIdx virt := by
  rw [Machine.page] at hp
  split at hp
  · cases hp
  · obtain rfl := Option.some.inj hp
    exact Machine.map_present _ _ _ _ _

theorem Machine.page_obtained {m' : Machine} {virt flags : Nat} {x : Nat × Nat}
    (hp : m.page virt flags = some m') (hpres : Present m.tables (pdIdx virt))
    (hx : x ∈ m'.obtained) : x ∈ m.obtained := by
  rw [Machine.page] at hp
  split at hp
  · cases hp
  · obtain rfl := Option.some.inj hp
    exact (Machine.map_obtained _ _ _ _ hx).resolve_right fun hno => hno.1 hpres

theorem mapAll_kept {d : Nat} (hd : Present m.tables d) : Present (mapAll l m).2.tables d := by
  induction l generalizing m with
  | nil => exact hd
  | cons v l ih =>
    rw [mapAll]
    cases hp : m.page v.1 v.2 with
    | none => exact hd
    | some m' => exact ih ((Machine.page_present hp).mpr (.inl hd))

theorem mapAll_present (hok : (mapAll l m).1 = true) {v : Nat × Nat} (hv : v ∈ l) :
    Present (mapAll l m).2.tables (pdIdx v.1) := by
  induction l generalizing m with
  | nil => exact absurd hv List.not_mem_nil
  | cons w l ih =>
    rw [mapAll] at hok ⊢
    cases hp : m.page w.1 w.2 with
    | none =>
      rw [hp] at hok
      cases hok
    | some m' =>
      rw [hp] at hok
      rcases List.mem_cons.mp hv with rfl | hv
      · exact mapAll_kept ((Machine.page_present hp).mpr (.inr rfl))
      · exact ih hok hv

-- Where each page has its page table already, none is made.
theorem tablesReached_present (hp : ∀ v ∈ l, Present m.tables (pdIdx v.1))
    (hx : ∀ v ∈ l, ∀ x ∈ m.obtained, v.1 / 4096 ≠ x.1 / 4096) : TablesReached l m := by
  induction l generalizing m with
  | nil => exact trivial
  | cons v l ih =>
    have hv := hp v List.mem_cons_self
    refine ⟨fun hno => absurd hv hno, fun x hxm he => absurd he (hx v List.mem_cons_self x hxm),
      fun m' hpage => ih (fun w hw => ?_) fun w hw x hxm => ?_⟩
    · exact (Machine.page_present hpage).mpr (.inl (hp w (List.mem_cons_of_mem v hw)))
    · exact hx w (List.mem_cons_of_mem v hw) x (Machine.page_obtained hpage hv hxm)

end Reached

end Paging
