import SabakaOS.Library.Prog
import SabakaOS.Memory.IdentityWindow

namespace Paging

open Word Prog Pmm

-- ram holds the bytes of the page frames at their physical addresses, page tables aside.
structure AddressSpace where
  machine : Machine
  ram : Nat → UInt8

-- A store to a page that is not mapped ends in a page fault.
def store (virt : Nat) (b : UInt8) : Prog AddressSpace Unit := fun s =>
  match walk s.machine.tables (virt / 4096) with
  | none => (none, s)
  | some frame => (some (), { s with ram := Function.update s.ram (frame + virt % 4096) b })

def peek (s : AddressSpace) (virt : Nat) : Option UInt8 :=
  (walk s.machine.tables (virt / 4096)).map fun frame => s.ram (frame + virt % 4096)

def storeFrom (dst : Nat) (f : Nat → UInt8) (i : Nat) : Nat → Prog AddressSpace Unit
  | 0 => pure ()
  | n + 1 => do
    store (u32 (dst + i)) (f i)
    storeFrom dst f (i + 1) n

-- src gives the bytes from the source pointer on.
def kmemcpy (dst : Nat) (src : Nat → UInt8) (n : Nat) : Prog AddressSpace Unit :=
  storeFrom dst src 0 n

def kmemset (dst : Nat) (val : UInt8) (n : Nat) : Prog AddressSpace Unit :=
  storeFrom dst (fun _ => val) 0 n

def allocRegion (virt size flags : Nat) : Prog AddressSpace Bool := fun s =>
  (some (pagingAllocRegion s.machine virt size flags).1,
    { s with machine := (pagingAllocRegion s.machine virt size flags).2 })

-- Pages are asked for with their flags, one after the other, until memory runs out.
def mapAll : List (Nat × Nat) → Machine → Bool × Machine
  | [], m => (true, m)
  | v :: rest, m =>
    match m.page v.1 v.2 with
    | none => (false, m)
    | some m => mapAll rest m

-- The addresses that mapAll gets a page for.
def got : List (Nat × Nat) → Machine → List Nat
  | [], _ => []
  | v :: rest, m =>
    match m.page v.1 v.2 with
    | none => []
    | some m => v.1 :: got rest m

-- Each page is asked for in a state where the page tables stay where the kernel sees them.
def TablesSeen : List (Nat × Nat) → Machine → Prop
  | [], _ => True
  | v :: rest, m => tablesKept m (.page v.1 v.2) ∧ ∀ m', m.page v.1 v.2 = some m' → TablesSeen rest m'

def regionPages (virt size flags : Nat) : List (Nat × Nat) :=
  (List.range' 0 (u32 (size + 4095) / 4096)).map fun i => (u32 (virt + i * 4096), flags)

section Lists

variable {l l' : List (Nat × Nat)} {m : Machine}

theorem pagesFrom_eq (virt flags i n : Nat) (m : Machine) : pagesFrom virt flags i n m =
    mapAll ((List.range' i n).map fun j => (u32 (virt + j * 4096), flags)) m := by
  induction n generalizing i m with
  | zero => rfl
  | succ n ih =>
    rw [pagesFrom, List.range'_succ, List.map_cons, mapAll]
    cases m.page (u32 (virt + i * 4096)) flags with
    | none => rfl
    | some m' => exact ih _ _

theorem pagingAllocRegion_eq (m : Machine) (virt size flags : Nat) :
    pagingAllocRegion m virt size flags = mapAll (regionPages virt size flags) m :=
  pagesFrom_eq virt flags 0 _ m

theorem mapAll_append : mapAll (l ++ l') m =
    if (mapAll l m).1 = true then mapAll l' (mapAll l m).2 else mapAll l m := by
  induction l generalizing m with
  | nil => rfl
  | cons v l ih =>
    rw [List.cons_append, mapAll, mapAll]
    cases m.page v.1 v.2 with
    | none => rfl
    | some m' => exact ih

theorem got_append : got (l ++ l') m =
    if (mapAll l m).1 = true then got l m ++ got l' (mapAll l m).2 else got l m := by
  induction l generalizing m with
  | nil => rfl
  | cons v l ih =>
    rw [List.cons_append, mapAll, got, got]
    cases m.page v.1 v.2 with
    | none => rfl
    | some m' =>
      dsimp only
      rw [ih]
      split
      · rfl
      · rfl

theorem got_all (h : (mapAll l m).1 = true) : got l m = l.map Prod.fst := by
  induction l generalizing m with
  | nil => rfl
  | cons v l ih =>
    rw [mapAll] at h
    rw [got]
    cases hp : m.page v.1 v.2 with
    | none =>
      rw [hp] at h
      cases h
    | some m' =>
      rw [hp] at h
      dsimp only
      rw [ih h, List.map_cons]

theorem tablesSeen_append (h : TablesSeen (l ++ l') m) :
    TablesSeen l m ∧ ((mapAll l m).1 = true → TablesSeen l' (mapAll l m).2) := by
  induction l generalizing m with
  | nil => exact ⟨trivial, fun _ => h⟩
  | cons v l ih =>
    refine ⟨⟨h.1, fun m' hm => (ih (h.2 m' hm)).1⟩, fun hok => ?_⟩
    rw [mapAll] at hok ⊢
    cases hp : m.page v.1 v.2 with
    | none =>
      rw [hp] at hok
      cases hok
    | some m' =>
      rw [hp] at hok
      exact (ih (h.2 m' hp)).2 hok

end Lists

-- A load that started at s₀ with the frames U in use has mapped the pages done to frames of its
-- own, each to another. img gives the bytes written there since a page was last mapped.
structure Loading (kernelEnd : Nat) (s₀ : AddressSpace) (U : Finset Nat) (P : Pool Nat)
    (s : AddressSpace) (done : List Nat) (img : Nat → Option UInt8) : Prop where
  held : Held kernelEnd P s.machine
  sub : U ⊆ P.inUse
  own : ∀ q ∈ done, q < 1048576 ∧
    ∃ i ∈ P.inUse, i ∉ U ∧ walk s.machine.tables q = some (i * 4096)
  apart : ∀ q ∈ done, ∀ q' ∈ done,
    walk s.machine.tables q = walk s.machine.tables q' → q = q'
  others : ∀ q < 1048576, q ∉ done → walk s.machine.tables q = walk s₀.machine.tables q
  kept : ∀ a, a / 4096 ∈ U ∨ a / 4096 ∉ P.inUse → s.ram a = s₀.ram a
  image : ∀ q ∈ done, ∀ f, walk s.machine.tables q = some f → ∀ o < 4096,
    s.ram (f + o) = (img (q * 4096 + o)).getD (s₀.ram (f + o))

-- What is known of the bytes once the pages of l have been mapped anew.
def cleared (l : List Nat) (img : Nat → Option UInt8) : Nat → Option UInt8 :=
  fun x => if x / 4096 ∈ l then none else img x

def written (dst : Nat) (f : Nat → UInt8) (i : Nat) :
    Nat → (Nat → Option UInt8) → Nat → Option UInt8
  | 0, img => img
  | n + 1, img => written dst f (i + 1) n (Function.update img (u32 (dst + i)) (some (f i)))

section Load

variable {kernelEnd virt flags : Nat} {s₀ s : AddressSpace} {U : Finset Nat} {P : Pool Nat}
  {done done' : List Nat} {img : Nat → Option UInt8} {m' : Machine} {l : List (Nat × Nat)}

theorem Loading.start (h : Held kernelEnd P s.machine) :
    Loading kernelEnd s P.inUse P s [] fun _ => none :=
  ⟨h, subset_rfl, fun _ hq => absurd hq List.not_mem_nil, fun _ hq => absurd hq List.not_mem_nil,
    fun _ _ _ => rfl, fun _ _ => rfl, fun _ hq => absurd hq List.not_mem_nil⟩

theorem Loading.congr (h : Loading kernelEnd s₀ U P s done img)
    (hd : ∀ q, q ∈ done' ↔ q ∈ done) : Loading kernelEnd s₀ U P s done' img :=
  ⟨h.held, h.sub, fun q hq => h.own q ((hd q).mp hq),
    fun q hq q' hq' => h.apart q ((hd q).mp hq) q' ((hd q').mp hq'),
    fun q hlt hq => h.others q hlt fun hq' => hq ((hd q).mpr hq'), h.kept,
    fun q hq => h.image q ((hd q).mp hq)⟩

theorem Held.page (hb : Bounds kernelEnd memSize) {m : Machine} (h : Held kernelEnd P m)
    (hv : virt < 4294967296) (hk : tablesKept m (.page virt flags))
    (hp : m.page virt flags = some m') :
    ∃ P' i, Held kernelEnd P' m' ∧ i ∉ P.inUse ∧ i ∈ P'.inUse ∧ P.inUse ⊆ P'.inUse ∧
      ∀ q < 1048576, walk m'.tables q =
        if q = virt / 4096 then some (i * 4096) else walk m.tables q := by
  rw [Machine.page] at hp
  split at hp
  · cases hp
  · rename_i hne
    obtain rfl := Option.some.inj hp
    obtain ⟨P1, i, hi, hri, hP1, h1⟩ := h.alloc hb hne
    obtain ⟨P2, h2, hsame, hnew⟩ := h1.map hb hv (pmmAlloc m.pmm).1 flags hk
    have hsub : P1.inUse ⊆ P2.inUse := by
      by_cases hpres : Present m.tables (pdIdx virt)
      · rw [hsame hpres]
      · obtain ⟨j, -, -, hP2⟩ := hnew hpres
        rw [hP2]
        exact Finset.subset_insert _ _
    have hiP1 : i ∈ P1.inUse := hP1 ▸ Finset.mem_insert_self _ _
    have hlt : i < 8192 := by
      have := h1.rep.bound i hiP1
      have hn : memSize / pageSize = 8192 := by decide
      omega
    refine ⟨P2, i, h2, hi, hsub hiP1, fun j hj => hsub (hP1 ▸ Finset.mem_insert_of_mem hj),
      fun q hq => ?_⟩
    rw [h2.translates.walk_eq q hq, Machine.map_target, hri, frame_target i hlt,
      h.translates.walk_eq q hq]

theorem frame_div (i : Nat) {o : Nat} (ho : o < 4096) : (i * 4096 + o) / 4096 = i := by
  omega

theorem Loading.page (hb : Bounds kernelEnd memSize) (h : Loading kernelEnd s₀ U P s done img)
    (hv : virt < 4294967296) (hk : tablesKept s.machine (.page virt flags))
    (hp : s.machine.page virt flags = some m') :
    ∃ P', Loading kernelEnd s₀ U P' { s with machine := m' } (virt / 4096 :: done)
      (cleared [virt / 4096] img) := by
  obtain ⟨P', i, hheld, hi, hi', hsub, hwalk⟩ := h.held.page hb hv hk hp
  have hself : walk m'.tables (virt / 4096) = some (i * 4096) := by
    rw [hwalk _ (by omega), if_pos rfl]
  have hother : ∀ q ∈ done, q ≠ virt / 4096 → walk m'.tables q = walk s.machine.tables q :=
    fun q hq hne => by rw [hwalk q (h.own q hq).1, if_neg hne]
  -- no page mapped before has the new frame
  have hnew : ∀ q ∈ done, walk s.machine.tables q ≠ some (i * 4096) := fun q hq he => by
    obtain ⟨-, j, hj, -, hw⟩ := h.own q hq
    have := Option.some.inj (hw.symm.trans he)
    obtain rfl : j = i := by omega
    exact hi hj
  refine ⟨P', hheld, fun j hj => hsub (h.sub hj), fun q hq => ?_, fun q hq q' hq' he => ?_,
    fun q hlt hq => ?_, fun a ha => ?_, fun q hq f hf o ho => ?_⟩
  · by_cases hqv : q = virt / 4096
    · subst hqv
      exact ⟨by omega, i, hi', fun hu => hi (h.sub hu), hself⟩
    · have hq := (List.mem_cons.mp hq).resolve_left hqv
      obtain ⟨hlt, j, hj, hju, hw⟩ := h.own q hq
      exact ⟨hlt, j, hsub hj, hju, (hother q hq hqv).trans hw⟩
  · change walk m'.tables q = walk m'.tables q' at he
    by_cases hqv : q = virt / 4096
    · by_cases hqv' : q' = virt / 4096
      · rw [hqv, hqv']
      · have hq' := (List.mem_cons.mp hq').resolve_left hqv'
        rw [hqv, hself, hother q' hq' hqv'] at he
        exact absurd he.symm (hnew q' hq')
    · have hq := (List.mem_cons.mp hq).resolve_left hqv
      by_cases hqv' : q' = virt / 4096
      · rw [hqv', hself, hother q hq hqv] at he
        exact absurd he (hnew q hq)
      · have hq' := (List.mem_cons.mp hq').resolve_left hqv'
        rw [hother q hq hqv, hother q' hq' hqv'] at he
        exact h.apart q hq q' hq' he
  · rw [List.mem_cons, not_or] at hq
    exact ((hwalk q hlt).trans (if_neg hq.1)).trans (h.others q hlt hq.2)
  · exact h.kept a (ha.imp_right fun hn hm => hn (hsub hm))
  · change walk m'.tables q = some f at hf
    unfold cleared
    rw [frame_div q ho]
    by_cases hqv : q = virt / 4096
    · rw [if_pos (List.mem_singleton.mpr hqv)]
      rw [hqv, hself] at hf
      obtain rfl := Option.some.inj hf
      have hfree : (i * 4096 + o) / 4096 ∉ P.inUse := by rwa [frame_div i ho]
      exact h.kept _ (.inr hfree)
    · have hq := (List.mem_cons.mp hq).resolve_left hqv
      rw [if_neg (fun hm => hqv (List.mem_singleton.mp hm))]
      exact h.image q hq f ((hother q hq hqv).symm.trans hf) o ho

theorem Loading.mapAll (hb : Bounds kernelEnd memSize) (h : Loading kernelEnd s₀ U P s done img)
    (hl : ∀ v ∈ l, v.1 < 4294967296) (hk : TablesSeen l s.machine) :
    ∃ P', Loading kernelEnd s₀ U P' { s with machine := (mapAll l s.machine).2 }
      ((got l s.machine).map (· / 4096) ++ done)
      (cleared ((got l s.machine).map (· / 4096)) img) := by
  induction l generalizing s P done img with
  | nil => exact ⟨P, h⟩
  | cons v l ih =>
    rw [Paging.mapAll, got]
    cases hp : s.machine.page v.1 v.2 with
    | none => exact ⟨P, h⟩
    | some m' =>
      obtain ⟨P1, h1⟩ := h.page hb (hl v List.mem_cons_self) hk.1 hp
      obtain ⟨P2, h2⟩ := ih h1 (fun w hw => hl w (List.mem_cons_of_mem v hw)) (hk.2 m' hp)
      have himg : cleared ((got l m').map (· / 4096)) (cleared [v.1 / 4096] img) =
          cleared ((v.1 :: got l m').map (· / 4096)) img := by
        funext x
        unfold cleared
        rw [List.map_cons]
        by_cases hx : x / 4096 ∈ (got l m').map (· / 4096)
        · rw [if_pos hx, if_pos (List.mem_cons_of_mem _ hx)]
        · rw [if_neg hx]
          simp only [List.mem_cons, hx, or_false, List.not_mem_nil]
      rw [← himg]
      refine ⟨P2, h2.congr fun q => ?_⟩
      simp only [List.map_cons, List.cons_append, List.mem_cons, List.mem_append]
      exact or_left_comm.symm

theorem Loading.store (h : Loading kernelEnd s₀ U P s done img) {x : Nat}
    (hx : x / 4096 ∈ done) (b : UInt8) : ∃ s', store x b s = (some (), s') ∧
      s'.machine = s.machine ∧
      Loading kernelEnd s₀ U P s' done (Function.update img x (some b)) := by
  obtain ⟨hlt, i, hi, hiU, hw⟩ := h.own _ hx
  have hst : Paging.store x b s = (some (), { s with
      ram := Function.update s.ram (i * 4096 + x % 4096) b }) := by rw [Paging.store, hw]
  have hframe := frame_div i (Nat.mod_lt x (show 0 < 4096 by decide))
  refine ⟨_, hst, rfl, h.held, h.sub, h.own, h.apart, h.others, fun a ha => ?_,
    fun q hq f hf o ho => ?_⟩
  · have hne : a ≠ i * 4096 + x % 4096 := by
      rintro rfl
      rw [hframe] at ha
      exact ha.elim hiU fun hn => hn hi
    exact (Function.update_of_ne hne ..).trans (h.kept a ha)
  · change Function.update s.ram (i * 4096 + x % 4096) b (f + o) = _
    obtain ⟨-, j, hj, hjU, hwq⟩ := h.own q hq
    have hfj : f = j * 4096 := Option.some.inj (hf.symm.trans hwq)
    by_cases hqx : q * 4096 + o = x
    · have hq : q = x / 4096 := by omega
      have ho' : o = x % 4096 := by omega
      rw [hq, hw] at hf
      obtain rfl := Option.some.inj hf
      rw [hqx, ho', Function.update_self, Function.update_self]
      rfl
    · have hne : f + o ≠ i * 4096 + x % 4096 := fun he => by
        have hij : j = i := by omega
        have hqe : q = x / 4096 := h.apart q hq _ hx (by rw [hwq, hw, hij])
        omega
      rw [Function.update_of_ne hne, Function.update_of_ne hqx]
      exact h.image q hq f hf o ho

theorem Loading.storeFrom (h : Loading kernelEnd s₀ U P s done img) (dst i n : Nat)
    (f : Nat → UInt8) (hd : ∀ j, i ≤ j → j < i + n → u32 (dst + j) / 4096 ∈ done) :
    ∃ s', storeFrom dst f i n s = (some (), s') ∧ s'.machine = s.machine ∧
      Loading kernelEnd s₀ U P s' done (written dst f i n img) := by
  induction n generalizing s i img with
  | zero => exact ⟨s, rfl, rfl, h⟩
  | succ n ih =>
    obtain ⟨s1, he1, hm1, h1⟩ := h.store (hd i le_rfl (by omega)) (f i)
    obtain ⟨s2, he2, hm2, h2⟩ := ih h1 (i + 1) fun j hj hlt => hd j (by omega) (by omega)
    refine ⟨s2, ?_, hm2.trans hm1, h2⟩
    rw [Paging.storeFrom, bind_ended he1, he2]

theorem written_eq {dst i n : Nat} (f : Nat → UInt8) (hlt : dst + i + n ≤ 4294967296) (x : Nat) :
    written dst f i n img x =
      if dst + i ≤ x ∧ x < dst + i + n then some (f (x - dst)) else img x := by
  induction n generalizing i img with
  | zero => rw [written, if_neg (by omega)]
  | succ n ih =>
    rw [written, ih (by omega), u32_of_lt (by omega)]
    by_cases hx : x = dst + i
    · subst hx
      rw [if_neg (by omega), Function.update_self, if_pos (by omega), Nat.add_sub_cancel_left]
    · rw [Function.update_of_ne hx]
      by_cases hin : dst + (i + 1) ≤ x ∧ x < dst + (i + 1) + n
      · rw [if_pos hin, if_pos (by omega)]
      · rw [if_neg hin, if_neg (by omega)]

end Load

section Window

-- A kernel of 6 MiB that has handed out its first frames only and has every page of the identity
-- window where it was.
structure Low (u : Nat) (P : Pool Nat) (m : Machine) : Prop where
  held : Held 0x600000 P m
  pos : 0 < u
  used : ∀ j, j ∈ P.inUse ↔ j < u
  window : ∀ q < 2048, target m.calls q = some (q * 4096)
  tables : ∀ x ∈ m.obtained, x.1 < heapVirt

variable {u virt : Nat} {P : Pool Nat} {m : Machine} {l : List (Nat × Nat)}

theorem low_sixBoot : Low 0x600 (bootPool 0x600000) sixBoot where
  held := boot_held sixBounds sixLinked _ _
  pos := by decide
  used := sixBoot_used
  window q hq := by
    rw [target, show latest sixBoot.calls q = none from rfl]
    exact if_pos hq
  tables x hx := absurd hx List.not_mem_nil

theorem Low.page (h : Low u P m) (hu : u + 2 ≤ 2048) (hv : virt < 4294967296)
    (hout : 2048 ≤ virt / 4096) (flags : Nat) : tablesKept m (.page virt flags) ∧
      ∃ P' m' u', m.page virt flags = some m' ∧ u' ≤ u + 2 ∧ Low u' P' m' := by
  have hr : (pmmAlloc m.pmm).1 = u * pageSize := h.held.least (by omega) h.used
  have hpos := h.pos
  have hne : (pmmAlloc m.pmm).1 ≠ 0 := by
    rw [hr, pageSize]
    omega
  obtain ⟨P1, i, -, hri, hP1, h1⟩ := h.held.alloc sixBounds hne
  obtain rfl : i = u := Nat.eq_of_mul_eq_mul_right (by decide) (hri.symm.trans hr)
  have hused1 : ∀ j, j ∈ P1.inUse ↔ j < i + 1 := fun j => by
    rw [hP1, Finset.mem_insert, h.used]
    omega
  have hr1 : (pmmAlloc (pmmAlloc m.pmm).2).1 = (i + 1) * pageSize := h1.least (by omega) hused1
  have hsize : pageSize = 4096 := rfl
  have hk : tablesKept m (.page virt flags) := by
    refine ⟨fun _ => ?_, fun x hx he => ?_⟩
    · change (pmmAlloc (pmmAlloc m.pmm).2).1 ≠ 0 ∧
        target m.calls ((pmmAlloc (pmmAlloc m.pmm).2).1 / 4096) = some (pmmAlloc (pmmAlloc m.pmm).2).1
      rw [hr1, hsize, Nat.mul_div_cancel _ (by decide)]
      exact ⟨by omega, h.window _ (by omega)⟩
    · have := h.tables x hx
      rw [heapVirt] at this
      omega
  obtain ⟨P2, h2, hsame, hnew⟩ := h1.map sixBounds hv (pmmAlloc m.pmm).1 flags hk
  have hwindow : ∀ q < 2048, target ((({ m with pmm := (pmmAlloc m.pmm).2 } : Machine).map virt
      (pmmAlloc m.pmm).1 flags).calls) q = some (q * 4096) := fun q hq => by
    rw [Machine.map_target, if_neg (by omega)]
    exact h.window q hq
  have htables : ∀ x ∈ (({ m with pmm := (pmmAlloc m.pmm).2 } : Machine).map virt
      (pmmAlloc m.pmm).1 flags).obtained, x.1 < heapVirt := fun x hx => by
    rcases Machine.map_obtained _ _ _ _ hx with hx | ⟨-, hx⟩
    · exact h.tables x hx
    · rw [hx, hr1, hsize, heapVirt]
      omega
  refine ⟨hk, P2, ({ m with pmm := (pmmAlloc m.pmm).2 } : Machine).map virt (pmmAlloc m.pmm).1 flags,
    ?_⟩
  by_cases hp : Present m.tables (pdIdx virt)
  · refine ⟨i + 1, Machine.page_eq flags hne, by omega, h2, by omega, fun j => ?_, hwindow, htables⟩
    rw [hsame hp, hused1]
  · obtain ⟨i', -, hri', hP2⟩ := hnew hp
    obtain rfl : i' = i + 1 := Nat.eq_of_mul_eq_mul_right (by decide) (hri'.symm.trans hr1)
    refine ⟨i + 2, Machine.page_eq flags hne, by omega, h2, by omega, fun j => ?_, hwindow, htables⟩
    rw [hP2, Finset.mem_insert, hused1]
    omega

theorem Low.all (h : Low u P m) (hu : u + 2 * l.length ≤ 2048)
    (hl : ∀ v ∈ l, v.1 < 4294967296 ∧ 2048 ≤ v.1 / 4096) :
    TablesSeen l m ∧ (mapAll l m).1 = true := by
  induction l generalizing u P m with
  | nil => exact ⟨trivial, rfl⟩
  | cons v l ih =>
    rw [List.length_cons] at hu
    obtain ⟨hv, hout⟩ := hl v List.mem_cons_self
    obtain ⟨hk, P', m', u', hp, hle, h'⟩ := h.page (by omega) hv hout v.2
    obtain ⟨hseen, hmap⟩ := ih h' (by omega) fun w hw => hl w (List.mem_cons_of_mem v hw)
    refine ⟨⟨hk, fun m'' hm => ?_⟩, ?_⟩
    · obtain rfl := Option.some.inj (hp.symm.trans hm)
      exact hseen
    · rw [mapAll, hp]
      exact hmap

end Window

end Paging
