import SabakaOS.Process.LoadIsolation

namespace Elf

open Word ByteMemory Prog Paging Pmm

def Elf32Phdr.Contains (ph : Elf32Phdr) (x : Nat) : Prop :=
  ph.pType = ptLoad ∧ ph.pVaddr ≤ x ∧ x < ph.pVaddr + ph.pMemsz

structure Valid (data : Nat → UInt8) (size : Nat) : Prop where
  small : size < 2 ^ 32
  phentsize : (header data).ePhentsize = phdrSize
  table : (header data).ePhoff + (header data).ePhnum * phdrSize ≤ size
  filesz : ∀ ph ∈ phdrs data, ph.pType = ptLoad → ph.pFilesz ≤ ph.pMemsz
  offset : ∀ ph ∈ phdrs data, ph.pType = ptLoad → ph.pOffset + ph.pFilesz ≤ 2 ^ 32
  vaddr : ∀ ph ∈ phdrs data, ph.pType = ptLoad → ph.pVaddr + ph.pMemsz ≤ 2 ^ 32
  disjoint : (phdrs data).Pairwise fun a b => ∀ x, a.Contains x → ¬b.Contains x
  outside : ∀ ph ∈ phdrs data, ∀ x, ph.Contains x → heapVirt + heapSize ≤ x

-- What the PT_LOAD segments of the file are to be after a load.
def Loaded (data : Nat → UInt8) (s : AddressSpace) : Prop :=
  ∀ ph ∈ phdrs data, ph.pType = ptLoad →
    (∀ i < ph.pFilesz, peek s (ph.pVaddr + i) = some (data (ph.pOffset + i))) ∧
    ∀ i, ph.pFilesz ≤ i → i < ph.pMemsz → peek s (ph.pVaddr + i) = some 0

-- No two segments have bytes in one page.
def PagesApart (data : Nat → UInt8) : Prop :=
  (phdrs data).Pairwise fun a b => ∀ x y, a.Contains x → b.Contains y → x / 4096 ≠ y / 4096

def Elf32Phdr.byteAt (ph : Elf32Phdr) (data : Nat → UInt8) (i : Nat) : UInt8 :=
  if i < ph.pFilesz then data (ph.pOffset + i) else 0

section Segments

variable {size x : Nat} {data : Nat → UInt8} {ph : Elf32Phdr} {img : Nat → Option UInt8}
  {l l' : List Elf32Phdr}

theorem contains_loadable (h : ph.Contains x) : Loadable ph :=
  ⟨h.1, by have := h.2; omega⟩

theorem loaded_iff {s : AddressSpace} (hv : Valid data size) : Loaded data s ↔
    ∀ ph ∈ phdrs data, ∀ x, ph.Contains x → peek s x = some (ph.byteAt data (x - ph.pVaddr)) := by
  refine forall₂_congr fun ph hm => ⟨fun h x hx => ?_, fun h hload => ⟨fun i hi => ?_,
    fun i hle hi => ?_⟩⟩
  · obtain ⟨hfile, hzero⟩ := h hx.1
    obtain ⟨i, rfl⟩ := Nat.exists_eq_add_of_le hx.2.1
    have hi : i < ph.pMemsz := by have := hx.2.2; omega
    rw [Nat.add_sub_cancel_left, Elf32Phdr.byteAt]
    by_cases hf : i < ph.pFilesz
    · rw [if_pos hf, hfile i hf]
    · rw [if_neg hf, hzero i (by omega) hi]
  · have := hv.filesz ph hm hload
    rw [h (ph.pVaddr + i) ⟨hload, by omega, by omega⟩, Nat.add_sub_cancel_left, Elf32Phdr.byteAt,
      if_pos hi]
  · rw [h (ph.pVaddr + i) ⟨hload, by omega, by omega⟩, Nat.add_sub_cancel_left, Elf32Phdr.byteAt,
      if_neg (by omega)]

theorem Valid.start (hv : Valid data size) (hm : ph ∈ phdrs data) (hl : Loadable ph) :
    heapVirt + heapSize ≤ ph.pVaddr :=
  hv.outside ph hm _ ⟨hl.1, le_rfl, by have := hl.2; omega⟩

theorem Valid.mapSize (hv : Valid data size) (hm : ph ∈ phdrs data) (hl : Loadable ph) :
    ph.mapSize = (ph.pVaddr % 4096 + ph.pMemsz + 4095) / 4096 * 4096 := by
  have hstart := hv.start hm hl
  have hend := hv.vaddr ph hm hl.1
  have hpos := hl.2
  rw [heapVirt, heapSize] at hstart
  rw [Elf32Phdr.mapSize, Elf32Phdr.pageBase, Elf32Phdr.pageEnd, alignDown_eq (phdr_vaddr hm),
    alignUp_eq]
  unfold sub32 u32
  omega

theorem Valid.confined (hv : Valid data size) (hm : ph ∈ phdrs data) (hl : Loadable ph) :
    ph.Confined := by
  have hfile := hv.filesz ph hm hl.1
  rw [Elf32Phdr.Confined, hv.mapSize hm hl, max_eq_right hfile]
  omega

theorem Valid.mem_pages (hv : Valid data size) (hm : ph ∈ phdrs data) (hl : Loadable ph)
    {q : Nat} : q ∈ ph.pages.map (fun v => v.1 / 4096) ↔ ∃ x, ph.Contains x ∧ x / 4096 = q := by
  have hend := hv.vaddr ph hm hl.1
  have hpos := hl.2
  rw [Elf.mem_pages (phdr_vaddr hm), hv.mapSize hm hl, Elf32Phdr.pageBase,
    alignDown_eq (phdr_vaddr hm), Nat.mul_div_cancel _ (by decide)]
  constructor
  · rintro ⟨j, hj, rfl⟩
    refine ⟨max ph.pVaddr ((ph.pVaddr / 4096 + j) * 4096), ⟨hl.1, by omega, by omega⟩, ?_⟩
    unfold u32
    omega
  · rintro ⟨x, ⟨-, hle, hlt⟩, rfl⟩
    refine ⟨x / 4096 - ph.pVaddr / 4096, by omega, ?_⟩
    unfold u32
    omega

theorem Valid.segmentImage (hv : Valid data size) (hm : ph ∈ phdrs data) (hl : Loadable ph)
    (img : Nat → Option UInt8) (x : Nat) : segmentImage data ph img x =
      if ph.pVaddr ≤ x ∧ x < ph.pVaddr + ph.pMemsz then some (ph.byteAt data (x - ph.pVaddr))
      else cleared (ph.pages.map fun v => v.1 / 4096) img x := by
  have hfile := hv.filesz ph hm hl.1
  have hend := hv.vaddr ph hm hl.1
  have hoff := hv.offset ph hm hl.1
  have hcopied : written ph.pVaddr (fun i => data (u32 (ph.pOffset + i))) 0 ph.pFilesz
      (cleared (ph.pages.map fun v => v.1 / 4096) img) x =
        if ph.pVaddr + 0 ≤ x ∧ x < ph.pVaddr + 0 + ph.pFilesz
        then some (data (u32 (ph.pOffset + (x - ph.pVaddr))))
        else cleared (ph.pages.map fun v => v.1 / 4096) img x := written_eq _ (by omega) x
  rw [Elf.segmentImage]
  by_cases hbss : ph.pFilesz < ph.pMemsz
  · rw [if_pos hbss, u32_of_lt (by omega), written_eq _ (by omega), hcopied]
    by_cases hin : ph.pVaddr ≤ x ∧ x < ph.pVaddr + ph.pMemsz
    · rw [if_pos hin, Elf32Phdr.byteAt]
      by_cases hx : x - ph.pVaddr < ph.pFilesz
      · rw [if_neg (by omega), if_pos (by omega), if_pos hx, u32_of_lt (by omega)]
      · rw [if_pos (by omega), if_neg hx]
    · rw [if_neg (by omega), if_neg (by omega), if_neg hin]
  · rw [if_neg hbss, hcopied]
    by_cases hin : ph.pVaddr ≤ x ∧ x < ph.pVaddr + ph.pMemsz
    · rw [if_pos (by omega), if_pos hin, Elf32Phdr.byteAt, if_pos (by omega), u32_of_lt (by omega)]
    · rw [if_neg (by omega), if_neg hin]

theorem fileImage_append (data : Nat → UInt8) (l l' : List Elf32Phdr) (img : Nat → Option UInt8) :
    fileImage data (l ++ l') img = fileImage data l' (fileImage data l img) := by
  induction l generalizing img with
  | nil => rfl
  | cons ph l ih => exact ih _

theorem Valid.fileImage_of_apart (hv : Valid data size) (hsub : ∀ ph ∈ l, ph ∈ phdrs data)
    (hl : ∀ ph ∈ l, ∀ y, ph.Contains y → y / 4096 ≠ x / 4096) :
    fileImage data l img x = img x := by
  induction l generalizing img with
  | nil => rfl
  | cons ph l ih =>
    rw [fileImage, ih (fun p hp => hsub p (List.mem_cons_of_mem _ hp))
      fun p hp => hl p (List.mem_cons_of_mem _ hp)]
    have hm := hsub ph List.mem_cons_self
    have hno := hl ph List.mem_cons_self
    by_cases hload : Loadable ph
    · have hout : ¬(ph.pVaddr ≤ x ∧ x < ph.pVaddr + ph.pMemsz) :=
        fun hin => hno x ⟨hload.1, hin⟩ rfl
      have hpage : x / 4096 ∉ ph.pages.map fun v => v.1 / 4096 := fun hx => by
        obtain ⟨y, hy, hq⟩ := (hv.mem_pages hm hload).mp hx
        exact hno y hy hq
      rw [if_pos hload, hv.segmentImage hm hload, if_neg hout, cleared, if_neg hpage]
    · rw [if_neg hload]

theorem Valid.fileImage_last (hv : Valid data size) {c : Elf32Phdr}
    (hsplit : phdrs data = l ++ c :: l') {y : Nat} (hy : c.Contains y) (hq : y / 4096 = x / 4096)
    (hl' : ∀ ph ∈ l', ∀ y, ph.Contains y → y / 4096 ≠ x / 4096) :
    (c.Contains x → fileImage data (phdrs data) img x = some (c.byteAt data (x - c.pVaddr))) ∧
    (¬c.Contains x → fileImage data (phdrs data) img x = none) := by
  have hm : c ∈ phdrs data := hsplit ▸ List.mem_append_right l List.mem_cons_self
  have hload := contains_loadable hy
  have himg : fileImage data (phdrs data) img x =
      Elf.segmentImage data c (fileImage data l img) x := by
    rw [hsplit, fileImage_append, fileImage, if_pos hload]
    exact hv.fileImage_of_apart (fun p hp => hsplit ▸
      List.mem_append_right l (List.mem_cons_of_mem c hp)) hl'
  rw [himg, hv.segmentImage hm hload]
  refine ⟨fun hx => if_pos hx.2, fun hx => ?_⟩
  rw [if_neg fun hin => hx ⟨hload.1, hin⟩, cleared,
    if_pos ((hv.mem_pages hm hload).mpr ⟨y, hy, hq⟩)]

theorem exists_last {α : Type} {p : α → Prop} {l : List α} (h : ∃ a ∈ l, p a) :
    ∃ l₁ c l₂, l = l₁ ++ c :: l₂ ∧ p c ∧ ∀ a ∈ l₂, ¬p a := by
  induction l with
  | nil =>
    obtain ⟨a, ha, -⟩ := h
    exact absurd ha List.not_mem_nil
  | cons b l ih =>
    by_cases hl : ∃ a ∈ l, p a
    · obtain ⟨l₁, c, l₂, rfl, hc, hlast⟩ := ih hl
      exact ⟨b :: l₁, c, l₂, rfl, hc, hlast⟩
    · obtain ⟨a, ha, hp⟩ := h
      obtain rfl := (List.mem_cons.mp ha).resolve_right fun hm => hl ⟨a, hm, hp⟩
      exact ⟨[], a, l, rfl, hp, fun a ha hpa => hl ⟨a, ha, hpa⟩⟩

theorem mem_askedPages (hfit : ∀ ph ∈ l, Loadable ph → ph.Fits size) (hm : ph ∈ l)
    (hl : Loadable ph) {v : Nat × Nat} (hp : v ∈ ph.pages) : v ∈ askedPages size l := by
  induction l with
  | nil => exact absurd hm List.not_mem_nil
  | cons a l ih =>
    have hrest := fun h => ih (fun p hp => hfit p (List.mem_cons_of_mem _ hp)) h
    rw [askedPages]
    by_cases ha : Loadable a
    · rw [if_neg (not_not.mpr ha), if_pos (hfit a List.mem_cons_self ha), List.mem_append]
      rcases List.mem_cons.mp hm with rfl | hm
      · exact .inl hp
      · exact .inr (hrest hm)
    · rw [if_pos ha]
      refine hrest ((List.mem_cons.mp hm).resolve_left fun he => ha (he ▸ hl))

end Segments

section Contents

variable {kernelEnd size x : Nat} {sym : Symbols} {s₀ s : AddressSpace} {U : Finset Nat}
  {P : Pool Nat} {done : List Nat} {img : Nat → Option UInt8} {data : Nat → UInt8} {m : Machine}

theorem peek_loading (h : Loading kernelEnd s₀ U P s done img) (hx : x / 4096 ∈ done) :
    ∃ a, peek s x = some ((img x).getD (s₀.ram a)) := by
  obtain ⟨-, i, -, -, hw⟩ := h.own _ hx
  refine ⟨i * 4096 + x % 4096, ?_⟩
  rw [peek, hw, Option.map_some, h.image _ hx _ hw _ (Nat.mod_lt x (by decide)), Nat.div_add_mod']

theorem Valid.confines (hv : Valid data size) :
    ∀ ph ∈ phdrs data, Loadable ph → ph.Fits size → ph.Confined :=
  fun _ hm hl _ => hv.confined hm hl

theorem Valid.loads (hb : Bounds kernelEnd memSize) (hs : sym.Linked kernelEnd)
    (hm : ((machine sym kernelEnd).restrict tablesKept).Reach m)
    (hk : TablesSeen (filePages data size) m) (hv : Valid data size)
    (hok : ∃ ram r s', elfLoad data size ⟨m, ram⟩ = (some r, s') ∧ r.ok = true)
    (ram : Nat → UInt8) : ∃ r s' U P done, elfLoad data size ⟨m, ram⟩ = (some r, s') ∧
      r.ok = true ∧
      Loading kernelEnd ⟨m, ram⟩ U P s' done (fileImage data (phdrs data) fun _ => none) ∧
      ∀ ph ∈ phdrs data, ∀ x, ph.Contains x → x / 4096 ∈ done := by
  obtain ⟨P, h⟩ := (heldInvariant hb hs).reach hm
  obtain ⟨ram₁, r₁, s₁, he₁, hr₁⟩ := hok
  obtain ⟨r, s', P₁, img, he, -, -, hiff, -⟩ := elfLoad_runs (s := ⟨m, ram₁⟩) hb h hk hv.confines
  obtain rfl : r₁ = r := Option.some.inj (congrArg Prod.fst (he₁.symm.trans he))
  obtain ⟨hacc, hsome, hmap, hfit⟩ := hiff.mp hr₁
  obtain ⟨r, s', P', img, he, -, hload, hiff, himg⟩ :=
    elfLoad_runs (s := ⟨m, ram⟩) hb h hk hv.confines
  have hr : r.ok = true := hiff.mpr ⟨hacc, hsome, hmap, hfit⟩
  rw [himg hr, got_all hmap] at hload
  refine ⟨r, s', _, P', _, he, hr, hload, fun ph hph x hx => ?_⟩
  have hl := contains_loadable hx
  obtain ⟨v, hv', hq⟩ := List.mem_map.mp ((hv.mem_pages hph hl).mpr ⟨x, hx, rfl⟩)
  have hasked : v ∈ filePages data size := by
    rw [filePages, if_pos hacc]
    exact mem_askedPages hfit hph hl hv'
  exact List.mem_map.mpr ⟨v.1, List.mem_map_of_mem hasked, hq⟩

theorem Valid.loaded_of_apart (hv : Valid data size) (hp : PagesApart data)
    (h : Loading kernelEnd s₀ U P s done (fileImage data (phdrs data) fun _ => none))
    (hdone : ∀ ph ∈ phdrs data, ∀ x, ph.Contains x → x / 4096 ∈ done) : Loaded data s := by
  refine (loaded_iff hv).mpr fun ph hm x hx => ?_
  obtain ⟨l, l', hsplit⟩ := List.append_of_mem hm
  have hapart := hp
  rw [PagesApart, hsplit, List.pairwise_append, List.pairwise_cons] at hapart
  obtain ⟨a, ha⟩ := peek_loading h (hdone ph hm x hx)
  rw [ha, (hv.fileImage_last hsplit hx rfl
    fun p hp y hy he => hapart.2.1.1 p hp x y hx hy he.symm).1 hx]
  rfl

-- The last segment in a page leaves nothing there of a segment before it.
theorem Valid.not_loaded_of_shared (hb : Bounds kernelEnd memSize) (hs : sym.Linked kernelEnd)
    (hm : ((machine sym kernelEnd).restrict tablesKept).Reach m)
    (hk : TablesSeen (filePages data size) m) (hv : Valid data size)
    (hok : ∃ ram r s', elfLoad data size ⟨m, ram⟩ = (some r, s') ∧ r.ok = true)
    (hp : ¬PagesApart data) : ∃ ram r s', elfLoad data size ⟨m, ram⟩ = (some r, s') ∧
      r.ok = true ∧ ¬Loaded data s' := by
  have hpair : ∃ a b, [a, b].Sublist (phdrs data) ∧
      ∃ x y, a.Contains x ∧ b.Contains y ∧ x / 4096 = y / 4096 := by
    by_contra hno
    push Not at hno
    exact hp (List.pairwise_iff_forall_sublist.mpr fun {a b} hab x y hx hy => hno a b hab x y hx hy)
  obtain ⟨a, b, hab, x, y, hx, hy, hq⟩ := hpair
  have hbm : b ∈ phdrs data := hab.subset (by simp)
  obtain ⟨l, c, l', hsplit, ⟨z, hz, hzq⟩, hlast⟩ :=
    exists_last (p := fun ph => ∃ z, ph.Contains z ∧ z / 4096 = x / 4096) ⟨b, hbm, y, hy, hq.symm⟩
  have hal : a ∈ l := by
    rw [hsplit, List.sublist_append_iff] at hab
    obtain ⟨l₁, l₂, he, hl₁, hl₂⟩ := hab
    cases l₁ with
    | nil =>
      have hb' : b ∈ l' := by
        rw [List.nil_append] at he
        exact (List.singleton_sublist.mp (he ▸ hl₂).tail : b ∈ l')
      exact absurd ⟨y, hy, hq.symm⟩ (hlast b hb')
    | cons a' l₁ =>
      obtain rfl : a = a' := (List.cons.inj he).1
      exact hl₁.subset List.mem_cons_self
  have hcx : ¬c.Contains x := by
    have hd := hv.disjoint
    rw [hsplit, List.pairwise_append] at hd
    exact hd.2.2 a hal c List.mem_cons_self x hx
  obtain ⟨r, s', U, P, done, he, hr, h, hdone⟩ :=
    hv.loads hb hs hm hk hok fun _ => a.byteAt data (x - a.pVaddr) + 1
  have ham : a ∈ phdrs data := hsplit ▸ List.mem_append_left _ hal
  refine ⟨_, r, s', he, hr, fun hall => ?_⟩
  obtain ⟨f, hf⟩ := peek_loading h (hdone a ham x hx)
  rw [(hv.fileImage_last hsplit hz hzq fun p hp y hy he => hlast p hp ⟨y, hy, he⟩).2 hcx,
    (loaded_iff hv).mp hall a ham x hx] at hf
  have hsucc := Option.some.inj hf
  rw [Option.getD_none] at hsucc
  exact absurd hsucc (by simp)

theorem segments_loaded_iff (hb : Bounds kernelEnd memSize) (hs : sym.Linked kernelEnd)
    (hm : ((machine sym kernelEnd).restrict tablesKept).Reach m)
    (hk : TablesSeen (filePages data size) m) (hv : Valid data size)
    (hok : ∃ ram r s', elfLoad data size ⟨m, ram⟩ = (some r, s') ∧ r.ok = true) :
    (∀ ram r s', elfLoad data size ⟨m, ram⟩ = (some r, s') → r.ok = true → Loaded data s') ↔
      PagesApart data := by
  refine ⟨fun hall => ?_, fun hp ram r s' he _ => ?_⟩
  · by_contra hp
    obtain ⟨ram, r, s', he, hr, hno⟩ := hv.not_loaded_of_shared hb hs hm hk hok hp
    exact hno (hall ram r s' he hr)
  · obtain ⟨r₁, s₁, U, P, done, he₁, -, h, hdone⟩ := hv.loads hb hs hm hk hok ram
    obtain rfl : s₁ = s' := congrArg Prod.snd (he₁.symm.trans he)
    exact hv.loaded_of_apart hp h hdone

section TwoBytes

variable {a b : Nat}

theorem oneByte_contains : (oneByte a).Contains x ↔ x = a := by
  rw [Elf32Phdr.Contains]
  change ptLoad = ptLoad ∧ a ≤ x ∧ x < a + 1 ↔ x = a
  omega

theorem valid_two (hphdrs : phdrs data = [oneByte a, oneByte b]) (hsize : size < 2 ^ 32)
    (hentsize : (header data).ePhentsize = phdrSize)
    (htable : (header data).ePhoff + (header data).ePhnum * phdrSize ≤ size) (hne : a ≠ b)
    (ha : 0xC00000 ≤ a) (ha' : a < 2 ^ 32) (hb : 0xC00000 ≤ b) (hb' : b < 2 ^ 32) :
    Valid data size where
  small := hsize
  phentsize := hentsize
  table := htable
  filesz := by
    rw [hphdrs]
    simp [oneByte]
  offset := by
    rw [hphdrs]
    simp [oneByte]
  vaddr := by
    rw [hphdrs]
    simpa [oneByte, Nat.succ_le_iff] using ⟨ha', hb'⟩
  disjoint := by
    rw [hphdrs]
    simpa [oneByte_contains] using hne
  outside := by
    rw [hphdrs]
    simpa [oneByte_contains, heapVirt, heapSize] using ⟨ha, hb⟩

theorem boot_two {data : Nat → UInt8} (hphdrs : phdrs data = [oneByte a, oneByte b])
    (hpages : filePages data 116 = [(a / 4096 * 4096, 5), (b / 4096 * 4096, 5)])
    (hacc : Accepted data 116) (ha : 0xC00000 ≤ a) (ha' : a < 2 ^ 32) (hb : 0xC00000 ≤ b)
    (hb' : b < 2 ^ 32) (hv : Valid data 116) : TablesSeen (filePages data 116) sixBoot ∧
      ∃ ram r s', elfLoad data 116 ⟨sixBoot, ram⟩ = (some r, s') ∧ r.ok = true := by
  obtain ⟨hseen, hmap⟩ := low_sixBoot.all (l := filePages data 116) (by simp [hpages]) (by
    rw [hpages]
    simp only [List.forall_mem_cons, List.not_mem_nil, false_imp_iff, implies_true, and_true]
    omega)
  obtain ⟨r, s', P', img, he, -, -, hiff, -⟩ :=
    elfLoad_runs (s := bootSpace) sixBounds low_sixBoot.held hseen hv.confines
  refine ⟨hseen, _, r, s', he, hiff.mpr ⟨hacc, ?_, hmap, ?_⟩⟩
  · rw [hphdrs]
    exact ⟨_, List.mem_cons_self, rfl, by simp [oneByte]⟩
  · rw [hphdrs]
    simp [Elf32Phdr.Fits, oneByte, u32]

theorem segments_loaded_two : ∃ ram r s', elfLoad (elfData [0x40000000, 0x40001000]) 116
    ⟨sixBoot, ram⟩ = (some r, s') ∧ Loaded (elfData [0x40000000, 0x40001000]) s' := by
  have hphdrs : phdrs (elfData [0x40000000, 0x40001000]) =
      [oneByte 0x40000000, oneByte 0x40001000] := by decide +kernel
  have hv : Valid (elfData [0x40000000, 0x40001000]) 116 :=
    valid_two hphdrs (by decide) (by decide +kernel) (by decide +kernel) (by decide) (by decide)
      (by decide) (by decide) (by decide)
  obtain ⟨hseen, ram, r, s', he, hr⟩ := boot_two hphdrs (by decide +kernel) (by decide +kernel)
    (by decide) (by decide) (by decide) (by decide) hv
  have hapart : PagesApart (elfData [0x40000000, 0x40001000]) := by
    rw [PagesApart, hphdrs]
    simp [oneByte_contains]
  exact ⟨ram, r, s', he, (segments_loaded_iff sixBounds sixLinked bootSpace_reach hseen hv
    ⟨ram, r, s', he, hr⟩).mpr hapart ram r s' he hr⟩

-- Of two bytes in one page the second one's frame takes the place of the first one's.
theorem segments_loaded_fails : ¬∀ (kernelEnd size : Nat) (sym : Symbols) (s s' : AddressSpace)
    (data : Nat → UInt8) (r : ElfLoadResult), Bounds kernelEnd memSize → sym.Linked kernelEnd →
    ((machine sym kernelEnd).restrict tablesKept).Reach s.machine → Valid data size →
    elfLoad data size s = (some r, s') → r.ok = true → Loaded data s' := by
  intro hall
  have hphdrs : phdrs (elfData [0x40000000, 0x40000800]) =
      [oneByte 0x40000000, oneByte 0x40000800] := by decide +kernel
  have hv : Valid (elfData [0x40000000, 0x40000800]) 116 :=
    valid_two hphdrs (by decide) (by decide +kernel) (by decide +kernel) (by decide) (by decide)
      (by decide) (by decide) (by decide)
  obtain ⟨hseen, hok⟩ := boot_two hphdrs (by decide +kernel) (by decide +kernel) (by decide)
    (by decide) (by decide) (by decide) hv
  have hshared : ¬PagesApart (elfData [0x40000000, 0x40000800]) := by
    rw [PagesApart, hphdrs]
    simp [oneByte_contains]
  obtain ⟨ram, r, s', he, hr, hno⟩ :=
    hv.not_loaded_of_shared sixBounds sixLinked bootSpace_reach hseen hok hshared
  exact hno (hall _ 116 _ ⟨sixBoot, ram⟩ s' _ r sixBounds sixLinked bootSpace_reach hv he hr)

end TwoBytes

end Contents

end Elf
