import SabakaOS.Process.ElfLoader

namespace Elf

open Word ByteMemory Prog Paging Pmm

section Layout

variable {ph : Elf32Phdr} {data : Nat → UInt8} {size : Nat}

theorem alignDown_eq {v : Nat} (h : v < 4294967296) : alignDown v 4096 = v / 4096 * 4096 :=
  and_frameMask h

theorem alignUp_eq (v : Nat) : alignUp v 4096 = u32 (v + 4095) / 4096 * 4096 :=
  and_frameMask (u32_lt _)

theorem phdr_vaddr (h : ph ∈ phdrs data) : ph.pVaddr < 4294967296 := by
  obtain ⟨i, -, rfl⟩ := List.mem_map.mp h
  exact readLE_lt data 4 _

theorem pages_lt {v : Nat × Nat} (h : v ∈ ph.pages) : v.1 < 4294967296 := by
  obtain ⟨i, -, rfl⟩ := List.mem_map.mp h
  exact u32_lt _

theorem mapSize_eq (hv : ph.pVaddr < 4294967296) :
    ph.mapSize % 4096 = 0 ∧ u32 (ph.mapSize + 4095) / 4096 = ph.mapSize / 4096 := by
  rw [Elf32Phdr.mapSize, Elf32Phdr.pageBase, Elf32Phdr.pageEnd, alignDown_eq hv, alignUp_eq]
  unfold sub32 u32
  omega

theorem mem_pages (hv : ph.pVaddr < 4294967296) {q : Nat} :
    q ∈ ph.pages.map (fun v => v.1 / 4096) ↔
      ∃ j < ph.mapSize / 4096, q = u32 (ph.pageBase + j * 4096) / 4096 := by
  rw [Elf32Phdr.pages, regionPages, (mapSize_eq hv).2, List.map_map, List.mem_map]
  constructor
  · rintro ⟨j, hj, rfl⟩
    rw [List.mem_range'_1] at hj
    exact ⟨j, by omega, rfl⟩
  · rintro ⟨j, hj, rfl⟩
    exact ⟨j, List.mem_range'_1.mpr ⟨Nat.zero_le j, by omega⟩, rfl⟩

theorem confined_mem (hv : ph.pVaddr < 4294967296) {k : Nat}
    (hk : ph.pVaddr % 4096 + k < ph.mapSize) :
    u32 (ph.pVaddr + k) / 4096 ∈ ph.pages.map (fun v => v.1 / 4096) := by
  have hsize := (mapSize_eq hv).1
  refine (mem_pages hv).mpr ⟨(ph.pVaddr % 4096 + k) / 4096, by omega, ?_⟩
  rw [Elf32Phdr.pageBase, alignDown_eq hv]
  unfold u32
  omega

end Layout

-- What a segment leaves of the bytes known before.
def segmentImage (data : Nat → UInt8) (ph : Elf32Phdr) (img : Nat → Option UInt8) :
    Nat → Option UInt8 :=
  let copied := written ph.pVaddr (fun i => data (u32 (ph.pOffset + i))) 0 ph.pFilesz
    (cleared (ph.pages.map fun v => v.1 / 4096) img)
  if ph.pFilesz < ph.pMemsz then
    written (u32 (ph.pVaddr + ph.pFilesz)) (fun _ => 0) 0 (ph.pMemsz - ph.pFilesz) copied
  else copied

def fileImage (data : Nat → UInt8) : List Elf32Phdr → (Nat → Option UInt8) → Nat → Option UInt8
  | [], img => img
  | ph :: rest, img =>
    fileImage data rest (if Loadable ph then segmentImage data ph img else img)

section Runs

variable {kernelEnd size : Nat} {s₀ s : AddressSpace} {U : Finset Nat} {P : Pool Nat}
  {done : List Nat} {img : Nat → Option UInt8} {data : Nat → UInt8} {ph : Elf32Phdr}
  {l : List Elf32Phdr}

theorem allocRegion_eq (virt n flags : Nat) : allocRegion virt n flags s =
    (some (mapAll (regionPages virt n flags) s.machine).1,
      { s with machine := (mapAll (regionPages virt n flags) s.machine).2 }) := by
  rw [allocRegion, pagingAllocRegion_eq]

theorem loadSegment_stores (data : Nat → UInt8) (hv : ph.pVaddr < 4294967296) (hc : ph.Confined)
    (hd : ∀ q ∈ ph.pages.map (fun v => v.1 / 4096), q ∈ done)
    (h : Loading kernelEnd s₀ U P s done (cleared (ph.pages.map fun v => v.1 / 4096) img)) :
    ∃ s', (do
        kmemcpy ph.pVaddr (fun i => data (u32 (ph.pOffset + i))) ph.pFilesz
        if ph.pFilesz < ph.pMemsz then
          kmemset (u32 (ph.pVaddr + ph.pFilesz)) 0 (ph.pMemsz - ph.pFilesz)
        pure true : Prog AddressSpace Bool) s = (some true, s') ∧ s'.machine = s.machine ∧
      Loading kernelEnd s₀ U P s' done (segmentImage data ph img) := by
  unfold Elf32Phdr.Confined at hc
  obtain ⟨s1, he1, hm1, h1⟩ := h.storeFrom ph.pVaddr 0 ph.pFilesz
    (fun i => data (u32 (ph.pOffset + i))) fun j _ hj => hd _ (confined_mem hv (by omega))
  rw [kmemcpy, bind_ended he1, segmentImage]
  by_cases hb : ph.pFilesz < ph.pMemsz
  · obtain ⟨s2, he2, hm2, h2⟩ := h1.storeFrom (u32 (ph.pVaddr + ph.pFilesz)) 0
      (ph.pMemsz - ph.pFilesz) (fun _ => 0) fun j _ hj => by
        rw [u32_add, Nat.add_assoc]
        exact hd _ (confined_mem hv (by omega))
    simp only [if_pos hb]
    rw [kmemset, bind_ended he2]
    exact ⟨s2, rfl, hm2.trans hm1, h2⟩
  · simp only [if_neg hb]
    exact ⟨s1, rfl, hm1, h1⟩

theorem loadSegment_runs (data : Nat → UInt8) (hb : Bounds kernelEnd memSize)
    (h : Loading kernelEnd s₀ U P s done img) (hv : ph.pVaddr < 4294967296)
    (hk : TablesSeen ph.pages s.machine) (hc : ph.Fits size → ph.Confined) :
    ∃ ok s' P' img', loadSegment data size ph s = (some ok, s') ∧
      s'.machine = (mapAll ph.pages s.machine).2 ∧
      (ok = true ↔ (mapAll ph.pages s.machine).1 = true ∧ ph.Fits size) ∧
      Loading kernelEnd s₀ U P' s' ((got ph.pages s.machine).map (· / 4096) ++ done) img' ∧
      (ok = true → img' = segmentImage data ph img) := by
  obtain ⟨P', h'⟩ := h.mapAll hb (fun v hv => pages_lt hv) hk
  have halloc := @allocRegion_eq s ph.pageBase ph.mapSize ph.flags
  rw [loadSegment, bind_ended halloc]
  change ∃ ok s' P' img', (if (!(mapAll ph.pages s.machine).1) = true then pure false
    else if ¬ph.Fits size then pure false else _ : Prog AddressSpace Bool)
      { s with machine := (mapAll ph.pages s.machine).2 } = (some ok, s') ∧ _
  by_cases hok : (mapAll ph.pages s.machine).1 = true
  · rw [if_neg (by simp [hok])]
    by_cases hfit : ph.Fits size
    · have hgot : (got ph.pages s.machine).map (· / 4096) =
          ph.pages.map fun v => v.1 / 4096 := by
        rw [got_all hok, List.map_map]
        rfl
      rw [if_neg (not_not.mpr hfit)]
      rw [hgot] at h' ⊢
      obtain ⟨s', he, hm, h2⟩ := loadSegment_stores data hv (hc hfit)
        (fun q hq => List.mem_append_left _ hq) h'
      exact ⟨true, s', P', _, he, hm, iff_of_true rfl ⟨hok, hfit⟩, h2, fun _ => rfl⟩
    · rw [if_pos hfit]
      exact ⟨false, _, P', _, rfl, rfl, iff_of_false (by decide) fun hh => hfit hh.2, h',
        fun hh => by cases hh⟩
  · rw [if_pos (by simpa using hok)]
    exact ⟨false, _, P', _, rfl, rfl, iff_of_false (by decide) fun hh => hok hh.1, h',
      fun hh => by cases hh⟩

theorem loadSegments_runs (data : Nat → UInt8) (hb : Bounds kernelEnd memSize)
    (h : Loading kernelEnd s₀ U P s done img) (hv : ∀ ph ∈ l, ph.pVaddr < 4294967296)
    (hk : TablesSeen (askedPages size l) s.machine)
    (hc : ∀ ph ∈ l, Loadable ph → ph.Fits size → ph.Confined) :
    ∃ ok s' P' img', loadSegments data size l s = (some ok, s') ∧
      s'.machine = (mapAll (askedPages size l) s.machine).2 ∧
      (ok = true ↔ (mapAll (askedPages size l) s.machine).1 = true ∧
        ∀ ph ∈ l, Loadable ph → ph.Fits size) ∧
      Loading kernelEnd s₀ U P' s'
        ((got (askedPages size l) s.machine).map (· / 4096) ++ done) img' ∧
      (ok = true → img' = fileImage data l img) := by
  induction l generalizing s P done img with
  | nil =>
    exact ⟨true, s, P, img, rfl, rfl, iff_of_true rfl ⟨rfl, fun _ h => absurd h List.not_mem_nil⟩,
      h, fun _ => rfl⟩
  | cons ph l ih =>
    have hv' : ∀ ph ∈ l, ph.pVaddr < 4294967296 := fun p hp => hv p (List.mem_cons_of_mem _ hp)
    have hc' : ∀ ph ∈ l, Loadable ph → ph.Fits size → ph.Confined :=
      fun p hp => hc p (List.mem_cons_of_mem _ hp)
    rw [askedPages] at hk ⊢
    rw [loadSegments, fileImage]
    by_cases hload : Loadable ph
    · rw [if_neg (not_not.mpr hload)] at hk ⊢
      simp only [not_true, if_false, if_true, hload, List.forall_mem_cons, forall_const]
      by_cases hfit : ph.Fits size
      · rw [if_pos hfit] at hk ⊢
        obtain ⟨hk1, hk2⟩ := tablesSeen_append hk
        obtain ⟨ok, s1, P1, img1, he1, hm1, hok1, h1, himg1⟩ := loadSegment_runs data hb h
          (hv ph List.mem_cons_self) hk1 (hc ph List.mem_cons_self hload)
        rw [bind_ended he1, mapAll_append, got_append]
        by_cases hmap : (mapAll ph.pages s.machine).1 = true
        · obtain rfl := hok1.mpr ⟨hmap, hfit⟩
          obtain ⟨ok, s2, P2, img2, he2, hm2, hok2, h2, himg2⟩ :=
            ih h1 hv' (hm1 ▸ hk2 hmap) hc'
          rw [hm1] at hm2 hok2 h2
          rw [if_pos hmap, if_pos hmap]
          refine ⟨ok, s2, P2, img2, he2, hm2, ?_, ?_, fun hh => ?_⟩
          · rw [hok2]
            exact and_congr_right fun _ => (and_iff_right hfit).symm
          · refine h2.congr fun q => ?_
            simp only [List.map_append, List.mem_append]
            exact or_assoc.trans or_left_comm
          · rw [himg2 hh, himg1 rfl]
        · have hno : ok = false := by
            cases ok with
            | false => rfl
            | true => exact absurd (hok1.mp rfl).1 hmap
          subst hno
          rw [if_neg hmap, if_neg hmap]
          exact ⟨false, s1, P1, img1, rfl, hm1, iff_of_false (by decide) fun hh => hmap hh.1, h1,
            fun hh => by cases hh⟩
      · rw [if_neg hfit] at hk ⊢
        obtain ⟨ok, s1, P1, img1, he1, hm1, hok1, h1, himg1⟩ := loadSegment_runs data hb h
          (hv ph List.mem_cons_self) hk (hc ph List.mem_cons_self hload)
        have hno : ok = false := by
          cases ok with
          | false => rfl
          | true => exact absurd (hok1.mp rfl).2 hfit
        subst hno
        rw [bind_ended he1]
        exact ⟨false, s1, P1, img1, rfl, hm1, iff_of_false (by decide) fun hh => hfit hh.2.1, h1,
          fun hh => by cases hh⟩
    · rw [if_pos hload] at hk ⊢
      simp only [hload, not_false_eq_true, if_true, if_false, List.forall_mem_cons, false_imp_iff,
        true_and]
      exact ih h hv' hk hc'

theorem measure_ok (l : List Elf32Phdr) (res : ElfLoadResult) : (measure l res).ok = res.ok := by
  induction l generalizing res with
  | nil => rfl
  | cons ph l ih =>
    rw [measure]
    split
    · exact ih res
    · exact ih _

theorem measure_le (l : List Elf32Phdr) (res : ElfLoadResult) :
    (measure l res).loadBase ≤ res.loadBase := by
  induction l generalizing res with
  | nil => exact le_rfl
  | cons ph l ih =>
    rw [measure]
    split
    · exact ih res
    · refine (ih _).trans ?_
      dsimp only
      split
      · exact Nat.le_of_lt ‹_›
      · exact le_rfl

theorem measure_lt {res : ElfLoadResult} (hv : ph.pVaddr < 4294967296) (hm : ph ∈ l)
    (hl : Loadable ph) : (measure l res).loadBase < 0xFFFFFFFF := by
  induction l generalizing res with
  | nil => exact absurd hm List.not_mem_nil
  | cons p l ih =>
    rw [measure]
    rcases List.mem_cons.mp hm with rfl | hm
    · rw [if_neg (not_not.mpr hl)]
      refine (measure_le l _).trans_lt ?_
      have hbase : ph.pageBase < 0xFFFFFFFF := by
        rw [Elf32Phdr.pageBase, alignDown_eq hv]
        omega
      dsimp only
      split
      · exact hbase
      · omega
    · split
      · exact ih hm
      · exact ih hm

theorem measure_none {res : ElfLoadResult} (h : ∀ ph ∈ l, ¬Loadable ph) : measure l res = res := by
  induction l generalizing res with
  | nil => rfl
  | cons ph l ih =>
    rw [measure, if_pos (h ph List.mem_cons_self)]
    exact ih fun p hp => h p (List.mem_cons_of_mem _ hp)

theorem askedPages_nil (h : ∀ ph ∈ l, ¬Loadable ph) : askedPages size l = [] := by
  induction l with
  | nil => rfl
  | cons ph l ih =>
    rw [askedPages, if_pos (h ph List.mem_cons_self)]
    exact ih fun p hp => h p (List.mem_cons_of_mem _ hp)

theorem elfLoad_runs (hb : Bounds kernelEnd memSize) (h : Held kernelEnd P s.machine)
    (hk : TablesSeen (filePages data size) s.machine)
    (hc : ∀ ph ∈ phdrs data, Loadable ph → ph.Fits size → ph.Confined) :
    ∃ r s' P' img', elfLoad data size s = (some r, s') ∧
      s'.machine = (mapAll (filePages data size) s.machine).2 ∧
      Loading kernelEnd s P.inUse P' s'
        ((got (filePages data size) s.machine).map (· / 4096)) img' ∧
      (r.ok = true ↔ Accepted data size ∧ (∃ ph ∈ phdrs data, Loadable ph) ∧
        (mapAll (filePages data size) s.machine).1 = true ∧
        ∀ ph ∈ phdrs data, Loadable ph → ph.Fits size) ∧
      (r.ok = true → img' = fileImage data (phdrs data) fun _ => none) := by
  have hstart := Loading.start h
  have hvaddr : ∀ ph ∈ phdrs data, ph.pVaddr < 4294967296 := fun ph => phdr_vaddr
  have hno : (measure (phdrs data) noResult).ok = false := measure_ok _ _
  rw [elfLoad]
  by_cases hacc : Accepted data size
  · have hpages : filePages data size = askedPages size (phdrs data) := if_pos hacc
    rw [hpages] at hk ⊢
    rw [if_neg (not_not.mpr hacc)]
    by_cases hbase : (measure (phdrs data) noResult).loadBase = 0xFFFFFFFF
    · have hnone : ∀ ph ∈ phdrs data, ¬Loadable ph := fun ph hm hl =>
        absurd hbase (Nat.ne_of_lt (measure_lt (hvaddr ph hm) hm hl))
      rw [if_pos hbase, askedPages_nil hnone]
      refine ⟨_, s, P, _, rfl, rfl, hstart, ?_, fun hh => by cases hno.symm.trans hh⟩
      exact iff_of_false (fun hh => by cases hno.symm.trans hh)
        fun ⟨_, ⟨ph, hm, hl⟩, _⟩ => hnone ph hm hl
    · have hsome : ∃ ph ∈ phdrs data, Loadable ph := by
        by_contra hnone
        push Not at hnone
        exact hbase (congrArg _ (measure_none hnone))
      rw [if_neg hbase]
      obtain ⟨ok, s', P', img', he, hm, hok, h', himg⟩ :=
        loadSegments_runs data hb hstart hvaddr hk hc
      rw [List.append_nil] at h'
      rw [bind_ended he]
      cases ok with
      | false =>
        refine ⟨_, s', P', img', rfl, hm, h', ?_, fun hh => by cases hno.symm.trans hh⟩
        exact iff_of_false (fun hh => by cases hno.symm.trans hh)
          fun ⟨_, _, hmap, hfit⟩ => by cases hok.mpr ⟨hmap, hfit⟩
      | true =>
        refine ⟨_, s', P', img', rfl, hm, h', ?_, fun _ => himg rfl⟩
        exact iff_of_true rfl ⟨hacc, hsome, hok.mp rfl⟩
  · have hpages : filePages data size = [] := if_neg hacc
    rw [if_pos hacc, hpages]
    exact ⟨noResult, s, P, _, rfl, rfl, hstart,
      iff_of_false (by decide) fun hh => hacc hh.1, fun hh => by cases hh⟩

end Runs

def le (n : Nat) : Nat → List UInt8
  | 0 => []
  | k + 1 => UInt8.ofNat n :: le (n / 256) k

-- A segment of one byte, the first one of the file.
def phdrBytes (vaddr : Nat) : List UInt8 :=
  le ptLoad 4 ++ le 0 4 ++ le vaddr 4 ++ le 0 4 ++ le 1 4 ++ le 1 4 ++ le 5 4 ++ le 4096 4

def elfBytes (vaddrs : List Nat) : List UInt8 :=
  le elfMagic 16 ++ le etExec 2 ++ le em386 2 ++ le 1 4 ++ le 0x40000000 4 ++ le headerSize 4 ++
    le 0 8 ++ le headerSize 2 ++ le phdrSize 2 ++ le vaddrs.length 2 ++ le 0 6 ++
    vaddrs.flatMap phdrBytes

def elfData (vaddrs : List Nat) (i : Nat) : UInt8 := (elfBytes vaddrs).getD i 0

def oneByte (vaddr : Nat) : Elf32Phdr where
  pType := ptLoad
  pOffset := 0
  pVaddr := vaddr
  pFilesz := 1
  pMemsz := 1
  pFlags := 5

end Elf
