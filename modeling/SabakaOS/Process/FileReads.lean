import SabakaOS.Process.LoadIsolation

namespace Elf

open Word ByteMemory Prog Paging

-- reads lists the offsets of the bytes of the file that have been read.
structure Loader where
  space : AddressSpace
  reads : List Nat

def Loader.read (w : Loader) (o n : Nat) : Loader :=
  { w with reads := w.reads ++ List.range' o n }

def Loader.Inside (w : Loader) (size : Nat) : Prop := ∀ o ∈ w.reads, o < size

def readField (data : Nat → UInt8) (n o : Nat) : Prog Loader Nat := fun w =>
  (some (readLE data n o), w.read o n)

def readByte (data : Nat → UInt8) (o : Nat) : Prog Loader UInt8 := fun w =>
  (some (data o), w.read o 1)

def inSpace {α : Type} (p : Prog AddressSpace α) : Prog Loader α := fun w =>
  ((p w.space).1, { w with space := (p w.space).2 })

def copyFile (data : Nat → UInt8) (dst src i : Nat) : Nat → Prog Loader Unit
  | 0 => pure ()
  | n + 1 => do
    let b ← readByte data (u32 (src + i))
    inSpace (store (u32 (dst + i)) b)
    copyFile data dst src (i + 1) n

def readHeaderOffset (data : Nat → UInt8) (i : Nat) : Prog Loader Nat := do
  let phoff ← readField data 4 28
  let phentsize ← readField data 2 42
  pure (u32 (phoff + i * phentsize))

-- The first lines of either loop; none where it goes on to the next header.
def readLoadable (data : Nat → UInt8) (i : Nat) : Prog Loader (Option Nat) := do
  let ph ← readHeaderOffset data i
  let type ← readField data 4 ph
  if type ≠ ptLoad then pure none
  else do
    let memsz ← readField data 4 (ph + 20)
    if memsz = 0 then pure none else pure (some ph)

def readMeasure (data : Nat → UInt8) : List Nat → ElfLoadResult → Prog Loader ElfLoadResult
  | [], res => pure res
  | i :: rest, res => do
    let loadable ← readLoadable data i
    match loadable with
    | none => readMeasure data rest res
    | some ph => do
      let vaddr ← readField data 4 (ph + 8)
      let memsz ← readField data 4 (ph + 20)
      let segStart := alignDown vaddr 4096
      let segEnd := alignUp (u32 (vaddr + memsz)) 4096
      readMeasure data rest { res with
        loadBase := if segStart < res.loadBase then segStart else res.loadBase
        loadEnd := if res.loadEnd < segEnd then segEnd else res.loadEnd }

def readContents (data : Nat → UInt8) (size ph vaddr filesz : Nat) : Prog Loader Bool :=
  if filesz = 0 then pure true
  else do
    let offset ← readField data 4 (ph + 4)
    if size < u32 (offset + filesz) then pure false
    else do
      copyFile data vaddr offset 0 filesz
      pure true

-- What is left of p_memsz behind the copied bytes.
def zeroRest (vaddr filesz memsz : Nat) : Prog AddressSpace Bool := do
  if filesz < memsz then kmemset (u32 (vaddr + filesz)) 0 (memsz - filesz)
  pure true

def readMapped (data : Nat → UInt8) (size ph vaddr memsz : Nat) : Prog Loader Bool := do
  let filesz ← readField data 4 (ph + 16)
  let fits ← readContents data size ph vaddr filesz
  if !fits then pure false else inSpace (zeroRest vaddr filesz memsz)

def readSegment (data : Nat → UInt8) (size ph : Nat) : Prog Loader Bool := do
  let vaddr ← readField data 4 (ph + 8)
  let memsz ← readField data 4 (ph + 20)
  let pageBase := alignDown vaddr 4096
  let mapSize := sub32 (alignUp (u32 (vaddr + memsz)) 4096) pageBase
  let pflags ← readField data 4 (ph + 24)
  let flags := if pflags &&& pfW ≠ 0 then pagePresent ||| pageUser ||| pageWrite
    else pagePresent ||| pageUser
  let mapped ← inSpace (allocRegion pageBase mapSize flags)
  if !mapped then pure false else readMapped data size ph vaddr memsz

def readSegments (data : Nat → UInt8) (size : Nat) : List Nat → Prog Loader Bool
  | [] => pure true
  | i :: rest => do
    let loadable ← readLoadable data i
    match loadable with
    | none => readSegments data size rest
    | some ph => do
      let ok ← readSegment data size ph
      if !ok then pure false else readSegments data size rest

def readChecks (data : Nat → UInt8) (size : Nat) : Prog Loader Bool :=
  if size < headerSize then pure false
  else do
    let magic ← readField data 4 0
    if magic ≠ elfMagic then pure false
    else do
      let type ← readField data 2 16
      if type ≠ etExec then pure false
      else do
        let machine ← readField data 2 18
        if machine ≠ em386 then pure false
        else do
          let phnum ← readField data 2 44
          if phnum = 0 then pure false
          else do
            let phoff ← readField data 4 28
            pure (decide (u32 (phoff + phnum * phdrSize) ≤ size))

-- elf_load with every read of the file written out; e_phnum is read again on each turn of a loop.
def readLoad (data : Nat → UInt8) (size : Nat) : Prog Loader ElfLoadResult := do
  let accepted ← readChecks data size
  if !accepted then pure noResult
  else do
    let phnum ← readField data 2 44
    let res ← readMeasure data (List.range phnum) noResult
    if res.loadBase = 0xFFFFFFFF then pure res
    else do
      let ok ← readSegments data size (List.range phnum)
      if !ok then pure res
      else do
        let entry ← readField data 4 24
        pure { res with ok := true, entry := entry }

section Traced

variable {α β : Type} {size n o : Nat} {s : AddressSpace} {data : Nat → UInt8} {C D : Prop}
  {p : Prog Loader α} {q : Prog AddressSpace α} {f : α → Prog Loader β}
  {g : α → Prog AddressSpace β}

-- p does what q does from s, and reads inside the file exactly where C holds.
def Traced (size : Nat) (s : AddressSpace) (p : Prog Loader α) (q : Prog AddressSpace α)
    (C : Prop) : Prop :=
  ∀ w : Loader, w.space = s → (p w).1 = (q s).1 ∧ (p w).2.space = (q s).2 ∧
    ((p w).2.Inside size ↔ w.Inside size ∧ C)

theorem Loader.read_inside (w : Loader) (hn : 0 < n) :
    (w.read o n).Inside size ↔ w.Inside size ∧ o + n ≤ size := by
  simp only [Inside, read, List.mem_append, or_imp, forall_and, List.mem_range'_1]
  refine and_congr_right fun _ => ⟨fun h => ?_, fun h k hk => by omega⟩
  have := h (o + n - 1) (by omega)
  omega

theorem Traced.congr (h : Traced size s p q C) (hc : D ↔ C) : Traced size s p q D :=
  fun w hw => ⟨(h w hw).1, (h w hw).2.1, (h w hw).2.2.trans (and_congr_right fun _ => hc.symm)⟩

theorem Traced.pure (a : α) : Traced size s (pure a) (pure a) True := by
  rintro w rfl
  exact ⟨rfl, rfl, (and_true _).symm.to_iff⟩

theorem Traced.inSpace (q : Prog AddressSpace α) : Traced size s (inSpace q) q True := by
  rintro w rfl
  exact ⟨rfl, rfl, (and_true _).symm.to_iff⟩

theorem Traced.field {f : Nat → Prog Loader α} (hn : 0 < n)
    (h : Traced size s (f (readLE data n o)) q C) :
    Traced size s (readField data n o >>= f) q (o + n ≤ size ∧ C) := by
  rintro w rfl
  obtain ⟨h1, h2, h3⟩ := h (w.read o n) rfl
  exact ⟨h1, h2, h3.trans (by rw [w.read_inside hn, and_assoc])⟩

theorem Traced.byte {f : UInt8 → Prog Loader α} (h : Traced size s (f (data o)) q C) :
    Traced size s (readByte data o >>= f) q (o < size ∧ C) := by
  rintro w rfl
  obtain ⟨h1, h2, h3⟩ := h (w.read o 1) rfl
  exact ⟨h1, h2, h3.trans (by rw [w.read_inside Nat.one_pos, and_assoc]; rfl)⟩

theorem Traced.bind {D : α → AddressSpace → Prop} (h : Traced size s p q C)
    (hf : ∀ a s', q s = (some a, s') → Traced size s' (f a) (g a) (D a s')) :
    Traced size s (p >>= f) (q >>= g) (C ∧ ∀ a s', q s = (some a, s') → D a s') := by
  intro w hw
  obtain ⟨h1, h2, h3⟩ := h w hw
  rcases hp : p w with ⟨_ | a, w'⟩
  · rw [hp] at h1 h2 h3
    have hq : q s = (none, w'.space) := Prod.ext h1.symm h2.symm
    rw [bind_stopped hp, bind_stopped hq]
    refine ⟨rfl, rfl, h3.trans (and_congr_right fun _ => (and_iff_left ?_).symm)⟩
    intro a s' ha
    cases hq.symm.trans ha
  · rw [hp] at h1 h2 h3
    have hq : q s = (some a, w'.space) := Prod.ext h1.symm h2.symm
    obtain ⟨h4, h5, h6⟩ := hf a _ hq w' rfl
    rw [bind_ended hp, bind_ended hq]
    refine ⟨h4, h5, ?_⟩
    rw [h6, h3, and_assoc]
    refine and_congr_right fun _ => and_congr_right fun _ =>
      ⟨fun hd b s' hb => ?_, fun hd => hd a _ hq⟩
    cases hq.symm.trans hb
    exact hd

theorem Traced.read_bind {a : α} {f : α → Prog Loader β} {q : Prog AddressSpace β}
    (h : Traced size s p (Pure.pure a) C) (hf : Traced size s (f a) q D) :
    Traced size s (p >>= f) q (C ∧ D) := by
  intro w hw
  obtain ⟨h1, h2, h3⟩ := h w hw
  rcases hp : p w with ⟨b, w'⟩
  rw [hp] at h1 h2 h3
  obtain rfl : b = some a := h1
  obtain ⟨h4, h5, h6⟩ := hf w' h2
  rw [bind_ended hp]
  exact ⟨h4, h5, by rw [h6, h3, and_assoc]⟩

end Traced

section Conditions

def headerOffset (data : Nat → UInt8) (i : Nat) : Nat :=
  u32 ((header data).ePhoff + i * (header data).ePhentsize)

-- What the first loop looks at lies in the file: p_type, and p_memsz of a segment to be loaded.
def HeaderIn (data : Nat → UInt8) (size i : Nat) : Prop :=
  headerOffset data i + 4 ≤ size ∧
    ((phdrAt data i).pType = ptLoad → headerOffset data i + 24 ≤ size)

def Mapped (m : Machine) (virt : Nat) : Prop := walk m.tables (virt / 4096) ≠ none

-- The stores of the second loop for the segment find their pages.
def Elf32Phdr.Writable (ph : Elf32Phdr) (m : Machine) : Prop :=
  (∀ j < ph.pFilesz, Mapped m (u32 (ph.pVaddr + j))) ∧
    ∀ j, ph.pFilesz ≤ j → j < ph.pMemsz → Mapped m (u32 (ph.pVaddr + j))

-- The sum that is held against the size does not wrap, or a store faults inside the file.
def Elf32Phdr.CopyIn (ph : Elf32Phdr) (size : Nat) (m : Machine) : Prop :=
  ph.pFilesz = 0 ∨ ph.pOffset + ph.pFilesz < 4294967296 ∨
    ∃ j, ph.pOffset + j < size ∧ ¬Mapped m (u32 (ph.pVaddr + j))

-- p_flags and the bytes to copy lie in the file, for each segment that the second loop gets to.
def SegmentsIn (data : Nat → UInt8) (size : Nat) : List Nat → Machine → Prop
  | [], _ => True
  | i :: rest, m =>
    if ¬Loadable (phdrAt data i) then SegmentsIn data size rest m
    else headerOffset data i + 28 ≤ size ∧
      ((mapAll (phdrAt data i).pages m).1 = true → (phdrAt data i).Fits size →
        (phdrAt data i).CopyIn size (mapAll (phdrAt data i).pages m).2 ∧
        ((phdrAt data i).Writable (mapAll (phdrAt data i).pages m).2 →
          SegmentsIn data size rest (mapAll (phdrAt data i).pages m).2))

def FileIn (data : Nat → UInt8) (size : Nat) (m : Machine) : Prop :=
  Accepted data size → (∀ i < (header data).ePhnum, HeaderIn data size i) ∧
    SegmentsIn data size (List.range (header data).ePhnum) m

end Conditions

section Stores

variable {size n dst i virt : Nat} {s s' : AddressSpace} {f : Nat → UInt8} {b : UInt8}

theorem store_some {u : Unit} (h : store virt b s = (some u, s')) :
    Mapped s.machine virt ∧ s'.machine = s.machine := by
  rw [store] at h
  split at h
  · cases h
  · rename_i frame hw
    cases h
    exact ⟨by rw [Mapped, hw]; exact Option.some_ne_none _, rfl⟩

theorem store_mapped (h : Mapped s.machine virt) (b : UInt8) :
    ∃ s', store virt b s = (some (), s') := by
  obtain ⟨frame, hw⟩ := Option.ne_none_iff_exists'.mp h
  exact ⟨_, by rw [store, hw]⟩

theorem storeFrom_some {u : Unit} (h : storeFrom dst f i n s = (some u, s')) :
    (∀ j, i ≤ j → j < i + n → Mapped s.machine (u32 (dst + j))) ∧ s'.machine = s.machine := by
  induction n generalizing i s with
  | zero =>
    cases h
    exact ⟨fun j h1 h2 => by omega, rfl⟩
  | succ n ih =>
    rw [storeFrom] at h
    rcases hs : store (u32 (dst + i)) (f i) s with ⟨_ | u, s1⟩
    · rw [bind_stopped hs] at h
      cases h
    · rw [bind_ended hs] at h
      obtain ⟨hm, hs1⟩ := store_some hs
      obtain ⟨hall, hs'⟩ := ih h
      rw [hs1] at hall hs'
      refine ⟨fun j h1 h2 => ?_, hs'⟩
      rcases Nat.eq_or_lt_of_le h1 with rfl | h1
      · exact hm
      · exact hall j h1 (by omega)

theorem storeFrom_mapped (f : Nat → UInt8)
    (h : ∀ j, i ≤ j → j < i + n → Mapped s.machine (u32 (dst + j))) :
    ∃ s', storeFrom dst f i n s = (some (), s') := by
  induction n generalizing i s with
  | zero => exact ⟨s, rfl⟩
  | succ n ih =>
    obtain ⟨s1, hs⟩ := store_mapped (h i le_rfl (by omega)) (f i)
    rw [storeFrom, bind_ended hs]
    refine ih fun j h1 h2 => ?_
    rw [(store_some hs).2]
    exact h j (by omega) (by omega)

end Stores

section Runs

variable {α : Type} {size n dst src i : Nat} {s s' : AddressSpace} {data : Nat → UInt8} {C : Prop}
  {q : Prog AddressSpace α} {l : List Nat} {ph : Elf32Phdr} {m : Machine}

theorem copyFile_traced : Traced size s (copyFile data dst src i n)
    (storeFrom dst (fun j => data (u32 (src + j))) i n)
    (∀ j, i ≤ j → j < i + n → (∀ k, i ≤ k → k < j → Mapped s.machine (u32 (dst + k))) →
      u32 (src + j) < size) := by
  induction n generalizing i s with
  | zero => exact (Traced.pure ()).congr (iff_true_intro fun j h1 h2 => by omega)
  | succ n ih =>
    refine ((Traced.inSpace _).bind fun _ s' _ => ih).byte.congr ?_
    constructor
    · intro h
      refine ⟨h i le_rfl (by omega) fun k h1 h2 => by omega, trivial, ?_⟩
      intro _ s' hs j h1 h2 hk
      obtain ⟨hm, hs'⟩ := store_some hs
      refine h j (by omega) (by omega) fun k h3 h4 => ?_
      rcases Nat.eq_or_lt_of_le h3 with rfl | h3
      · exact hm
      · exact hs' ▸ hk k h3 h4
    · rintro ⟨hi, -, h⟩ j h1 h2 hk
      rcases Nat.eq_or_lt_of_le h1 with rfl | h1
      · exact hi
      · obtain ⟨s', hs⟩ := store_mapped (hk i le_rfl h1) (data (u32 (src + i)))
        refine h () s' hs j h1 (by omega) fun k h3 h4 => ?_
        exact (store_some hs).2 ▸ hk k (by omega) h4

theorem copyIn_iff (hsize : size < 4294967296) (ho : ph.pOffset < 4294967296)
    (hf : ph.Fits size) : ph.CopyIn size m ↔
      ∀ j, 0 ≤ j → j < 0 + ph.pFilesz → (∀ k, 0 ≤ k → k < j → Mapped m (u32 (ph.pVaddr + k))) →
        u32 (ph.pOffset + j) < size := by
  constructor
  · rintro (h | h | ⟨k, hk, hm⟩) j - hj hall
    · omega
    · rcases hf with hf | hf
      · omega
      · rw [u32_of_lt (by omega)] at hf ⊢
        omega
    · by_cases hkj : k < j
      · exact absurd (hall k (Nat.zero_le k) hkj) hm
      · rw [u32_of_lt (by omega)]
        omega
  · intro h
    by_contra hno
    simp only [Elf32Phdr.CopyIn, not_or, not_exists, not_and, not_not] at hno
    obtain ⟨hne, hwrap, hall⟩ := hno
    -- the byte at the end of the file is read, or the first one where that lies beyond
    have hend := h (size - ph.pOffset) (Nat.zero_le _) (by omega) fun k _ hk => hall k (by omega)
    rw [u32_of_lt (by omega)] at hend
    omega

def Elf32Phdr.copyContents (ph : Elf32Phdr) (data : Nat → UInt8) (size : Nat) :
    Prog AddressSpace Bool :=
  if ¬ph.Fits size then pure false
  else do
    kmemcpy ph.pVaddr (fun i => data (u32 (ph.pOffset + i))) ph.pFilesz
    pure true

theorem loadSegment_eq : loadSegment data size ph =
    allocRegion ph.pageBase ph.mapSize ph.flags >>= fun ok =>
      if !ok then pure false
      else ph.copyContents data size >>= fun fits =>
        if !fits then pure false else zeroRest ph.pVaddr ph.pFilesz ph.pMemsz := by
  rw [loadSegment, Elf32Phdr.copyContents]
  by_cases hf : ph.Fits size
  · simp only [hf, not_true_eq_false, if_false, Prog.bind_assoc]
    rfl
  · simp only [hf, not_false_eq_true, if_true]
    rfl

theorem readContents_traced (hsize : size < 4294967296) (hph : ph = phdrAt data i) :
    Traced size s (readContents data size (headerOffset data i) ph.pVaddr ph.pFilesz)
      (ph.copyContents data size) ((ph.pFilesz ≠ 0 → headerOffset data i + 8 ≤ size) ∧
        (ph.Fits size → ph.CopyIn size s.machine)) := by
  have ho : ph.pOffset < 4294967296 := hph ▸ readLE_lt data 4 _
  rw [readContents, Elf32Phdr.copyContents]
  by_cases hz : ph.pFilesz = 0
  · have hfits : ph.Fits size := .inl hz
    rw [if_pos hz, if_neg (not_not.mpr hfits), hz]
    exact (Traced.pure true).congr (iff_true_intro ⟨fun h => absurd rfl h, fun _ => .inl hz⟩)
  · have hoff : readLE data 4 (headerOffset data i + 4) = ph.pOffset := hph ▸ rfl
    rw [if_neg hz]
    refine (Traced.field (by decide) (C := ph.Fits size → ph.CopyIn size s.machine) ?_).congr
      (and_congr_left' (forall_prop_of_true hz))
    rw [hoff]
    by_cases hfits : ph.Fits size
    · have hle := hfits.resolve_left hz
      rw [if_neg (Nat.not_lt.mpr hle), if_neg (not_not.mpr hfits)]
      refine (copyFile_traced.bind fun _ s' _ => Traced.pure true).congr ?_
      rw [copyIn_iff hsize ho hfits]
      exact ⟨fun h => ⟨h hfits, fun _ _ _ => trivial⟩, fun h _ => h.1⟩
    · have hlt : size < u32 (ph.pOffset + ph.pFilesz) := by
        simp only [Elf32Phdr.Fits, not_or, not_le] at hfits
        exact hfits.2
      rw [if_pos hlt, if_pos hfits]
      exact (Traced.pure false).congr (iff_true_intro fun hf => absurd hf hfits)

theorem Traced.unless (ok : Bool) {p : Prog Loader Bool} {q : Prog AddressSpace Bool}
    (h : Traced size s p q C) :
    Traced size s (if !ok then Pure.pure false else p) (if !ok then Pure.pure false else q)
      (ok = true → C) := by
  cases ok with
  | false => exact (Traced.pure false).congr (iff_true_intro fun h => by cases h)
  | true => exact h.congr (forall_prop_of_true rfl)

theorem readMapped_traced (hsize : size < 4294967296) (hph : ph = phdrAt data i) :
    Traced size s (readMapped data size (headerOffset data i) ph.pVaddr ph.pMemsz)
      (ph.copyContents data size >>= fun fits =>
        if !fits then pure false else zeroRest ph.pVaddr ph.pFilesz ph.pMemsz)
      (headerOffset data i + 20 ≤ size ∧ (ph.Fits size → ph.CopyIn size s.machine)) := by
  have hfilesz : readLE data 4 (headerOffset data i + 16) = ph.pFilesz := hph ▸ rfl
  refine (Traced.field (by decide) (C := (ph.pFilesz ≠ 0 → headerOffset data i + 8 ≤ size) ∧
    (ph.Fits size → ph.CopyIn size s.machine)) ?_).congr ?_
  · rw [hfilesz]
    refine ((readContents_traced hsize hph).bind fun fits _ _ =>
      Traced.unless fits (Traced.inSpace _)).congr ?_
    exact (and_iff_left fun _ _ _ _ => trivial).symm
  · refine and_congr_right fun h => (and_iff_right fun _ => ?_).symm
    omega

theorem readSegment_traced (hsize : size < 4294967296) (hph : ph = phdrAt data i) :
    Traced size s (readSegment data size (headerOffset data i)) (loadSegment data size ph)
      (headerOffset data i + 28 ≤ size ∧ ((mapAll ph.pages s.machine).1 = true →
        ph.Fits size → ph.CopyIn size (mapAll ph.pages s.machine).2)) := by
  rw [loadSegment_eq]
  subst hph
  refine (Traced.field (by decide) (.field (by decide) (.field (by decide)
    ((Traced.inSpace _).bind fun ok s' _ => .unless ok (readMapped_traced hsize rfl))))).congr ?_
  constructor
  · rintro ⟨hin, h⟩
    refine ⟨by omega, by omega, by omega, trivial, fun ok s' he hok => ⟨by omega, ?_⟩⟩
    cases (allocRegion_eq ..).symm.trans he
    exact h hok
  · rintro ⟨-, -, hin, -, h⟩
    exact ⟨hin, fun hok => (h _ _ (allocRegion_eq ..) hok).2⟩

theorem Traced.headerOffset (hs : headerSize ≤ size) {f : Nat → Prog Loader α}
    (h : Traced size s (f (Elf.headerOffset data i)) q C) :
    Traced size s (readHeaderOffset data i >>= f) q C := by
  rintro w rfl
  obtain ⟨h1, h2, h3⟩ := h ((w.read 28 4).read 42 2) rfl
  unfold headerSize at hs
  refine ⟨h1, h2, h3.trans (and_congr_left' ?_)⟩
  rw [Loader.read_inside _ (by decide), Loader.read_inside _ (by decide), and_assoc]
  exact and_iff_left ⟨by omega, by omega⟩

theorem readLoadable_traced (hs : headerSize ≤ size) (s : AddressSpace) (data : Nat → UInt8)
    (i : Nat) : Traced size s (readLoadable data i)
      (pure (if Loadable (phdrAt data i) then some (headerOffset data i) else none))
      (HeaderIn data size i) := by
  refine (Traced.field (by decide) (C := (phdrAt data i).pType = ptLoad →
    headerOffset data i + 24 ≤ size) ?_).headerOffset hs
  by_cases ht : (phdrAt data i).pType = ptLoad
  · have ht' : readLE data 4 (headerOffset data i) = ptLoad := ht
    rw [if_neg (not_not.mpr ht')]
    refine (Traced.field (by decide) (C := True) ?_).congr (by simp [ht])
    by_cases hm : (phdrAt data i).pMemsz = 0
    · have hm' : readLE data 4 (headerOffset data i + 20) = 0 := hm
      rw [if_pos hm', if_neg fun h => h.2 hm]
      exact Traced.pure none
    · have hm' : readLE data 4 (headerOffset data i + 20) ≠ 0 := hm
      rw [if_neg hm', if_pos ⟨ht, hm⟩]
      exact Traced.pure _
  · have ht' : readLE data 4 (headerOffset data i) ≠ ptLoad := ht
    rw [if_pos ht', if_neg fun h => ht h.1]
    exact (Traced.pure none).congr (iff_true_intro fun h => absurd h ht)

theorem readMeasure_traced (hs : headerSize ≤ size) (s : AddressSpace) (data : Nat → UInt8)
    (l : List Nat) (res : ElfLoadResult) :
    Traced size s (readMeasure data l res) (pure (measure (l.map (phdrAt data)) res))
      (∀ i ∈ l, HeaderIn data size i) := by
  induction l generalizing res with
  | nil => exact (Traced.pure res).congr (iff_true_intro fun _ h => absurd h List.not_mem_nil)
  | cons i l ih =>
    rw [readMeasure, List.map_cons, measure]
    by_cases hl : Loadable (phdrAt data i)
    · rw [if_neg (not_not.mpr hl)]
      have hload := readLoadable_traced hs s data i
      rw [if_pos hl] at hload
      refine (hload.read_bind (.field (by decide) (.field (by decide) (ih _)))).congr ?_
      rw [List.forall_mem_cons]
      refine and_congr_right fun h => ?_
      have := h.2 hl.1
      exact ⟨fun h => ⟨by omega, by omega, h⟩, fun h => h.2.2⟩
    · rw [if_pos hl]
      have hload := readLoadable_traced hs s data i
      rw [if_neg hl] at hload
      refine (hload.read_bind (ih res)).congr ?_
      rw [List.forall_mem_cons]

theorem zeroRest_some {vaddr filesz memsz : Nat} {ok : Bool}
    (h : zeroRest vaddr filesz memsz s = (some ok, s')) : ok = true ∧
      (∀ j, filesz ≤ j → j < memsz → Mapped s.machine (u32 (vaddr + j))) ∧
      s'.machine = s.machine := by
  rw [zeroRest] at h
  by_cases hlt : filesz < memsz
  · rw [if_pos hlt] at h
    rcases hm : kmemset (u32 (vaddr + filesz)) 0 (memsz - filesz) s with ⟨_ | u, s1⟩
    · rw [bind_stopped hm] at h
      cases h
    · rw [bind_ended hm] at h
      obtain ⟨hall, hs⟩ := storeFrom_some hm
      cases h
      refine ⟨rfl, fun j h1 h2 => ?_, hs⟩
      have := hall (j - filesz) (Nat.zero_le _) (by omega)
      rwa [u32_add, Nat.add_assoc, Nat.add_sub_cancel' h1] at this
  · rw [if_neg hlt] at h
    cases h
    exact ⟨rfl, fun j h1 h2 => by omega, rfl⟩

theorem zeroRest_mapped {vaddr filesz memsz : Nat}
    (h : ∀ j, filesz ≤ j → j < memsz → Mapped s.machine (u32 (vaddr + j))) :
    ∃ s', zeroRest vaddr filesz memsz s = (some true, s') := by
  rw [zeroRest]
  by_cases hlt : filesz < memsz
  · rw [if_pos hlt]
    have hall : ∀ j, 0 ≤ j → j < 0 + (memsz - filesz) →
        Mapped s.machine (u32 (u32 (vaddr + filesz) + j)) := by
      intro j _ hj
      rw [u32_add, Nat.add_assoc]
      exact h _ (Nat.le_add_right _ _) (by omega)
    obtain ⟨s', hm⟩ := storeFrom_mapped (fun _ => 0) hall
    exact ⟨s', bind_ended hm⟩
  · rw [if_neg hlt]
    exact ⟨s, rfl⟩

theorem loadSegment_some (h : loadSegment data size ph s = (some true, s')) :
    (mapAll ph.pages s.machine).1 = true ∧ ph.Fits size ∧
      ph.Writable (mapAll ph.pages s.machine).2 ∧ s'.machine = (mapAll ph.pages s.machine).2 := by
  have halloc : allocRegion ph.pageBase ph.mapSize ph.flags s =
      (some (mapAll ph.pages s.machine).1,
        { s with machine := (mapAll ph.pages s.machine).2 }) := allocRegion_eq ..
  rw [loadSegment_eq, bind_ended halloc] at h
  cases hok : (mapAll ph.pages s.machine).1 with
  | false =>
    rw [hok] at h
    cases h
  | true =>
    rw [hok, Elf32Phdr.copyContents] at h
    by_cases hf : ph.Fits size
    · rw [if_neg (not_not.mpr hf)] at h
      change (kmemcpy _ _ _ >>= _ >>= _) _ = _ at h
      rw [Prog.bind_assoc] at h
      rcases hc : kmemcpy ph.pVaddr (fun i => data (u32 (ph.pOffset + i))) ph.pFilesz
        { s with machine := (mapAll ph.pages s.machine).2 } with ⟨_ | u, s1⟩
      · rw [bind_stopped hc] at h
        cases h
      · rw [bind_ended hc] at h
        obtain ⟨hall, hs1⟩ := storeFrom_some hc
        obtain ⟨-, hrest, hs'⟩ := zeroRest_some (show zeroRest _ _ _ s1 = (some true, s') from h)
        rw [hs1] at hrest hs'
        exact ⟨rfl, hf, ⟨fun j hj => hall j (Nat.zero_le j) (by omega), hrest⟩, hs'⟩
    · rw [if_pos hf] at h
      cases h

theorem loadSegment_writable (data : Nat → UInt8)
    (hok : (mapAll ph.pages s.machine).1 = true) (hf : ph.Fits size)
    (hw : ph.Writable (mapAll ph.pages s.machine).2) :
    ∃ s', loadSegment data size ph s = (some true, s') := by
  have halloc : allocRegion ph.pageBase ph.mapSize ph.flags s =
      (some (mapAll ph.pages s.machine).1,
        { s with machine := (mapAll ph.pages s.machine).2 }) := allocRegion_eq ..
  have hall : ∀ j, 0 ≤ j → j < 0 + ph.pFilesz → Mapped
      { s with machine := (mapAll ph.pages s.machine).2 }.machine (u32 (ph.pVaddr + j)) :=
    fun j _ hj => hw.1 j (by omega)
  obtain ⟨s1, hc⟩ := storeFrom_mapped (fun i => data (u32 (ph.pOffset + i))) hall
  have hs1 := (storeFrom_some hc).2
  have hrest : ∀ j, ph.pFilesz ≤ j → j < ph.pMemsz → Mapped s1.machine (u32 (ph.pVaddr + j)) := by
    rw [hs1]
    exact hw.2
  obtain ⟨s2, hz⟩ := zeroRest_mapped hrest
  refine ⟨s2, ?_⟩
  rw [loadSegment_eq, bind_ended halloc, hok, Elf32Phdr.copyContents, if_neg (not_not.mpr hf)]
  change (kmemcpy _ _ _ >>= _ >>= _) _ = _
  rw [Prog.bind_assoc, kmemcpy, bind_ended hc]
  exact hz

theorem readSegments_traced (hs : headerSize ≤ size) (hsize : size < 4294967296)
    (data : Nat → UInt8) (l : List Nat) (s : AddressSpace) : ∃ C,
      Traced size s (readSegments data size l) (loadSegments data size (l.map (phdrAt data))) C ∧
        ((∀ i ∈ l, HeaderIn data size i) → (C ↔ SegmentsIn data size l s.machine)) := by
  induction l generalizing s with
  | nil => exact ⟨True, Traced.pure true, fun _ => Iff.rfl⟩
  | cons i l ih =>
    choose C hC hiff using ih
    have hload := readLoadable_traced hs s data i
    rw [readSegments, List.map_cons, loadSegments, SegmentsIn]
    by_cases hl : Loadable (phdrAt data i)
    · rw [if_pos hl] at hload
      rw [if_neg (not_not.mpr hl), if_neg (not_not.mpr hl)]
      refine ⟨_, hload.read_bind ((readSegment_traced hsize rfl).bind fun ok s' _ =>
        Traced.unless ok (hC s')), fun hall => ?_⟩
      rw [List.forall_mem_cons] at hall
      rw [and_iff_right hall.1, and_assoc]
      refine and_congr_right fun _ => ⟨fun h hok hf => ⟨h.1 hok hf, fun hw => ?_⟩,
        fun h => ⟨fun hok hf => (h hok hf).1, ?_⟩⟩
      · obtain ⟨s', he⟩ := loadSegment_writable data hok hf hw
        have hrest := (hiff s' hall.2).mp (h.2 true s' he rfl)
        rwa [(loadSegment_some he).2.2.2] at hrest
      · rintro _ s' he rfl
        obtain ⟨hok, hf, hw, hm⟩ := loadSegment_some he
        rw [hiff s' hall.2, hm]
        exact (h hok hf).2 hw
    · rw [if_neg hl] at hload
      rw [if_pos hl, if_pos hl]
      refine ⟨_, hload.read_bind (hC s), fun hall => ?_⟩
      rw [List.forall_mem_cons] at hall
      rw [and_iff_right hall.1, hiff s hall.2]

theorem Traced.known {f : Nat → Prog Loader α} (hs : headerSize ≤ size) {o : Nat} (hn : 0 < n)
    (ho : o + n ≤ headerSize) (h : Traced size s (f (readLE data n o)) q C) :
    Traced size s (readField data n o >>= f) q C :=
  (Traced.field hn h).congr (iff_and_self.mpr fun _ => ho.trans hs)

theorem readChecks_traced :
    Traced size s (readChecks data size) (pure (decide (Accepted data size))) True := by
  rw [readChecks]
  by_cases hs : size < headerSize
  · rw [if_pos hs, decide_eq_false fun h : Accepted data size => Nat.not_le.mpr hs h.1]
    exact Traced.pure false
  · rw [if_neg hs]
    replace hs := Nat.le_of_not_lt hs
    refine Traced.known hs (by decide) (by decide) ?_
    by_cases hmagic : readLE data 4 0 = elfMagic
    · rw [if_neg (not_not.mpr hmagic)]
      refine Traced.known hs (by decide) (by decide) ?_
      by_cases htype : readLE data 2 16 = etExec
      · rw [if_neg (not_not.mpr htype)]
        refine Traced.known hs (by decide) (by decide) ?_
        by_cases hmachine : readLE data 2 18 = em386
        · rw [if_neg (not_not.mpr hmachine)]
          refine Traced.known hs (by decide) (by decide) ?_
          by_cases hphnum : readLE data 2 44 = 0
          · rw [if_pos hphnum, decide_eq_false fun h : Accepted data size => h.2.2.2.2.1 hphnum]
            exact Traced.pure false
          · rw [if_neg hphnum]
            refine Traced.known hs (by decide) (by decide) ?_
            have hacc : Accepted data size ↔
                u32 (readLE data 4 28 + readLE data 2 44 * phdrSize) ≤ size :=
              ⟨fun h => h.2.2.2.2.2, fun h => ⟨hs, hmagic, htype, hmachine, hphnum, h⟩⟩
            rw [decide_eq_decide.mpr hacc]
            exact Traced.pure _
        · rw [if_pos hmachine, decide_eq_false fun h : Accepted data size => hmachine h.2.2.2.1]
          exact Traced.pure false
      · rw [if_pos htype, decide_eq_false fun h : Accepted data size => htype h.2.2.1]
        exact Traced.pure false
    · rw [if_pos hmagic, decide_eq_false fun h : Accepted data size => hmagic h.2.1]
      exact Traced.pure false

theorem segmentsIn_none (h : ∀ i ∈ l, ¬Loadable (phdrAt data i)) : SegmentsIn data size l m := by
  induction l with
  | nil => exact trivial
  | cons i l ih =>
    rw [SegmentsIn, if_pos (h i List.mem_cons_self)]
    exact ih fun j hj => h j (List.mem_cons_of_mem _ hj)

theorem readLoad_traced (hsize : size < 4294967296) :
    Traced size s (readLoad data size) (elfLoad data size) (FileIn data size s.machine) := by
  rw [readLoad, elfLoad]
  refine (readChecks_traced.read_bind (D := FileIn data size s.machine) ?_).congr
    (true_and _).symm.to_iff
  by_cases hacc : Accepted data size
  · rw [decide_eq_true hacc, if_neg (not_not.mpr hacc)]
    refine Traced.known hacc.1 (by decide) (by decide) ?_
    have hmeasure := readMeasure_traced hacc.1 s data (List.range (header data).ePhnum) noResult
    obtain ⟨C, hC, hiff⟩ :=
      readSegments_traced hacc.1 hsize data (List.range (header data).ePhnum) s
    have hin : FileIn data size s.machine ↔
        (∀ i ∈ List.range (header data).ePhnum, HeaderIn data size i) ∧
          SegmentsIn data size (List.range (header data).ePhnum) s.machine := by
      simp only [FileIn, hacc, forall_const, List.mem_range]
    change Traced size s (_ >>= _) (if (measure (phdrs data) noResult).loadBase = 0xFFFFFFFF
      then _ else _) _
    by_cases hbase : (measure (phdrs data) noResult).loadBase = 0xFFFFFFFF
    · have hnone : ∀ i ∈ List.range (header data).ePhnum, ¬Loadable (phdrAt data i) := by
        intro i hi hl
        have hm : phdrAt data i ∈ phdrs data := List.mem_map_of_mem hi
        exact Nat.ne_of_lt (measure_lt (phdr_vaddr hm) hm hl) hbase
      rw [if_pos hbase]
      refine (hmeasure.read_bind (D := True) ?_).congr ?_
      · rw [phdrs] at hbase
        rw [if_pos hbase]
        exact Traced.pure _
      · rw [hin, and_iff_left (segmentsIn_none hnone), and_true]
    · rw [if_neg hbase]
      refine (hmeasure.read_bind (D := C) ?_).congr
        (hin.trans (and_congr_right fun h => (hiff h).symm))
      rw [phdrs] at hbase
      rw [if_neg hbase]
      refine (hC.bind fun ok s' _ => ?_).congr (and_iff_left fun _ _ _ => trivial).symm
      cases ok with
      | false => exact Traced.pure _
      | true => exact Traced.known hacc.1 (by decide) (by decide) (Traced.pure _)
  · rw [decide_eq_false hacc, if_pos hacc]
    exact (Traced.pure noResult).congr (iff_true_intro fun h => absurd h hacc)

end Runs

section Files

variable {size : Nat} {data : Nat → UInt8} {l : List Nat} {m : Machine}

theorem segmentsIn_of (h : ∀ i ∈ l, Loadable (phdrAt data i) → headerOffset data i + 28 ≤ size ∧
    (phdrAt data i).pOffset + (phdrAt data i).pFilesz < 4294967296) :
    SegmentsIn data size l m := by
  induction l generalizing m with
  | nil => exact trivial
  | cons i l ih =>
    rw [List.forall_mem_cons] at h
    rw [SegmentsIn]
    by_cases hl : Loadable (phdrAt data i)
    · obtain ⟨hin, hsum⟩ := h.1 hl
      rw [if_neg (not_not.mpr hl)]
      exact ⟨hin, fun _ _ => ⟨.inr (.inl hsum), fun _ => ih h.2⟩⟩
    · rw [if_pos hl]
      exact ih h.2

-- The header checks accept a program header table that starts 16 bytes below the file.
def wrappedData (o : Nat) : UInt8 :=
  ([0x7F, 0x45, 0x4C, 0x46, 0, 0, 0, 0, 0, 0, 0, 0, 0, 0, 0, 0, 2, 0, 3, 0, 0, 0, 0, 0, 0, 0, 0, 0,
    0xF0, 0xFF, 0xFF, 0xFF, 0, 0, 0, 0, 0, 0, 0, 0, 0, 0, 32, 0, 1, 0] : List UInt8).getD o 0

end Files

end Elf
