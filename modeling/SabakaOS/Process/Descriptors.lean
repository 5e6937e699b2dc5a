import SabakaOS.Process.UserMode

namespace Gdt

open Interrupts (selUserCode selUserData)

section Model

structure GdtEntry where
  limitLow : Nat
  baseLow : Nat
  baseMiddle : Nat
  access : Nat
  granularity : Nat
  baseHigh : Nat

def gdtAccessPresent : Nat := 0x80

def gdtAccessRing0 : Nat := 0x00

def gdtAccessRing3 : Nat := 0x60

def gdtAccessDescriptor : Nat := 0x10

def gdtAccessExecutable : Nat := 0x08

def gdtAccessRw : Nat := 0x02

def gdtGran4k : Nat := 0x80

def gdtGran32bit : Nat := 0x40

def gdtGranLimitHigh : Nat := 0x0F

def gdtSetEntry (g : Nat → GdtEntry) (idx base limit access gran : Nat) : Nat → GdtEntry :=
  Function.update g idx
    { baseLow := base % 65536
      baseMiddle := base / 65536 % 256
      baseHigh := base / 16777216 % 256
      limitLow := limit % 65536
      granularity := limit / 65536 % 16 ||| (gran &&& 0xF0)
      access := access }

def gdtSetTssEntry (g : Nat → GdtEntry) (base limit : Nat) : Nat → GdtEntry :=
  Function.update g 3
    { baseLow := base % 65536
      baseMiddle := base / 65536 % 256
      baseHigh := base / 16777216 % 256
      limitLow := limit % 65536
      granularity := limit / 65536 % 16
      access := 0x89 }

def gdtInit (g : Nat → GdtEntry) : Nat → GdtEntry :=
  let gran := gdtGran4k ||| gdtGran32bit ||| gdtGranLimitHigh
  let g := gdtSetEntry g 0 0 0 0 0
  let g := gdtSetEntry g 1 0 0xFFFFF (gdtAccessPresent ||| gdtAccessRing0 |||
    gdtAccessDescriptor ||| gdtAccessExecutable ||| gdtAccessRw) gran
  let g := gdtSetEntry g 2 0 0xFFFFF (gdtAccessPresent ||| gdtAccessRing0 |||
    gdtAccessDescriptor ||| gdtAccessRw) gran
  let g := gdtSetEntry g 3 0 0 0 0
  let g := gdtSetEntry g 4 0 0xFFFFF (gdtAccessPresent ||| gdtAccessRing3 |||
    gdtAccessDescriptor ||| gdtAccessExecutable ||| gdtAccessRw) gran
  let g := gdtSetEntry g 5 0 0xFFFFF (gdtAccessPresent ||| gdtAccessRing3 |||
    gdtAccessDescriptor ||| gdtAccessRw) gran
  gdtSetEntry g 6 0 0 0 0

def sizeofGdtEntry : Nat := 8

def gdtLimit : Nat := sizeofGdtEntry * 7 - 1

def sizeofTss : Nat := 104

-- The TSS is at base.
def tssInit (g : Nat → GdtEntry) (base : Nat) : Interrupts.Tss × (Nat → GdtEntry) :=
  (⟨0, 0x10⟩, gdtSetTssEntry g base (sizeofTss - 1))

-- The packed entry as it lies in memory.
def GdtEntry.bytes (e : GdtEntry) : List Nat :=
  [e.limitLow % 256, e.limitLow / 256, e.baseLow % 256, e.baseLow / 256, e.baseMiddle, e.access,
    e.granularity, e.baseHigh]

structure Descriptor where
  base : Nat
  limit : Nat
  present : Bool
  dpl : Nat
  segment : Bool
  executable : Bool
  rw : Bool
  pages : Bool
  wide : Bool
  deriving DecidableEq, Repr

-- How the processor reads the eight bytes.
def decode : List Nat → Option Descriptor
  | [b0, b1, b2, b3, b4, b5, b6, b7] => some
    { base := b2 + 256 * b3 + 65536 * b4 + 16777216 * b7
      limit := b0 + 256 * b1 + 65536 * (b6 % 16)
      present := b5.testBit 7
      dpl := b5 / 32 % 4
      segment := b5.testBit 4
      executable := b5.testBit 3
      rw := b5.testBit 1
      pages := b6.testBit 7
      wide := b6.testBit 6 }
  | _ => none

-- Bit 2 of a selector asks for a local table, and the kernel has none.
def lookup (g : Nat → GdtEntry) (sel : Nat) : Option Descriptor :=
  if sel.testBit 2 ∨ gdtLimit < sel / 8 * sizeofGdtEntry + 7 then none
  else decode (g (sel / 8)).bytes

-- What the arguments of gdt_set_entry say.
def described (base limit access gran : Nat) : Descriptor where
  base := base
  limit := limit
  present := access.testBit 7
  dpl := access / 32 % 4
  segment := access.testBit 4
  executable := access.testBit 3
  rw := access.testBit 1
  pages := gran.testBit 7
  wide := gran.testBit 6

-- The last byte of the segment.
def Descriptor.last (d : Descriptor) : Nat := if d.pages then d.limit * 4096 + 4095 else d.limit

-- All four gigabytes, for code or for data.
def flat (ring : Nat) (code : Bool) : Descriptor :=
  ⟨0, 0xFFFFF, true, ring, true, code, true, true, true⟩

def absent : Descriptor := ⟨0, 0, false, 0, false, false, false, false, false⟩

def tssDescriptor (base : Nat) : Descriptor :=
  ⟨base, sizeofTss - 1, true, 0, false, true, false, false, false⟩

-- What each entry is meant to be.
def meant (base : Nat) : Nat → Option Descriptor
  | 0 => some absent
  | 1 => some (flat 0 true)
  | 2 => some (flat 0 false)
  | 3 => some (tssDescriptor base)
  | 4 => some (flat 3 true)
  | 5 => some (flat 3 false)
  | 6 => some absent
  | _ => none

end Model

section Table

variable {g : Nat → GdtEntry} {idx base limit access gran sel : Nat}

theorem high_low (h : limit < 2 ^ 20) :
    (limit / 65536 % 16 ||| (gran &&& 0xF0)) % 16 = limit / 65536 := by
  rw [show 16 = 2 ^ 4 from rfl, Nat.or_mod_two_pow, Nat.and_mod_two_pow,
    show 0xF0 % 2 ^ 4 = 0 from rfl, Nat.and_zero, Nat.or_zero]
  omega

theorem high_bit {i : Nat} (hi : 4 ≤ i) (h8 : (0xF0).testBit i = true) :
    (limit / 65536 % 16 ||| (gran &&& 0xF0)).testBit i = gran.testBit i := by
  have hlow : (limit / 65536 % 16).testBit i = false :=
    Nat.testBit_lt_two_pow (lt_of_lt_of_le (Nat.mod_lt _ (by decide))
      (Nat.pow_le_pow_right (by decide) hi : 2 ^ 4 ≤ 2 ^ i))
  rw [Nat.testBit_or, Nat.testBit_and, hlow, h8, Bool.and_true, Bool.false_or]

theorem gdtSetEntry_decodes (g : Nat → GdtEntry) (idx base limit access gran : Nat)
    (hb : base < 2 ^ 32) (hl : limit < 2 ^ 20) : decode (gdtSetEntry g idx base limit access gran idx).bytes =
      some (described base limit access gran) := by
  rw [gdtSetEntry, Function.update_self, GdtEntry.bytes, decode, Option.some.injEq, described,
    Descriptor.mk.injEq]
  refine ⟨?_, ?_, rfl, rfl, rfl, rfl, rfl, high_bit (by decide) rfl, high_bit (by decide) rfl⟩
  · dsimp only
    omega
  · rw [high_low hl]
    dsimp only
    omega

theorem gdtSetTssEntry_decodes (g : Nat → GdtEntry) (hb : base < 2 ^ 32) (hl : limit < 2 ^ 16) :
    decode (gdtSetTssEntry g base limit 3).bytes = some
      ⟨base, limit, true, 0, false, true, false, false, false⟩ := by
  have hhigh : limit / 65536 % 16 = 0 := by omega
  rw [gdtSetTssEntry, Function.update_self, hhigh, GdtEntry.bytes, decode, Option.some.injEq,
    Descriptor.mk.injEq]
  dsimp only
  exact ⟨by omega, by omega, by decide, by decide, by decide, by decide, by decide, by decide,
    by decide⟩

theorem gdtSetTssEntry_other {j : Nat} (h : j ≠ 3) : gdtSetTssEntry g base limit j = g j :=
  Function.update_of_ne h ..

theorem gdtInit_decodes (base : Nat) {k : Nat} (hk : k < 7) (h3 : k ≠ 3) :
    decode (gdtInit g k).bytes = meant base k := by
  -- the entry as gdt_set_entry has written it; later calls leave it
  have hentry : ∀ access gran limit, limit < 2 ^ 20 →
      gdtInit g k = gdtSetEntry g k 0 limit access gran k →
      decode (gdtInit g k).bytes = some (described 0 limit access gran) := by
    intro access gran limit hl he
    rw [he]
    exact gdtSetEntry_decodes g k 0 limit access gran (by decide) hl
  match k with
  | 0 => exact (hentry 0 0 0 (by decide) rfl).trans (congrArg some (by decide))
  | 1 => exact (hentry 0x9A 0xCF 0xFFFFF (by decide) rfl).trans (congrArg some (by decide))
  | 2 => exact (hentry 0x92 0xCF 0xFFFFF (by decide) rfl).trans (congrArg some (by decide))
  | 3 => exact absurd rfl h3
  | 4 => exact (hentry 0xFA 0xCF 0xFFFFF (by decide) rfl).trans (congrArg some (by decide))
  | 5 => exact (hentry 0xF2 0xCF 0xFFFFF (by decide) rfl).trans (congrArg some (by decide))
  | 6 => exact (hentry 0 0 0 (by decide) rfl).trans (congrArg some (by decide))
  | n + 7 => exact absurd hk (by omega)

theorem tssInit_decodes (hb : base < 2 ^ 32) {k : Nat} (hk : k < 7) :
    decode ((tssInit (gdtInit g) base).2 k).bytes = meant base k := by
  by_cases h3 : k = 3
  · subst h3
    exact gdtSetTssEntry_decodes (gdtInit g) hb (by decide)
  · change decode (gdtSetTssEntry (gdtInit g) base (sizeofTss - 1) k).bytes = _
    rw [gdtSetTssEntry_other h3]
    exact gdtInit_decodes base hk h3

variable {k : Nat} {d : Descriptor}

theorem lookup_tssInit (hb : base < 2 ^ 32) (sel : Nat) :
    lookup (tssInit (gdtInit g) base).2 sel =
      if sel.testBit 2 then none else meant base (sel / 8) := by
  rw [lookup, gdtLimit, sizeofGdtEntry]
  by_cases ht : sel.testBit 2 = true
  · rw [if_pos (.inl ht), if_pos ht]
  · rw [if_neg ht]
    by_cases hk : sel / 8 < 7
    · rw [if_neg (not_or_intro ht (by omega))]
      exact tssInit_decodes hb hk
    · obtain ⟨n, hn⟩ := Nat.exists_eq_add_of_le' (Nat.le_of_not_lt hk)
      rw [if_pos (.inr (by omega)), hn]
      rfl

theorem meant_ring (h : meant base k = some d) (hd : d.dpl = 3) : k = 4 ∨ k = 5 := by
  match k with
  | 0 | 1 | 2 | 3 | 6 =>
    obtain rfl := Option.some.inj h
    cases hd
  | 4 => exact .inl rfl
  | 5 => exact .inr rfl
  | n + 7 => cases h

theorem flat_whole (ring : Nat) (code : Bool) :
    (flat ring code).base = 0 ∧ (flat ring code).last = 0xFFFFFFFF := by
  have hlast : (flat ring code).last = 0xFFFFF * 4096 + 4095 := if_pos rfl
  exact ⟨rfl, hlast.trans (by omega)⟩

theorem meant_flat (h : meant base k = some d) (hs : d.segment = true) :
    d.base = 0 ∧ d.last = 0xFFFFFFFF := by
  match k with
  | 0 | 3 | 6 =>
    obtain rfl := Option.some.inj h
    cases hs
  | 1 | 2 | 4 | 5 =>
    obtain rfl := Option.some.inj h
    exact flat_whole _ _
  | n + 7 => cases h

-- What a selector finds, whatever the table and the bytes it lies in held before. Nothing
-- can be loaded in ring 3 but the two selectors enter_usermode loads, and no segment hides memory.
theorem selectors_described (g : Nat → GdtEntry) (hb : base < 2 ^ 32) :
    (∀ idx limit access gran, limit < 2 ^ 20 →
        decode (gdtSetEntry g idx base limit access gran idx).bytes =
          some (described base limit access gran)) ∧
      (∀ sel, lookup (tssInit (gdtInit g) base).2 sel =
        if sel.testBit 2 then none else meant base (sel / 8)) ∧
      (∀ sel d, lookup (tssInit (gdtInit g) base).2 sel = some d → d.dpl = 3 →
        sel / 8 = selUserCode / 8 ∨ sel / 8 = selUserData / 8) ∧
      (∀ sel d, lookup (tssInit (gdtInit g) base).2 sel = some d → d.segment = true →
        d.base = 0 ∧ d.last = 0xFFFFFFFF) ∧
      lookup (tssInit (gdtInit g) base).2 (tssInit (gdtInit g) base).1.ss0 =
        some (flat 0 false) := by
  have hentry : ∀ sel d, lookup (tssInit (gdtInit g) base).2 sel = some d →
      meant base (sel / 8) = some d := by
    intro sel d h
    rw [lookup_tssInit hb] at h
    split at h
    · cases h
    · exact h
  refine ⟨fun idx limit access gran hl => gdtSetEntry_decodes g idx base limit access gran hb hl,
    lookup_tssInit hb, fun sel d h hd => meant_ring (hentry sel d h) hd,
    fun sel d h hs => meant_flat (hentry sel d h) hs, ?_⟩
  exact (lookup_tssInit hb 0x10).trans (if_neg (by decide))

theorem selectors_described_tss :
    lookup (tssInit (gdtInit fun _ => ⟨1, 2, 3, 4, 5, 6⟩) 0x123456).2 0x18 =
      some (tssDescriptor 0x123456) :=
  ((selectors_described (fun _ => ⟨1, 2, 3, 4, 5, 6⟩) (by decide)).2.1 0x18).trans rfl

end Table

end Gdt
