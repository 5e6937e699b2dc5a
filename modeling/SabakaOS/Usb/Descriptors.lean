import Mathlib.Data.Nat.Bitwise

namespace Hid

structure FoundIface where
  ifaceNum : UInt8
  protocol : UInt8
  endpAddr : UInt8
  endpIn : Bool
  maxPacket : UInt8
  interval : UInt8

-- A result with the offsets of the two descriptors that its fields have been taken from.
structure Result where
  iface : FoundIface
  ifaceAt : Nat
  endpAt : Nat

-- p counts from the start of the buffer. curAt is where cur has been begun, and reads records the
-- offsets of the bytes that are read.
structure Walk where
  p : Nat
  found : List Result
  cur : FoundIface
  curAt : Nat
  inHidIface : Bool
  reads : List Nat

def noIface : FoundIface where
  ifaceNum := 0
  protocol := 0
  endpAddr := 0
  endpIn := false
  maxPacket := 0
  interval := 0

def start : Walk where
  p := 0
  found := []
  cur := noIface
  curAt := 0
  inHidIface := false
  reads := []

namespace Walk

def touch (w : Walk) (offs : List Nat) : Walk :=
  { w with reads := w.reads ++ offs.map (w.p + ·) }

@[simp] theorem touch_p (w : Walk) (offs : List Nat) : (w.touch offs).p = w.p := rfl

@[simp] theorem touch_found (w : Walk) (offs : List Nat) : (w.touch offs).found = w.found := rfl

@[simp] theorem touch_cur (w : Walk) (offs : List Nat) : (w.touch offs).cur = w.cur := rfl

@[simp] theorem touch_curAt (w : Walk) (offs : List Nat) : (w.touch offs).curAt = w.curAt := rfl

@[simp] theorem touch_inHidIface (w : Walk) (offs : List Nat) :
    (w.touch offs).inHidIface = w.inHidIface := rfl

variable (buf : Nat → UInt8)

def interface (w : Walk) : Walk :=
  let w := w.touch [5]
  if buf (w.p + 5) = 0x03 then
    let w := w.touch [2, 7]
    { w with
      inHidIface := true
      cur := { noIface with ifaceNum := buf (w.p + 2), protocol := buf (w.p + 7) }
      curAt := w.p }
  else { w with inHidIface := false }

def endpoint (w : Walk) : Walk :=
  let w := w.touch [3]
  if buf (w.p + 3) &&& 0x03 = 0x03 then
    let w := w.touch [2, 4, 5, 6]
    let wMaxPacketSize := (buf (w.p + 4)).toNat ||| ((buf (w.p + 5)).toNat <<< 8)
    let cur := { w.cur with
      endpAddr := buf (w.p + 2) &&& 0x0F
      endpIn := buf (w.p + 2) &&& 0x80 != 0
      maxPacket := UInt8.ofNat (wMaxPacketSize &&& 0xFF)
      interval := buf (w.p + 6) }
    { w with cur := cur, found := w.found ++ [⟨cur, w.curAt, w.p⟩], inHidIface := false }
  else w

def next (w : Walk) : Walk :=
  let len := buf w.p
  let type := buf (w.p + 1)
  let w :=
    if type = 0x04 then w.interface buf
    else if type = 0x05 ∧ w.inHidIface then w.endpoint buf
    else w
  { w with p := w.p + len.toNat }

end Walk

def parseLoop (buf : Nat → UInt8) (total : Nat) (maxIfaces : Int) : Nat → Walk → Option Walk
  | 0, _ => none
  | fuel + 1, w =>
    if w.p < total ∧ w.found.length < maxIfaces then
      let w := w.touch [0, 1]
      if buf w.p < 2 then some w else parseLoop buf total maxIfaces fuel (w.next buf)
    else some w

def parseConfig (buf : Nat → UInt8) (total : Nat) (maxIfaces : Int) (fuel : Nat) : Option Walk :=
  parseLoop buf total maxIfaces fuel start

-- Where the lengths of the descriptors place one.
inductive DescriptorAt (buf : Nat → UInt8) (total : Nat) : Nat → Prop
  | first : 0 < total → DescriptorAt buf total 0
  | next {a : Nat} : DescriptorAt buf total a → 2 ≤ buf a → a + (buf a).toNat < total →
      DescriptorAt buf total (a + (buf a).toNat)

-- The descriptor at a with its size bytes of fields, and its whole length, ends in the buffer.
def Whole (buf : Nat → UInt8) (total a size : Nat) : Prop :=
  a + size ≤ total ∧ a + (buf a).toNat ≤ total

structure HidInterface (buf : Nat → UInt8) (total a : Nat) : Prop where
  descriptor : DescriptorAt buf total a
  type : buf (a + 1) = 0x04
  hid : buf (a + 5) = 0x03

structure InterruptEndpoint (buf : Nat → UInt8) (total a : Nat) : Prop where
  descriptor : DescriptorAt buf total a
  type : buf (a + 1) = 0x05
  interrupt : buf (a + 3) &&& 0x03 = 0x03

structure Origin (buf : Nat → UInt8) (total : Nat) (r : Result) : Prop where
  iface : HidInterface buf total r.ifaceAt
  ifaceWhole : Whole buf total r.ifaceAt 9
  endp : InterruptEndpoint buf total r.endpAt
  endpWhole : Whole buf total r.endpAt 7
  follows : r.ifaceAt + (buf r.ifaceAt).toNat ≤ r.endpAt
  fields : r.iface = {
    ifaceNum := buf (r.ifaceAt + 2)
    protocol := buf (r.ifaceAt + 7)
    endpAddr := buf (r.endpAt + 2) &&& 0x0F
    endpIn := buf (r.endpAt + 2) &&& 0x80 != 0
    maxPacket := buf (r.endpAt + 4)
    interval := buf (r.endpAt + 6) }

structure Parsed (buf : Nat → UInt8) (total : Nat) (maxIfaces : Int) (w : Walk) : Prop where
  reads : ∀ a ∈ w.reads, a < total
  bounded : w.found.length ≤ maxIfaces.toNat
  origins : ∀ r ∈ w.found, Origin buf total r

def ParsesSafely (buf : Nat → UInt8) (total : Nat) (maxIfaces : Int) : Prop :=
  ∀ fuel, total < fuel → ∃ w, parseConfig buf total maxIfaces fuel = some w ∧
    Parsed buf total maxIfaces w

-- The loop has a turn for the descriptor at p.
def Turn (total : Nat) (maxIfaces : Int) (w : Walk) : Prop :=
  w.p < total ∧ w.found.length < maxIfaces

-- The walks that the loop comes to from a first one.
inductive Visits (buf : Nat → UInt8) (total : Nat) (maxIfaces : Int) : Walk → Walk → Prop
  | here {w : Walk} : Visits buf total maxIfaces w w
  | later {w w' : Walk} : Turn total maxIfaces w → 2 ≤ buf w.p →
      Visits buf total maxIfaces ((w.touch [0, 1]).next buf) w' → Visits buf total maxIfaces w w'

-- How many bytes of the descriptor at p must be in the buffer.
def needed (buf : Nat → UInt8) (w : Walk) : Nat :=
  if buf w.p < 2 then 2
  else if buf (w.p + 1) = 0x04 then if buf (w.p + 5) = 0x03 then 8 else 6
  else if buf (w.p + 1) = 0x05 ∧ w.inHidIface then
    if buf (w.p + 3) &&& 0x03 = 0x03 then max 7 (buf w.p).toNat else 4
  else 2

def Room (buf : Nat → UInt8) (total : Nat) (w : Walk) : Prop := w.p + needed buf w ≤ total

-- A HID interface has been met, and its endpoints are looked for from q on.
structure Opened (buf : Nat → UInt8) (total q : Nat) (w : Walk) : Prop where
  iface : HidInterface buf total w.curAt
  long : w.curAt + 2 ≤ q
  ends : w.curAt + (buf w.curAt).toNat ≤ q
  cur : w.cur = { noIface with ifaceNum := buf (w.curAt + 2), protocol := buf (w.curAt + 7) }

-- What holds of a walk when the next descriptor starts at q.
structure Kept (buf : Nat → UInt8) (total : Nat) (maxIfaces : Int) (q : Nat) (w : Walk) : Prop
    extends Parsed buf total maxIfaces w where
  opened : w.inHidIface = true → Opened buf total q w

section Walks

variable {buf : Nat → UInt8} {total : Nat} {maxIfaces : Int} {w : Walk} {q : Nat} {offs : List Nat}

theorem Walk.mem_touch {a : Nat} :
    a ∈ (w.touch offs).reads ↔ a ∈ w.reads ∨ ∃ o ∈ offs, w.p + o = a := by
  unfold Walk.touch
  rw [List.mem_append, List.mem_map]

theorem Parsed.touch {n : Nat} (h : Parsed buf total maxIfaces w) (offs : List Nat)
    (hroom : w.p + n ≤ total) (hoffs : ∀ o ∈ offs, o < n) :
    Parsed buf total maxIfaces (w.touch offs) := by
  refine ⟨fun a ha => ?_, h.bounded, h.origins⟩
  rcases Walk.mem_touch.mp ha with ha | ⟨o, ho, rfl⟩
  · exact h.reads a ha
  · exact Nat.lt_of_lt_of_le (Nat.add_lt_add_left (hoffs o ho) w.p) hroom

theorem Opened.same {w' : Walk} {q' : Nat} (h : Opened buf total q w) (hat : w'.curAt = w.curAt)
    (hcur : w'.cur = w.cur) (hq : q ≤ q') : Opened buf total q' w' := by
  obtain ⟨hiface, hlong, hends, hfields⟩ := h
  rw [← hat] at hiface hlong hends hfields
  exact ⟨hiface, hlong.trans hq, hends.trans hq, hcur.trans hfields⟩

theorem Kept.touch {n : Nat} (h : Kept buf total maxIfaces q w) (offs : List Nat)
    (hroom : w.p + n ≤ total) (hoffs : ∀ o ∈ offs, o < n) :
    Kept buf total maxIfaces q (w.touch offs) :=
  ⟨h.toParsed.touch offs hroom hoffs, fun hin => (h.opened hin).same rfl rfl le_rfl⟩

theorem Kept.later {q' : Nat} (h : Kept buf total maxIfaces q w) (hq : q ≤ q') :
    Kept buf total maxIfaces q' w :=
  ⟨h.toParsed, fun hin => (h.opened hin).same rfl rfl hq⟩

theorem Kept.interface (h : Kept buf total maxIfaces w.p w) (hat : DescriptorAt buf total w.p)
    (hlen : 2 ≤ buf w.p) (htype : buf (w.p + 1) = 0x04)
    (hroom : w.p + (if buf (w.p + 5) = 0x03 then 8 else 6) ≤ total) :
    Kept buf total maxIfaces (w.p + (buf w.p).toNat) (w.interface buf) := by
  have hsix : w.p + 6 ≤ total := by
    split at hroom <;> omega
  have hclass := h.touch [5] hsix (by decide)
  unfold Walk.interface
  dsimp only
  split
  · rename_i hhid
    rw [if_pos (show buf (w.p + 5) = 0x03 from hhid)] at hroom
    have hfields := hclass.touch [2, 7] hroom (by decide)
    have hlong : w.p + 2 ≤ w.p + (buf w.p).toNat :=
      Nat.add_le_add_left (UInt8.le_iff_toNat_le.mp hlen) w.p
    exact ⟨⟨hfields.reads, h.bounded, h.origins⟩,
      fun _ => ⟨⟨hat, htype, hhid⟩, hlong, le_rfl, rfl⟩⟩
  · exact ⟨⟨hclass.reads, h.bounded, h.origins⟩, fun hin => by cases hin⟩

theorem maxPacket_low (a b : UInt8) :
    UInt8.ofNat ((a.toNat ||| (b.toNat <<< 8)) &&& 0xFF) = a := by
  have hhigh : (b.toNat <<< 8) % 2 ^ 8 = 0 := by
    rw [Nat.shiftLeft_eq]
    exact Nat.mul_mod_left ..
  have hlow : (a.toNat ||| (b.toNat <<< 8)) &&& 0xFF = a.toNat := by
    rw [show 0xFF = 2 ^ 8 - 1 by decide, Nat.and_two_pow_sub_one_eq_mod, Nat.or_mod_two_pow, hhigh,
      Nat.or_zero]
    exact Nat.mod_eq_of_lt a.toNat_lt
  rw [hlow, UInt8.ofNat_toNat]

theorem Kept.endpoint (h : Kept buf total maxIfaces w.p w) (hat : DescriptorAt buf total w.p)
    (hturn : w.found.length < maxIfaces) (htype : buf (w.p + 1) = 0x05) (hin : w.inHidIface = true)
    (hroom : w.p + (if buf (w.p + 3) &&& 0x03 = 0x03 then max 7 (buf w.p).toNat else 4) ≤ total) :
    Kept buf total maxIfaces w.p (w.endpoint buf) := by
  have hfour : w.p + 4 ≤ total := by
    split at hroom <;> omega
  have hattr := h.touch [3] hfour (by decide)
  unfold Walk.endpoint
  dsimp only
  split
  · rename_i hint
    rw [if_pos (show buf (w.p + 3) &&& 0x03 = 0x03 from hint)] at hroom
    have hseven : w.p + 7 ≤ total := by omega
    have hfields := hattr.touch [2, 4, 5, 6] hseven (by decide)
    obtain ⟨hiface, hlong, hends, hcur⟩ := h.opened hin
    refine ⟨⟨hfields.reads, ?_, fun r hr => ?_⟩, fun h => by cases h⟩
    · show (w.found ++ [_]).length ≤ maxIfaces.toNat
      rw [List.length_append, List.length_singleton]
      omega
    · rcases List.mem_append.mp (show r ∈ w.found ++ [_] from hr) with hr | hr
      · exact h.origins r hr
      · rw [List.mem_singleton.mp hr]
        refine ⟨hiface, ⟨?_, ?_⟩, ⟨hat, htype, hint⟩, ⟨?_, ?_⟩, hends, ?_⟩
        · show w.curAt + 9 ≤ total
          omega
        · show w.curAt + (buf w.curAt).toNat ≤ total
          omega
        · show w.p + 7 ≤ total
          omega
        · show w.p + (buf w.p).toNat ≤ total
          omega
        · simp only [Walk.touch_p, Walk.touch_cur, Walk.touch_curAt, hcur, maxPacket_low]
  · exact hattr

theorem Kept.move (h : Kept buf total maxIfaces q w) (p : Nat) :
    Kept buf total maxIfaces q { w with p := p } :=
  ⟨⟨h.reads, h.bounded, h.origins⟩, fun hin => (h.opened hin).same rfl rfl le_rfl⟩

theorem Walk.interface_p (buf : Nat → UInt8) (w : Walk) : (w.interface buf).p = w.p := by
  unfold Walk.interface
  dsimp only
  split <;> rfl

theorem Walk.endpoint_p (buf : Nat → UInt8) (w : Walk) : (w.endpoint buf).p = w.p := by
  unfold Walk.endpoint
  dsimp only
  split <;> rfl

theorem Walk.next_p (buf : Nat → UInt8) (w : Walk) :
    (w.next buf).p = w.p + (buf w.p).toNat := by
  unfold Walk.next
  dsimp only
  split_ifs
  · rw [Walk.interface_p]
  · rw [Walk.endpoint_p]
  · rfl

theorem Kept.next (h : Kept buf total maxIfaces w.p w) (hat : DescriptorAt buf total w.p)
    (hturn : Turn total maxIfaces w) (hlen : 2 ≤ buf w.p) (hroom : Room buf total w) :
    Kept buf total maxIfaces (w.p + (buf w.p).toNat) ((w.touch [0, 1]).next buf) := by
  unfold Room needed at hroom
  rw [if_neg (UInt8.not_lt.mpr hlen)] at hroom
  have hfirst : Kept buf total maxIfaces w.p (w.touch [0, 1]) := by
    have htwo : w.p + 2 ≤ total := by
      split_ifs at hroom <;> omega
    exact h.touch [0, 1] htwo (by decide)
  unfold Walk.next
  dsimp only
  refine Kept.move ?_ _
  by_cases htype : buf (w.p + 1) = 0x04
  · rw [if_pos htype] at hroom
    rw [if_pos (show buf ((w.touch [0, 1]).p + 1) = 0x04 from htype)]
    exact Kept.interface (w := w.touch [0, 1]) hfirst hat hlen htype hroom
  · rw [if_neg htype] at hroom
    rw [if_neg (show ¬buf ((w.touch [0, 1]).p + 1) = 0x04 from htype)]
    by_cases hendp : buf (w.p + 1) = 0x05 ∧ w.inHidIface
    · rw [if_pos hendp] at hroom
      rw [if_pos (show buf ((w.touch [0, 1]).p + 1) = 0x05 ∧ (w.touch [0, 1]).inHidIface
        from hendp)]
      have hkept := Kept.endpoint (w := w.touch [0, 1]) hfirst hat hturn.2 hendp.1 hendp.2 hroom
      exact hkept.later (Nat.le_add_right ..)
    · rw [if_neg (show ¬(buf ((w.touch [0, 1]).p + 1) = 0x05 ∧ (w.touch [0, 1]).inHidIface)
        from hendp)]
      exact hfirst.later (Nat.le_add_right ..)

-- w' has what w has read and found.
structure Grows (w w' : Walk) : Prop where
  reads : w.reads ⊆ w'.reads
  found : w.found ⊆ w'.found

theorem Grows.trans {w' w'' : Walk} (h : Grows w w') (h' : Grows w' w'') : Grows w w'' :=
  ⟨List.Subset.trans h.reads h'.reads, List.Subset.trans h.found h'.found⟩

theorem Grows.touch (w : Walk) (offs : List Nat) : Grows w (w.touch offs) :=
  ⟨List.subset_append_left .., List.Subset.refl _⟩

theorem Grows.interface (buf : Nat → UInt8) (w : Walk) : Grows w (w.interface buf) := by
  have hclass := Grows.touch w [5]
  unfold Walk.interface
  dsimp only
  split
  · have hfields := hclass.trans (.touch _ [2, 7])
    exact ⟨hfields.reads, hfields.found⟩
  · exact ⟨hclass.reads, hclass.found⟩

theorem Grows.endpoint (buf : Nat → UInt8) (w : Walk) : Grows w (w.endpoint buf) := by
  have hattr := Grows.touch w [3]
  unfold Walk.endpoint
  dsimp only
  split
  · have hfields := hattr.trans (.touch _ [2, 4, 5, 6])
    exact ⟨hfields.reads, List.Subset.trans hfields.found (List.subset_append_left ..)⟩
  · exact hattr

theorem Grows.next (buf : Nat → UInt8) (w : Walk) : Grows w (w.next buf) := by
  unfold Walk.next
  dsimp only
  split_ifs
  · have h := Grows.interface buf w
    exact ⟨h.reads, h.found⟩
  · have h := Grows.endpoint buf w
    exact ⟨h.reads, h.found⟩
  · exact ⟨List.Subset.refl _, List.Subset.refl _⟩

theorem Walk.interface_class (buf : Nat → UInt8) (w : Walk) :
    w.p + 5 ∈ (w.interface buf).reads := by
  have hclass : w.p + 5 ∈ (w.touch [5]).reads := Walk.mem_touch.mpr (.inr ⟨5, by simp, rfl⟩)
  unfold Walk.interface
  dsimp only
  split
  · exact (Grows.touch (w.touch [5]) [2, 7]).reads hclass
  · exact hclass

theorem Walk.interface_protocol (h : buf (w.p + 5) = 0x03) :
    w.p + 7 ∈ (w.interface buf).reads := by
  unfold Walk.interface
  dsimp only
  rw [if_pos (show buf ((w.touch [5]).p + 5) = 0x03 from h)]
  exact Walk.mem_touch.mpr (.inr ⟨7, by simp, rfl⟩)

theorem Walk.endpoint_attributes (buf : Nat → UInt8) (w : Walk) :
    w.p + 3 ∈ (w.endpoint buf).reads := by
  have hattr : w.p + 3 ∈ (w.touch [3]).reads := Walk.mem_touch.mpr (.inr ⟨3, by simp, rfl⟩)
  unfold Walk.endpoint
  dsimp only
  split
  · exact (Grows.touch (w.touch [3]) [2, 4, 5, 6]).reads hattr
  · exact hattr

theorem Walk.endpoint_found (h : buf (w.p + 3) &&& 0x03 = 0x03) :
    ∃ r ∈ (w.endpoint buf).found, r.endpAt = w.p := by
  unfold Walk.endpoint
  dsimp only
  rw [if_pos (show buf ((w.touch [3]).p + 3) &&& 0x03 = 0x03 from h)]
  exact ⟨_, List.mem_append_right _ List.mem_cons_self, rfl⟩

-- A descriptor that has not enough bytes in the buffer is read all the same.
theorem Parsed.room {w' : Walk} (h : Parsed buf total maxIfaces w') (hlen : 2 ≤ buf w.p)
    (hgrows : Grows ((w.touch [0, 1]).next buf) w') : Room buf total w := by
  have hreads : ∀ a ∈ ((w.touch [0, 1]).next buf).reads, a < total :=
    fun a ha => h.reads a (hgrows.reads ha)
  have horigins : ∀ r ∈ ((w.touch [0, 1]).next buf).found, Origin buf total r :=
    fun r hr => h.origins r (hgrows.found hr)
  have htwo : w.p + 1 < total :=
    hreads _ ((Grows.next buf _).reads (Walk.mem_touch.mpr (.inr ⟨1, by simp, rfl⟩)))
  unfold Walk.next at hreads horigins
  dsimp only at hreads horigins
  unfold Room needed
  rw [if_neg (UInt8.not_lt.mpr hlen)]
  by_cases htype : buf (w.p + 1) = 0x04
  · rw [if_pos (show buf ((w.touch [0, 1]).p + 1) = 0x04 from htype)] at hreads horigins
    rw [if_pos htype]
    have hclass : w.p + 5 < total := hreads _ (Walk.interface_class buf (w.touch [0, 1]))
    split
    · rename_i hhid
      have hprotocol : w.p + 7 < total :=
        hreads _ (Walk.interface_protocol (w := w.touch [0, 1]) hhid)
      exact hprotocol
    · exact hclass
  · rw [if_neg (show ¬buf ((w.touch [0, 1]).p + 1) = 0x04 from htype)] at hreads horigins
    rw [if_neg htype]
    by_cases hendp : buf (w.p + 1) = 0x05 ∧ w.inHidIface
    · rw [if_pos (show buf ((w.touch [0, 1]).p + 1) = 0x05 ∧ (w.touch [0, 1]).inHidIface
        from hendp)] at hreads horigins
      rw [if_pos hendp]
      have hattr : w.p + 3 < total := hreads _ (Walk.endpoint_attributes buf (w.touch [0, 1]))
      split
      · rename_i hint
        obtain ⟨r, hr, hat⟩ := Walk.endpoint_found (w := w.touch [0, 1]) hint
        have hwhole := (horigins r hr).endpWhole
        rw [show r.endpAt = w.p from hat] at hwhole
        have hfields := hwhole.1
        have hend := hwhole.2
        omega
      · exact hattr
    · rw [if_neg hendp]
      exact htwo

end Walks

section Loop

variable {buf : Nat → UInt8} {total : Nat} {maxIfaces : Int} {w : Walk}

theorem next_advances (hlen : ¬buf w.p < 2) : w.p + 2 ≤ ((w.touch [0, 1]).next buf).p := by
  rw [Walk.next_p]
  exact Nat.add_le_add_left (UInt8.le_iff_toNat_le.mp (UInt8.not_lt.mp hlen)) w.p

-- Every turn but the last moves p on, so the turns come to an end.
theorem parseLoop_ends (buf : Nat → UInt8) (total : Nat) (maxIfaces : Int) {fuel : Nat}
    (h : total - w.p < fuel) :
    ∃ w', parseLoop buf total maxIfaces fuel w = some w' ∧ Grows w w' := by
  induction fuel generalizing w with
  | zero => exact absurd h (Nat.not_lt_zero _)
  | succ fuel ih =>
    unfold parseLoop
    dsimp only
    split
    · rename_i hturn
      split
      · exact ⟨_, rfl, .touch w [0, 1]⟩
      · rename_i hlen
        have hmove := next_advances (w := w) hlen
        obtain ⟨w', hloop, hgrows⟩ := ih (w := (w.touch [0, 1]).next buf) (by omega)
        exact ⟨w', hloop, ((Grows.touch w [0, 1]).trans (.next buf _)).trans hgrows⟩
    · exact ⟨w, rfl, List.Subset.refl _, List.Subset.refl _⟩

-- The last descriptor is a byte that says less than 2, and the one behind it.
theorem touch_parsed_iff (hparsed : Parsed buf total maxIfaces w) (hlen : buf w.p < 2) :
    Parsed buf total maxIfaces (w.touch [0, 1]) ↔ Room buf total w := by
  unfold Room needed
  rw [if_pos hlen]
  constructor
  · intro h
    exact h.reads (w.p + 1) (Walk.mem_touch.mpr (.inr ⟨1, by simp, rfl⟩))
  · intro hroom
    exact hparsed.touch [0, 1] hroom (by decide)

theorem parseLoop_parsed_iff {fuel : Nat} (h : total - w.p < fuel)
    (hkept : Kept buf total maxIfaces w.p w)
    (hat : w.p < total → DescriptorAt buf total w.p) :
    ∃ w', parseLoop buf total maxIfaces fuel w = some w' ∧
      (Parsed buf total maxIfaces w' ↔ ∀ v, Visits buf total maxIfaces w v →
        Turn total maxIfaces v → Room buf total v) := by
  induction fuel generalizing w with
  | zero => exact absurd h (Nat.not_lt_zero _)
  | succ fuel ih =>
    unfold parseLoop
    dsimp only
    by_cases hturn : Turn total maxIfaces w
    · rw [if_pos (show w.p < total ∧ w.found.length < maxIfaces from hturn)]
      have hp := hturn.1
      split
      · rename_i hlen
        refine ⟨_, rfl, (touch_parsed_iff hkept.toParsed hlen).trans ⟨fun hroom v hv _ => ?_,
          fun hall => hall w .here hturn⟩⟩
        cases hv with
        | here => exact hroom
        | later _ hlong _ => exact absurd hlen (UInt8.not_lt.mpr hlong)
      · rename_i hlen
        have hlong := UInt8.not_lt.mp hlen
        have hmove := next_advances (w := w) hlen
        have hfuel : total - ((w.touch [0, 1]).next buf).p < fuel := by omega
        by_cases hroom : Room buf total w
        · have hnext := hkept.next (hat hp) hturn hlong hroom
          have hp' : ((w.touch [0, 1]).next buf).p = w.p + (buf w.p).toNat := Walk.next_p buf _
          obtain ⟨w', hloop, hiff⟩ := ih hfuel (hp' ▸ hnext) fun hlt => by
            rw [hp'] at hlt ⊢
            exact (hat hp).next hlong hlt
          refine ⟨w', hloop, hiff.trans ⟨fun hall v hv hv' => ?_, fun hall v hv hv' => ?_⟩⟩
          · cases hv with
            | here => exact hroom
            | later _ _ hrest => exact hall v hrest hv'
          · exact hall v (.later hturn hlong hv) hv'
        · obtain ⟨w', hloop, hgrows⟩ := parseLoop_ends buf total maxIfaces hfuel
          exact ⟨w', hloop, iff_of_false (fun hw' => hroom (hw'.room hlong hgrows)) fun hall =>
            hroom (hall w .here hturn)⟩
    · rw [if_neg (show ¬(w.p < total ∧ w.found.length < maxIfaces) from hturn)]
      refine ⟨w, rfl, iff_of_true hkept.toParsed fun v hv hv' => ?_⟩
      cases hv with
      | here => exact absurd hv' hturn
      | later hw _ _ => exact absurd hw hturn

end Loop

theorem parseConfig_safe_iff (buf : Nat → UInt8) (total : Nat) (maxIfaces : Int) :
    ParsesSafely buf total maxIfaces ↔ ∀ w, Visits buf total maxIfaces start w →
      Turn total maxIfaces w → Room buf total w := by
  have hstart : Kept buf total maxIfaces start.p start :=
    ⟨⟨(fun _ h => by cases h), Nat.zero_le _, fun _ h => by cases h⟩, fun h => by cases h⟩
  have hloop {fuel : Nat} (h : total < fuel) :=
    parseLoop_parsed_iff (show total - start.p < fuel from h) hstart .first
  constructor
  · intro hsafe
    obtain ⟨w, hw, hparsed⟩ := hsafe (total + 1) total.lt_succ_self
    obtain ⟨w', hw', hiff⟩ := hloop total.lt_succ_self
    have heq : some w = some w' := hw.symm.trans hw'
    rw [Option.some.inj heq] at hparsed
    exact hiff.mp hparsed
  · intro hroom fuel hfuel
    obtain ⟨w, hw, hiff⟩ := hloop hfuel
    exact ⟨w, hw, hiff.mpr hroom⟩

-- Descriptors of three bytes in a buffer of 256: only one byte of the last is in it.
theorem parseConfig_last_byte : ¬ParsesSafely (fun _ => 3) 256 4 := by
  intro hsafe
  obtain ⟨w, hw, hparsed⟩ := hsafe 257 (by decide)
  have hread : (parseConfig (fun _ => 3) 256 4 257).map (fun w => w.reads.contains 256) =
      some true := by
    decide +kernel
  rw [hw] at hread
  have hmem : 256 ∈ w.reads := List.contains_iff_mem.mp (Option.some.inj hread)
  exact absurd (hparsed.reads 256 hmem) (by decide)

end Hid
