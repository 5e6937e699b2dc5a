import Mathlib.Tactic.Linarith
import SabakaOS.Library.ByteMemory
import SabakaOS.Library.Loop
import SabakaOS.Library.Word

namespace Fb

open Word ByteMemory

def asU32 (n : Int) : Nat := (n % 4294967296).toNat

def asInt (n : Nat) : Int := if n < 2147483648 then n else n - 4294967296

-- mem is the memory from s_fb on. The rows lie one behind the other in the address space; fb_init
-- refuses any other bpp and anything smaller.
structure Framebuffer where
  mem : Nat → UInt8
  width : Nat
  height : Nat
  pitch : Nat
  bpp : Nat
  ready : Bool
  format : bpp = 32 ∨ bpp = 24 ∨ bpp = 16
  size : 320 ≤ width ∧ 200 ≤ height
  rows : width * (bpp / 8) ≤ pitch
  fits : height * pitch ≤ 4294967296

-- The bytes that put writes for a colour.
def encode (bpp color : Nat) : List UInt8 :=
  let r := u8 (color >>> 16)
  let g := u8 (color >>> 8)
  let b := u8 color
  if bpp = 32 then [UInt8.ofNat b, UInt8.ofNat g, UInt8.ofNat r, 0]
  else if bpp = 24 then [UInt8.ofNat b, UInt8.ofNat g, UInt8.ofNat r]
  else if bpp = 16 then
    let px := (r >>> 3) <<< 11 ||| (g >>> 2) <<< 5 ||| b >>> 3
    [UInt8.ofNat (px &&& 0xFF), UInt8.ofNat (px >>> 8)]
  else []

def pixelAt (fb : Framebuffer) (x y : Int) : Nat :=
  u32 (u32 (asU32 y * fb.pitch) + u32 (asU32 x * (fb.bpp / 8)))

def put (fb : Framebuffer) (x y : Int) (color : Nat) : Framebuffer :=
  { fb with mem := writeBytes fb.mem (pixelAt fb x y) (encode fb.bpp color) }

def fbFillRect (fb : Framebuffer) (x y w h : Int) (color : Nat) : Framebuffer :=
  if !fb.ready then fb
  else
    let x1 := if x < 0 then 0 else x
    let y1 := if y < 0 then 0 else y
    let x2 := if asU32 (x + w) > fb.width then asInt fb.width else x + w
    let y2 := if asU32 (y + h) > fb.height then asInt fb.height else y + h
    Loop.upto (y2 - y1).toNat (fun row fb =>
      Loop.upto (x2 - x1).toNat (fun col fb => put fb (x1 + col) (y1 + row) color) fb) fb

def Framebuffer.has (fb : Framebuffer) (x y : Int) : Prop :=
  0 ≤ x ∧ x < fb.width ∧ 0 ≤ y ∧ y < fb.height

def pixel (fb : Framebuffer) (x y : Int) : List UInt8 :=
  readBytes fb.mem (fb.bpp / 8) (pixelAt fb x y)

-- The pixels of P and no other byte of the memory get the colour.
structure Fills (P : Int → Int → Prop) (color : Nat) (fb fb' : Framebuffer) : Prop where
  same : ∃ mem, fb' = { fb with mem := mem }
  cells : ∀ x y, P x y → pixel fb' x y = encode fb.bpp color
  frame : ∀ a, (∀ x y, P x y → a < pixelAt fb x y ∨ pixelAt fb x y + fb.bpp / 8 ≤ a) →
    fb'.mem a = fb.mem a

-- The pixels of the screen in the rectangle.
def inRect (fb : Framebuffer) (x y w h px py : Int) : Prop :=
  fb.has px py ∧ x ≤ px ∧ px < x + w ∧ y ≤ py ∧ py < y + h

section Pixels

variable {fb fb' fb'' : Framebuffer} {P Q : Int → Int → Prop} {x y x' y' : Int} {color n : Nat}

theorem encode_length (h : fb.bpp = 32 ∨ fb.bpp = 24 ∨ fb.bpp = 16) (color : Nat) :
    (encode fb.bpp color).length = fb.bpp / 8 := by
  unfold encode
  rcases h with h | h | h <;> rw [h] <;> rfl

theorem dimension_lt (fb : Framebuffer) : fb.width < 2147483648 ∧ fb.height < 2147483648 := by
  have hbytes : 2 ≤ fb.bpp / 8 := by
    rcases fb.format with h | h | h <;> rw [h] <;> decide
  obtain ⟨hw, hh⟩ := fb.size
  have hwidth : fb.width * 2 ≤ fb.pitch := (Nat.mul_le_mul_left _ hbytes).trans fb.rows
  have h1 : 200 * (fb.width * 2) ≤ fb.height * fb.pitch := Nat.mul_le_mul hh hwidth
  have h2 : fb.height * 640 ≤ fb.height * fb.pitch := Nat.mul_le_mul_left _ (by omega)
  have := fb.fits
  omega

-- On the screen nothing in put wraps.
theorem pixelAt_eq (h : fb.has x y) : pixelAt fb x y = y.toNat * fb.pitch + x.toNat * (fb.bpp / 8) ∧
    pixelAt fb x y + fb.bpp / 8 ≤ (y.toNat + 1) * fb.pitch := by
  obtain ⟨hx0, hx1, hy0, hy1⟩ := h
  obtain ⟨hw, hh⟩ := dimension_lt fb
  have hx : asU32 x = x.toNat := by unfold asU32; omega
  have hy : asU32 y = y.toNat := by unfold asU32; omega
  have hcol : (x.toNat + 1) * (fb.bpp / 8) ≤ fb.pitch :=
    (Nat.mul_le_mul_right _ (by omega)).trans fb.rows
  have hrow : (y.toNat + 1) * fb.pitch ≤ 4294967296 :=
    (Nat.mul_le_mul_right _ (by omega)).trans fb.fits
  have hbytes : 0 < fb.bpp / 8 := by
    rcases fb.format with h | h | h <;> rw [h] <;> decide
  rw [Nat.add_mul, Nat.one_mul] at hcol hrow ⊢
  unfold pixelAt
  rw [hx, hy, u32_of_lt (n := y.toNat * fb.pitch) (by omega),
    u32_of_lt (n := x.toNat * (fb.bpp / 8)) (by omega), u32_of_lt (by omega)]
  omega

theorem pixelAt_apart (h : fb.has x y) (h' : fb.has x' y') (hne : ¬(x = x' ∧ y = y')) :
    pixelAt fb x y + fb.bpp / 8 ≤ pixelAt fb x' y' ∨
      pixelAt fb x' y' + fb.bpp / 8 ≤ pixelAt fb x y := by
  have hbelow {x y x' y' : Int} (h : fb.has x y) (h' : fb.has x' y') (hlt : y < y') :
      pixelAt fb x y + fb.bpp / 8 ≤ pixelAt fb x' y' := by
    have hmul : (y.toNat + 1) * fb.pitch ≤ y'.toNat * fb.pitch :=
      Nat.mul_le_mul_right _ (by have := h.2.2.1; omega)
    have := (pixelAt_eq h).2
    have := (pixelAt_eq h').1
    omega
  have hbeside {x x' : Int} (h : fb.has x y) (h' : fb.has x' y) (hlt : x < x') :
      pixelAt fb x y + fb.bpp / 8 ≤ pixelAt fb x' y := by
    have hmul : (x.toNat + 1) * (fb.bpp / 8) ≤ x'.toNat * (fb.bpp / 8) :=
      Nat.mul_le_mul_right _ (by have := h.1; omega)
    rw [Nat.add_mul, Nat.one_mul] at hmul
    have := (pixelAt_eq h).1
    have := (pixelAt_eq h').1
    omega
  rcases lt_trichotomy y y' with hy | rfl | hy
  · exact .inl (hbelow h h' hy)
  · rcases lt_trichotomy x x' with hx | rfl | hx
    · exact .inl (hbeside h h' hx)
    · exact absurd ⟨rfl, rfl⟩ hne
    · exact .inr (hbeside h' h hx)
  · exact .inr (hbelow h' h hy)

theorem Fills.nothing (color : Nat) (fb : Framebuffer) : Fills (fun _ _ => False) color fb fb :=
  ⟨⟨fb.mem, rfl⟩, fun _ _ h => h.elim, fun _ _ => rfl⟩

theorem Fills.congr (h : Fills P color fb fb') (hPQ : ∀ x y, P x y ↔ Q x y) :
    Fills Q color fb fb' :=
  ⟨h.same, fun x y hq => h.cells x y ((hPQ x y).mpr hq), fun a ha =>
    h.frame a fun x y hp => ha x y ((hPQ x y).mp hp)⟩

theorem Fills.pixel_eq (h : Fills P color fb fb') (hP : ∀ x y, P x y → fb.has x y)
    (hxy : fb.has x y) (hnot : ¬P x y) : pixel fb' x y = pixel fb x y := by
  obtain ⟨mem, rfl⟩ := h.same
  refine readBytes_congr fun k h1 h2 => h.frame k fun x' y' hp => ?_
  have hne : ¬(x = x' ∧ y = y') := by
    rintro ⟨rfl, rfl⟩
    exact hnot hp
  have := pixelAt_apart hxy (hP x' y' hp) hne
  change pixelAt fb x y ≤ k at h1
  change k < pixelAt fb x y + fb.bpp / 8 at h2
  omega

theorem Fills.append (h : Fills P color fb fb') (h' : Fills Q color fb' fb'')
    (hP : ∀ x y, P x y → fb.has x y) (hQ : ∀ x y, Q x y → fb.has x y) :
    Fills (fun x y => P x y ∨ Q x y) color fb fb'' := by
  obtain ⟨mem, rfl⟩ := h.same
  obtain ⟨mem', hmem'⟩ := h'.same
  refine ⟨⟨mem', hmem'⟩, fun x y hxy => ?_, fun a ha => ?_⟩
  · by_cases hq : Q x y
    · exact h'.cells x y hq
    · have hp := hxy.resolve_right hq
      rw [h'.pixel_eq hQ (hP x y hp) hq, h.cells x y hp]
  · rw [h'.frame a fun x y hq => ha x y (.inr hq)]
    exact h.frame a fun x y hp => ha x y (.inl hp)

theorem put_fills (fb : Framebuffer) (x y : Int) (color : Nat) :
    Fills (fun x' y' => x' = x ∧ y' = y) color fb (put fb x y color) := by
  have hlen := encode_length fb.format color
  refine ⟨⟨_, rfl⟩, ?_, fun a ha => ?_⟩
  · rintro x' y' ⟨rfl, rfl⟩
    have hread := readBytes_written fb.mem (pixelAt fb x' y') (encode fb.bpp color)
    rwa [hlen] at hread
  · refine writeBytes_of_not_mem fb.mem _ _ ?_
    rw [hlen]
    exact ha x y ⟨rfl, rfl⟩

-- A loop whose turn i fills P i.
theorem upto_fills {P : Nat → Int → Int → Prop} {f : Nat → Framebuffer → Framebuffer}
    (hf : ∀ i < n, ∀ mem, Fills (P i) color { fb with mem := mem } (f i { fb with mem := mem }))
    (hP : ∀ i < n, ∀ x y, P i x y → fb.has x y) :
    Fills (fun x y => ∃ i < n, P i x y) color fb (Loop.upto n f fb) := by
  refine Loop.upto_inv (fun n fb' => Fills (fun x y => ∃ i < n, P i x y) color fb fb')
    ((Fills.nothing color fb).congr fun x y => ⟨False.elim, fun ⟨_, h, _⟩ => by omega⟩)
    fun i fb' hi hprev => ?_
  obtain ⟨mem, hmem⟩ := hprev.same
  have hturn := hf i hi mem
  rw [← hmem] at hturn
  refine (hprev.append hturn ?_ (hP i hi)).congr fun x y => Nat.exists_lt_succ_right.symm
  rintro x y ⟨j, hj, hp⟩
  exact hP j (hj.trans hi) x y hp

end Pixels

-- The pixels that fb_fill_rect goes through along one side of the screen.
def spanned (start len size : Int) (p : Int) : Prop :=
  (if start < 0 then 0 else start) ≤ p ∧
    p < if 0 ≤ start + len ∧ start + len ≤ size then start + len else size

-- No pixel along a side of the screen is within start and start + len, nor does that end above it.
def Misses (start len size : Int) : Prop :=
  0 ≤ start + len ∧ (len = 0 ∨ start + len = 0 ∨ size ≤ start)

section Spans

variable {start len size p : Int}

theorem spanned_iff (h : 0 ≤ start + len) :
    spanned start len size p ↔ (0 ≤ p ∧ p < size) ∧ start ≤ p ∧ p < start + len := by
  unfold spanned
  split <;> split <;> omega

theorem spanned_inside (h : spanned start len size p) : 0 ≤ p ∧ p < size := by
  unfold spanned at h
  split at h <;> split at h <;> omega

theorem Misses.spanned (h : Misses start len size) : ¬spanned start len size p := by
  unfold Misses at h
  rw [spanned_iff h.1]
  omega

theorem exists_spanned (hlen : 0 ≤ len) (hsize : 0 < size) (h : ¬Misses start len size) :
    ∃ p, spanned start len size p := by
  refine ⟨if start < 0 then 0 else start, le_rfl, ?_⟩
  unfold Misses at h
  split <;> split <;> omega

end Spans

section Filling

variable {fb : Framebuffer} {x y w h : Int} {color : Nat}

-- The right edge as the code takes it: below 0 it counts as beyond the screen.
theorem edge_eq {start len : Int} {size : Nat} (hsize : size < 2147483648)
    (hstart : -2147483648 ≤ start) (hlen : 0 ≤ len) (hend : start + len < 2147483648) :
    (if asU32 (start + len) > size then asInt size else start + len) =
      if 0 ≤ start + len ∧ start + len ≤ size then start + len else size := by
  unfold asU32 asInt
  rw [if_pos hsize]
  split <;> split <;> omega

-- The two loops over a box that lies on the screen.
theorem box_fills (fb : Framebuffer) (color : Nat) {x1 y1 x2 y2 : Int} (hx1 : 0 ≤ x1) (hy1 : 0 ≤ y1)
    (hx2 : x2 ≤ fb.width) (hy2 : y2 ≤ fb.height) :
    Fills (fun px py => (x1 ≤ px ∧ px < x2) ∧ y1 ≤ py ∧ py < y2) color fb
      (Loop.upto (y2 - y1).toNat (fun row fb => Loop.upto (x2 - x1).toNat
        (fun col fb => put fb (x1 + col) (y1 + row) color) fb) fb) := by
  have hrow (row : Nat) (hrow : row < (y2 - y1).toNat) (mem : Nat → UInt8) :
      Fills (fun px py => ∃ col < (x2 - x1).toNat, px = x1 + (col : Nat) ∧ py = y1 + row) color
        { fb with mem := mem } (Loop.upto (x2 - x1).toNat
          (fun col fb => put fb (x1 + col) (y1 + row) color) { fb with mem := mem }) := by
    refine upto_fills (fun col _ mem' => put_fills _ _ _ _) fun col hcol px py hp => ?_
    rw [hp.1, hp.2]
    exact ⟨by omega, by change x1 + (col : Int) < (fb.width : Int); omega, by omega,
      by change y1 + (row : Int) < (fb.height : Int); omega⟩
  refine (upto_fills hrow fun row hrow px py => ?_).congr fun px py => ?_
  · rintro ⟨col, hcol, rfl, rfl⟩
    exact ⟨by omega, by omega, by omega, by omega⟩
  · constructor
    · rintro ⟨row, hrow, col, hcol, rfl, rfl⟩
      omega
    · rintro ⟨⟨h1, h2⟩, h3, h4⟩
      exact ⟨(py - y1).toNat, by omega, (px - x1).toNat, by omega, by omega, by omega⟩

theorem fillRect_fills (fb : Framebuffer) (color : Nat) (hready : fb.ready = true)
    (hx : -2147483648 ≤ x) (hy : -2147483648 ≤ y) (hw : 0 ≤ w) (hh : 0 ≤ h)
    (hxw : x + w < 2147483648) (hyh : y + h < 2147483648) :
    Fills (fun px py => spanned x w fb.width px ∧ spanned y h fb.height py) color fb
      (fbFillRect fb x y w h color) := by
  obtain ⟨hwidth, hheight⟩ := dimension_lt fb
  have hstart (start : Int) : 0 ≤ if start < 0 then 0 else start := by
    split <;> omega
  have hlast (start len : Int) (size : Nat) :
      (if 0 ≤ start + len ∧ start + len ≤ size then start + len else size) ≤ size := by
    split <;> omega
  unfold fbFillRect spanned
  rw [hready, Bool.not_true, if_neg Bool.false_ne_true, edge_eq hwidth hx hw hxw,
    edge_eq hheight hy hh hyh]
  exact box_fills fb color (hstart x) (hstart y) (hlast x w fb.width) (hlast y h fb.height)

-- What is filled, whatever the memory holds, is filled by that set of pixels only.
theorem Fills.unique {P Q : Int → Int → Prop} {f : Framebuffer → Framebuffer}
    (hP : ∀ x y, P x y → fb.has x y) (hQ : ∀ x y, Q x y → fb.has x y)
    (h : ∀ mem, Fills P color { fb with mem := mem } (f { fb with mem := mem }))
    (h' : ∀ mem, Fills Q color { fb with mem := mem } (f { fb with mem := mem })) (x y : Int)
    (hp : P x y) : Q x y := by
  by_contra hq
  have hlen := encode_length fb.format color
  have hbytes : 0 < fb.bpp / 8 := by
    rcases fb.format with h | h | h <;> rw [h] <;> decide
  obtain ⟨c, bs, hcode⟩ := List.exists_cons_of_length_pos (hlen ▸ hbytes)
  have hset := (h fun _ => c + 1).cells x y hp
  have hkept := (h' fun _ => c + 1).pixel_eq (fun x y hq => hQ x y hq) (hP x y hp) hq
  rw [hset] at hkept
  change encode fb.bpp color = readBytes (fun _ => c + 1) (fb.bpp / 8) _ at hkept
  obtain ⟨k, hk⟩ := Nat.exists_eq_succ_of_ne_zero hbytes.ne'
  rw [hcode, hk, readBytes, List.range_succ_eq_map, List.map_cons] at hkept
  have := (List.cons.inj hkept).1
  exact absurd this (by simp)

theorem fillRect_exact_iff (fb : Framebuffer) (hready : fb.ready = true)
    (hx : -2147483648 ≤ x) (hy : -2147483648 ≤ y) (hw : 0 ≤ w) (hh : 0 ≤ h)
    (hxw : x + w < 2147483648) (hyh : y + h < 2147483648) (color : Nat) :
    (∀ mem, Fills (inRect fb x y w h) color { fb with mem := mem }
      (fbFillRect { fb with mem := mem } x y w h color)) ↔
      (0 ≤ x + w ∨ Misses y h fb.height) ∧ (0 ≤ y + h ∨ Misses x w fb.width) := by
  have hfills (mem : Nat → UInt8) := fillRect_fills { fb with mem := mem } color
    hready hx hy hw hh hxw hyh
  obtain ⟨hwidth, hheight⟩ := fb.size
  have hinside (px py : Int) (hp : spanned x w fb.width px ∧ spanned y h fb.height py) :
      fb.has px py := by
    obtain ⟨h1, h2⟩ := spanned_inside hp.1
    obtain ⟨h3, h4⟩ := spanned_inside hp.2
    exact ⟨h1, h2, h3, h4⟩
  constructor
  · intro hall
    have hsub := Fills.unique (Q := inRect fb x y w h) (f := fun fb => fbFillRect fb x y w h color)
      hinside (fun _ _ hq => hq.1) hfills hall
    constructor
    · by_contra hnot
      obtain ⟨hleft, hrows⟩ := not_or.mp hnot
      have hcols : ¬Misses x w fb.width := fun hmiss => hleft hmiss.1
      obtain ⟨py, hpy⟩ := exists_spanned hh (by omega) hrows
      obtain ⟨px, hpx⟩ := exists_spanned hw (by omega) hcols
      obtain ⟨⟨h1, -⟩, -, h2, -⟩ := hsub px py ⟨hpx, hpy⟩
      omega
    · by_contra hnot
      obtain ⟨habove, hcols⟩ := not_or.mp hnot
      have hrows : ¬Misses y h fb.height := fun hmiss => habove hmiss.1
      obtain ⟨py, hpy⟩ := exists_spanned hh (by omega) hrows
      obtain ⟨px, hpx⟩ := exists_spanned hw (by omega) hcols
      obtain ⟨⟨-, -, h1, -⟩, -, -, -, h2⟩ := hsub px py ⟨hpx, hpy⟩
      omega
  · rintro ⟨hcols, hrows⟩ mem
    refine (hfills mem).congr fun px py => ?_
    unfold inRect Framebuffer.has
    by_cases hx0 : 0 ≤ x + w
    · by_cases hy0 : 0 ≤ y + h
      · rw [spanned_iff hx0, spanned_iff hy0]
        dsimp only
        omega
      · refine ⟨fun hp => absurd hp.1 (hrows.resolve_left hy0).spanned, fun hp => ?_⟩
        omega
    · refine ⟨fun hp => absurd hp.2 (hcols.resolve_left hx0).spanned, fun hp => ?_⟩
      omega

end Filling

-- A screen of 320 by 200 pixels, all bytes zero.
def smallScreen (bpp : Nat) (h : bpp = 32 ∨ bpp = 24 ∨ bpp = 16) : Framebuffer where
  mem := fun _ => 0
  width := 320
  height := 200
  pitch := 1280
  bpp := bpp
  ready := true
  format := h
  size := ⟨le_rfl, le_rfl⟩
  rows := by rcases h with rfl | rfl | rfl <;> decide
  fits := by decide

theorem fillRect_exact_corner :
    let fb := { smallScreen 16 (.inr (.inr rfl)) with mem := fun _ => 0 }
    Fills (inRect fb (-3) 190 10 20) 0xFF5555 fb (fbFillRect fb (-3) 190 10 20 0xFF5555) := by
  intro fb
  exact (fillRect_exact_iff fb rfl (by decide) (by decide) (by decide) (by decide) (by decide)
    (by decide) _).mpr ⟨.inl (by decide), .inl (by decide)⟩ (fun _ => 0)

-- The rectangle lies left of the screen, and its row is painted from end to end.
theorem fillRect_left : ¬∀ mem, Fills (inRect (smallScreen 32 (.inl rfl)) (-10) 0 5 1) 0xFF5555
    { smallScreen 32 (.inl rfl) with mem := mem }
    (fbFillRect { smallScreen 32 (.inl rfl) with mem := mem } (-10) 0 5 1 0xFF5555) := by
  intro hall
  have hcond := (fillRect_exact_iff (smallScreen 32 (.inl rfl)) rfl (by decide) (by decide)
    (by decide) (by decide) (by decide) (by decide) _).mp hall
  rcases hcond.1 with hleft | ⟨-, hrow | hrow | hrow⟩
  · exact absurd hleft (by decide)
  · exact absurd hrow (by decide)
  · exact absurd hrow (by decide)
  · exact absurd hrow (by decide)

end Fb
