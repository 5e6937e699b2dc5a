import Mathlib.Tactic.Linarith
import Mathlib.Tactic.Common
import SabakaOS.Library.Word

namespace Gfx

open Word

abbrev Color32 := Nat

def colorRgb (r g b : Nat) : Color32 := 0xFF000000 ||| r <<< 16 ||| g <<< 8 ||| b

def colorR (c : Color32) : Nat := c >>> 16 &&& 0xFF

def colorG (c : Color32) : Nat := c >>> 8 &&& 0xFF

def colorB (c : Color32) : Nat := c &&& 0xFF

def colorA (c : Color32) : Nat := c >>> 24 &&& 0xFF

def colorBlend (src dst : Color32) : Color32 :=
  let a := colorA src
  if a = 0xFF then src
  else if a = 0 then dst
  else
    let ia := 255 - a
    let r := u8 ((colorR src * a + colorR dst * ia) / 255)
    let g := u8 ((colorG src * a + colorG dst * ia) / 255)
    let b := u8 ((colorB src * a + colorB dst * ia) / 255)
    colorRgb r g b

structure Rect where
  x : Int
  y : Int
  w : Int
  h : Int

def Rect.right (r : Rect) : Int := r.x + r.w

def Rect.bottom (r : Rect) : Int := r.y + r.h

def Rect.empty (r : Rect) : Bool := r.w ≤ 0 || r.h ≤ 0

def Rect.contains (r : Rect) (px py : Int) : Prop :=
  r.x ≤ px ∧ px < r.right ∧ r.y ≤ py ∧ py < r.bottom

instance (r : Rect) (px py : Int) : Decidable (r.contains px py) := by
  unfold Rect.contains
  infer_instance

def Rect.intersect (r o : Rect) : Rect :=
  let lx := if r.x > o.x then r.x else o.x
  let ly := if r.y > o.y then r.y else o.y
  let rx := if r.right < o.right then r.right else o.right
  let ry := if r.bottom < o.bottom then r.bottom else o.bottom
  if rx ≤ lx ∨ ry ≤ ly then ⟨0, 0, 0, 0⟩ else ⟨lx, ly, rx - lx, ry - ly⟩

-- pixels is the memory around s.pixels, which is at 0. Rows do not overlap.
structure Surface where
  pixels : Int → UInt8
  width : Int
  height : Int
  pitch : Int
  rows : 4 * width ≤ pitch

def surfaceRow (s : Surface) (y : Int) : Int := y * s.pitch

def pixelAt (s : Surface) (x y : Int) : Int := surfaceRow s y + 4 * x

def wordAt (m : Int → UInt8) (a : Int) : Color32 :=
  (m a).toNat + 0x100 * (m (a + 1)).toNat + 0x10000 * (m (a + 2)).toNat + 0x1000000 * (m (a + 3)).toNat

def putWord (m : Int → UInt8) (a : Int) (c : Color32) : Int → UInt8 := fun b =>
  if b = a then UInt8.ofNat c
  else if b = a + 1 then UInt8.ofNat (c / 0x100)
  else if b = a + 2 then UInt8.ofNat (c / 0x10000)
  else if b = a + 3 then UInt8.ofNat (c / 0x1000000)
  else m b

-- surface_row(s, y)[x], read and written, wherever it lies.
def peek (s : Surface) (x y : Int) : Color32 := wordAt s.pixels (pixelAt s x y)

def poke (s : Surface) (x y : Int) (c : Color32) : Surface :=
  { s with pixels := putWord s.pixels (pixelAt s x y) c }

def Surface.has (s : Surface) (x y : Int) : Prop := 0 ≤ x ∧ x < s.width ∧ 0 ≤ y ∧ y < s.height

instance (s : Surface) (x y : Int) : Decidable (s.has x y) := by
  unfold Surface.has
  infer_instance

def surfaceSet (s : Surface) (x y : Int) (c : Color32) : Surface :=
  if s.has x y then poke s x y c else s

-- The loops that go along a row, down a column and through a rectangle; g says what is written
-- at a place, given what was there.
def paintRow (g : Int → Int → Color32 → Color32) (s : Surface) (x y : Int) : Nat → Surface
  | 0 => s
  | n + 1 =>
    let s := paintRow g s x y n
    poke s (x + n) y (g (x + n) y (peek s (x + n) y))

def paintColumn (g : Int → Int → Color32 → Color32) (s : Surface) (x y : Int) : Nat → Surface
  | 0 => s
  | n + 1 =>
    let s := paintColumn g s x y n
    poke s x (y + n) (g x (y + n) (peek s x (y + n)))

def paintRows (g : Int → Int → Color32 → Color32) (s : Surface) (x y : Int) (w : Nat) : Nat → Surface
  | 0 => s
  | n + 1 => paintRow g (paintRows g s x y w n) x (y + n) w

structure Blit where
  dx : Int
  dy : Int
  sr : Rect

-- The cuts that surface_blit_rect and surface_blit_alpha both make to keep to dst.
def cutDst (dst : Surface) (b : Blit) : Blit :=
  let b := if b.dx < 0 then
    { b with dx := 0, sr := { b.sr with x := b.sr.x - b.dx, w := b.sr.w + b.dx } } else b
  let b := if b.dy < 0 then
    { b with dy := 0, sr := { b.sr with y := b.sr.y - b.dy, h := b.sr.h + b.dy } } else b
  let b := if b.dx + b.sr.w > dst.width then
    { b with sr := { b.sr with w := dst.width - b.dx } } else b
  if b.dy + b.sr.h > dst.height then { b with sr := { b.sr with h := dst.height - b.dy } } else b

def cutSrc (src : Surface) (b : Blit) : Blit :=
  let b := if b.sr.x < 0 then
    { b with dx := b.dx - b.sr.x, sr := { b.sr with x := 0, w := b.sr.w + b.sr.x } } else b
  let b := if b.sr.y < 0 then
    { b with dy := b.dy - b.sr.y, sr := { b.sr with y := 0, h := b.sr.h + b.sr.y } } else b
  let b := if b.sr.right > src.width then
    { b with sr := { b.sr with w := src.width - b.sr.x } } else b
  if b.sr.bottom > src.height then { b with sr := { b.sr with h := src.height - b.sr.y } } else b

def kmemcpy (m : Int → UInt8) (d : Int) (src : Int → UInt8) (s n : Int) : Int → UInt8 := fun b =>
  if d ≤ b ∧ b < d + n then src (s + (b - d)) else m b

def blitRows (dst src : Surface) (b : Blit) : Nat → Surface
  | 0 => dst
  | n + 1 =>
    let cur := blitRows dst src b n
    let sRow := surfaceRow src (b.sr.y + n) + b.sr.x * 4
    let dRow := surfaceRow dst (b.dy + n) + b.dx * 4
    { cur with pixels := kmemcpy cur.pixels dRow src.pixels sRow (b.sr.w * 4) }

def surfaceBlitRect (dst : Surface) (dx dy : Int) (src : Surface) (sr : Rect) : Surface :=
  let b := cutDst dst (cutSrc src ⟨dx, dy, sr⟩)
  if b.sr.w ≤ 0 ∨ b.sr.h ≤ 0 then dst
  else blitRows dst src b b.sr.h.toNat

def surfaceBlit (dst : Surface) (dx dy : Int) (src : Surface) : Surface :=
  surfaceBlitRect dst dx dy src ⟨0, 0, src.width, src.height⟩

def surfaceBlitAlpha (dst : Surface) (dx dy : Int) (src : Surface) : Surface :=
  let b := cutDst dst ⟨dx, dy, ⟨0, 0, src.width, src.height⟩⟩
  if b.sr.w ≤ 0 ∨ b.sr.h ≤ 0 then dst
  else paintRows (fun x y old => colorBlend (peek src (b.sr.x + (x - b.dx)) (b.sr.y + (y - b.dy))) old)
    dst b.dx b.dy b.sr.w.toNat b.sr.h.toNat

-- The memory outside the pixels that P holds of is as it was.
structure Within (P : Int → Int → Prop) (s s' : Surface) : Prop where
  width : s'.width = s.width
  height : s'.height = s.height
  pitch : s'.pitch = s.pitch
  frame : ∀ a, (∀ x y, P x y → a < pixelAt s x y ∨ pixelAt s x y + 4 ≤ a) → s'.pixels a = s.pixels a

section Words

variable {m m' : Int → UInt8} {a b : Int} {c : Color32}

theorem putWord_of_not_mem (m : Int → UInt8) (c : Color32) (h : b < a ∨ a + 4 ≤ b) :
    putWord m a c b = m b := by
  unfold putWord
  rw [if_neg (by omega), if_neg (by omega), if_neg (by omega), if_neg (by omega)]

theorem wordAt_congr (h : ∀ k, 0 ≤ k → k < 4 → m' (b + k) = m (a + k)) : wordAt m' b = wordAt m a := by
  have h0 := h 0 (by decide) (by decide)
  rw [add_zero, add_zero] at h0
  rw [wordAt, wordAt, h0, h 1 (by decide) (by decide), h 2 (by decide) (by decide),
    h 3 (by decide) (by decide)]

-- Two words are equal only byte by byte.
theorem byte_of_wordAt (h : wordAt m' b = wordAt m a) {k : Int} (h0 : 0 ≤ k) (h4 : k < 4) :
    m' (b + k) = m (a + k) := by
  have hlt : ∀ (f : Int → UInt8) x, (f x).toNat < 256 := fun f x => (f x).toNat_lt
  have b0 := hlt m' b
  have b1 := hlt m' (b + 1)
  have b2 := hlt m' (b + 2)
  have b3 := hlt m' (b + 3)
  have a0 := hlt m a
  have a1 := hlt m (a + 1)
  have a2 := hlt m (a + 2)
  have a3 := hlt m (a + 3)
  replace h : @Eq Nat (wordAt m' b) (wordAt m a) := h
  unfold wordAt at h
  obtain rfl | rfl | rfl | rfl : k = 0 ∨ k = 1 ∨ k = 2 ∨ k = 3 := by omega
  · rw [add_zero, add_zero]
    exact UInt8.toNat_inj.mp (by omega)
  · exact UInt8.toNat_inj.mp (by omega)
  · exact UInt8.toNat_inj.mp (by omega)
  · exact UInt8.toNat_inj.mp (by omega)

end Words

section Painting

variable {P : Int → Int → Prop} {s s' s'' : Surface} {x y : Int} {g : Int → Int → Color32 → Color32}

theorem Within.refl (P : Int → Int → Prop) (s : Surface) : Within P s s := ⟨rfl, rfl, rfl, fun _ _ => rfl⟩

theorem Within.pixelAt (h : Within P s s') (x y : Int) : pixelAt s' x y = pixelAt s x y := by
  rw [Gfx.pixelAt, Gfx.pixelAt, surfaceRow, surfaceRow, h.pitch]

theorem Within.trans (h : Within P s s') (h' : Within P s' s'') : Within P s s'' := by
  refine ⟨h'.width.trans h.width, h'.height.trans h.height, h'.pitch.trans h.pitch, fun a ha => ?_⟩
  rw [h'.frame a fun x y hp => by rw [h.pixelAt]; exact ha x y hp, h.frame a ha]

theorem poke_within (c : Color32) (hp : P x y) : Within P s (poke s x y c) :=
  ⟨rfl, rfl, rfl, fun _ ha => putWord_of_not_mem _ _ (ha x y hp)⟩

theorem surfaceSet_within (c : Color32) (hp : s.has x y → P x y) : Within P s (surfaceSet s x y c) := by
  unfold surfaceSet
  split
  · rename_i h
    exact poke_within c (hp h)
  · exact .refl P s

theorem paintRow_within {n : Nat} (hp : ∀ k < n, P (x + (k : Nat)) y) :
    Within P s (paintRow g s x y n) := by
  induction n with
  | zero => exact .refl P s
  | succ n ih =>
    exact (ih fun k hk => hp k (by omega)).trans (poke_within _ (hp n (by omega)))

theorem paintColumn_within {n : Nat} (hp : ∀ k < n, P x (y + (k : Nat))) :
    Within P s (paintColumn g s x y n) := by
  induction n with
  | zero => exact .refl P s
  | succ n ih =>
    exact (ih fun k hk => hp k (by omega)).trans (poke_within _ (hp n (by omega)))

theorem paintRows_within {w n : Nat} (hp : ∀ i < w, ∀ j < n, P (x + (i : Nat)) (y + (j : Nat))) :
    Within P s (paintRows g s x y w n) := by
  induction n with
  | zero => exact .refl P s
  | succ n ih =>
    refine (ih fun i hi j hj => hp i hi j (by omega)).trans (paintRow_within fun i hi => ?_)
    exact hp i hi n (by omega)

end Painting

end Gfx
