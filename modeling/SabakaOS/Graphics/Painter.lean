import SabakaOS.Graphics.Surface

namespace Gfx

structure Painter where
  target : Surface
  clip : Rect
  color : Color32
  bg : Color32
  transparentBg : Bool

def white : Color32 := 0xFFF2F2F2

def black : Color32 := 0xFF0D0D0D

def fontW : Int := 8

def fontH : Int := 16

inductive Align where
  | left
  | center
  | right

def painterBegin (s : Surface) : Painter :=
  { target := s, clip := ⟨0, 0, s.width, s.height⟩, color := white, bg := black, transparentBg := false }

namespace Painter

variable (p : Painter)

def setClip (r : Rect) : Painter := { p with clip := p.clip.intersect r }

def resetClip : Painter := { p with clip := ⟨0, 0, p.target.width, p.target.height⟩ }

def plot (x y : Int) : Painter :=
  if x < p.clip.x ∨ y < p.clip.y ∨ x ≥ p.clip.right ∨ y ≥ p.clip.bottom then p
  else { p with target := surfaceSet p.target x y p.color }

def putPixel (x y : Int) : Painter := p.plot x y

def drawHline (x y len : Int) : Painter :=
  if len ≤ 0 then p
  else if y < p.clip.y ∨ y ≥ p.clip.bottom then p
  else
    let x0 := if x < p.clip.x then p.clip.x else x
    let x1 := if x + len > p.clip.right then p.clip.right else x + len
    if x0 ≥ x1 then p
    else { p with target := paintRow (fun _ _ _ => p.color) p.target x0 y (x1 - x0).toNat }

def drawVline (x y len : Int) : Painter :=
  if len ≤ 0 then p
  else if x < p.clip.x ∨ x ≥ p.clip.right then p
  else
    let y0 := if y < p.clip.y then p.clip.y else y
    let y1 := if y + len > p.clip.bottom then p.clip.bottom else y + len
    { p with target := paintColumn (fun _ _ _ => p.color) p.target x y0 (y1 - y0).toNat }

-- The turns that are left; every turn but the last moves towards (x1, y1).
def lineLoop (dx dy sx sy x1 y1 : Int) : Nat → Int → Int → Int → Painter → Painter
  | 0, _, _, _, p => p
  | turns + 1, x0, y0, err, p =>
    let p := p.plot x0 y0
    if x0 = x1 ∧ y0 = y1 then p
    else
      let e2 := 2 * err
      let a := if e2 ≥ dy then (err + dy, x0 + sx) else (err, x0)
      let b := if e2 ≤ dx then (a.1 + dx, y0 + sy) else (a.1, y0)
      lineLoop dx dy sx sy x1 y1 turns a.2 b.2 b.1 p

def drawLine (x0 y0 x1 y1 : Int) : Painter :=
  let dx := if x1 > x0 then x1 - x0 else x0 - x1
  let dy := -(if y1 > y0 then y1 - y0 else y0 - y1)
  let sx := if x0 < x1 then 1 else -1
  let sy := if y0 < y1 then 1 else -1
  lineLoop dx dy sx sy x1 y1 (dx - dy + 1).toNat x0 y0 (dx + dy) p

def drawRect (r : Rect) : Painter :=
  let p := p.drawHline r.x r.y r.w
  let p := p.drawHline r.x (r.bottom - 1) r.w
  let p := p.drawVline r.x r.y r.h
  p.drawVline (r.right - 1) r.y r.h

def fillRect (r : Rect) : Painter :=
  let cr := p.clip.intersect r
  if cr.empty then p
  else { p with target := paintRows (fun _ _ _ => p.color) p.target cr.x cr.y cr.w.toNat cr.h.toNat }

-- The loop over an octant that the six functions below have in common, with what each of them
-- draws at (x, y). A turn brings y - x down by one at least.
def octantLoop (body : Int → Int → Painter → Painter) : Nat → Int → Int → Int → Painter → Painter
  | 0, _, _, _, p => p
  | turns + 1, x, y, d, p =>
    if x ≤ y then
      let p := body x y p
      if d < 0 then octantLoop body turns (x + 1) y (d + (2 * x + 3)) p
      else octantLoop body turns (x + 1) (y - 1) (d + (2 * (x - y) + 5)) p
    else p

def octant (body : Int → Int → Painter → Painter) (r : Int) : Painter :=
  octantLoop body (r + 1).toNat 0 r (1 - r) p

def putEight (cx cy x y : Int) : Painter :=
  let p := (p.putPixel (cx + x) (cy + y)).putPixel (cx - x) (cy + y)
  let p := (p.putPixel (cx + x) (cy - y)).putPixel (cx - x) (cy - y)
  let p := (p.putPixel (cx + y) (cy + x)).putPixel (cx - y) (cy + x)
  (p.putPixel (cx + y) (cy - x)).putPixel (cx - y) (cy - x)

def drawCircle (cx cy r : Int) : Painter := p.octant (fun x y p => p.putEight cx cy x y) r

def fillCircle (cx cy r : Int) : Painter :=
  p.octant (fun x y p =>
    let p := p.drawHline (cx - y) (cy - x) (2 * y + 1)
    let p := p.drawHline (cx - y) (cy + x) (2 * y + 1)
    let p := p.drawHline (cx - x) (cy - y) (2 * x + 1)
    p.drawHline (cx - x) (cy + y) (2 * x + 1)) r

-- The pixels of a corner, in the order in which draw_rounded_rect puts them.
def corner (cx cy rad : Int) : Painter :=
  p.octant (fun x y p =>
    let p := (p.putPixel (cx + x) (cy - y)).putPixel (cx - x) (cy - y)
    let p := (p.putPixel (cx + x) (cy + y)).putPixel (cx - x) (cy + y)
    let p := (p.putPixel (cx + y) (cy - x)).putPixel (cx - y) (cy - x)
    (p.putPixel (cx + y) (cy + x)).putPixel (cx - y) (cy + x)) rad

def drawRoundedRect (r : Rect) (rad : Int) : Painter :=
  if rad ≤ 0 then p.drawRect r
  else
    let cx0 := r.x + rad
    let cy0 := r.y + rad
    let cx1 := r.right - 1 - rad
    let cy1 := r.bottom - 1 - rad
    let p := p.drawHline (r.x + rad) r.y (r.w - 2 * rad)
    let p := p.drawHline (r.x + rad) (r.bottom - 1) (r.w - 2 * rad)
    let p := p.drawVline r.x (r.y + rad) (r.h - 2 * rad)
    let p := p.drawVline (r.right - 1) (r.y + rad) (r.h - 2 * rad)
    let p := (p.corner cx0 cy0 rad).corner cx1 cy0 rad
    (p.corner cx0 cy1 rad).corner cx1 cy1 rad

def fillRoundedRect (r : Rect) (rad : Int) : Painter :=
  if rad ≤ 0 then p.fillRect r
  else
    let p := p.fillRect ⟨r.x, r.y + rad, r.w, r.h - 2 * rad⟩
    let p := p.fillRect ⟨r.x + rad, r.y, r.w - 2 * rad, rad⟩
    let p := p.fillRect ⟨r.x + rad, r.bottom - rad, r.w - 2 * rad, rad⟩
    let cx0 := r.x + rad
    let cy0 := r.y + rad
    let cx1 := r.right - 1 - rad
    let cy1 := r.bottom - 1 - rad
    let p := p.octant (fun x y p => (p.drawHline (cx0 - y) (cy0 - x) y).drawHline (cx0 - x) (cy0 - y) x)
      rad
    let p := p.octant (fun x y p => (p.drawHline cx1 (cy0 - x) y).drawHline cx1 (cy0 - y) x) rad
    let p := p.octant (fun x y p => (p.drawHline (cx0 - y) (cy1 + x) y).drawHline (cx0 - x) (cy1 + y) x)
      rad
    p.octant (fun x y p => (p.drawHline cx1 (cy1 + x) y).drawHline cx1 (cy1 + y) x) rad

def drawTriangle (x0 y0 x1 y1 x2 y2 : Int) : Painter :=
  ((p.drawLine x0 y0 x1 y1).drawLine x1 y1 x2 y2).drawLine x2 y2 x0 y0

-- The cast to uint8_t of a + (b - a) * t / 255.
def mixChannel (a b : Nat) (t : Int) : Nat := ((a + (((b : Int) - a) * t).tdiv 255) % 256).toNat

def mixColor (a b : Color32) (t : Int) : Color32 :=
  colorRgb (mixChannel (colorR a) (colorR b) t) (mixChannel (colorG a) (colorG b) t)
    (mixChannel (colorB a) (colorB b) t)

def fillRectGradientV (r : Rect) (top bot : Color32) : Painter :=
  let cr := p.clip.intersect r
  let shade := fun row : Int => mixColor top bot (((row - r.y) * 255).tdiv r.h)
  if cr.empty || r.h == 0 then p
  else { p with
    target := paintRows (fun _ row _ => shade row) p.target cr.x cr.y cr.w.toNat cr.h.toNat }

def fillRectGradientH (r : Rect) (left right : Color32) : Painter :=
  let cr := p.clip.intersect r
  let shade := fun col : Int => mixColor left right (((col - r.x) * 255).tdiv r.w)
  if cr.empty || r.w == 0 then p
  else { p with
    target := paintRows (fun col _ _ => shade col) p.target cr.x cr.y cr.w.toNat cr.h.toNat }

def times (n : Nat) (body : Nat → Painter → Painter) : Painter :=
  (List.range n).foldl (fun p k => body k p) p

def withColor (c : Color32) (draw : Painter → Painter) : Painter :=
  { draw { p with color := c } with color := p.color }

section Text

-- font_glyph: sixteen rows of eight bits.
variable (fontGlyph : UInt8 → Nat → Nat)

def drawChar (x y : Int) (c : UInt8) : Painter :=
  p.times 16 fun row p => p.times 8 fun col p =>
    if fontGlyph c row &&& (0x80 >>> col) ≠ 0 then p.plot (x + col) (y + row)
    else if !p.transparentBg then p.withColor p.bg (fun p => p.plot (x + col) (y + row))
    else p

-- A tab; cx moves on by a character a turn.
def tabLoop (y tab : Int) : Nat → Int → Painter → Int × Painter
  | 0, cx, p => (cx, p)
  | turns + 1, cx, p =>
    if cx < tab then
      let p := if !p.transparentBg then p.withColor p.bg (fun p => p.drawChar fontGlyph cx y 0x20) else p
      tabLoop y tab turns (cx + fontW) p
    else (cx, p)

def textLoop (x : Int) : List UInt8 → Int → Int → Painter → Painter
  | [], _, _, p => p
  | c :: s, cx, y, p =>
    if c = 0x0A then textLoop x s x (y + fontH) p
    else if c = 0x09 then
      let tab := (((cx - x).tdiv fontW).tdiv 4 + 1) * 4 * fontW + x
      let r := tabLoop fontGlyph y tab (tab - cx).toNat cx p
      textLoop x s r.1 y r.2
    else textLoop x s (cx + fontW) y (p.drawChar fontGlyph cx y c)

-- none is the null pointer.
def drawText (x y : Int) : Option (List UInt8) → Painter
  | none => p
  | some s => textLoop fontGlyph x s x y p

def drawTextAligned (r : Rect) (s : Option (List UInt8)) (align : Align) : Painter :=
  match s with
  | none => p
  | some s =>
    let tw := s.length * fontW
    let y := r.y + (r.h - fontH).tdiv 2
    let x := match align with
      | .left => r.x
      | .center => r.x + (r.w - tw).tdiv 2
      | .right => r.right - tw
    { (p.setClip r).drawText fontGlyph x y (some s) with clip := p.clip }

end Text

def blit (x y : Int) (src : Surface) : Painter := { p with target := surfaceBlit p.target x y src }

def blitRect (x y : Int) (src : Surface) (sr : Rect) : Painter :=
  { p with target := surfaceBlitRect p.target x y src sr }

def blitAlpha (x y : Int) (src : Surface) : Painter :=
  { p with target := surfaceBlitAlpha p.target x y src }

end Painter

inductive Op where
  | putPixel (x y : Int)
  | drawHline (x y len : Int)
  | drawVline (x y len : Int)
  | drawLine (x0 y0 x1 y1 : Int)
  | drawRect (r : Rect)
  | fillRect (r : Rect)
  | drawRoundedRect (r : Rect) (rad : Int)
  | fillRoundedRect (r : Rect) (rad : Int)
  | drawCircle (cx cy r : Int)
  | fillCircle (cx cy r : Int)
  | drawTriangle (x0 y0 x1 y1 x2 y2 : Int)
  | fillRectGradientV (r : Rect) (top bot : Color32)
  | fillRectGradientH (r : Rect) (left right : Color32)
  | drawChar (x y : Int) (c : UInt8)
  | drawText (x y : Int) (s : Option (List UInt8))
  | drawTextAligned (r : Rect) (s : Option (List UInt8)) (align : Align)
  | blit (x y : Int) (src : Surface)
  | blitRect (x y : Int) (src : Surface) (sr : Rect)
  | blitAlpha (x y : Int) (src : Surface)

def draw (fontGlyph : UInt8 → Nat → Nat) (p : Painter) : Op → Painter
  | .putPixel x y => p.putPixel x y
  | .drawHline x y len => p.drawHline x y len
  | .drawVline x y len => p.drawVline x y len
  | .drawLine x0 y0 x1 y1 => p.drawLine x0 y0 x1 y1
  | .drawRect r => p.drawRect r
  | .fillRect r => p.fillRect r
  | .drawRoundedRect r rad => p.drawRoundedRect r rad
  | .fillRoundedRect r rad => p.fillRoundedRect r rad
  | .drawCircle cx cy r => p.drawCircle cx cy r
  | .fillCircle cx cy r => p.fillCircle cx cy r
  | .drawTriangle x0 y0 x1 y1 x2 y2 => p.drawTriangle x0 y0 x1 y1 x2 y2
  | .fillRectGradientV r top bot => p.fillRectGradientV r top bot
  | .fillRectGradientH r left right => p.fillRectGradientH r left right
  | .drawChar x y c => p.drawChar fontGlyph x y c
  | .drawText x y s => p.drawText fontGlyph x y s
  | .drawTextAligned r s align => p.drawTextAligned fontGlyph r s align
  | .blit x y src => p.blit x y src
  | .blitRect x y src sr => p.blitRect x y src sr
  | .blitAlpha x y src => p.blitAlpha x y src

end Gfx
