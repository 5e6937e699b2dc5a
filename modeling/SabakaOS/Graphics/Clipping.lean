import SabakaOS.Graphics.Painter
import SabakaOS.Library.Run

namespace Gfx

open Word

-- Inside the clip rectangle and the surface.
def Painter.Inside (p : Painter) (x y : Int) : Prop := p.clip.contains x y ∧ p.target.has x y

def ClipInside (p : Painter) : Prop := ∀ x y, p.clip.contains x y → p.target.has x y

structure Draws (p p' : Painter) : Prop where
  clip : p'.clip = p.clip
  within : Within p.Inside p.target p'.target

structure Clipped (p p' : Painter) : Prop where
  draws : ClipInside p → Draws p p'

section Drawing

variable {p p' p'' : Painter} {x y : Int}

theorem le_larger (a b : Int) : a ≤ (if a > b then a else b) ∧ b ≤ (if a > b then a else b) := by
  split
  · omega
  · omega

theorem smaller_le (a b : Int) : (if a < b then a else b) ≤ a ∧ (if a < b then a else b) ≤ b := by
  split
  · omega
  · omega

theorem contains_intersect {r o : Rect} (h : (r.intersect o).contains x y) :
    r.contains x y ∧ o.contains x y := by
  have hx := le_larger r.x o.x
  have hy := le_larger r.y o.y
  have hright := smaller_le r.right o.right
  have hbottom := smaller_le r.bottom o.bottom
  unfold Rect.intersect at h
  simp only at h
  generalize (if r.x > o.x then r.x else o.x) = lx at h hx
  generalize (if r.y > o.y then r.y else o.y) = ly at h hy
  generalize (if r.right < o.right then r.right else o.right) = rx at h hright
  generalize (if r.bottom < o.bottom then r.bottom else o.bottom) = ry at h hbottom
  split at h
  · obtain ⟨h1, h2, -, -⟩ := h
    simp only [Rect.right] at h1 h2
    omega
  · obtain ⟨h1, h2, h3, h4⟩ := h
    simp only [Rect.right, Rect.bottom] at h1 h2 h3 h4
    unfold Rect.contains
    omega

theorem Draws.inside (h : Draws p p') : p'.Inside = p.Inside := by
  funext x y
  rw [Painter.Inside, Painter.Inside, h.clip, Surface.has, Surface.has, h.within.width, h.within.height]

theorem Draws.clipInside (h : Draws p p') (hp : ClipInside p) : ClipInside p' := by
  intro x y hc
  rw [h.clip] at hc
  rw [Surface.has, h.within.width, h.within.height]
  exact hp x y hc

theorem Draws.refl (p : Painter) : Draws p p := ⟨rfl, .refl _ _⟩

theorem Draws.trans (h : Draws p p') (h' : Draws p' p'') : Draws p p'' :=
  ⟨h'.clip.trans h.clip, h.within.trans (h.inside ▸ h'.within)⟩

theorem Clipped.refl (p : Painter) : Clipped p p := ⟨fun _ => .refl p⟩

theorem Clipped.trans (h : Clipped p p') (h' : Clipped p' p'') : Clipped p p'' :=
  ⟨fun hp => (h.draws hp).trans (h'.draws ((h.draws hp).clipInside hp))⟩

theorem Clipped.of_eq (hc : p'.clip = p.clip) (ht : p'.target = p.target) : Clipped p p' :=
  ⟨fun _ => ⟨hc, ht ▸ .refl _ _⟩⟩

theorem plot_clipped (p : Painter) (x y : Int) : Clipped p (p.plot x y) := by
  unfold Painter.plot
  split
  · exact .refl p
  · refine ⟨fun _ => ⟨rfl, surfaceSet_within _ fun hs => ⟨?_, hs⟩⟩⟩
    unfold Rect.contains
    omega

theorem drawHline_clipped (p : Painter) (x y len : Int) : Clipped p (p.drawHline x y len) := by
  have hx0 : p.clip.x ≤ if x < p.clip.x then p.clip.x else x := by
    split
    · omega
    · omega
  have hx1 : (if x + len > p.clip.right then p.clip.right else x + len) ≤ p.clip.right := by
    split
    · omega
    · omega
  unfold Painter.drawHline
  split
  · exact .refl p
  split
  · exact .refl p
  simp only
  generalize (if x < p.clip.x then p.clip.x else x) = x0 at hx0
  generalize (if x + len > p.clip.right then p.clip.right else x + len) = x1 at hx1
  split
  · exact .refl p
  · refine ⟨fun hp => ⟨rfl, paintRow_within fun k hk => ?_⟩⟩
    have hc : p.clip.contains (x0 + k) y := by
      unfold Rect.contains
      omega
    exact ⟨hc, hp _ _ hc⟩

theorem drawVline_clipped (p : Painter) (x y len : Int) : Clipped p (p.drawVline x y len) := by
  have hy0 : p.clip.y ≤ if y < p.clip.y then p.clip.y else y := by
    split
    · omega
    · omega
  have hy1 : (if y + len > p.clip.bottom then p.clip.bottom else y + len) ≤ p.clip.bottom := by
    split
    · omega
    · omega
  unfold Painter.drawVline
  split
  · exact .refl p
  split
  · exact .refl p
  simp only
  generalize (if y < p.clip.y then p.clip.y else y) = y0 at hy0
  generalize (if y + len > p.clip.bottom then p.clip.bottom else y + len) = y1 at hy1
  refine ⟨fun hp => ⟨rfl, paintColumn_within fun k hk => ?_⟩⟩
  have hc : p.clip.contains x (y0 + k) := by
    unfold Rect.contains
    omega
  exact ⟨hc, hp _ _ hc⟩

-- The rows that fill_rect and the two gradients write.
theorem paintClip_clipped (p : Painter) (r : Rect) (g : Int → Int → Color32 → Color32) :
    let cr := p.clip.intersect r
    Clipped p { p with target := paintRows g p.target cr.x cr.y cr.w.toNat cr.h.toNat } := by
  intro cr
  refine ⟨fun hp => ⟨rfl, paintRows_within fun i hi j hj => ?_⟩⟩
  have hin : cr.contains (cr.x + i) (cr.y + j) := by
    unfold Rect.contains Rect.right Rect.bottom
    omega
  have hc := (contains_intersect hin).1
  exact ⟨hc, hp _ _ hc⟩

theorem fillRect_clipped (p : Painter) (r : Rect) : Clipped p (p.fillRect r) := by
  unfold Painter.fillRect
  simp only
  split
  · exact .refl p
  · exact paintClip_clipped p r _

theorem lineLoop_clipped (dx dy sx sy x1 y1 : Int) (turns : Nat) (x0 y0 err : Int) (p : Painter) :
    Clipped p (Painter.lineLoop dx dy sx sy x1 y1 turns x0 y0 err p) := by
  induction turns generalizing x0 y0 err p with
  | zero => exact .refl p
  | succ turns ih =>
    unfold Painter.lineLoop
    simp only
    split
    · exact plot_clipped p x0 y0
    · exact (plot_clipped p x0 y0).trans (ih ..)

theorem drawLine_clipped (p : Painter) (x0 y0 x1 y1 : Int) : Clipped p (p.drawLine x0 y0 x1 y1) :=
  lineLoop_clipped ..

theorem drawRect_clipped (p : Painter) (r : Rect) : Clipped p (p.drawRect r) :=
  (((drawHline_clipped ..).trans (drawHline_clipped ..)).trans (drawVline_clipped ..)).trans
    (drawVline_clipped ..)

theorem octant_clipped (p : Painter) {body : Int → Int → Painter → Painter} (r : Int)
    (hb : ∀ x y p, Clipped p (body x y p)) : Clipped p (p.octant body r) := by
  have hloop : ∀ turns x y d p, Clipped p (Painter.octantLoop body turns x y d p) := by
    intro turns
    induction turns with
    | zero => exact fun x y d p => .refl p
    | succ turns ih =>
      intro x y d p
      unfold Painter.octantLoop
      split
      · simp only
        split
        · exact (hb x y p).trans (ih ..)
        · exact (hb x y p).trans (ih ..)
      · exact .refl p
  exact hloop ..

theorem hlines_clipped (p : Painter) (x y len x' y' len' : Int) :
    Clipped p ((p.drawHline x y len).drawHline x' y' len') :=
  (drawHline_clipped ..).trans (drawHline_clipped ..)

theorem putTwo_clipped (p : Painter) (x y x' y' : Int) :
    Clipped p ((p.putPixel x y).putPixel x' y') :=
  (plot_clipped p x y).trans (plot_clipped _ x' y')

theorem drawCircle_clipped (p : Painter) (cx cy r : Int) : Clipped p (p.drawCircle cx cy r) :=
  octant_clipped p r fun _ _ _ =>
    (((putTwo_clipped ..).trans (putTwo_clipped ..)).trans (putTwo_clipped ..)).trans (putTwo_clipped ..)

theorem fillCircle_clipped (p : Painter) (cx cy r : Int) : Clipped p (p.fillCircle cx cy r) :=
  octant_clipped p r fun _ _ _ => (hlines_clipped ..).trans (hlines_clipped ..)

theorem corner_clipped (p : Painter) (cx cy rad : Int) : Clipped p (p.corner cx cy rad) :=
  octant_clipped p rad fun _ _ _ =>
    (((putTwo_clipped ..).trans (putTwo_clipped ..)).trans (putTwo_clipped ..)).trans (putTwo_clipped ..)

theorem drawRoundedRect_clipped (p : Painter) (r : Rect) (rad : Int) :
    Clipped p (p.drawRoundedRect r rad) := by
  unfold Painter.drawRoundedRect
  split
  · exact drawRect_clipped p r
  · have hedges : Clipped p ((((p.drawHline (r.x + rad) r.y (r.w - 2 * rad)).drawHline (r.x + rad)
        (r.bottom - 1) (r.w - 2 * rad)).drawVline r.x (r.y + rad) (r.h - 2 * rad)).drawVline
        (r.right - 1) (r.y + rad) (r.h - 2 * rad)) :=
      ((hlines_clipped ..).trans (drawVline_clipped ..)).trans (drawVline_clipped ..)
    exact (((hedges.trans (corner_clipped ..)).trans (corner_clipped ..)).trans
      (corner_clipped ..)).trans (corner_clipped ..)

theorem fillRoundedRect_clipped (p : Painter) (r : Rect) (rad : Int) :
    Clipped p (p.fillRoundedRect r rad) := by
  unfold Painter.fillRoundedRect
  split
  · exact fillRect_clipped p r
  · have hrects : Clipped p (((p.fillRect ⟨r.x, r.y + rad, r.w, r.h - 2 * rad⟩).fillRect
        ⟨r.x + rad, r.y, r.w - 2 * rad, rad⟩).fillRect
        ⟨r.x + rad, r.bottom - rad, r.w - 2 * rad, rad⟩) :=
      ((fillRect_clipped ..).trans (fillRect_clipped ..)).trans (fillRect_clipped ..)
    exact (((hrects.trans (octant_clipped _ rad fun _ _ _ => hlines_clipped ..)).trans
      (octant_clipped _ rad fun _ _ _ => hlines_clipped ..)).trans
      (octant_clipped _ rad fun _ _ _ => hlines_clipped ..)).trans
      (octant_clipped _ rad fun _ _ _ => hlines_clipped ..)

theorem drawTriangle_clipped (p : Painter) (x0 y0 x1 y1 x2 y2 : Int) :
    Clipped p (p.drawTriangle x0 y0 x1 y1 x2 y2) :=
  ((drawLine_clipped ..).trans (drawLine_clipped ..)).trans (drawLine_clipped ..)

theorem fillRectGradientV_clipped (p : Painter) (r : Rect) (top bot : Color32) :
    Clipped p (p.fillRectGradientV r top bot) := by
  unfold Painter.fillRectGradientV
  simp only
  split
  · exact .refl p
  · exact paintClip_clipped p r _

theorem fillRectGradientH_clipped (p : Painter) (r : Rect) (left right : Color32) :
    Clipped p (p.fillRectGradientH r left right) := by
  unfold Painter.fillRectGradientH
  simp only
  split
  · exact .refl p
  · exact paintClip_clipped p r _

end Drawing

section Text

variable {p : Painter} (fontGlyph : UInt8 → Nat → Nat)

theorem times_clipped (p : Painter) (n : Nat) {body : Nat → Painter → Painter}
    (hb : ∀ k p, Clipped p (body k p)) : Clipped p (p.times n body) := by
  have hfold : ∀ (ks : List Nat) p, Clipped p (ks.foldl (fun p k => body k p) p) := by
    intro ks
    induction ks with
    | nil => exact fun p => .refl p
    | cons k ks ih => exact fun p => (hb k p).trans (ih _)
  exact hfold _ p

theorem withColor_clipped (p : Painter) (c : Color32) {body : Painter → Painter}
    (hb : ∀ p, Clipped p (body p)) : Clipped p (p.withColor c body) := by
  have hset : Clipped p { p with color := c } := .of_eq rfl rfl
  exact (hset.trans (hb _)).trans (.of_eq rfl rfl)

theorem drawChar_clipped (p : Painter) (x y : Int) (c : UInt8) :
    Clipped p (p.drawChar fontGlyph x y c) := by
  refine times_clipped p 16 fun row p => times_clipped p 8 fun col p => ?_
  split
  · exact plot_clipped ..
  split
  · exact withColor_clipped _ _ fun p => plot_clipped ..
  · exact .refl p

theorem tabLoop_clipped (y tab : Int) (turns : Nat) (cx : Int) (p : Painter) :
    Clipped p (Painter.tabLoop fontGlyph y tab turns cx p).2 := by
  induction turns generalizing cx p with
  | zero => exact .refl p
  | succ turns ih =>
    unfold Painter.tabLoop
    split
    · simp only
      split
      · exact (withColor_clipped _ _ fun p => drawChar_clipped fontGlyph p cx y 0x20).trans (ih ..)
      · exact ih ..
    · exact .refl p

theorem textLoop_clipped (x : Int) (s : List UInt8) (cx y : Int) (p : Painter) :
    Clipped p (Painter.textLoop fontGlyph x s cx y p) := by
  induction s generalizing cx y p with
  | nil => exact .refl p
  | cons c s ih =>
    unfold Painter.textLoop
    split
    · exact ih ..
    split
    · exact (tabLoop_clipped ..).trans (ih ..)
    · exact (drawChar_clipped ..).trans (ih ..)

theorem drawText_clipped (p : Painter) (x y : Int) (s : Option (List UInt8)) :
    Clipped p (p.drawText fontGlyph x y s) := by
  cases s with
  | none => exact .refl p
  | some s => exact textLoop_clipped ..

-- The text is drawn under a narrower clip, which is then put back.
theorem drawTextAligned_clipped (p : Painter) (r : Rect) (s : Option (List UInt8)) (align : Align) :
    Clipped p (p.drawTextAligned fontGlyph r s align) := by
  cases s with
  | none => exact .refl p
  | some s =>
    refine ⟨fun hp => ⟨rfl, ?_⟩⟩
    have hnarrow : ClipInside (p.setClip r) := fun x y hc => hp x y (contains_intersect hc).1
    obtain ⟨hw, hh, hpitch, hframe⟩ :=
      ((drawText_clipped fontGlyph (p.setClip r) _ _ (some s)).draws hnarrow).within
    exact ⟨hw, hh, hpitch, fun a ha => hframe a fun x y hin =>
      ha x y ⟨(contains_intersect hin.1).1, hin.2⟩⟩

end Text

end Gfx
