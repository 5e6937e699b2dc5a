import SabakaOS.Graphics.Clipping

namespace Gfx

open Word

-- Every pixel of A gets the value g gives for it, and no other memory changes.
structure Stamps (A : Int → Int → Prop) (g : Int → Int → Color32 → Color32) (s s' : Surface) : Prop where
  within : Within A s s'
  cells : ∀ x y, A x y → peek s' x y = g x y (peek s x y)

-- The pixels of dst that a blit covers, and the pixel of src that goes to each.
def Blit.covers (b : Blit) (x y : Int) : Prop :=
  b.dx ≤ x ∧ x < b.dx + b.sr.w ∧ b.dy ≤ y ∧ y < b.dy + b.sr.h

def Blit.source (b : Blit) (src : Surface) (x y : Int) : Color32 :=
  peek src (b.sr.x + (x - b.dx)) (b.sr.y + (y - b.dy))

section Cells

variable {A B : Int → Int → Prop} {g : Int → Int → Color32 → Color32} {s s' s'' : Surface}
  {x y x' y' : Int}

theorem pixelAt_apart (h : s.has x y) (h' : s.has x' y') (hne : ¬(x = x' ∧ y = y')) :
    pixelAt s x y + 4 ≤ pixelAt s x' y' ∨ pixelAt s x' y' + 4 ≤ pixelAt s x y := by
  obtain ⟨hx0, hx1, -, -⟩ := h
  obtain ⟨hx0', hx1', -, -⟩ := h'
  have hrows := s.rows
  have hbelow : ∀ y y' : Int, y < y' → y * s.pitch + s.pitch ≤ y' * s.pitch := by
    intro y y' hlt
    have hmul := Int.mul_le_mul_of_nonneg_right (show y + 1 ≤ y' from hlt) (show 0 ≤ s.pitch by omega)
    rwa [Int.add_mul, Int.one_mul] at hmul
  unfold pixelAt surfaceRow
  rcases lt_trichotomy y y' with hy | hy | hy
  · have := hbelow y y' hy
    omega
  · subst hy
    omega
  · have := hbelow y' y hy
    omega

theorem peek_lt (s : Surface) (x y : Int) : peek s x y < 0x100000000 := by
  have h0 := (s.pixels (pixelAt s x y)).toNat_lt
  have h1 := (s.pixels (pixelAt s x y + 1)).toNat_lt
  have h2 := (s.pixels (pixelAt s x y + 2)).toNat_lt
  have h3 := (s.pixels (pixelAt s x y + 3)).toNat_lt
  unfold peek wordAt
  show (_ : Nat) < _
  omega

theorem Within.peek_eq (h : Within A s s') (hA : ∀ x y, A x y → s.has x y) (hs : s.has x y)
    (hx : ¬A x y) : peek s' x y = peek s x y := by
  unfold peek
  rw [h.pixelAt]
  refine wordAt_congr fun k h0 h4 => h.frame _ fun x' y' hA' => ?_
  have hne : ¬(x = x' ∧ y = y') := by
    rintro ⟨rfl, rfl⟩
    exact hx hA'
  have := pixelAt_apart hs (hA x' y' hA') hne
  omega

theorem Within.has_iff (h : Within A s s') : s'.has x y ↔ s.has x y := by
  rw [Surface.has, Surface.has, h.width, h.height]

theorem Within.mono (h : Within A s s') (hAB : ∀ x y, A x y → B x y) : Within B s s' :=
  ⟨h.width, h.height, h.pitch, fun a ha => h.frame a fun x y hA => ha x y (hAB x y hA)⟩

theorem Stamps.append (h : Stamps A g s s') (h' : Stamps B g s' s'') (hA : ∀ x y, A x y → s.has x y)
    (hB : ∀ x y, B x y → s.has x y) (hdisj : ∀ x y, A x y → ¬B x y) :
    Stamps (fun x y => A x y ∨ B x y) g s s'' := by
  have hB' : ∀ x y, B x y → s'.has x y := fun x y hb => h.within.has_iff.mpr (hB x y hb)
  refine ⟨(h.within.mono fun _ _ => .inl).trans (h'.within.mono fun _ _ => .inr), fun x y hxy => ?_⟩
  by_cases hb : B x y
  · rw [h'.cells x y hb, h.within.peek_eq hA (hB x y hb) fun ha => hdisj x y ha hb]
  · have ha := hxy.resolve_right hb
    rw [h'.within.peek_eq hB' (hB' x y |> fun _ => h.within.has_iff.mpr (hA x y ha)) hb, h.cells x y ha]

theorem Stamps.congr (h : Stamps A g s s') (hAB : ∀ x y, A x y ↔ B x y) : Stamps B g s s' :=
  ⟨h.within.mono fun x y => (hAB x y).mp, fun x y hb => h.cells x y ((hAB x y).mpr hb)⟩

theorem Stamps.nothing (g : Int → Int → Color32 → Color32) (s : Surface) :
    Stamps (fun _ _ => False) g s s := ⟨.refl _ _, fun _ _ h => h.elim⟩

theorem wordAt_putWord {m : Int → UInt8} {a : Int} {c : Color32} (hc : c < 0x100000000) :
    wordAt (putWord m a c) a = c := by
  have h0 : putWord m a c a = UInt8.ofNat c := by rw [putWord, if_pos rfl]
  have h1 : putWord m a c (a + 1) = UInt8.ofNat (c / 0x100) := by
    rw [putWord, if_neg (by omega), if_pos rfl]
  have h2 : putWord m a c (a + 2) = UInt8.ofNat (c / 0x10000) := by
    rw [putWord, if_neg (by omega), if_neg (by omega), if_pos rfl]
  have h3 : putWord m a c (a + 3) = UInt8.ofNat (c / 0x1000000) := by
    rw [putWord, if_neg (by omega), if_neg (by omega), if_neg (by omega), if_pos rfl]
  rw [wordAt, h0, h1, h2, h3]
  simp only [UInt8.toNat_ofNat']
  replace hc : @LT.lt Nat _ c 0x100000000 := hc
  show @Eq Nat _ c
  omega

theorem poke_stamps (hg : ∀ x y c, c < 0x100000000 → g x y c < 0x100000000) (s : Surface) (x y : Int) :
    Stamps (fun x' y' => x' = x ∧ y' = y) g s (poke s x y (g x y (peek s x y))) := by
  refine ⟨poke_within _ ⟨rfl, rfl⟩, ?_⟩
  rintro x' y' ⟨rfl, rfl⟩
  exact wordAt_putWord (hg _ _ _ (peek_lt s x' y'))

theorem paintRow_stamps (hg : ∀ x y c, c < 0x100000000 → g x y c < 0x100000000) {n : Nat}
    (hin : ∀ x', x ≤ x' → x' < x + n → s.has x' y) :
    Stamps (fun x' y' => x ≤ x' ∧ x' < x + n ∧ y' = y) g s (paintRow g s x y n) := by
  induction n with
  | zero => exact (Stamps.nothing g s).congr fun x' y' => ⟨False.elim, fun h => by omega⟩
  | succ n ih =>
    have hprev := ih fun x' h1 h2 => hin x' h1 (by omega)
    refine (hprev.append (poke_stamps hg _ (x + n) y) ?_ ?_ ?_).congr fun x' y' => by omega
    · rintro x' y' ⟨h1, h2, rfl⟩
      exact hin x' h1 (by omega)
    · rintro x' y' ⟨rfl, rfl⟩
      exact hin _ (by omega) (by omega)
    · rintro x' y' ⟨h1, h2, rfl⟩ ⟨rfl, -⟩
      omega

-- Rows one below the other, each stamped by its own step.
theorem rows_stamps {t : Nat → Surface} {w : Int} {n : Nat} (h0 : t 0 = s)
    (hrow : ∀ j < n, Within (fun x' y' => x ≤ x' ∧ x' < x + w ∧ y ≤ y' ∧ y' < y + j) s (t j) →
      Stamps (fun x' y' => x ≤ x' ∧ x' < x + w ∧ y' = y + j) g (t j) (t (j + 1)))
    (hin : ∀ x' y', x ≤ x' → x' < x + w → y ≤ y' → y' < y + n → s.has x' y') :
    Stamps (fun x' y' => x ≤ x' ∧ x' < x + w ∧ y ≤ y' ∧ y' < y + n) g s (t n) := by
  induction n with
  | zero =>
    rw [h0]
    exact (Stamps.nothing g s).congr fun x' y' => ⟨False.elim, fun h => by omega⟩
  | succ n ih =>
    have hprev := ih (fun j hj => hrow j (by omega))
      fun x' y' h1 h2 h3 h4 => hin x' y' h1 h2 h3 (by omega)
    refine (hprev.append (hrow n (by omega) hprev.within) ?_ ?_ ?_).congr fun x' y' => by omega
    · rintro x' y' ⟨h1, h2, h3, h4⟩
      exact hin x' y' h1 h2 h3 (by omega)
    · rintro x' y' ⟨h1, h2, rfl⟩
      exact hin x' _ h1 h2 (by omega) (by omega)
    · rintro x' y' ⟨h1, h2, h3, h4⟩ ⟨-, -, rfl⟩
      omega

end Cells

section Blits

variable {dst src : Surface} {b : Blit} {P : Int → Int → Prop} {s s' : Surface}
  {g : Int → Int → Color32 → Color32}

theorem cutDst_inside {x y : Int} (h : (cutDst dst b).covers x y) : dst.has x y := by
  unfold cutDst at h
  simp only at h
  generalize hb1 : (if b.dx < 0 then
    { b with dx := 0, sr := { b.sr with x := b.sr.x - b.dx, w := b.sr.w + b.dx } } else b) = b1 at h
  have h1 : 0 ≤ b1.dx := by
    rw [← hb1]
    split
    · exact le_rfl
    · omega
  generalize hb2 : (if b1.dy < 0 then
    { b1 with dy := 0, sr := { b1.sr with y := b1.sr.y - b1.dy, h := b1.sr.h + b1.dy } } else b1) = b2
    at h
  have h2 : 0 ≤ b2.dx ∧ 0 ≤ b2.dy := by
    rw [← hb2]
    split
    · exact ⟨h1, le_rfl⟩
    · exact ⟨h1, by omega⟩
  generalize hb3 : (if b2.dx + b2.sr.w > dst.width then
    { b2 with sr := { b2.sr with w := dst.width - b2.dx } } else b2) = b3 at h
  have h3 : 0 ≤ b3.dx ∧ 0 ≤ b3.dy ∧ b3.dx + b3.sr.w ≤ dst.width := by
    rw [← hb3]
    split
    · simp only
      omega
    · omega
  unfold Blit.covers at h
  unfold Surface.has
  split at h
  · simp only at h
    omega
  · omega

-- The rows that surface_blit_rect copies.
theorem blitRows_stamps (hin : ∀ x y, b.covers x y → dst.has x y) :
    Stamps b.covers (fun x y _ => b.source src x y) dst (blitRows dst src b b.sr.h.toNat) := by
  by_cases hh : b.sr.h ≤ 0
  · rw [Int.toNat_of_nonpos hh]
    refine (Stamps.nothing _ dst).congr fun x y => ⟨False.elim, fun hc => ?_⟩
    unfold Blit.covers at hc
    omega
  have hn : ((b.sr.h.toNat : Nat) : Int) = b.sr.h := Int.toNat_of_nonneg (by omega)
  have hrows := rows_stamps (s := dst) (x := b.dx) (y := b.dy) (w := b.sr.w) (n := b.sr.h.toNat)
    (g := fun x y _ => b.source src x y) (t := blitRows dst src b) rfl (fun j hj hprev => ?_)
    (fun x y h1 h2 h3 h4 => hin x y ⟨h1, h2, h3, by omega⟩)
  · rw [hn] at hrows
    exact hrows
  have hat := hprev.pixelAt
  refine ⟨⟨rfl, rfl, rfl, fun a ha => ?_⟩, fun x y hxy => ?_⟩
  · change kmemcpy (blitRows dst src b j).pixels _ _ _ _ a = (blitRows dst src b j).pixels a
    rw [kmemcpy, if_neg]
    rintro ⟨h1, h2⟩
    have hpix := ha (b.dx + (a - (surfaceRow dst (b.dy + j) + b.dx * 4)) / 4) (b.dy + j)
      ⟨by omega, by omega, rfl⟩
    rw [hat, pixelAt] at hpix
    omega
  · obtain ⟨h1, h2, rfl⟩ := hxy
    change wordAt (kmemcpy (blitRows dst src b j).pixels _ _ _ _) (pixelAt _ x (b.dy + j)) = _
    have hpix : pixelAt (blitRows dst src b (j + 1)) x (b.dy + j) = pixelAt dst x (b.dy + j) :=
      hat x (b.dy + j)
    rw [hpix]
    refine wordAt_congr fun k h0 h4 => ?_
    rw [kmemcpy, if_pos (by unfold pixelAt; omega)]
    congr 1
    have hrow : b.sr.y + (b.dy + j - b.dy) = b.sr.y + j := by omega
    rw [hrow]
    unfold pixelAt
    omega

theorem colorRgb_lt {r g b : Nat} (hr : r < 256) (hg : g < 256) (hb : b < 256) :
    colorRgb r g b < 0x100000000 := by
  have hshift : ∀ n k, n < 256 → k ≤ 16 → n <<< k < 2 ^ 32 := by
    intro n k hn hk
    rw [Nat.shiftLeft_eq]
    calc n * 2 ^ k ≤ 256 * 2 ^ 16 := Nat.mul_le_mul hn.le (Nat.pow_le_pow_right (by decide) hk)
      _ < 2 ^ 32 := by decide
  unfold colorRgb
  exact Nat.or_lt_two_pow (Nat.or_lt_two_pow (Nat.or_lt_two_pow (by decide) (hshift r 16 hr (by decide)))
    (hshift g 8 hg (by decide))) (by omega)

theorem colorBlend_lt {c d : Color32} (hc : c < 0x100000000) (hd : d < 0x100000000) :
    colorBlend c d < 0x100000000 := by
  unfold colorBlend
  simp only
  split
  · exact hc
  split
  · exact hd
  · exact colorRgb_lt (Nat.mod_lt _ (by decide)) (Nat.mod_lt _ (by decide)) (Nat.mod_lt _ (by decide))

theorem paintRows_stamps (hg : ∀ x y c, c < 0x100000000 → g x y c < 0x100000000)
    (hin : ∀ x y, b.covers x y → dst.has x y) (hw : 0 < b.sr.w) (hh : 0 < b.sr.h) :
    Stamps b.covers g dst (paintRows g dst b.dx b.dy b.sr.w.toNat b.sr.h.toNat) := by
  have hwn : ((b.sr.w.toNat : Nat) : Int) = b.sr.w := Int.toNat_of_nonneg (by omega)
  have hhn : ((b.sr.h.toNat : Nat) : Int) = b.sr.h := Int.toNat_of_nonneg (by omega)
  have hrows := rows_stamps (s := dst) (x := b.dx) (y := b.dy) (w := b.sr.w) (n := b.sr.h.toNat)
    (g := g) (t := paintRows g dst b.dx b.dy b.sr.w.toNat) rfl (fun j hj hprev => ?_)
    (fun x y h1 h2 h3 h4 => hin x y ⟨h1, h2, h3, by omega⟩)
  · rw [hhn] at hrows
    exact hrows
  · have hrow := paintRow_stamps (s := paintRows g dst b.dx b.dy b.sr.w.toNat j) (x := b.dx)
      (y := b.dy + j) (n := b.sr.w.toNat) hg
      fun x h1 h2 => hprev.has_iff.mpr (hin x (b.dy + j) ⟨h1, by omega, by omega, by omega⟩)
    rw [hwn] at hrow
    exact hrow

-- What is stamped outside P must be there already.
theorem Stamps.within_iff {A : Int → Int → Prop} (h : Stamps A g s s') (hA : ∀ x y, A x y → s.has x y)
    (hP : ∀ x y, P x y → s.has x y) :
    Within P s s' ↔ ∀ x y, A x y → P x y ∨ g x y (peek s x y) = peek s x y := by
  constructor
  · intro hw x y ha
    by_cases hp : P x y
    · exact .inl hp
    · exact .inr ((h.cells x y ha).symm.trans (hw.peek_eq hP (hA x y ha) hp))
  · intro hsame
    refine ⟨h.within.width, h.within.height, h.within.pitch, fun a ha => ?_⟩
    by_cases hcell : ∃ x y, A x y ∧ pixelAt s x y ≤ a ∧ a < pixelAt s x y + 4
    · obtain ⟨x, y, hxy, h1, h2⟩ := hcell
      have hp : ¬P x y := fun hp => by
        have := ha x y hp
        omega
      have hword := (h.cells x y hxy).trans ((hsame x y hxy).resolve_left hp)
      have hbyte := byte_of_wordAt (k := a - pixelAt s x y) hword (by omega) (by omega)
      rw [h.within.pixelAt] at hbyte
      rwa [show pixelAt s x y + (a - pixelAt s x y) = a by omega] at hbyte
    · refine h.within.frame a fun x y hxy => ?_
      by_contra hin
      exact hcell ⟨x, y, hxy, by omega, by omega⟩

def copied (dst : Surface) (x y : Int) (src : Surface) (sr : Rect) : Blit :=
  cutDst dst (cutSrc src ⟨x, y, sr⟩)

def blended (dst : Surface) (x y : Int) (src : Surface) : Blit :=
  cutDst dst ⟨x, y, ⟨0, 0, src.width, src.height⟩⟩

theorem covers_of_empty (h : b.sr.w ≤ 0 ∨ b.sr.h ≤ 0) (x y : Int) : ¬b.covers x y := by
  unfold Blit.covers
  omega

theorem surfaceBlitRect_stamps (dst : Surface) (x y : Int) (src : Surface) (sr : Rect) :
    Stamps (copied dst x y src sr).covers (fun x' y' _ => (copied dst x y src sr).source src x' y') dst
      (surfaceBlitRect dst x y src sr) := by
  unfold surfaceBlitRect
  simp only
  split
  · rename_i hempty
    exact (Stamps.nothing _ dst).congr fun x' y' => ⟨False.elim, covers_of_empty hempty x' y'⟩
  · exact blitRows_stamps fun x' y' => cutDst_inside

theorem surfaceBlitAlpha_stamps (dst : Surface) (x y : Int) (src : Surface) :
    Stamps (blended dst x y src).covers
      (fun x' y' old => colorBlend ((blended dst x y src).source src x' y') old) dst
      (surfaceBlitAlpha dst x y src) := by
  unfold surfaceBlitAlpha
  simp only
  split
  · rename_i hempty
    exact (Stamps.nothing _ dst).congr fun x' y' => ⟨False.elim, covers_of_empty hempty x' y'⟩
  · rename_i hsome
    exact paintRows_stamps (b := blended dst x y src)
      (fun x' y' c hc => colorBlend_lt (peek_lt src _ _) hc) (fun x' y' => cutDst_inside)
      (Int.not_le.mp fun h => hsome (.inl h)) (Int.not_le.mp fun h => hsome (.inr h))

end Blits

-- What a blit puts outside the clip is there already.
def Harmless (p : Painter) (b : Blit) (src : Surface) (mix : Color32 → Color32 → Color32) : Prop :=
  ∀ x y, b.covers x y → p.clip.contains x y ∨
    mix (b.source src x y) (peek p.target x y) = peek p.target x y

def Guarded (p : Painter) : Op → Prop
  | .blit x y src => Harmless p (copied p.target x y src ⟨0, 0, src.width, src.height⟩) src fun c _ => c
  | .blitRect x y src sr => Harmless p (copied p.target x y src sr) src fun c _ => c
  | .blitAlpha x y src => Harmless p (blended p.target x y src) src colorBlend
  | _ => True

inductive Act where
  | setClip (r : Rect)
  | resetClip
  | colors (color bg : Color32) (transparentBg : Bool)
  | draw (op : Op)

def exec (fontGlyph : UInt8 → Nat → Nat) (p : Painter) : Act → Painter
  | .setClip r => p.setClip r
  | .resetClip => p.resetClip
  | .colors color bg transparentBg => { p with color := color, bg := bg, transparentBg := transparentBg }
  | .draw op => Gfx.draw fontGlyph p op

def painting (fontGlyph : UInt8 → Nat → Nat) : System Painter Act where
  init p := ∃ s, p = painterBegin s
  step p a p' := p' = exec fontGlyph p a

section Runs

variable {fontGlyph : UInt8 → Nat → Nat} {p : Painter} {op : Op}

def Op.blits : Op → Bool
  | .blit _ _ _ => true
  | .blitRect _ _ _ _ => true
  | .blitAlpha _ _ _ => true
  | _ => false

variable (fontGlyph) in
theorem draw_clipped (p : Painter) (h : op.blits = false) : Clipped p (draw fontGlyph p op) := by
  cases op with
  | putPixel x y => exact plot_clipped p x y
  | drawHline x y len => exact drawHline_clipped p x y len
  | drawVline x y len => exact drawVline_clipped p x y len
  | drawLine x0 y0 x1 y1 => exact drawLine_clipped p x0 y0 x1 y1
  | drawRect r => exact drawRect_clipped p r
  | fillRect r => exact fillRect_clipped p r
  | drawRoundedRect r rad => exact drawRoundedRect_clipped p r rad
  | fillRoundedRect r rad => exact fillRoundedRect_clipped p r rad
  | drawCircle cx cy r => exact drawCircle_clipped p cx cy r
  | fillCircle cx cy r => exact fillCircle_clipped p cx cy r
  | drawTriangle x0 y0 x1 y1 x2 y2 => exact drawTriangle_clipped p x0 y0 x1 y1 x2 y2
  | fillRectGradientV r top bot => exact fillRectGradientV_clipped p r top bot
  | fillRectGradientH r left right => exact fillRectGradientH_clipped p r left right
  | drawChar x y c => exact drawChar_clipped fontGlyph p x y c
  | drawText x y s => exact drawText_clipped fontGlyph p x y s
  | drawTextAligned r s align => exact drawTextAligned_clipped fontGlyph p r s align
  | blit x y src => cases h
  | blitRect x y src sr => cases h
  | blitAlpha x y src => cases h

variable (fontGlyph) in
theorem draw_blits (p : Painter) (h : op.blits = true) : ∃ (b : Blit) (src : Surface)
    (mix : Color32 → Color32 → Color32), (Guarded p op ↔ Harmless p b src mix) ∧
      (∀ x y, b.covers x y → p.target.has x y) ∧
      (draw fontGlyph p op).clip = p.clip ∧
      Stamps b.covers (fun x y old => mix (b.source src x y) old) p.target
        (draw fontGlyph p op).target := by
  cases op with
  | blit x y src => exact ⟨_, src, fun c _ => c, .rfl, fun _ _ => cutDst_inside, rfl,
      surfaceBlitRect_stamps p.target x y src _⟩
  | blitRect x y src sr => exact ⟨_, src, fun c _ => c, .rfl, fun _ _ => cutDst_inside, rfl,
      surfaceBlitRect_stamps p.target x y src sr⟩
  | blitAlpha x y src => exact ⟨_, src, colorBlend, .rfl, fun _ _ => cutDst_inside, rfl,
      surfaceBlitAlpha_stamps p.target x y src⟩
  | _ => cases h

theorem draw_keeps (hp : ClipInside p) (op : Op) : (draw fontGlyph p op).clip = p.clip ∧
    ClipInside (draw fontGlyph p op) := by
  cases hop : op.blits with
  | false =>
    have hd := (draw_clipped fontGlyph p hop).draws hp
    exact ⟨hd.clip, hd.clipInside hp⟩
  | true =>
    obtain ⟨b, src, mix, -, -, hclip, hst⟩ := draw_blits fontGlyph p hop
    refine ⟨hclip, fun x y hc => hst.within.has_iff.mpr (hp x y ?_)⟩
    rwa [hclip] at hc

theorem clipInside_start (h : (painting fontGlyph).init p) : ClipInside p := by
  obtain ⟨s, rfl⟩ := h
  rintro x y ⟨h1, h2, h3, h4⟩
  simp only [painterBegin, Rect.right, Rect.bottom] at h1 h2 h3 h4
  unfold Surface.has painterBegin
  simp only
  omega

theorem clipInside_step {a : Act} {p' : Painter} (hp : ClipInside p)
    (h : (painting fontGlyph).step p a p') : ClipInside p' := by
  obtain rfl := h
  cases a with
  | setClip r => exact fun x y hc => hp x y (contains_intersect hc).1
  | resetClip =>
    rintro x y ⟨h1, h2, h3, h4⟩
    simp only [exec, Painter.resetClip, Rect.right, Rect.bottom] at h1 h2 h3 h4
    unfold Surface.has exec Painter.resetClip
    simp only
    omega
  | colors color bg transparentBg => exact hp
  | draw op => exact (draw_keeps hp op).2

def clipInvariant (fontGlyph : UInt8 → Nat → Nat) : (painting fontGlyph).Invariant where
  holds := ClipInside
  start := clipInside_start
  step := clipInside_step

end Runs

-- Two pixels in a row, all bytes v.
def twoPixels (v : UInt8) : Surface :=
  { pixels := fun _ => v, width := 2, height := 1, pitch := 8, rows := by decide }

end Gfx
