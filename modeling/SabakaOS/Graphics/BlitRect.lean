import SabakaOS.Graphics.BlitClipping

namespace Gfx

-- One kmemcpy of surface_blit_rect: len bytes of src from on, to dst.
structure RowCopy where
  start : Int
  dest : Int
  len : Int

def rowCopy (dst src : Surface) (b : Blit) (row : Nat) : RowCopy where
  start := surfaceRow src (b.sr.y + row) + b.sr.x * 4
  dest := surfaceRow dst (b.dy + row) + b.dx * 4
  len := b.sr.w * 4

def rowCopies (dst : Surface) (dx dy : Int) (src : Surface) (sr : Rect) : List RowCopy :=
  let b := copied dst dx dy src sr
  if b.sr.w ≤ 0 ∨ b.sr.h ≤ 0 then [] else (List.range b.sr.h.toNat).map (rowCopy dst src b)

-- The byte at a belongs to a pixel of s.
def Surface.owns (s : Surface) (a : Int) : Prop :=
  ∃ x y, s.has x y ∧ pixelAt s x y ≤ a ∧ a < pixelAt s x y + 4

-- Both the pixel (x, y) and the one that b takes to it are there.
def Blit.meets (b : Blit) (dst src : Surface) (x y : Int) : Prop :=
  b.covers x y ∧ dst.has x y ∧ src.has (b.sr.x + (x - b.dx)) (b.sr.y + (y - b.dy))

-- A cut keeps the pixels that P holds of, and what goes where.
structure Cuts (P : Int → Int → Prop) (b b' : Blit) : Prop where
  covers : ∀ x y, b'.covers x y ↔ b.covers x y ∧ P x y
  across : b'.sr.x - b'.dx = b.sr.x - b.dx
  down : b'.sr.y - b'.dy = b.sr.y - b.dy

section Cutting

variable {dst src : Surface} {b : Blit} {sr : Rect} {dx dy x y : Int}

theorem cutDst_cuts (dst : Surface) (b : Blit) : Cuts dst.has b (cutDst dst b) := by
  refine ⟨fun x y => ?_, ?_, ?_⟩
  all_goals
    unfold cutDst
    dsimp only
    split_ifs <;> dsimp only [Blit.covers, Surface.has] at * <;> omega

theorem cutSrc_cuts (src : Surface) (b : Blit) :
    Cuts (fun x y => src.has (b.sr.x + (x - b.dx)) (b.sr.y + (y - b.dy))) b (cutSrc src b) := by
  refine ⟨fun x y => ?_, ?_, ?_⟩
  all_goals
    unfold cutSrc
    dsimp only
    split_ifs <;> dsimp only [Blit.covers, Surface.has, Rect.right, Rect.bottom] at * <;> omega

theorem copied_covers (dst : Surface) (dx dy : Int) (src : Surface) (sr : Rect) (x y : Int) :
    (copied dst dx dy src sr).covers x y ↔ (⟨dx, dy, sr⟩ : Blit).meets dst src x y := by
  rw [copied, (cutDst_cuts _ _).covers, (cutSrc_cuts _ _).covers, Blit.meets, and_assoc,
    and_comm (b := dst.has x y)]

theorem copied_source (dst : Surface) (dx dy : Int) (src : Surface) (sr : Rect) (x y : Int) :
    (copied dst dx dy src sr).sr.x + (x - (copied dst dx dy src sr).dx) = sr.x + (x - dx) ∧
      (copied dst dx dy src sr).sr.y + (y - (copied dst dx dy src sr).dy) = sr.y + (y - dy) := by
  have hdst := cutDst_cuts dst (cutSrc src ⟨dx, dy, sr⟩)
  have hsrc := cutSrc_cuts src ⟨dx, dy, sr⟩
  have hacross := hdst.across.trans hsrc.across
  have hdown := hdst.down.trans hsrc.down
  unfold copied
  dsimp only at hacross hdown
  omega

theorem blitRows_copies (dst src : Surface) (b : Blit) (n : Nat) : (blitRows dst src b n).pixels =
    ((List.range n).map (rowCopy dst src b)).foldl
      (fun m c => kmemcpy m c.dest src.pixels c.start c.len) dst.pixels := by
  induction n with
  | zero => rfl
  | succ n ih =>
    rw [List.range_succ, List.map_append, List.foldl_append, ← ih]
    rfl

theorem surfaceBlitRect_copies (dst : Surface) (dx dy : Int) (src : Surface) (sr : Rect) :
    (surfaceBlitRect dst dx dy src sr).pixels = (rowCopies dst dx dy src sr).foldl
      (fun m c => kmemcpy m c.dest src.pixels c.start c.len) dst.pixels := by
  unfold surfaceBlitRect rowCopies copied
  dsimp only
  split
  · rfl
  · exact blitRows_copies ..

-- The byte k of a row belongs to its pixel k / 4.
theorem rowCopies_owned (dst : Surface) (dx dy : Int) (src : Surface) (sr : Rect) {c : RowCopy}
    (hc : c ∈ rowCopies dst dx dy src sr) {k : Int} (h0 : 0 ≤ k) (hk : k < c.len) :
    src.owns (c.start + k) ∧ dst.owns (c.dest + k) := by
  have hcovers := copied_covers dst dx dy src sr
  have hsource := copied_source dst dx dy src sr
  unfold rowCopies at hc
  generalize copied dst dx dy src sr = b at hc hcovers hsource
  dsimp only at hc
  split at hc
  · exact absurd hc List.not_mem_nil
  · obtain ⟨row, hrow, rfl⟩ := List.mem_map.mp hc
    have hrow' := List.mem_range.mp hrow
    dsimp only [rowCopy] at hk ⊢
    have hin : b.covers (b.dx + k / 4) (b.dy + row) := by
      unfold Blit.covers
      omega
    obtain ⟨-, hdst, hsrc⟩ := (hcovers _ _).mp hin
    obtain ⟨hx, hy⟩ := hsource (b.dx + k / 4) (b.dy + row)
    dsimp only at hsrc
    rw [← hx, ← hy, add_sub_cancel_left, add_sub_cancel_left] at hsrc
    refine ⟨⟨_, _, hsrc, ?_, ?_⟩, ⟨_, _, hdst, ?_, ?_⟩⟩
    all_goals
      unfold pixelAt
      omega

theorem surfaceBlitRect_meets (dst : Surface) (dx dy : Int) (src : Surface) (sr : Rect) :
    Stamps ((⟨dx, dy, sr⟩ : Blit).meets dst src)
      (fun x y _ => peek src (sr.x + (x - dx)) (sr.y + (y - dy))) dst
      (surfaceBlitRect dst dx dy src sr) := by
  have hst := (surfaceBlitRect_stamps dst dx dy src sr).congr (copied_covers dst dx dy src sr)
  refine ⟨hst.within, fun x y hxy => ?_⟩
  obtain ⟨hx, hy⟩ := copied_source dst dx dy src sr x y
  rw [hst.cells x y hxy, Blit.source, hx, hy]

end Cutting

-- A blit sets the pixels for which both ends are there, each to its own source pixel, and its
-- copies read and write nothing but pixels.
theorem surfaceBlitRect_pointwise (dst : Surface) (dx dy : Int) (src : Surface) (sr : Rect) :
    Stamps ((⟨dx, dy, sr⟩ : Blit).meets dst src)
        (fun x y _ => peek src (sr.x + (x - dx)) (sr.y + (y - dy))) dst
        (surfaceBlitRect dst dx dy src sr) ∧
      (surfaceBlitRect dst dx dy src sr).pixels = (rowCopies dst dx dy src sr).foldl
        (fun m c => kmemcpy m c.dest src.pixels c.start c.len) dst.pixels ∧
      ∀ c ∈ rowCopies dst dx dy src sr, ∀ k, 0 ≤ k → k < c.len →
        src.owns (c.start + k) ∧ dst.owns (c.dest + k) := by
  exact ⟨surfaceBlitRect_meets dst dx dy src sr, surfaceBlitRect_copies dst dx dy src sr,
    fun c hc k => rowCopies_owned dst dx dy src sr hc⟩

end Gfx
