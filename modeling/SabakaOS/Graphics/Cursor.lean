import SabakaOS.Graphics.BlitRect
import SabakaOS.Library.Loop
import Mathlib.Data.List.Induction

namespace Gfx

def cursorW : Nat := 11

def cursorH : Nat := 18

def cursorShape : List (List Nat) :=
  [[2, 0, 0, 0, 0, 0, 0, 0, 0, 0, 0],
    [2, 2, 0, 0, 0, 0, 0, 0, 0, 0, 0],
    [2, 1, 2, 0, 0, 0, 0, 0, 0, 0, 0],
    [2, 1, 1, 2, 0, 0, 0, 0, 0, 0, 0],
    [2, 1, 1, 1, 2, 0, 0, 0, 0, 0, 0],
    [2, 1, 1, 1, 1, 2, 0, 0, 0, 0, 0],
    [2, 1, 1, 1, 1, 1, 2, 0, 0, 0, 0],
    [2, 1, 1, 1, 1, 1, 1, 2, 0, 0, 0],
    [2, 1, 1, 1, 1, 1, 1, 1, 2, 0, 0],
    [2, 1, 1, 1, 1, 1, 1, 1, 1, 2, 0],
    [2, 1, 1, 1, 1, 1, 1, 1, 1, 1, 2],
    [2, 1, 1, 1, 1, 1, 2, 2, 2, 2, 2],
    [2, 1, 1, 2, 1, 1, 2, 0, 0, 0, 0],
    [2, 1, 2, 0, 2, 1, 1, 2, 0, 0, 0],
    [2, 2, 0, 0, 2, 1, 1, 2, 0, 0, 0],
    [2, 0, 0, 0, 0, 2, 1, 1, 2, 0, 0],
    [0, 0, 0, 0, 0, 2, 1, 1, 2, 0, 0],
    [0, 0, 0, 0, 0, 0, 2, 2, 0, 0, 0]]

def shapeAt (row col : Nat) : Nat := (cursorShape.getD row []).getD col 0

-- What gfx_init leaves and the cursor works on; screen is none when the back buffer is the screen.
structure Desk where
  back : Surface
  screen : Option Surface
  cursorBg : Nat → Color32
  cursorPx : Int
  cursorPy : Int

def gfxFlipRect (d : Desk) (r : Rect) : Desk :=
  { d with screen := d.screen.map fun s => surfaceBlitRect s r.x r.y d.back r }

-- The loops over the box of the cursor at (x, y), as far as it lies on the surface.
def overBox (x y : Int) (body : Nat → Nat → Int → Int → Surface → Surface) (s : Surface) :
    Surface :=
  Loop.upto cursorH (fun row s =>
    let sy := y + row
    if sy < 0 ∨ sy ≥ s.height then s
    else Loop.upto cursorW (fun col s =>
      let sx := x + col
      if sx < 0 ∨ sx ≥ s.width then s else body row col sx sy s) s) s

def restore (bg : Nat → Color32) (row col : Nat) (sx sy : Int) (s : Surface) : Surface :=
  poke s sx sy (bg (row * cursorW + col))

def stamp (row col : Nat) (sx sy : Int) (s : Surface) : Surface :=
  let p := shapeAt row col
  if p = 1 then poke s sx sy 0xFFFFFFFF else if p = 2 then poke s sx sy 0xFF000000 else s

def cursorHide (d : Desk) : Desk :=
  if d.cursorPx < 0 then d
  else
    let d := { d with back := overBox d.cursorPx d.cursorPy (restore d.cursorBg) d.back }
    { gfxFlipRect d ⟨d.cursorPx, d.cursorPy, cursorW, cursorH⟩ with cursorPx := -1 }

def saveBg (scr : Surface) (x y : Int) (bg : Nat → Color32) : Nat → Color32 :=
  Loop.upto cursorH (fun row bg =>
    let sy := y + row
    Loop.upto cursorW (fun col bg =>
      let sx := x + col
      let px := if sx ≥ 0 ∧ sx < scr.width ∧ sy ≥ 0 ∧ sy < scr.height then peek scr sx sy else 0
      Function.update bg (row * cursorW + col) px) bg) bg

def cursorDraw (d : Desk) (x y : Int) : Desk :=
  let d := cursorHide d
  let d := { d with
    cursorBg := saveBg d.back x y d.cursorBg
    back := overBox x y stamp d.back
    cursorPx := x
    cursorPy := y }
  gfxFlipRect d ⟨x, y, cursorW, cursorH⟩

inductive CursorOp where
  | draw (x y : Int)
  | hide

def cursorStep (d : Desk) : CursorOp → Desk
  | .draw x y => cursorDraw d x y
  | .hide => cursorHide d

-- Where the cursor has been drawn last, unless it has been hidden since.
def lastDrawn (ops : List CursorOp) : Option (Int × Int) :=
  ops.foldl (fun _ op => match op with
    | .draw x y => some (x, y)
    | .hide => none) none

-- The arrow's pixel at column i and row j, over c.
def arrowOver (i j : Int) (c : Color32) : Color32 :=
  let p := shapeAt j.toNat i.toNat
  if p = 1 then 0xFFFFFFFF else if p = 2 then 0xFF000000 else c

-- The pixels of s in the box of the cursor at (x, y).
def inBox (s : Surface) (x y a b : Int) : Prop :=
  (⟨x, y, cursorW, cursorH⟩ : Rect).contains a b ∧ s.has a b

-- s is orig with the arrow at pos over it.
def Overlaid (pos : Option (Int × Int)) (orig s : Surface) : Prop :=
  match pos with
  | none => s = orig
  | some (x, y) => Stamps (inBox orig x y) (fun a b c => arrowOver (a - x) (b - y) c) orig s

-- The screen shows what the back buffer holds, in its own memory.
structure SameImage (back screen : Surface) : Prop where
  width : screen.width = back.width
  height : screen.height = back.height
  cells : ∀ a b, back.has a b → peek screen a b = peek back a b

section Boxes

variable {A : Int → Int → Prop} {g f : Int → Int → Color32 → Color32} {s s' s'' : Surface}
  {x y a b : Int}

theorem Within.eq (h : Within (fun _ _ => False) s s') : s' = s := by
  obtain ⟨hw, hh, hpitch, hframe⟩ := h
  have hpixels : s'.pixels = s.pixels := funext fun a => hframe a fun _ _ hf => hf.elim
  cases s
  cases s'
  dsimp only at hw hh hpitch hpixels
  subst hw hh hpitch hpixels
  rfl

-- The second set of values undoes the first.
theorem Stamps.undone (h : Stamps A g s s') (h' : Stamps A f s' s'')
    (hf : ∀ a b, A a b → f a b (g a b (peek s a b)) = peek s a b) (hA : ∀ a b, A a b → s.has a b) :
    s'' = s := by
  have hback : Stamps A (fun a b _ => peek s a b) s s'' := by
    refine ⟨h.within.trans h'.within, fun a b ha => ?_⟩
    rw [h'.cells a b ha, h.cells a b ha, hf a b ha]
  exact ((hback.within_iff hA fun _ _ hf => hf.elim).mpr fun _ _ _ => .inr rfl).eq

-- A loop whose turns stamp pixels of their own.
theorem upto_stamps {A : Nat → Int → Int → Prop} {step : Nat → Surface → Surface} {n : Nat}
    (hstep : ∀ i < n, ∀ t, t.width = s.width → t.height = s.height → Stamps (A i) g t (step i t))
    (hA : ∀ i < n, ∀ a b, A i a b → s.has a b)
    (hdisj : ∀ i j, i < j → ∀ a b, A i a b → ¬A j a b) :
    Stamps (fun a b => ∃ i < n, A i a b) g s (Loop.upto n step s) := by
  refine Loop.upto_inv (fun n t => Stamps (fun a b => ∃ i < n, A i a b) g s t)
    ((Stamps.nothing g s).congr fun a b => ⟨False.elim, fun ⟨_, h, _⟩ => by omega⟩)
    fun i t hi hprev => ?_
  have hturn := hstep i hi t hprev.within.width hprev.within.height
  refine (hprev.append hturn ?_ (hA i hi) ?_).congr fun a b => Nat.exists_lt_succ_right.symm
  · rintro a b ⟨j, hj, ha⟩
    exact hA j (hj.trans hi) a b ha
  · rintro a b ⟨j, hj, ha⟩
    exact hdisj j i hj a b ha

theorem overBox_stamps {body : Nat → Nat → Int → Int → Surface → Surface} (s : Surface)
    (hbody : ∀ row < cursorH, ∀ col < cursorW, ∀ t, Stamps
      (fun a b => a = x + (col : Nat) ∧ b = y + (row : Nat)) g t
      (body row col (x + (col : Nat)) (y + (row : Nat)) t)) :
    Stamps (inBox s x y) g s (overBox x y body s) := by
  have hcell (row : Nat) (hrow : row < cursorH) (col : Nat) (hcol : col < cursorW) (t : Surface)
      (hw : t.width = s.width) (hin : 0 ≤ y + (row : Int) ∧ y + (row : Int) < s.height) :
      Stamps (fun a b => a = x + (col : Nat) ∧ b = y + (row : Nat) ∧ s.has a b) g t
        (if x + (col : Int) < 0 ∨ x + (col : Int) ≥ t.width then t
          else body row col (x + col) (y + row) t) := by
    split
    · refine (Stamps.nothing g t).congr fun a b => ⟨False.elim, fun ⟨ha, _, hhas⟩ => ?_⟩
      obtain ⟨h1, h2, -, -⟩ := hhas
      omega
    · refine (hbody row hrow col hcol t).congr fun a b => ⟨fun ⟨ha, hb⟩ => ⟨ha, hb, ?_⟩,
        fun h => ⟨h.1, h.2.1⟩⟩
      unfold Surface.has
      omega
  have hline (row : Nat) (hrow : row < cursorH) (t : Surface) (hw : t.width = s.width)
      (hh : t.height = s.height) :
      Stamps (fun a b => ∃ col < cursorW, a = x + (col : Nat) ∧ b = y + (row : Nat) ∧ s.has a b) g t
        (if y + (row : Int) < 0 ∨ y + (row : Int) ≥ t.height then t
          else Loop.upto cursorW (fun col s =>
            let sx := x + col
            if sx < 0 ∨ sx ≥ s.width then s else body row col sx (y + row) s) t) := by
    split
    · refine (Stamps.nothing g t).congr fun a b => ⟨False.elim, fun ⟨_, _, _, hb, hhas⟩ => ?_⟩
      obtain ⟨-, -, h1, h2⟩ := hhas
      omega
    · refine upto_stamps (fun col hcol u hu _ => ?_) (fun col _ a b h => ?_)
        fun i j hij a b h h' => ?_
      · exact hcell row hrow col hcol u (hu.trans hw) ⟨by omega, by omega⟩
      · have hhas := h.2.2
        rwa [Surface.has, hw, hh]
      · omega
  refine (upto_stamps hline (fun row _ a b h => ?_) fun i j hij a b h h' => ?_).congr fun a b => ?_
  · obtain ⟨col, _, _, _, hhas⟩ := h
    exact hhas
  · obtain ⟨_, _, _, hb, _⟩ := h
    obtain ⟨_, _, _, hb', _⟩ := h'
    omega
  · unfold inBox Rect.contains Rect.right Rect.bottom
    constructor
    · rintro ⟨row, hrow, col, hcol, rfl, rfl, hhas⟩
      dsimp only
      exact ⟨⟨by omega, by omega, by omega, by omega⟩, hhas⟩
    · rintro ⟨⟨h1, h2, h3, h4⟩, hhas⟩
      dsimp only at h1 h2 h3 h4
      exact ⟨(b - y).toNat, by omega, (a - x).toNat, by omega, by omega, by omega, hhas⟩

theorem Stamps.revalue (h : Stamps A g s s')
    (hfg : ∀ a b, A a b → g a b (peek s a b) = f a b (peek s a b)) : Stamps A f s s' :=
  ⟨h.within, fun a b ha => (h.cells a b ha).trans (hfg a b ha)⟩

theorem poke_value {c : Color32} (hc : c < 0x100000000) (hg : g x y (peek s x y) = c) :
    Stamps (fun a b => a = x ∧ b = y) g s (poke s x y c) := by
  refine ⟨poke_within c ⟨rfl, rfl⟩, ?_⟩
  rintro a b ⟨rfl, rfl⟩
  rw [hg]
  exact wordAt_putWord hc

end Boxes

section Saving

variable {scr s s' back : Surface} {x y a b : Int} {bg : Nat → Color32}

-- What is saved for a pixel of the box; nothing is read outside the surface.
def savedAt (scr : Surface) (x y : Int) (i : Nat) : Color32 :=
  if x + (i % cursorW : Nat) ≥ 0 ∧ x + (i % cursorW : Nat) < scr.width ∧
      y + (i / cursorW : Nat) ≥ 0 ∧ y + (i / cursorW : Nat) < scr.height then
    peek scr (x + (i % cursorW : Nat)) (y + (i / cursorW : Nat))
  else 0

theorem saveBg_at (scr : Surface) (x y : Int) (bg : Nat → Color32) (i : Nat) :
    saveBg scr x y bg i = if i < cursorH * cursorW then savedAt scr x y i else bg i := by
  unfold saveBg
  refine Loop.upto_inv (fun n (m : Nat → Color32) => ∀ i, m i =
    if i < n * cursorW then savedAt scr x y i else bg i) (fun i => by rw [Nat.zero_mul]; rfl)
    (fun row m _ hm i => ?_) i
  have hend : (row + 1) * cursorW = row * cursorW + cursorW := Nat.succ_mul ..
  rw [hend]
  refine Loop.upto_inv (fun k (m : Nat → Color32) => ∀ i, m i =
    if i < row * cursorW + k then savedAt scr x y i else bg i) hm (fun col m hcol hm i => ?_) i
  rw [Function.update_apply, hm]
  by_cases hi : i = row * cursorW + col
  · have hmod : i % cursorW = col := by
      rw [hi, Nat.mul_comm, Nat.mul_add_mod, Nat.mod_eq_of_lt hcol]
    have hdiv : i / cursorW = row := by
      rw [hi, Nat.mul_comm, Nat.mul_add_div (by decide), Nat.div_eq_of_lt hcol, Nat.add_zero]
    rw [if_pos hi, if_pos (show i < row * cursorW + (col + 1) by omega), savedAt, hmod, hdiv]
  · rw [if_neg hi]
    refine if_congr ?_ rfl rfl
    omega

theorem saveBg_lt (hbg : ∀ i, bg i < 0x100000000) (i : Nat) :
    saveBg scr x y bg i < 0x100000000 := by
  rw [saveBg_at, savedAt]
  split
  · split
    · exact peek_lt ..
    · exact show 0 < 0x100000000 by decide
  · exact hbg i

def boxIndex (x y a b : Int) : Nat := (b - y).toNat * cursorW + (a - x).toNat

theorem saveBg_inBox (h : inBox scr x y a b) :
    saveBg scr x y bg (boxIndex x y a b) = peek scr a b := by
  obtain ⟨⟨h1, h2, h3, h4⟩, hhas⟩ := h
  unfold Rect.right Rect.bottom at *
  dsimp only at h1 h2 h3 h4
  have hcol : (a - x).toNat < cursorW := by omega
  have hrow : (b - y).toNat + 1 ≤ cursorH := by omega
  have hmod : boxIndex x y a b % cursorW = (a - x).toNat := by
    rw [boxIndex, Nat.mul_comm, Nat.mul_add_mod, Nat.mod_eq_of_lt hcol]
  have hdiv : boxIndex x y a b / cursorW = (b - y).toNat := by
    rw [boxIndex, Nat.mul_comm, Nat.mul_add_div (by decide), Nat.div_eq_of_lt hcol, Nat.add_zero]
  have hlt : boxIndex x y a b < cursorH * cursorW := by
    have hmul := Nat.mul_le_mul_right cursorW hrow
    rw [Nat.add_mul, Nat.one_mul] at hmul
    unfold boxIndex
    omega
  have ha : x + ((a - x).toNat : Int) = a := by omega
  have hb : y + ((b - y).toNat : Int) = b := by omega
  obtain ⟨hx0, hx1, hy0, hy1⟩ := hhas
  rw [saveBg_at, if_pos hlt, savedAt, hmod, hdiv, ha, hb, if_pos ⟨hx0, hx1, hy0, hy1⟩]

theorem restore_stamps (hbg : ∀ i, bg i < 0x100000000) (s : Surface) (x y : Int) :
    Stamps (inBox s x y) (fun a b _ => bg (boxIndex x y a b)) s (overBox x y (restore bg) s) := by
  refine overBox_stamps s fun row _ col _ t => poke_value (hbg _) ?_
  rw [boxIndex, add_sub_cancel_left, add_sub_cancel_left]
  rfl

theorem stamp_stamps (s : Surface) (x y : Int) :
    Stamps (inBox s x y) (fun a b c => arrowOver (a - x) (b - y) c) s (overBox x y stamp s) := by
  refine overBox_stamps s fun row _ col _ t => ?_
  have hshape (c : Color32) : arrowOver (x + (col : Nat) - x) (y + (row : Nat) - y) c =
      if shapeAt row col = 1 then 0xFFFFFFFF
      else if shapeAt row col = 2 then 0xFF000000 else c := by
    rw [arrowOver, add_sub_cancel_left, add_sub_cancel_left, Int.toNat_natCast, Int.toNat_natCast]
  unfold stamp
  dsimp only
  split_ifs with h1 h2
  · exact poke_value (by decide) (by rw [hshape, if_pos h1])
  · exact poke_value (by decide) (by rw [hshape, if_neg h1, if_pos h2])
  · refine ⟨.refl _ _, ?_⟩
    rintro a b ⟨rfl, rfl⟩
    rw [hshape, if_neg h1, if_neg h2]

theorem flip_stamps (hw : s.width = back.width) (hh : s.height = back.height) (x y : Int) :
    Stamps (inBox s x y) (fun a b _ => peek back a b) s
      (surfaceBlitRect s x y back ⟨x, y, cursorW, cursorH⟩) := by
  refine ((surfaceBlitRect_meets s x y back ⟨x, y, cursorW, cursorH⟩).congr fun a b => ?_).revalue
    fun a b _ => ?_
  · unfold Blit.meets Blit.covers inBox Rect.contains Rect.right Rect.bottom Surface.has
    dsimp only
    omega
  · dsimp only
    rw [add_sub_cancel, add_sub_cancel]

end Saving

-- The back buffer and the screen before any cursor is shown.
def desk (back : Surface) (screen : Option Surface) : Desk where
  back := back
  screen := screen
  cursorBg := fun _ => 0
  cursorPx := -1
  cursorPy := -1

-- The cursor is where it was drawn, with the pixels under it saved.
def Placed (back : Surface) (d : Desk) : Option (Int × Int) → Prop
  | none => d.cursorPx < 0
  | some (x, y) => 0 ≤ x ∧ d.cursorPx = x ∧ d.cursorPy = y ∧
      ∀ a b, inBox back x y a b → d.cursorBg (boxIndex x y a b) = peek back a b

structure CursorAt (back : Surface) (screen : Option Surface) (pos : Option (Int × Int))
    (d : Desk) : Prop where
  bg_lt : ∀ i, d.cursorBg i < 0x100000000
  placed : Placed back d pos
  back : Overlaid pos back d.back
  screen : screen.Rel (Overlaid pos) d.screen

section Moving

variable {back s : Surface} {screen : Option Surface} {pos : Option (Int × Int)} {d : Desk}
  {x y a b : Int}

theorem SameImage.inBox_iff (h : SameImage back s) : inBox s x y a b ↔ inBox back x y a b := by
  unfold inBox Surface.has
  rw [h.width, h.height]

theorem CursorAt.hide (hsame : ∀ s, screen = some s → SameImage back s)
    (h : CursorAt back screen pos d) : CursorAt back screen none (cursorHide d) := by
  obtain ⟨hbg, hplaced, hback, hscreen⟩ := h
  unfold cursorHide
  cases pos with
  | none =>
    rw [if_pos (show d.cursorPx < 0 from hplaced)]
    exact ⟨hbg, hplaced, hback, hscreen⟩
  | some p =>
    obtain ⟨x, y⟩ := p
    obtain ⟨hx, hpx, hpy, hsaved⟩ := hplaced
    rw [if_neg (by omega), hpx, hpy]
    have hrestored : overBox x y (restore d.cursorBg) d.back = back := by
      have hagain := (restore_stamps hbg d.back x y).congr (B := inBox back x y) fun a b => by
        unfold inBox
        rw [hback.within.has_iff]
      exact Stamps.undone hback hagain hsaved fun a b ha => ha.2
    unfold gfxFlipRect
    dsimp only
    rw [hrestored]
    refine ⟨hbg, show (-1 : Int) < 0 by decide, rfl, ?_⟩
    dsimp only
    generalize d.screen = shown at hscreen
    cases hscreen with
    | none => exact .none
    | some hover =>
      rename_i s0 s
      have himage := hsame s0 rfl
      have hflip := flip_stamps (hover.within.width.trans himage.width)
        (hover.within.height.trans himage.height) x y
      refine .some (hover.undone (hflip.congr fun a b => ?_) (fun a b ha => ?_) fun a b ha => ha.2)
      · unfold inBox
        rw [hover.within.has_iff]
      · exact (himage.cells a b (himage.inBox_iff.mp ha).2).symm

theorem CursorAt.draw (hsame : ∀ s, screen = some s → SameImage back s)
    (h : CursorAt back screen pos d) (hx : 0 ≤ x) (y : Int) :
    CursorAt back screen (some (x, y)) (cursorDraw d x y) := by
  obtain ⟨hbg, -, hback, hscreen⟩ := h.hide hsame
  unfold cursorDraw gfxFlipRect
  dsimp only
  generalize cursorHide d = d at hbg hback hscreen
  rw [show d.back = back from hback]
  have hstamp := stamp_stamps back x y
  refine ⟨saveBg_lt hbg, ⟨hx, rfl, rfl, fun a b ha => saveBg_inBox ha⟩, hstamp, ?_⟩
  dsimp only
  generalize d.screen = shown at hscreen
  cases hscreen with
  | none => exact .none
  | some hover =>
    rename_i s0 s
    have himage := hsame s0 rfl
    rw [show s = s0 from hover]
    have hflip := flip_stamps (himage.width.trans hstamp.within.width.symm)
      (himage.height.trans hstamp.within.height.symm) x y
    refine .some (hflip.revalue fun a b ha => ?_)
    have hin := himage.inBox_iff.mp ha
    rw [hstamp.cells a b hin, himage.cells a b hin.2]

theorem desk_cursorAt (back : Surface) (screen : Option Surface) :
    CursorAt back screen none (desk back screen) := by
  refine ⟨fun _ => show 0 < 0x100000000 by decide, show (-1 : Int) < 0 by decide, rfl, ?_⟩
  cases screen with
  | none => exact .none
  | some s => exact .some rfl

theorem CursorAt.run (hsame : ∀ s, screen = some s → SameImage back s) (ops : List CursorOp)
    (hops : ∀ x y, CursorOp.draw x y ∈ ops → 0 ≤ x) :
    CursorAt back screen (lastDrawn ops) (ops.foldl cursorStep (desk back screen)) := by
  induction ops using List.reverseRecOn with
  | nil => exact desk_cursorAt back screen
  | append_singleton ops op ih =>
    have hprev := ih fun x y h => hops x y (List.mem_append_left _ h)
    rw [List.foldl_append, lastDrawn, List.foldl_append]
    cases op with
    | draw x y => exact hprev.draw hsame (hops x y (by simp)) y
    | hide => exact hprev.hide hsame

end Moving

end Gfx
