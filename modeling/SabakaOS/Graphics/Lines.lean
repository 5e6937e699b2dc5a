import Mathlib.Algebra.Order.Field.Basic
import Mathlib.Algebra.Order.Field.Rat
import Mathlib.Data.List.Chain
import Mathlib.Tactic.FieldSimp
import Mathlib.Tactic.Linarith
import Mathlib.Tactic.Ring
import SabakaOS.Graphics.Painter

namespace Gfx

structure Segment where
  x0 : Int
  y0 : Int
  x1 : Int
  y1 : Int

namespace Segment

variable (l : Segment)

def dx : Int := if l.x1 > l.x0 then l.x1 - l.x0 else l.x0 - l.x1

def dy : Int := -(if l.y1 > l.y0 then l.y1 - l.y0 else l.y0 - l.y1)

def sx : Int := if l.x0 < l.x1 then 1 else -1

def sy : Int := if l.y0 < l.y1 then 1 else -1

end Segment

-- The variables x0, y0 and err of draw_line's loop.
structure Pen where
  x : Int
  y : Int
  err : Int

namespace Segment

variable (l : Segment)

def start : Pen := ⟨l.x0, l.y0, l.dx + l.dy⟩

def turn (p : Pen) : Pen :=
  let e2 := 2 * p.err
  let a := if e2 ≥ l.dy then (p.err + l.dy, p.x + l.sx) else (p.err, p.x)
  let b := if e2 ≤ l.dx then (a.1 + l.dx, p.y + l.sy) else (a.1, p.y)
  ⟨a.2, b.2, b.1⟩

-- What the loop plots one after the other; none when it has not ended after so many turns.
def pens : Nat → Pen → Option (List Pen)
  | 0, _ => none
  | turns + 1, p =>
    if p.x = l.x1 ∧ p.y = l.y1 then some [p] else (pens turns (l.turn p)).map (p :: ·)

def long : Int := max |l.x1 - l.x0| |l.y1 - l.y0|

-- Within half a pixel of the segment along its shorter axis.
def Near (p : Pen) : Prop :=
  if |l.y1 - l.y0| ≤ |l.x1 - l.x0| then
    |(p.y : ℚ) - (l.y0 + (p.x - l.x0) * (l.y1 - l.y0) / (l.x1 - l.x0))| ≤ 1 / 2
  else |(p.x : ℚ) - (l.x0 + (p.y - l.y0) * (l.x1 - l.x0) / (l.y1 - l.y0))| ≤ 1 / 2

structure Adjacent (p q : Pen) : Prop where
  x : |q.x - p.x| ≤ 1
  y : |q.y - p.y| ≤ 1
  along_x : |l.y1 - l.y0| ≤ |l.x1 - l.x0| → |q.x - p.x| = 1
  along_y : |l.x1 - l.x0| ≤ |l.y1 - l.y0| → |q.y - p.y| = 1

end Segment

def fitsInt (n : Int) : Prop := -2 ^ 31 ≤ n ∧ n < 2 ^ 31

-- a steps along x and b along y have been made; drift is how far the pen is off the segment.
structure Segment.At (l : Segment) (a b : Int) (p : Pen) : Prop where
  x : p.x = l.x0 + l.sx * a
  y : p.y = l.y0 + l.sy * b
  err : p.err = (b + 1) * l.dx + (a + 1) * l.dy
  a_le : 0 ≤ a ∧ a ≤ l.dx
  b_le : 0 ≤ b ∧ b ≤ -l.dy
  drift : -max l.dx (-l.dy) ≤ 2 * (b * l.dx + a * l.dy) ∧
    2 * (b * l.dx + a * l.dy) ≤ max l.dx (-l.dy)

section Steps

variable {l : Segment} {a b : Int} {p : Pen}

theorem Segment.dx_eq (l : Segment) : l.dx = |l.x1 - l.x0| := by
  unfold Segment.dx
  split
  · rw [abs_of_nonneg (by omega)]
  · rw [abs_of_nonpos (by omega), neg_sub]

theorem Segment.dy_eq (l : Segment) : -l.dy = |l.y1 - l.y0| := by
  unfold Segment.dy
  rw [neg_neg]
  split
  · rw [abs_of_nonneg (by omega)]
  · rw [abs_of_nonpos (by omega), neg_sub]

theorem Segment.dx_nonneg (l : Segment) : 0 ≤ l.dx := l.dx_eq ▸ abs_nonneg _

theorem Segment.dy_nonpos (l : Segment) : l.dy ≤ 0 := by
  have h : 0 ≤ -l.dy := l.dy_eq ▸ abs_nonneg _
  omega

theorem Segment.long_eq (l : Segment) : l.long = max l.dx (-l.dy) := by
  rw [Segment.long, l.dx_eq, l.dy_eq]

theorem Segment.sx_dx (l : Segment) : l.x1 = l.x0 + l.sx * l.dx := by
  unfold Segment.dx Segment.sx
  split <;> omega

theorem Segment.sy_dy (l : Segment) : l.y1 = l.y0 + l.sy * -l.dy := by
  unfold Segment.dy Segment.sy
  split <;> omega

theorem Segment.sx_unit (l : Segment) : l.sx = 1 ∨ l.sx = -1 := by
  unfold Segment.sx
  split
  · exact .inl rfl
  · exact .inr rfl

theorem Segment.sy_unit (l : Segment) : l.sy = 1 ∨ l.sy = -1 := by
  unfold Segment.sy
  split
  · exact .inl rfl
  · exact .inr rfl

theorem Segment.start_at (l : Segment) : l.At 0 0 l.start := by
  have hdx := l.dx_nonneg
  have hdy := l.dy_nonpos
  refine ⟨?_, ?_, ?_, ⟨le_rfl, hdx⟩, ⟨le_rfl, by omega⟩, ?_⟩
  · rw [mul_zero, add_zero]
    rfl
  · rw [mul_zero, add_zero]
    rfl
  · rw [zero_add, one_mul, one_mul]
    rfl
  · rw [zero_mul, zero_mul]
    omega

theorem unit_mul_inj {s m n : Int} (hs : s = 1 ∨ s = -1) : s * m = s * n ↔ m = n := by
  rcases hs with rfl | rfl <;> omega

theorem Segment.At.reached (h : l.At a b p) : p.x = l.x1 ∧ p.y = l.y1 ↔ a = l.dx ∧ b = -l.dy := by
  rw [h.x, h.y, l.sx_dx, l.sy_dy, add_right_inj, add_right_inj, unit_mul_inj l.sx_unit,
    unit_mul_inj l.sy_unit]

-- A drift of half a pixel and less at the end of the longer axis is none.
theorem steps_of_drift {m k n : Int} (hn : 0 < n) (h1 : -n ≤ 2 * (k * n + n * m))
    (h2 : 2 * (k * n + n * m) ≤ n) : k = -m := by
  have hprod : k * n + n * m = (k + m) * n := by ring
  rw [hprod] at h1 h2
  have hlow : -1 < k + m := by
    by_contra hle
    have := Int.mul_le_mul_of_nonneg_right (Int.not_lt.mp hle) hn.le
    omega
  have hhigh : k + m < 1 := by
    by_contra hle
    have := Int.mul_le_mul_of_nonneg_right (Int.not_lt.mp hle) hn.le
    omega
  omega

theorem Segment.At.ends_x (h : l.At a b p) (hlong : -l.dy ≤ l.dx) (ha : a = l.dx) : b = -l.dy := by
  have hdy := l.dy_nonpos
  have hb := h.b_le
  have hdrift := h.drift
  rw [max_eq_left hlong, ha] at hdrift
  rcases Int.lt_or_eq_of_le l.dx_nonneg with hpos | hzero
  · exact steps_of_drift hpos hdrift.1 hdrift.2
  · omega

theorem Segment.At.ends_y (h : l.At a b p) (hlong : l.dx ≤ -l.dy) (hb : b = -l.dy) : a = l.dx := by
  have hdx := l.dx_nonneg
  have ha := h.a_le
  have hdrift := h.drift
  rw [max_eq_right hlong, hb] at hdrift
  rcases Int.lt_or_eq_of_le l.dy_nonpos with hneg | hzero
  · have hprod : a * -l.dy + -l.dy * -l.dx = -(-l.dy * l.dx + a * l.dy) := by ring
    have hsteps := steps_of_drift (m := -l.dx) (k := a) (n := -l.dy) (by omega) (by omega) (by omega)
    omega
  · omega

-- One turn: along the longer axis there is always a step, and never one beyond the end.
theorem Segment.At.a_lt (h : l.At a b p) (hend : ¬(a = l.dx ∧ b = -l.dy)) (hlong : -l.dy ≤ l.dx) :
    a < l.dx := by
  have hle := h.a_le
  have hstop := mt (h.ends_x hlong)
  omega

theorem Segment.At.b_lt (h : l.At a b p) (hend : ¬(a = l.dx ∧ b = -l.dy)) (hlong : l.dx ≤ -l.dy) :
    b < -l.dy := by
  have hle := h.b_le
  have hstop := mt (h.ends_y hlong)
  omega

-- A coordinate that has come to its end before the other moves no further.
theorem Segment.At.x_stops (h : l.At a b p) (hend : ¬(a = l.dx ∧ b = -l.dy)) (hax : a = l.dx) :
    2 * p.err < l.dy := by
  have hdx := l.dx_nonneg
  have hshort : l.dx < -l.dy := by
    by_contra hle
    exact absurd hax (h.a_lt hend (Int.not_lt.mp hle)).ne
  have hmul := Int.mul_le_mul_of_nonneg_right (Int.le_sub_one_of_lt (h.b_lt hend hshort.le)) hdx
  have hprod : (-l.dy - 1) * l.dx = -(l.dx * l.dy) - l.dx := by ring
  rw [h.err, hax, Int.add_mul, Int.add_mul]
  omega

theorem Segment.At.y_stops (h : l.At a b p) (hend : ¬(a = l.dx ∧ b = -l.dy)) (hby : b = -l.dy) :
    l.dx < 2 * p.err := by
  have hdy := l.dy_nonpos
  have hshort : -l.dy < l.dx := by
    by_contra hle
    exact absurd hby (h.b_lt hend (Int.not_lt.mp hle)).ne
  have hmul := Int.mul_le_mul_of_nonneg_right (Int.le_sub_one_of_lt (h.a_lt hend hshort.le))
    (Int.neg_nonneg_of_nonpos hdy)
  have hprod : (l.dx - 1) * -l.dy = -l.dy * l.dx + l.dy := by ring
  have hprod' : a * -l.dy = -(a * l.dy) := by ring
  rw [h.err, hby, Int.add_mul, Int.add_mul]
  omega

theorem Segment.At.turn (h : l.At a b p) (hend : ¬(a = l.dx ∧ b = -l.dy)) : ∃ a' b',
    l.At a' b' (l.turn p) ∧ (a' = a ∨ a' = a + 1) ∧ (b' = b ∨ b' = b + 1) ∧
      (-l.dy ≤ l.dx → a' = a + 1) ∧ (l.dx ≤ -l.dy → b' = b + 1) := by
  have hdx := l.dx_nonneg
  have hdy := l.dy_nonpos
  have hxstop := h.x_stops hend
  have hystop := h.y_stops hend
  obtain ⟨hx, hy, herr, ha, hb, hdrift⟩ := h
  have hsum : p.err = b * l.dx + l.dx + (a * l.dy + l.dy) := by rw [herr]; ring
  have hmax := max_def l.dx (-l.dy)
  unfold Segment.turn
  dsimp only
  by_cases hxs : 2 * p.err ≥ l.dy <;> by_cases hys : 2 * p.err ≤ l.dx
  · rw [if_pos hxs, if_pos hys]
    refine ⟨a + 1, b + 1, ⟨?_, ?_, ?_, ?_, ?_, ?_⟩, .inr rfl, .inr rfl, fun _ => rfl, fun _ => rfl⟩
    · rw [hx]; ring
    · rw [hy]; ring
    · rw [herr]; ring
    · have := mt hxstop; omega
    · have := mt hystop; omega
    · rw [Int.add_mul, Int.add_mul]
      split at hmax <;> omega
  · rw [if_pos hxs, if_neg hys]
    refine ⟨a + 1, b, ⟨?_, hy, ?_, ?_, hb, ?_⟩, .inr rfl, .inl rfl, fun _ => rfl, fun hlong => ?_⟩
    · rw [hx]; ring
    · rw [herr]; ring
    · have := mt hxstop; omega
    · rw [Int.add_mul]
      split at hmax <;> omega
    · split at hmax <;> omega
  · rw [if_neg hxs, if_pos hys]
    refine ⟨a, b + 1, ⟨hx, ?_, ?_, ha, ?_, ?_⟩, .inl rfl, .inr rfl, fun hlong => ?_, fun _ => rfl⟩
    · rw [hy]; ring
    · rw [herr]; ring
    · have := mt hystop; omega
    · rw [Int.add_mul]
      split at hmax <;> omega
    · split at hmax <;> omega
  · omega

theorem unit_step {s a a' : Int} (hs : s = 1 ∨ s = -1) (h : a' = a ∨ a' = a + 1) :
    |s * a' - s * a| ≤ 1 ∧ (a' = a + 1 → |s * a' - s * a| = 1) := by
  rcases h with rfl | rfl
  · rw [sub_self, abs_zero]
    exact ⟨by decide, fun h => absurd h (by omega)⟩
  · rw [← mul_sub, add_sub_cancel_left, mul_one]
    rcases hs with rfl | rfl
    · exact ⟨le_rfl, fun _ => rfl⟩
    · exact ⟨le_rfl, fun _ => rfl⟩

-- The turns that are left.
def Segment.left (l : Segment) (a b : Int) : Int := if -l.dy ≤ l.dx then l.dx - a else -l.dy - b

theorem Segment.At.ended (h : l.At a b p) (hrem : l.left a b = 0) : a = l.dx ∧ b = -l.dy := by
  unfold Segment.left at hrem
  split at hrem
  · rename_i hlong
    have ha : a = l.dx := by omega
    exact ⟨ha, h.ends_x hlong ha⟩
  · have hb : b = -l.dy := by omega
    exact ⟨h.ends_y (by omega) hb, hb⟩

theorem Segment.At.adjacent {a' b' : Int} {p' : Pen} (h : l.At a b p) (hnext : l.At a' b' p')
    (ha : a' = a ∨ a' = a + 1) (hb : b' = b ∨ b' = b + 1) (hax : -l.dy ≤ l.dx → a' = a + 1)
    (hby : l.dx ≤ -l.dy → b' = b + 1) : l.Adjacent p p' := by
  obtain ⟨hx, hx'⟩ := unit_step l.sx_unit ha
  obtain ⟨hy, hy'⟩ := unit_step l.sy_unit hb
  have hxs : p'.x - p.x = l.sx * a' - l.sx * a := by rw [hnext.x, h.x]; ring
  have hys : p'.y - p.y = l.sy * b' - l.sy * b := by rw [hnext.y, h.y]; ring
  rw [← hxs] at hx hx'
  rw [← hys] at hy hy'
  refine ⟨hx, hy, fun hlong => hx' (hax ?_), fun hlong => hy' (hby ?_)⟩
  · rwa [l.dx_eq, l.dy_eq]
  · rwa [l.dx_eq, l.dy_eq]

theorem Segment.At.pens {rem : Nat} (h : l.At a b p) (hrem : l.left a b = rem) : ∃ ps,
    (∀ turns, rem < turns → l.pens turns p = some ps) ∧ ps.length = rem + 1 ∧
      ps.head? = some p ∧ (∃ q, ps.getLast? = some q ∧ q.x = l.x1 ∧ q.y = l.y1) ∧
        ps.IsChain l.Adjacent ∧ ∀ q ∈ ps, ∃ a b, l.At a b q := by
  induction rem generalizing a b p with
  | zero =>
    have hend : p.x = l.x1 ∧ p.y = l.y1 := h.reached.mpr (h.ended hrem)
    refine ⟨[p], fun turns hturns => ?_, rfl, rfl, ⟨p, rfl, hend⟩, .singleton p, fun q hq => ?_⟩
    · obtain ⟨t, rfl⟩ := Nat.exists_eq_succ_of_ne_zero hturns.ne'
      rw [Segment.pens, if_pos hend]
    · exact List.mem_singleton.mp hq ▸ ⟨a, b, h⟩
  | succ rem ih =>
    have hgo : ¬(a = l.dx ∧ b = -l.dy) := by
      unfold Segment.left at hrem
      split at hrem <;> omega
    obtain ⟨a', b', hnext, ha, hb, hax, hby⟩ := h.turn hgo
    have hleft : l.left a' b' = rem := by
      unfold Segment.left at hrem ⊢
      split at hrem
      · rename_i hlong
        rw [if_pos hlong, hax hlong]
        omega
      · rename_i hlong
        rw [if_neg hlong, hby (by omega)]
        omega
    obtain ⟨ps, hpens, hlen, hhead, ⟨q, hlast, hq⟩, hchain, hall⟩ := ih hnext hleft
    have hadj : l.Adjacent p (l.turn p) := h.adjacent hnext ha hb hax hby
    refine ⟨p :: ps, fun turns hturns => ?_, by rw [List.length_cons, hlen], rfl, ⟨q, ?_, hq⟩,
      ?_, ?_⟩
    · obtain ⟨t, rfl⟩ := Nat.exists_eq_succ_of_ne_zero (Nat.ne_of_gt (Nat.zero_lt_of_lt hturns))
      rw [Segment.pens, if_neg (mt h.reached.mp hgo), hpens t (Nat.lt_of_succ_lt_succ hturns)]
      rfl
    · rw [List.getLast?_cons, hlast]
      rfl
    · cases ps with
      | nil => exact .singleton p
      | cons r ps =>
        have hr : r = l.turn p := Option.some.inj hhead
        exact .cons_cons (hr ▸ hadj) hchain
    · intro r hr
      rcases List.mem_cons.mp hr with rfl | hr
      · exact ⟨a, b, h⟩
      · exact hall r hr

theorem Segment.lineLoop_pens {turns : Nat} {ps : List Pen} (h : l.pens turns p = some ps)
    (q : Painter) : Painter.lineLoop l.dx l.dy l.sx l.sy l.x1 l.y1 turns p.x p.y p.err q =
      ps.foldl (fun q p => q.plot p.x p.y) q := by
  induction turns generalizing p ps q with
  | zero => cases h
  | succ turns ih =>
    rw [Segment.pens] at h
    rw [Painter.lineLoop]
    dsimp only
    split at h
    · rename_i hend
      rw [if_pos hend, ← Option.some.inj h]
      rfl
    · rename_i hgo
      obtain ⟨qs, hqs, rfl⟩ := Option.map_eq_some_iff.mp h
      rw [if_neg hgo, List.foldl_cons]
      exact ih hqs _

end Steps

section Distances

-- How far from the segment the pen is along y, in units of the way along x.
theorem half_pixel {s t a b n m x0 y0 x1 y1 x y : Int} (hs : s = 1 ∨ s = -1) (ht : t = 1 ∨ t = -1)
    (hm : 0 ≤ m ∧ m ≤ n) (hb : 0 ≤ b ∧ b ≤ m) (hx : x = x0 + s * a) (hy : y = y0 + t * b)
    (hx1 : x1 = x0 + s * n) (hy1 : y1 = y0 + t * m) (h1 : -n ≤ 2 * (b * n - a * m))
    (h2 : 2 * (b * n - a * m) ≤ n) :
    |(y : ℚ) - (y0 + (x - x0) * (y1 - y0) / (x1 - x0))| ≤ 1 / 2 := by
  subst hx hy hx1 hy1
  rcases Int.lt_or_eq_of_le (hm.1.trans hm.2) with hpos | rfl
  · have hn : (0 : ℚ) < n := Int.cast_pos.mpr hpos
    have hne : (n : ℚ) ≠ 0 := hn.ne'
    have hoff : ((y0 + t * b : Int) : ℚ) - (y0 + (((x0 + s * a : Int) : ℚ) - x0) *
        (((y0 + t * m : Int) : ℚ) - y0) / (((x0 + s * n : Int) : ℚ) - x0)) =
          t * ((b * n - a * m) / n) := by
      push_cast
      rw [add_sub_cancel_left, add_sub_cancel_left, add_sub_cancel_left]
      rcases hs with rfl | rfl <;> push_cast <;> field_simp <;> ring
    have hunit : |(t : ℚ)| = 1 := by rcases ht with rfl | rfl <;> simp
    have hlow : -(n : ℚ) ≤ 2 * (b * n - a * m) := by exact_mod_cast h1
    have hhigh : (2 : ℚ) * (b * n - a * m) ≤ n := by exact_mod_cast h2
    rw [hoff, abs_mul, hunit, one_mul, abs_div, abs_of_pos hn, div_le_div_iff₀ hn two_pos, one_mul]
    have habs : |(b : ℚ) * n - a * m| ≤ n / 2 := abs_le.mpr ⟨by linarith, by linarith⟩
    linarith
  · have hb0 : b = 0 := by omega
    have hm0 : m = 0 := by omega
    rw [hb0, hm0]
    norm_num

theorem Segment.At.near {l : Segment} {a b : Int} {p : Pen} (h : l.At a b p) : l.Near p := by
  have hdx := l.dx_nonneg
  have hdy := l.dy_nonpos
  obtain ⟨hx, hy, -, ha, hb, hdrift⟩ := h
  unfold Segment.Near
  rw [← l.dx_eq, ← l.dy_eq]
  split
  · rename_i hlong
    rw [max_eq_left hlong] at hdrift
    have hprod : b * l.dx - a * -l.dy = b * l.dx + a * l.dy := by ring
    exact half_pixel l.sx_unit l.sy_unit ⟨by omega, hlong⟩ hb hx hy l.sx_dx l.sy_dy
      (hprod ▸ hdrift.1) (hprod ▸ hdrift.2)
  · rename_i hlong
    rw [max_eq_right (by omega)] at hdrift
    have hprod : a * -l.dy - b * l.dx = -(b * l.dx + a * l.dy) := by ring
    exact half_pixel l.sy_unit l.sx_unit ⟨hdx, by omega⟩ ha hy hx l.sy_dy l.sx_dx
      (by omega) (by omega)

end Distances

-- What draw_line has to do with the segment; no value it computes overflows.
structure Segment.Drawing (l : Segment) (ps : List Pen) : Prop where
  ends : ∀ turns : Nat, l.long < turns → l.pens turns l.start = some ps
  plots : ∀ q : Painter, q.drawLine l.x0 l.y0 l.x1 l.y1 = ps.foldl (fun q p => q.plot p.x p.y) q
  length : (ps.length : Int) = l.long + 1
  first : ∃ p, ps.head? = some p ∧ p.x = l.x0 ∧ p.y = l.y0
  last : ∃ p, ps.getLast? = some p ∧ p.x = l.x1 ∧ p.y = l.y1
  adjacent : ps.IsChain l.Adjacent
  near : ∀ p ∈ ps, l.Near p
  fits : ∀ p ∈ ps, fitsInt p.x ∧ fitsInt p.y ∧ fitsInt (2 * p.err)

theorem Segment.At.fits {l : Segment} {a b : Int} {p : Pen} (h : l.At a b p) (hx0 : |l.x0| < 2 ^ 27)
    (hy0 : |l.y0| < 2 ^ 27) (hx1 : |l.x1| < 2 ^ 27) (hy1 : |l.y1| < 2 ^ 27) :
    fitsInt p.x ∧ fitsInt p.y ∧ fitsInt (2 * p.err) := by
  have hdx := l.sx_dx
  have hdy := l.sy_dy
  obtain ⟨hx, hy, herr, ha, hb, hdrift⟩ := h
  rw [abs_lt] at hx0 hy0 hx1 hy1
  rw [Int.add_mul, Int.add_mul, Int.one_mul, Int.one_mul] at herr
  have hmax := max_def l.dx (-l.dy)
  unfold fitsInt
  rcases l.sx_unit with hs | hs <;> rcases l.sy_unit with ht | ht <;> rw [hs] at hx hdx <;>
    rw [ht] at hy hdy <;> split at hmax <;> omega

theorem drawLine_exact (l : Segment) (hx0 : |l.x0| < 2 ^ 27) (hy0 : |l.y0| < 2 ^ 27)
    (hx1 : |l.x1| < 2 ^ 27) (hy1 : |l.y1| < 2 ^ 27) : ∃ ps, l.Drawing ps := by
  have hdx := l.dx_nonneg
  have hdy := l.dy_nonpos
  have hlong := l.long_eq
  have hleft : l.left 0 0 = l.long := by
    unfold Segment.left
    split <;> omega
  obtain ⟨rem, hrem⟩ := Int.eq_ofNat_of_zero_le (show 0 ≤ l.long by omega)
  obtain ⟨ps, hpens, hlen, hhead, hlast, hchain, hall⟩ := l.start_at.pens (hleft.trans hrem)
  refine ⟨ps, fun turns hturns => hpens turns (by omega), fun q => ?_, by omega,
    ⟨l.start, hhead, rfl, rfl⟩, hlast, hchain, fun p hp => ?_, fun p hp => ?_⟩
  · have hturns : rem < (l.dx - l.dy + 1).toNat := by omega
    exact l.lineLoop_pens (hpens _ hturns) q
  · obtain ⟨a, b, h⟩ := hall p hp
    exact h.near
  · obtain ⟨a, b, h⟩ := hall p hp
    exact h.fits hx0 hy0 hx1 hy1

theorem drawLine_five_two : ∃ ps, Segment.Drawing ⟨0, 0, 5, 2⟩ ps :=
  drawLine_exact ⟨0, 0, 5, 2⟩ (by decide) (by decide) (by decide) (by decide)

end Gfx
