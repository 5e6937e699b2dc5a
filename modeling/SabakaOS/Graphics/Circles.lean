import Mathlib.Tactic.Ring
import SabakaOS.Graphics.BlitClipping

namespace Gfx

-- The points that the loop over an octant generates, from (x, y) on; none when it has not ended
-- after so many turns.
def octantPoints : Nat → Int → Int → Int → Option (List (Int × Int))
  | 0, _, _, _ => none
  | turns + 1, x, y, d =>
    if x ≤ y then
      (if d < 0 then octantPoints turns (x + 1) y (d + (2 * x + 3))
        else octantPoints turns (x + 1) (y - 1) (d + (2 * (x - y) + 5))).map ((x, y) :: ·)
    else some []

-- y is the integer nearest to the circle of radius r at x.
def Nearest (r x y : Int) : Prop := y * (y - 1) < r * r - x * x ∧ r * r - x * x ≤ y * (y + 1)

-- The points of an octant are those nearest to the circle, for x = 0, 1, 2 and so on.
structure OctantOf (r : Int) (pts : List (Int × Int)) : Prop where
  ends : ∀ turns : Nat, r + 1 < turns → octantPoints turns 0 r (1 - r) = some pts
  points : ∀ x y, (x, y) ∈ pts ↔ 0 ≤ x ∧ x ≤ y ∧ Nearest r x y
  columns : pts.map Prod.fst = (List.range pts.length).map fun (i : Nat) => (i : Int)

-- What holds before each turn.
structure Scan (r x y d : Int) : Prop where
  x_nonneg : 0 ≤ x
  y_low : -1 ≤ y
  d_eq : d = (x + 1) * (x + 1) + y * (y - 1) - r * r
  low : x ≤ y → y * (y - 1) < r * r - x * x
  high : r * r - x * x ≤ y * (y + 1)

section Octants

variable {r x y d : Int} {turns : Nat} {pts : List (Int × Int)}

theorem pronic_le {b y : Int} (hy : -1 ≤ y) (hb : 0 ≤ b) (h : y + 1 ≤ b) :
    y * (y + 1) ≤ b * (b - 1) := by
  rcases Int.lt_or_eq_of_le hy with hy0 | rfl
  · calc y * (y + 1) ≤ (b - 1) * b := Int.mul_le_mul (by omega) h (by omega) (by omega)
      _ = b * (b - 1) := mul_comm _ _
  · rcases Int.lt_or_eq_of_le hb with hpos | rfl
    · exact Int.mul_nonneg hb (by omega)
    · exact le_rfl

theorem Nearest.unique {y' : Int} (h : Nearest r x y) (h' : Nearest r x y') (hy : 0 ≤ y)
    (hy' : 0 ≤ y') : y = y' := by
  rcases lt_trichotomy y y' with hlt | heq | hgt
  · have := pronic_le (show -1 ≤ y by omega) hy' hlt
    have := h.2
    have := h'.1
    omega
  · exact heq
  · have := pronic_le (show -1 ≤ y' by omega) hy hgt
    have := h.1
    have := h'.2
    omega

theorem scan_start (hr : 1 ≤ r) : Scan r 0 r (1 - r) := by
  have h1 : r * (r - 1) = r * r - r := by ring
  have h2 : r * (r + 1) = r * r + r := by ring
  exact ⟨le_rfl, by omega, by omega, fun _ => by omega, by omega⟩

theorem Scan.keep (h : Scan r x y d) (hd : d < 0) : Scan r (x + 1) y (d + (2 * x + 3)) := by
  obtain ⟨hx, hy, hdeq, hlow, hhigh⟩ := h
  have h1 : (x + 1) * (x + 1) = x * x + 2 * x + 1 := by ring
  have h2 : (x + 1 + 1) * (x + 1 + 1) = x * x + 4 * x + 4 := by ring
  exact ⟨by omega, hy, by omega, fun _ => by omega, by omega⟩

theorem Scan.drop (h : Scan r x y d) (hd : ¬d < 0) (hxy : x ≤ y) :
    Scan r (x + 1) (y - 1) (d + (2 * (x - y) + 5)) := by
  obtain ⟨hx, hy, hdeq, hlow, hhigh⟩ := h
  have h1 : (x + 1) * (x + 1) = x * x + 2 * x + 1 := by ring
  have h2 : (x + 1 + 1) * (x + 1 + 1) = x * x + 4 * x + 4 := by ring
  have h3 : y * (y - 1) = y * y - y := by ring
  have h4 : (y - 1) * (y - 1 - 1) = y * y - 3 * y + 2 := by ring
  have h5 : (y - 1) * (y - 1 + 1) = y * y - y := by ring
  have := hlow hxy
  exact ⟨by omega, by omega, by omega, fun _ => by omega, by omega⟩

-- What a stretch of the octant from (x, y) on consists of.
structure Stretch (r x y : Int) (pts : List (Int × Int)) : Prop where
  points : ∀ a b, (a, b) ∈ pts ↔ x ≤ a ∧ a ≤ b ∧ Nearest r a b
  columns : pts.map Prod.fst = (List.range pts.length).map fun (i : Nat) => x + i
  rows : ∀ k, x ≤ k → k ≤ y → (∃ b, (k, b) ∈ pts) ∨ ∃ a, (a, k) ∈ pts

theorem Scan.done (h : Scan r x y d) (hxy : y < x) : Stretch r x y [] := by
  refine ⟨fun a b => ⟨(fun hm => by cases hm), fun ⟨ha, hb, hnear⟩ => ?_⟩, rfl,
    fun k _ _ => by omega⟩
  have hx := h.x_nonneg
  have hpron := pronic_le h.y_low (show 0 ≤ b by omega) (show y + 1 ≤ b by omega)
  have hsq : x * x ≤ a * a := Int.mul_le_mul ha ha hx (by omega)
  have := h.high
  have := hnear.1
  omega

theorem Stretch.cons {y' : Int} (h : Scan r x y d) (hxy : x ≤ y) (hy' : y' = y ∨ y' = y - 1)
    (hs : Stretch r (x + 1) y' pts) : Stretch r x y ((x, y) :: pts) := by
  have hx := h.x_nonneg
  have hnear : Nearest r x y := ⟨h.low hxy, h.high⟩
  refine ⟨fun a b => ?_, ?_, fun k h1 h2 => ?_⟩
  · rw [List.mem_cons, hs.points, Prod.mk.injEq]
    constructor
    · rintro (⟨rfl, rfl⟩ | ⟨ha, hrest⟩)
      · exact ⟨le_rfl, hxy, hnear⟩
      · exact ⟨by omega, hrest⟩
    · rintro ⟨ha, hab, hnear'⟩
      rcases Int.lt_or_eq_of_le ha with hlt | rfl
      · exact .inr ⟨hlt, hab, hnear'⟩
      · exact .inl ⟨rfl, hnear'.unique hnear (by omega) (by omega)⟩
  · rw [List.map_cons, hs.columns, List.length_cons, List.range_succ_eq_map, List.map_cons,
      List.map_map]
    congr 1
    · exact (add_zero x).symm
    · refine List.map_congr_left fun i _ => ?_
      dsimp only [Function.comp_apply]
      omega
  · rcases Int.lt_or_eq_of_le h1 with hlt | rfl
    · rcases Int.lt_or_eq_of_le h2 with hlt' | rfl
      · rcases hs.rows k (by omega) (by omega) with ⟨b, hb⟩ | ⟨a, ha⟩
        · exact .inl ⟨b, List.mem_cons_of_mem _ hb⟩
        · exact .inr ⟨a, List.mem_cons_of_mem _ ha⟩
      · exact .inr ⟨x, List.mem_cons_self⟩
    · exact .inl ⟨y, List.mem_cons_self⟩

-- The loop ends, and it does so however many more turns it is given.
theorem Scan.points (h : Scan r x y d) {n : Nat} (hn : y - x < n) : ∃ pts, Stretch r x y pts ∧
    (∀ turns, n < turns → octantPoints turns x y d = some pts) ∧
      ∀ (body : Int → Int → Painter → Painter) (p : Painter) turns, n ≤ turns →
        Painter.octantLoop body turns x y d p = pts.foldl (fun p q => body q.1 q.2 p) p := by
  induction n generalizing x y d with
  | zero =>
    have hxy : ¬x ≤ y := by omega
    refine ⟨[], h.done (by omega), fun turns hturns => ?_, fun body p turns _ => ?_⟩
    · obtain ⟨t, rfl⟩ := Nat.exists_eq_succ_of_ne_zero hturns.ne'
      rw [octantPoints, if_neg hxy]
    · cases turns with
      | zero => rfl
      | succ t => rw [Painter.octantLoop, if_neg hxy]; rfl
  | succ n ih =>
    by_cases hxy : x ≤ y
    · have hnext : ∃ y', (y' = y ∨ y' = y - 1) ∧ ∃ d', Scan r (x + 1) y' d' ∧
          (∀ t, octantPoints (t + 1) x y d = (octantPoints t (x + 1) y' d').map ((x, y) :: ·)) ∧
          ∀ body t p, Painter.octantLoop body (t + 1) x y d p =
            Painter.octantLoop body t (x + 1) y' d' (body x y p) := by
        by_cases hd : d < 0
        · refine ⟨y, .inl rfl, _, h.keep hd, fun t => ?_, fun body t p => ?_⟩
          · rw [octantPoints, if_pos hxy, if_pos hd]
          · rw [Painter.octantLoop, if_pos hxy]
            dsimp only
            rw [if_pos hd]
        · refine ⟨y - 1, .inr rfl, _, h.drop hd hxy, fun t => ?_, fun body t p => ?_⟩
          · rw [octantPoints, if_pos hxy, if_neg hd]
          · rw [Painter.octantLoop, if_pos hxy]
            dsimp only
            rw [if_neg hd]
      obtain ⟨y', hy', d', hscan, hpts, hloop⟩ := hnext
      obtain ⟨pts, hstretch, hends, hfold⟩ := ih hscan (by omega)
      refine ⟨(x, y) :: pts, hstretch.cons h hxy hy', fun turns hturns => ?_,
        fun body p turns hturns => ?_⟩
      · obtain ⟨t, rfl⟩ := Nat.exists_eq_succ_of_ne_zero (Nat.ne_of_gt (Nat.zero_lt_of_lt hturns))
        rw [hpts, hends t (Nat.lt_of_succ_lt_succ hturns)]
        rfl
      · obtain ⟨t, rfl⟩ := Nat.exists_eq_add_of_le' (Nat.le_trans (Nat.le_add_left 1 n) hturns)
        rw [hloop, hfold body _ t (Nat.le_of_succ_le_succ hturns)]
        rfl
    · refine ⟨[], h.done (by omega), fun turns hturns => ?_, fun body p turns hturns => ?_⟩
      · obtain ⟨t, rfl⟩ := Nat.exists_eq_succ_of_ne_zero (Nat.ne_of_gt (Nat.zero_lt_of_lt hturns))
        rw [octantPoints, if_neg hxy]
      · obtain ⟨t, rfl⟩ := Nat.exists_eq_add_of_le' (Nat.le_trans (Nat.le_add_left 1 n) hturns)
        rw [Painter.octantLoop, if_neg hxy]
        rfl

end Octants

def eightPoints (cx cy x y : Int) : List (Int × Int) :=
  [(cx + x, cy + y), (cx - x, cy + y), (cx + x, cy - y), (cx - x, cy - y),
    (cx + y, cy + x), (cx - y, cy + x), (cx + y, cy - x), (cx - y, cy - x)]

-- The pixels that draw_circle plots, in its order.
def circlePoints (cx cy : Int) (pts : List (Int × Int)) : List (Int × Int) :=
  pts.flatMap fun q => eightPoints cx cy q.1 q.2

-- From the leftmost to the rightmost pixel plotted in a row.
def InSpan (plotted : List (Int × Int)) (x y : Int) : Prop :=
  ∃ l r, (l, y) ∈ plotted ∧ (r, y) ∈ plotted ∧ l ≤ x ∧ x ≤ r

-- Every pixel of A gets the painter's colour, and nothing else happens.
structure Paints (A : Int → Int → Prop) (p p' : Painter) : Prop where
  clip : p'.clip = p.clip
  color : p'.color = p.color
  stamps : Stamps A (fun _ _ _ => p.color) p.target p'.target

-- Nothing that is drawn in the box is clipped.
structure Unclipped (box : Int → Int → Prop) (p : Painter) : Prop where
  color : p.color < 0x100000000
  inside : ∀ x y, box x y → p.Inside x y

section Painting

variable {A B box : Int → Int → Prop} {p p' p'' : Painter} {x y : Int}

theorem Stamps.over {s s' s'' : Surface} {c : Color32} (h : Stamps A (fun _ _ _ => c) s s')
    (h' : Stamps B (fun _ _ _ => c) s' s'') (hA : ∀ x y, A x y → s.has x y)
    (hB : ∀ x y, B x y → s.has x y) :
    Stamps (fun x y => A x y ∨ B x y) (fun _ _ _ => c) s s'' := by
  refine ⟨(h.within.mono fun _ _ => .inl).trans (h'.within.mono fun _ _ => .inr), fun x y hxy => ?_⟩
  by_cases hb : B x y
  · exact h'.cells x y hb
  · have ha := hxy.resolve_right hb
    rw [h'.within.peek_eq (fun x y hb => h.within.has_iff.mpr (hB x y hb))
      (h.within.has_iff.mpr (hA x y ha)) hb, h.cells x y ha]

theorem Paints.nothing (p : Painter) : Paints (fun _ _ => False) p p :=
  ⟨rfl, rfl, .nothing _ _⟩

theorem Paints.unclipped (h : Paints A p p') (hp : Unclipped box p) : Unclipped box p' := by
  refine ⟨h.color.symm ▸ hp.color, fun x y hbox => ?_⟩
  obtain ⟨hclip, hhas⟩ := hp.inside x y hbox
  exact ⟨h.clip.symm ▸ hclip, h.stamps.within.has_iff.mpr hhas⟩

theorem Paints.over (h : Paints A p p') (h' : Paints B p' p'') (hp : Unclipped box p)
    (hA : ∀ x y, A x y → box x y) (hB : ∀ x y, B x y → box x y) :
    Paints (fun x y => A x y ∨ B x y) p p'' := by
  refine ⟨h'.clip.trans h.clip, h'.color.trans h.color, h.stamps.over (h.color ▸ h'.stamps) ?_ ?_⟩
  · exact fun x y ha => (hp.inside x y (hA x y ha)).2
  · exact fun x y hb => (hp.inside x y (hB x y hb)).2

theorem Paints.congr (h : Paints A p p') (hAB : ∀ x y, A x y ↔ B x y) : Paints B p p' :=
  ⟨h.clip, h.color, h.stamps.congr hAB⟩

theorem foldl_paints {α : Type} {step : Painter → α → Painter} (area : α → Int → Int → Prop)
    (as : List α) (hstep : ∀ a ∈ as, ∀ q, Unclipped box q → Paints (area a) q (step q a))
    (harea : ∀ a ∈ as, ∀ x y, area a x y → box x y) (hp : Unclipped box p) :
    Paints (fun x y => ∃ a ∈ as, area a x y) p (as.foldl step p) := by
  induction as generalizing p with
  | nil => exact (Paints.nothing p).congr fun x y => ⟨False.elim, fun ⟨_, ha, _⟩ => by cases ha⟩
  | cons a as ih =>
    have hfirst := hstep a List.mem_cons_self p hp
    have hrest := ih (fun b hb => hstep b (List.mem_cons_of_mem a hb))
      (fun b hb => harea b (List.mem_cons_of_mem a hb)) (hfirst.unclipped hp)
    refine (hfirst.over hrest hp (harea a List.mem_cons_self) ?_).congr fun x y => ?_
    · rintro x y ⟨b, hb, hxy⟩
      exact harea b (List.mem_cons_of_mem a hb) x y hxy
    · simp only [List.mem_cons, exists_eq_or_imp]

theorem putPixel_paints (hp : Unclipped box p) (hbox : box x y) :
    Paints (fun x' y' => x' = x ∧ y' = y) p (p.putPixel x y) := by
  obtain ⟨⟨h1, h2, h3, h4⟩, hhas⟩ := hp.inside x y hbox
  unfold Painter.putPixel Painter.plot
  rw [if_neg (by omega), surfaceSet, if_pos hhas]
  exact ⟨rfl, rfl, poke_stamps (g := fun _ _ _ => p.color) (fun _ _ _ _ => hp.color) p.target x y⟩

theorem drawHline_paints {len : Int} (hp : Unclipped box p) (hlen : 0 < len)
    (hbox : ∀ x', x ≤ x' → x' < x + len → box x' y) :
    Paints (fun x' y' => x ≤ x' ∧ x' < x + len ∧ y' = y) p (p.drawHline x y len) := by
  obtain ⟨⟨h1, h2, h3, h4⟩, -⟩ := hp.inside x y (hbox x le_rfl (by omega))
  obtain ⟨⟨h5, h6, -, -⟩, -⟩ := hp.inside (x + len - 1) y (hbox _ (by omega) (by omega))
  unfold Painter.drawHline
  dsimp only
  rw [if_neg (by omega), if_neg (by omega), if_neg (show ¬x < p.clip.x by omega),
    if_neg (show ¬x + len > p.clip.right by omega), if_neg (by omega), add_sub_cancel_left]
  have hn : ((len.toNat : Nat) : Int) = len := Int.toNat_of_nonneg hlen.le
  have hrow := paintRow_stamps (s := p.target) (x := x) (y := y) (n := len.toNat)
    (g := fun _ _ _ => p.color) (fun _ _ _ _ => hp.color)
    fun x' h1 h2 => (hp.inside x' y (hbox x' h1 (by omega))).2
  rw [hn] at hrow
  exact ⟨rfl, rfl, hrow⟩

end Painting

section Circles

variable {r cx cy x y : Int} {pts : List (Int × Int)} {p : Painter}

def Square (cx cy r x y : Int) : Prop := cx - r ≤ x ∧ x ≤ cx + r ∧ cy - r ≤ y ∧ y ≤ cy + r

theorem Nearest.le_radius {x y : Int} (h : Nearest r x y) (hr : 1 ≤ r) (hx : 0 ≤ x) (hy : 0 ≤ y) :
    y ≤ r := by
  by_contra hlt
  have hpron := pronic_le (show -1 ≤ r by omega) hy (show r + 1 ≤ y by omega)
  have hsq : 0 ≤ x * x := Int.mul_nonneg hx hx
  have hprod : r * (r + 1) = r * r + r := by ring
  have := h.1
  omega

theorem mem_circlePoints : (x, y) ∈ circlePoints cx cy pts ↔
    ∃ q ∈ pts, (x, y) ∈ eightPoints cx cy q.1 q.2 := by
  unfold circlePoints
  rw [List.mem_flatMap]

theorem mem_eightPoints {a b : Int} : (x, y) ∈ eightPoints cx cy a b ↔
    ((x = cx + a ∨ x = cx - a) ∧ (y = cy + b ∨ y = cy - b)) ∨
      ((x = cx + b ∨ x = cx - b) ∧ (y = cy + a ∨ y = cy - a)) := by
  unfold eightPoints
  simp only [List.mem_cons, Prod.mk.injEq, List.not_mem_nil, or_false]
  grind

theorem putEight_eq (p : Painter) (cx cy x y : Int) : p.putEight cx cy x y =
    (eightPoints cx cy x y).foldl (fun p q => p.putPixel q.1 q.2) p := by
  unfold Painter.putEight eightPoints
  simp only [List.foldl_cons, List.foldl_nil]

-- The rows that fill_circle draws at a point of the octant.
def diskRows (cx cy a b x y : Int) : Prop :=
  ((y = cy - a ∨ y = cy + a) ∧ cx - b ≤ x ∧ x ≤ cx + b) ∨
    ((y = cy - b ∨ y = cy + b) ∧ cx - a ≤ x ∧ x ≤ cx + a)

theorem diskRows_paints {a b : Int} (hp : Unclipped (Square cx cy r) p) (ha : 0 ≤ a) (hab : a ≤ b)
    (hb : b ≤ r) : Paints (diskRows cx cy a b) p
      ((((p.drawHline (cx - b) (cy - a) (2 * b + 1)).drawHline (cx - b) (cy + a) (2 * b + 1)).drawHline
        (cx - a) (cy - b) (2 * a + 1)).drawHline (cx - a) (cy + b) (2 * a + 1)) := by
  have hline {q : Painter} {k m : Int} (hq : Unclipped (Square cx cy r) q) (hk : 0 ≤ k) (hkr : k ≤ r)
      (hm1 : cy - r ≤ m) (hm2 : m ≤ cy + r) :
      Paints (fun x y => cx - k ≤ x ∧ x < cx - k + (2 * k + 1) ∧ y = m) q
        (q.drawHline (cx - k) m (2 * k + 1)) :=
    drawHline_paints hq (by omega) fun x' h1 h2 => ⟨by omega, by omega, hm1, hm2⟩
  have h1 := hline hp (k := b) (m := cy - a) (by omega) hb (by omega) (by omega)
  have hp1 := h1.unclipped hp
  have h2 := hline hp1 (k := b) (m := cy + a) (by omega) hb (by omega) (by omega)
  have hp2 := h2.unclipped hp1
  have h3 := hline hp2 (k := a) (m := cy - b) ha (by omega) (by omega) (by omega)
  have hp3 := h3.unclipped hp2
  have h4 := hline hp3 (k := a) (m := cy + b) ha (by omega) (by omega) (by omega)
  have h34 := h3.over h4 hp2 (fun x y _ => by unfold Square; omega)
    (fun x y _ => by unfold Square; omega)
  have h24 := h2.over h34 hp1 (fun x y _ => by unfold Square; omega)
    (fun x y _ => by unfold Square; omega)
  refine (h1.over h24 hp (fun x y _ => by unfold Square; omega)
    (fun x y _ => by unfold Square; omega)).congr fun x y => ?_
  unfold diskRows
  constructor
  · rintro (⟨hx, hx', hy⟩ | ⟨hx, hx', hy⟩ | ⟨hx, hx', hy⟩ | ⟨hx, hx', hy⟩)
    · exact .inl ⟨.inl hy, hx, by omega⟩
    · exact .inl ⟨.inr hy, hx, by omega⟩
    · exact .inr ⟨.inl hy, hx, by omega⟩
    · exact .inr ⟨.inr hy, hx, by omega⟩
  · rintro (⟨hy | hy, hx, hx'⟩ | ⟨hy | hy, hx, hx'⟩)
    · exact .inl ⟨hx, by omega, hy⟩
    · exact .inr (.inl ⟨hx, by omega, hy⟩)
    · exact .inr (.inr (.inl ⟨hx, by omega, hy⟩))
    · exact .inr (.inr (.inr ⟨hx, by omega, hy⟩))

-- The rows of the points of an octant are the spans of the outline.
theorem diskRows_span (hab : ∀ a b, (a, b) ∈ pts → 0 ≤ a ∧ a ≤ b) :
    (∃ q ∈ pts, diskRows cx cy q.1 q.2 x y) ↔ InSpan (circlePoints cx cy pts) x y := by
  constructor
  · rintro ⟨⟨a, b⟩, hq, ⟨hy, h1, h2⟩ | ⟨hy, h1, h2⟩⟩
    · refine ⟨cx - b, cx + b, mem_circlePoints.mpr ⟨_, hq, mem_eightPoints.mpr ?_⟩,
        mem_circlePoints.mpr ⟨_, hq, mem_eightPoints.mpr ?_⟩, h1, h2⟩
      · exact .inr ⟨.inr rfl, hy.symm⟩
      · exact .inr ⟨.inl rfl, hy.symm⟩
    · refine ⟨cx - a, cx + a, mem_circlePoints.mpr ⟨_, hq, mem_eightPoints.mpr ?_⟩,
        mem_circlePoints.mpr ⟨_, hq, mem_eightPoints.mpr ?_⟩, h1, h2⟩
      · exact .inl ⟨.inr rfl, hy.symm⟩
      · exact .inl ⟨.inl rfl, hy.symm⟩
  · rintro ⟨l, r, hl, hr, hlx, hxr⟩
    -- x is at most as far from the middle as the pixel on its side.
    have hside {u : Int} (hu : (u, y) ∈ circlePoints cx cy pts)
        (hx : cx ≤ x ∧ x ≤ u ∨ u ≤ x ∧ x ≤ cx) :
        ∃ q ∈ pts, diskRows cx cy q.1 q.2 x y := by
      obtain ⟨⟨a, b⟩, hq, hmem⟩ := mem_circlePoints.mp hu
      obtain ⟨ha, hb⟩ := hab a b hq
      refine ⟨(a, b), hq, ?_⟩
      rcases mem_eightPoints.mp hmem with h | h
      · dsimp only at h
        unfold diskRows
        omega
      · dsimp only at h
        unfold diskRows
        omega
    rcases Int.le_total x cx with hle | hge
    · exact hside hl (.inr ⟨hlx, hle⟩)
    · exact hside hr (.inl ⟨hge, hxr⟩)

-- The points of an octant around the centre stay in the square of the radius.
theorem circlePoints_square (hpts : ∀ a b, (a, b) ∈ pts → 0 ≤ a ∧ a ≤ b ∧ b ≤ r)
    {q : Int × Int} (hq : q ∈ circlePoints cx cy pts) : Square cx cy r q.1 q.2 := by
  obtain ⟨x, y⟩ := q
  obtain ⟨⟨a, b⟩, hab, hmem⟩ := mem_circlePoints.mp hq
  have hbounds := hpts a b hab
  have height := mem_eightPoints.mp hmem
  dsimp only at height
  unfold Square
  dsimp only
  omega

theorem circlePoints_row (hrows : ∀ k, 0 ≤ k → k ≤ r → (∃ b, (k, b) ∈ pts) ∨ ∃ a, (a, k) ∈ pts)
    (hy : cy - r ≤ y ∧ y ≤ cy + r) : ∃ x, (x, y) ∈ circlePoints cx cy pts := by
  obtain ⟨k, hk0, hkr, hyk⟩ : ∃ k, 0 ≤ k ∧ k ≤ r ∧ (y = cy + k ∨ y = cy - k) := by
    rcases Int.le_total cy y with hle | hge
    · exact ⟨y - cy, by omega, by omega, by omega⟩
    · exact ⟨cy - y, by omega, by omega, by omega⟩
  rcases hrows k hk0 hkr with ⟨b, hq⟩ | ⟨a, hq⟩
  · exact ⟨cx + b, mem_circlePoints.mpr ⟨_, hq, mem_eightPoints.mpr (.inr ⟨.inl rfl, hyk⟩)⟩⟩
  · exact ⟨cx + a, mem_circlePoints.mpr ⟨_, hq, mem_eightPoints.mpr (.inl ⟨.inl rfl, hyk⟩)⟩⟩

theorem circle_filled (hr : 1 ≤ r) : ∃ pts, OctantOf r pts ∧
    ∀ (p : Painter) (cx cy : Int),
      p.drawCircle cx cy r = (circlePoints cx cy pts).foldl (fun p q => p.putPixel q.1 q.2) p ∧
      (∀ y, (∃ x, (x, y) ∈ circlePoints cx cy pts) ↔ cy - r ≤ y ∧ y ≤ cy + r) ∧
      (Unclipped (Square cx cy r) p →
        Paints (fun x y => (x, y) ∈ circlePoints cx cy pts) p (p.drawCircle cx cy r) ∧
        Paints (InSpan (circlePoints cx cy pts)) p (p.fillCircle cx cy r)) := by
  obtain ⟨n, hn⟩ := Int.eq_ofNat_of_zero_le (show 0 ≤ r + 1 by omega)
  obtain ⟨pts, ⟨hpoints, hcolumns, hrows⟩, hends, hfold⟩ :=
    (scan_start hr).points (n := n) (by omega)
  have hnear (a b : Int) (hq : (a, b) ∈ pts) : 0 ≤ a ∧ a ≤ b ∧ b ≤ r := by
    obtain ⟨ha, hb, h⟩ := (hpoints a b).mp hq
    exact ⟨ha, hb, h.le_radius hr ha (by omega)⟩
  have hdraw (p : Painter) (cx cy : Int) : p.drawCircle cx cy r =
      (circlePoints cx cy pts).foldl (fun p q => p.putPixel q.1 q.2) p := by
    unfold Painter.drawCircle Painter.octant circlePoints
    rw [hfold _ p _ (by omega), List.foldl_flatMap]
    simp only [putEight_eq]
  refine ⟨pts, ⟨fun turns h => hends turns (by omega), hpoints, ?_⟩, fun p cx cy =>
    ⟨hdraw p cx cy, fun y => ⟨?_, circlePoints_row hrows⟩, fun hp => ⟨?_, ?_⟩⟩⟩
  · simpa only [zero_add] using hcolumns
  · rintro ⟨x, hx⟩
    exact (circlePoints_square hnear hx).2.2
  · rw [hdraw]
    refine (foldl_paints (fun q x y => x = q.1 ∧ y = q.2) _ (fun q hq p' hp' =>
      putPixel_paints hp' (circlePoints_square hnear hq)) (fun q hq x y hxy => ?_) hp).congr
        fun x y => ?_
    · rw [hxy.1, hxy.2]
      exact circlePoints_square hnear hq
    · exact ⟨fun ⟨q, hq, hx, hy⟩ => hx ▸ hy ▸ hq, fun hq => ⟨_, hq, rfl, rfl⟩⟩
  · unfold Painter.fillCircle Painter.octant
    rw [hfold _ p _ (by omega)]
    refine (foldl_paints (fun q => diskRows cx cy q.1 q.2) pts (fun q hq p' hp' => ?_)
      (fun q hq x y hxy => ?_) hp).congr fun x y =>
        diskRows_span fun a b hq => ⟨(hnear a b hq).1, (hnear a b hq).2.1⟩
    · obtain ⟨ha, hab, hb⟩ := hnear q.1 q.2 hq
      exact diskRows_paints hp' ha hab hb
    · obtain ⟨ha, hab, hb⟩ := hnear q.1 q.2 hq
      unfold diskRows at hxy
      unfold Square
      omega

end Circles

-- Three pixels by three, all bytes zero.
def threeByThree : Surface :=
  { pixels := fun _ => 0, width := 3, height := 3, pitch := 12, rows := by decide }

theorem circle_filled_one : ∃ pts, OctantOf 1 pts ∧
    Paints (InSpan (circlePoints 1 1 pts)) (painterBegin threeByThree)
      ((painterBegin threeByThree).fillCircle 1 1 1) := by
  obtain ⟨pts, hpts, hcircle⟩ := circle_filled (r := 1) (by decide)
  refine ⟨pts, hpts, ((hcircle _ 1 1).2.2 ⟨by decide, fun x y hbox => ⟨?_, ?_⟩⟩).2⟩
  · obtain ⟨h1, h2, h3, h4⟩ := hbox
    exact ⟨h1, Int.lt_add_one_of_le h2, h3, Int.lt_add_one_of_le h4⟩
  · obtain ⟨h1, h2, h3, h4⟩ := hbox
    exact ⟨h1, Int.lt_add_one_of_le h2, h3, Int.lt_add_one_of_le h4⟩

end Gfx
