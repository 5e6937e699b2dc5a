import SabakaOS.Process.SingleRunner

namespace Scheduler

-- How far the search of find_next goes from i to meet j.
def distance (i j : Slot) : Nat := (j.val + procMax - i.val) % procMax

-- The states of a run from s in which p has been ready all along.
inductive Waits (sym : Symbols) (p : Slot) (s : Sched) : Sched → Prop
  | start : (s.procs p).state = .ready → Waits sym p s s
  | act {s' : Sched} (a : Act) : Waits sym p s s' →
      ((exec sym s' a).procs p).state = .ready → Waits sym p s (exec sym s' a)

-- A step that makes no switch, or one to a slot no farther than p.
inductive Turn (p : Slot) (s s' : Sched) : Prop
  | stays : s'.switches = s.switches → s'.currentIdx = s.currentIdx → Turn p s s'
  | switched (x : Switch) : s'.switches = x :: s.switches → s'.currentIdx = x.dest →
      (s'.procs x.dest).state = .running → x.dest ≠ s.currentIdx →
      distance s.currentIdx x.dest ≤ distance s.currentIdx p → Turn p s s'

section Search

variable {s : Sched} {i j p : Slot} {k : Nat}

theorem distance_pos (h : j ≠ i) : 1 ≤ distance i j := by
  have hv : j.val ≠ i.val := fun he => h (Fin.ext he)
  have hi := i.isLt
  have hj := j.isLt
  unfold distance procMax
  omega

theorem distance_lt (i j : Slot) : distance i j < procMax := Nat.mod_lt _ (by decide)

theorem slotAfter_distance (i j : Slot) : slotAfter i (distance i j) = j := by
  have hi := i.isLt
  have hj := j.isLt
  refine Fin.ext ?_
  simp only [slotAfter, distance, procMax]
  omega

theorem distance_slotAfter (hk : k < procMax) : distance i (slotAfter i k) = k := by
  have hi := i.isLt
  simp only [slotAfter, distance, procMax] at hk ⊢
  omega

-- Going on from a slot on the way to p leaves only the rest of the way.
theorem distance_rest (h : distance i j ≤ distance i p) :
    distance i j + distance j p = distance i p := by
  have hi := i.isLt
  have hj := j.isLt
  have hp := p.isLt
  simp only [distance, procMax] at h ⊢
  omega

theorem wake_ready (now : Nat) {q : Process} (h : q.state = .ready) :
    (wake now q).state = .ready := by
  rcases wake_state now q with he | ⟨-, he⟩
  · exact he.trans h
  · exact he

theorem findNext_near (now : Nat) (hp : (s.procs p).state = .ready) (hne : p ≠ s.currentIdx) :
    (findNext s now).1 ≠ s.currentIdx ∧
      distance s.currentIdx (findNext s now).1 ≤ distance s.currentIdx p ∧
      (findNext s now).2 = { s with procs := fun i => wake now (s.procs i) } := by
  have hpos := distance_pos hne
  have hlt := distance_lt s.currentIdx p
  have hready : (wake now (s.procs (slotAfter s.currentIdx (distance s.currentIdx p)))).state =
      .ready := by
    rw [slotAfter_distance]
    exact wake_ready now hp
  unfold findNext
  simp only
  split
  · next k hk =>
    obtain ⟨-, n, hn, hget, hbefore⟩ := List.find?_eq_some_iff_getElem.mp hk
    rw [List.length_range'] at hn
    rw [List.getElem_range'] at hget
    have hle : k ≤ distance s.currentIdx p := by
      by_contra hgt
      have hfirst := hbefore (distance s.currentIdx p - 1) (by omega)
      rw [List.getElem_range',
        show 1 + 1 * (distance s.currentIdx p - 1) = distance s.currentIdx p by omega] at hfirst
      simp [hready] at hfirst
    have hdist : distance s.currentIdx (slotAfter s.currentIdx k) = k :=
      distance_slotAfter (by omega)
    refine ⟨fun he => ?_, by rw [hdist]; exact hle, rfl⟩
    have he : slotAfter s.currentIdx k = s.currentIdx := he
    rw [he] at hdist
    have hself : distance s.currentIdx s.currentIdx = 0 := by
      simp [distance, procMax]
    omega
  · next hnone =>
    rw [List.find?_eq_none] at hnone
    refine absurd hready ?_
    simpa using hnone (distance s.currentIdx p) (List.mem_range'_1.mpr ⟨hpos, by omega⟩)

end Search

section Turns

variable {sym : Symbols} {s s' t : Sched} {p : Slot}

theorem Turn.of_view (hv : view s' = view s) : Turn p s s' :=
  .stays (congrArg View.switches hv) (congrArg View.current hv)

theorem Turn.of_set {i : Slot} {st : ProcessState} (hv : view s' = (view s).set i st) :
    Turn p s s' :=
  .stays (congrArg View.switches hv) (congrArg View.current hv)

theorem Turn.from (h : Turn p t s') (hsw : t.switches = s.switches)
    (hc : t.currentIdx = s.currentIdx) : Turn p s s' := by
  cases h with
  | stays hs hi => exact .stays (hs.trans hsw) (hi.trans hc)
  | switched x hs hi hrun hne hle =>
    rw [hsw] at hs
    rw [hc] at hne hle
    exact .switched x hs hi hrun hne hle

theorem schedulerYield_turn (now sp : Nat) (hp : (s.procs p).state = .ready)
    (hne : p ≠ s.currentIdx) : Turn p s (schedulerYield s now sp) := by
  obtain ⟨hother, hle, hs⟩ := findNext_near now hp hne
  unfold schedulerYield
  simp only [hs, if_pos hother]
  refine .switched ⟨s.currentIdx, (findNext s now).1, (wake now (s.procs (findNext s now).1)).state⟩
    ?_ ?_ ?_ hother hle
  · simp only [doSwitch, if_neg hother]
    rfl
  · simp only [doSwitch, if_neg hother]
    rfl
  · simp [doSwitch, setProc, hother]

theorem setProc_other {i : Slot} {f : Process → Process} (h : p ≠ i) :
    (setProc s i f).procs p = s.procs p := Function.update_of_ne h ..

theorem exec_turn (hp : (s.procs p).state = .ready) (hne : p ≠ s.currentIdx) (a : Act) :
    Turn p s (exec sym s a) := by
  cases a with
  | create func arg name priority stack =>
    rcases view_processCreate sym s name priority func arg stack with hv | ⟨i, st, -, -, hv⟩
    · exact .of_view hv
    · exact .of_set hv
  | createUser entry name priority kstack mapped =>
    rcases view_processCreateUser sym s name priority entry kstack mapped with
      hv | ⟨i, st, -, -, hv⟩
    · exact .of_view hv
    · exact .of_set hv
  | exit now sp =>
    refine (schedulerYield_turn (s := { setProc s s.currentIdx (setState .dead) with
      procCount := s.procCount - 1 }) now sp ?_ hne).from rfl rfl
    change ((setProc s s.currentIdx (setState .dead)).procs p).state = .ready
    rw [setProc_other hne]
    exact hp
  | sleep ms frequency now sp =>
    refine (schedulerYield_turn (s := setProc s s.currentIdx _) now sp ?_ hne).from rfl rfl
    rw [setProc_other hne]
    exact hp
  | block q =>
    cases q with
    | none => exact .stays rfl rfl
    | some i => exact .stays rfl rfl
  | unblock q =>
    cases q with
    | none => exact .stays rfl rfl
    | some i =>
      rw [exec, processUnblock]
      split
      · exact .stays rfl rfl
      · exact .stays rfl rfl
  | kill pid =>
    rw [exec, cmdKill]
    split
    · exact .stays rfl rfl
    · split
      · exact .stays rfl rfl
      · exact .stays rfl rfl
  | yield now sp => exact schedulerYield_turn now sp hp hne
  | tick now sp =>
    rw [exec, schedulerTick]
    split
    · exact .stays rfl rfl
    · simp only
      split
      · refine (schedulerYield_turn (s := setProc s s.currentIdx _) now sp ?_ hne).from rfl rfl
        rw [setProc_other hne]
        exact hp
      · exact .stays rfl rfl

theorem Waits.ready (h : Waits sym p s s') : (s'.procs p).state = .ready := by
  cases h with
  | start h => exact h
  | act a _ h => exact h

-- Every switch past p's turn would have been a switch to p, so each one brings its turn nearer.
theorem Waits.near (h : Waits sym p s s') (hne : p ≠ s.currentIdx) :
    p ≠ s'.currentIdx ∧ ∃ made, s'.switches = made ++ s.switches ∧ (∀ x ∈ made, x.dest ≠ p) ∧
      made.length + distance s'.currentIdx p ≤ distance s.currentIdx p := by
  induction h with
  | start _ => exact ⟨hne, [], rfl, by simp, by simp⟩
  | @act s' a hw hready ih =>
    obtain ⟨hne', made, hmade, hothers, hle⟩ := ih
    cases exec_turn hw.ready hne' a with
    | stays hs hi =>
      rw [hs, hi]
      exact ⟨hne', made, hmade, hothers, hle⟩
    | switched x hs hi hrun hfar hnear =>
      have hx : p ≠ x.dest := by
        rintro rfl
        rw [hready] at hrun
        cases hrun
      have hrest := distance_rest hnear
      rw [hi]
      refine ⟨hx, x :: made, by rw [hs, hmade]; rfl, fun y hy => ?_, ?_⟩
      · rcases List.mem_cons.mp hy with rfl | hy
        · exact hx.symm
        · exact hothers y hy
      have hpos := distance_pos hfar
      rw [List.length_cons]
      omega

-- A ready slot p that is not the current one. No search passes it by, and as long as it waits
-- fewer switches have been made than it is slots away; the next one, if it is the last of these,
-- goes to p.
theorem no_bypass (hp : (s.procs p).state = .ready) (hne : p ≠ s.currentIdx) :
    (∀ now, (findNext s now).1 ≠ s.currentIdx ∧
      distance s.currentIdx (findNext s now).1 ≤ distance s.currentIdx p) ∧
    ∀ sym s', Waits sym p s s' → ∃ made, s'.switches = made ++ s.switches ∧
      made.length < distance s.currentIdx p ∧ (∀ x ∈ made, x.dest ≠ p) ∧
      ∀ a, (exec sym s' a).switches = s'.switches ∨ ∃ x, (exec sym s' a).switches = x :: s'.switches ∧
        (x.dest = p ∨ made.length + 1 < distance s.currentIdx p) := by
  refine ⟨fun now => ?_, fun sym s' hw => ?_⟩
  · obtain ⟨hother, hle, -⟩ := findNext_near now hp hne
    exact ⟨hother, hle⟩
  · obtain ⟨hne', made, hmade, hothers, hle⟩ := hw.near hne
    have hpos := distance_pos hne'
    refine ⟨made, hmade, by omega, hothers, fun a => ?_⟩
    cases exec_turn hw.ready hne' a with
    | stays hs _ => exact .inl hs
    | switched x hs _ _ hfar hnear =>
      refine .inr ⟨x, hs, ?_⟩
      by_cases hx : x.dest = p
      · exact .inl hx
      · have hrest := distance_rest hnear
        have hleft := distance_pos (Ne.symm hx)
        have hgone := distance_pos hfar
        exact .inr (by omega)

-- Slot 2 waits while slot 1 takes the first of the two turns.
theorem no_bypass_second :
    let s1 := exec ⟨0, 0⟩ (schedulerInit blankSched) (.create 0 0 [] 5 0x800014)
    let s2 := exec ⟨0, 0⟩ s1 (.create 0 0 [] 1 0x804014)
    let s3 := exec ⟨0, 0⟩ s2 (.yield 3 0)
    Waits ⟨0, 0⟩ 2 s2 s3 ∧ ∃ made, s3.switches = made ++ s2.switches ∧ made.length < 2 ∧
      ∀ x ∈ made, x.dest ≠ 2 := by
  intro s1 s2 s3
  have hw : Waits ⟨0, 0⟩ 2 s2 s3 := .act (.yield 3 0) (.start rfl) rfl
  have hdist : distance s2.currentIdx 2 = 2 := by decide
  obtain ⟨made, hmade, hlen, hothers, -⟩ := (no_bypass (s := s2) (p := 2) rfl (by decide)).2 _ _ hw
  exact ⟨hw, made, hmade, hdist ▸ hlen, hothers⟩

end Turns

end Scheduler
