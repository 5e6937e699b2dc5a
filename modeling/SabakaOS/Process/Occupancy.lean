import SabakaOS.Process.ProcessTable

namespace Scheduler

open Word

-- A context switch: whose slot is resumed, whose registers are loaded, whether that process has
-- exited or been killed, and where its first frame is if it has not run yet.
structure Resumption where
  owner : Option Nat
  context : Option Nat
  ended : Bool
  start : Option Nat
  esp : Nat

-- A slot given to a new process: its occupant before, the process then executing, the stack
-- allocated, the frame built on it and the return address in that frame.
structure Grant where
  previous : Option Nat
  executing : Option Nat
  stack : Nat
  frame : Nat
  entry : Nat

def Resumption.Right (r : Resumption) : Prop :=
  r.ended = false ∧ r.context = r.owner ∧ ∀ f ∈ r.start, r.esp = f

def Grant.Right (sym : Symbols) (v : Grant) : Prop :=
  (v.previous = none ∨ v.previous ≠ v.executing) ∧ v.frame = sub32 (v.stack + procStackSize) 36 ∧
    v.entry = sym.procEntry

instance : DecidablePred Resumption.Right := fun _ => inferInstanceAs (Decidable (_ ∧ _ ∧ _))

instance (sym : Symbols) : DecidablePred (Grant.Right sym) := fun _ =>
  inferInstanceAs (Decidable (_ ∧ _ ∧ _))

structure Ghost where
  occupant : Slot → Option Nat
  saved : Slot → Option Nat
  running : Option Nat
  gone : List Nat
  entered : List Nat
  born : Nat
  frame : Nat → Nat
  resumed : List Resumption
  given : List Grant

def Ghost.boot : Ghost where
  occupant := Function.update (fun _ => none) 0 (some 0)
  saved := fun _ => none
  running := some 0
  gone := []
  entered := [0]
  born := 1
  frame := fun _ => 0
  resumed := []
  given := []

def isOver (g : Ghost) (p : Option Nat) : Bool := p.any fun n => n ∈ g.gone

def Ghost.finish (g : Ghost) (p : Option Nat) : Ghost := { g with gone := p.toList ++ g.gone }

-- s' is the state the creating function leaves, with the new process in slot i.
def Ghost.grant (g : Ghost) (s' : Sched) (i : Slot) : Ghost :=
  { g with
    occupant := Function.update g.occupant i (some g.born)
    saved := Function.update g.saved i (some g.born)
    born := g.born + 1
    frame := Function.update g.frame g.born (s'.procs i).esp
    given := ⟨g.occupant i, g.running, (s'.procs i).stackBase, (s'.procs i).esp,
      s'.stackMem (u32 ((s'.procs i).esp + 16))⟩ :: g.given }

-- What context_switch does, seen from the processes: it stores the running one's registers in
-- the slot left and loads what was stored in the slot entered.
def Ghost.moved (g : Ghost) (s s' : Sched) : Ghost :=
  if s'.currentIdx = s.currentIdx then g
  else
    let saved := Function.update g.saved s.currentIdx g.running
    let context := saved s'.currentIdx
    let owner := g.occupant s'.currentIdx
    { g with
      saved := saved
      running := context
      entered := owner.toList ++ g.entered
      resumed := ⟨owner, context, isOver g context,
        (owner.filter fun n => n ∉ g.entered).map g.frame, s'.cpuEsp⟩ :: g.resumed }

def Ghost.follow (sym : Symbols) (g : Ghost) (s : Sched) : Act → Ghost
  | .create func arg name priority stack =>
    match processCreate sym s func arg name priority stack with
    | (none, _) => g
    | (some i, s') => g.grant s' i
  | .createUser entry name priority kstack mapped =>
    match processCreateUser sym s entry name priority kstack mapped with
    | (none, _) => g
    | (some i, s') => g.grant s' i
  | .exit now sp => (g.finish g.running).moved s (processExit s now sp)
  | .kill pid =>
    match (cmdKill s pid).1 with
    | none => g
    | some i => g.finish (g.occupant i)
  | .block _ => g
  | .unblock _ => g
  | .sleep ms frequency now sp => g.moved s (processSleep s ms frequency now sp)
  | .yield now sp => g.moved s (schedulerYield s now sp)
  | .tick now sp => g.moved s (schedulerTick s now sp)

def tracked (sym : Symbols) : System (Sched × Ghost) Act where
  init t := (∃ s0 : Sched, t.1 = schedulerInit s0) ∧ t.2 = Ghost.boot
  step t a t' := t' = (exec sym t.1 a, t.2.follow sym t.1 a)

-- Death is final, and the slot a creation takes is not the one executing.
def deathKept (t : Sched × Ghost) : Act → Prop
  | .create _ _ _ _ stack => stack = 0 ∨ allocProc t.1 ≠ some t.1.currentIdx
  | .createUser _ _ _ kstack mapped =>
    kstack = 0 ∨ mapped = false ∨ allocProc t.1 ≠ some t.1.currentIdx
  | .block (some i) => i ∈ alive t.1
  | .sleep _ _ _ _ => t.1.currentIdx ∈ alive t.1
  | _ => True

structure Occupied (sym : Symbols) (s : Sched) (g : Ghost) : Prop where
  running : g.running = g.occupant s.currentIdx
  saved : ∀ i, i ≠ s.currentIdx → g.saved i = g.occupant i
  living : ∀ i ∈ alive s, isOver g (g.occupant i) = false
  own : ∀ i j n, g.occupant i = some n → g.occupant j = some n → i = j
  bound : ∀ i n, g.occupant i = some n → n < g.born
  ended : ∀ n ∈ g.gone, n < g.born
  entered : ∀ n ∈ g.entered, n < g.born
  frame : ∀ i, i ≠ s.currentIdx → ∀ n, g.occupant i = some n → n ∉ g.entered →
    (s.procs i).esp = g.frame n
  current : ∀ n, g.occupant s.currentIdx = some n → n ∈ g.entered
  resumed : ∀ r ∈ g.resumed, r.Right
  given : ∀ v ∈ g.given, v.Right sym

section Frame

variable {m : Nat → Nat} {sp x v : Nat} {vs ws : List Nat}

theorem sub32_sub32 (sp a b : Nat) : sub32 (sub32 sp a) b = sub32 sp (a + b) := by
  unfold sub32
  omega

theorem push_append : push m sp (vs ++ ws) = push (push m sp vs).1 (push m sp vs).2 ws := by
  induction vs generalizing m sp with
  | nil => rfl
  | cons v vs ih => simpa [push] using ih

theorem push_snd (h : sp < 4294967296) : (push m sp vs).2 = sub32 sp (4 * vs.length) := by
  induction vs generalizing m sp with
  | nil =>
    simp only [push, sub32, List.length_nil]
    omega
  | cons v vs ih =>
    have hlt : sub32 sp 4 < 4294967296 := Nat.mod_lt _ (by decide)
    simp only [push, ih hlt, sub32_sub32, List.length_cons]
    congr 1
    omega

theorem push_other (h : ∀ k < vs.length, x ≠ sub32 sp (4 * (k + 1))) :
    (push m sp vs).1 x = m x := by
  induction vs generalizing m sp with
  | nil => rfl
  | cons v vs ih =>
    simp only [push]
    rw [ih fun k hk => ?_]
    · exact Function.update_of_ne (h 0 (by simp)) ..
    · rw [sub32_sub32, show 4 + 4 * (k + 1) = 4 * (k + 1 + 1) by omega]
      exact h (k + 1) (by simpa using hk)

theorem push_word (h : sp < 4294967296) (hl : vs.length + ws.length < 1000) :
    (push m sp (vs ++ v :: ws)).1 (sub32 sp (4 * (vs.length + 1))) = v := by
  rw [push_append, push]
  have hsp : sub32 (push m sp vs).2 4 = sub32 sp (4 * (vs.length + 1)) := by
    rw [push_snd h, sub32_sub32]
    congr 1
  rw [push_other fun k hk => ?_]
  · rw [hsp]
    exact Function.update_self ..
  · rw [hsp, sub32_sub32]
    unfold sub32
    omega

-- The frame of a new process: nine words, the fifth being where context_switch returns to.
theorem push_frame (stack v1 v2 v3 v4 e w1 w2 w3 w4 : Nat) :
    let f := push m (u32 (stack + procStackSize)) [v1, v2, v3, v4, e, w1, w2, w3, w4]
    f.2 = sub32 (stack + procStackSize) 36 ∧ f.1 (u32 (f.2 + 16)) = e := by
  intro f
  have hlt : u32 (stack + procStackSize) < 4294967296 := u32_lt _
  have hf : f.2 = sub32 (stack + procStackSize) 36 := by
    refine (push_snd hlt).trans ?_
    simp only [sub32, u32, List.length_cons, List.length_nil]
    omega
  refine ⟨hf, ?_⟩
  have ha : u32 (f.2 + 16) = sub32 (u32 (stack + procStackSize)) (4 * (4 + 1)) := by
    rw [hf]
    simp only [sub32, u32]
    omega
  rw [ha]
  exact @push_word m _ e [v1, v2, v3, v4] [w1, w2, w3, w4] hlt (by simp)

end Frame

structure Moves (s s' : Sched) : Prop where
  slots : alive s' = alive s
  dest : s'.currentIdx ≠ s.currentIdx → s'.currentIdx ∈ alive s
  esp : ∀ i, i ≠ s.currentIdx → (s'.procs i).esp = (s.procs i).esp
  cpu : s'.currentIdx ≠ s.currentIdx → s'.cpuEsp = (s.procs s'.currentIdx).esp

-- What creation does to the table when it gives slot i away.
structure Made (sym : Symbols) (s s' : Sched) (i : Slot) : Prop where
  slots : alive s' = insert i (alive s)
  current : s'.currentIdx = s.currentIdx
  esp : ∀ j, j ≠ i → (s'.procs j).esp = (s.procs j).esp
  frame : (s'.procs i).esp = sub32 ((s'.procs i).stackBase + procStackSize) 36
  entry : s'.stackMem (u32 ((s'.procs i).esp + 16)) = sym.procEntry

section Moves

variable {s s' : Sched}

theorem wake_esp (now : Nat) (p : Process) : (wake now p).esp = p.esp := by
  unfold wake
  split <;> rfl

theorem moves_doSwitch (s : Sched) (n : Slot) (sp : Nat) (hn : n ∈ alive s) :
    Moves s (doSwitch s n sp) := by
  have hslots := (sameTable_doSwitch s n sp hn).slots
  by_cases hne : n = s.currentIdx
  · have hs : doSwitch s n sp = s := if_pos hne
    rw [hs]
    exact ⟨rfl, fun h => absurd rfl h, fun _ _ => rfl, fun h => absurd rfl h⟩
  · have hc : (doSwitch s n sp).currentIdx = n := by simp [doSwitch, hne, setProc]
    refine ⟨hslots, fun _ => by rwa [hc], fun i hi => ?_, fun _ => ?_⟩
    · unfold doSwitch
      rw [if_neg hne]
      by_cases hin : i = n
      · subst hin
        simp [setProc_apply, hne]
      · simp [setProc_apply, hi, hin]
    · rw [hc]
      simp [doSwitch, hne, setProc_apply]

theorem moves_yield (s : Sched) (now sp : Nat) : Moves s (schedulerYield s now sp) := by
  obtain ⟨hs, hn⟩ := findNext_alive s now
  have hw := (sameTable_wake s now).slots
  unfold schedulerYield
  simp only [hs]
  split
  · next hne =>
    have hd : (findNext s now).1 ∈ alive { s with procs := fun i => wake now (s.procs i) } := by
      rw [mem_alive]
      rcases hn.resolve_left hne with hr | hr
      · simp [hr]
      · simp [hr]
    have hm := moves_doSwitch _ _ sp hd
    exact ⟨hm.slots.trans hw, fun h => hw ▸ hm.dest h,
      fun i hi => (hm.esp i hi).trans (wake_esp now _), fun h => (hm.cpu h).trans (wake_esp now _)⟩
  · exact ⟨hw, fun h => absurd rfl h, fun i _ => wake_esp now _, fun h => absurd rfl h⟩

theorem moves_tick (s : Sched) (now sp : Nat) : Moves s (schedulerTick s now sp) := by
  rcases tick_cases s now sp with h | ⟨f, hst, hpid, hesp, h⟩
  · rw [h]
    exact ⟨rfl, fun h => absurd rfl h, fun _ _ => rfl, fun h => absurd rfl h⟩
  · have hslots := (sameTable_setProc (s := s) (i := s.currentIdx) (f := f) (by rw [hst])
      (hpid _)).slots
    have hf : ∀ i, ((setProc s s.currentIdx f).procs i).esp = (s.procs i).esp := fun i => by
      rw [setProc_apply]
      split
      · next hi => rw [hesp, hi]
      · rfl
    rcases h with h | h
    · rw [h]
      exact ⟨hslots, fun h => absurd rfl h, fun i _ => hf i, fun h => absurd rfl h⟩
    · rw [h]
      have hm := moves_yield (setProc s s.currentIdx f) now sp
      exact ⟨hm.slots.trans hslots, fun h => hslots ▸ hm.dest h,
        fun i hi => (hm.esp i hi).trans (hf i), fun h => (hm.cpu h).trans (hf _)⟩

end Moves

section Made

variable (sym : Symbols) (s : Sched) (name : List UInt8) (priority : Nat)

structure Unmade (s s' : Sched) : Prop where
  slots : alive s' = alive s
  current : s'.currentIdx = s.currentIdx
  esp : ∀ i, (s'.procs i).esp = (s.procs i).esp

theorem unmade_of {s s' : Sched} {i : Slot} (hi : (s.procs i).state = .dead)
    (hn : (s'.procs i).state = .dead) (ho : ∀ j, j ≠ i → s'.procs j = s.procs j)
    (he : (s'.procs i).esp = (s.procs i).esp) (hc : s'.currentIdx = s.currentIdx) :
    Unmade s s' := by
  refine ⟨alive_of_states fun j => ?_, hc, fun j => ?_⟩
  · by_cases hj : j = i
    · rw [hj, hi, hn]
    · rw [ho j hj]
  · by_cases hj : j = i
    · rw [hj, he]
    · rw [ho j hj]

theorem made_of {s s' : Sched} {i : Slot} {v1 v2 v3 v4 w1 w2 w3 w4 : Nat} (stack : Nat)
    (hi : (s.procs i).state = .dead) (hn : (s'.procs i).state ≠ .dead)
    (ho : ∀ j, j ≠ i → s'.procs j = s.procs j) (hc : s'.currentIdx = s.currentIdx)
    (hb : (s'.procs i).stackBase = stack)
    (hf : (s'.stackMem, (s'.procs i).esp) = push s.stackMem (u32 (stack + procStackSize))
      [v1, v2, v3, v4, sym.procEntry, w1, w2, w3, w4]) : Made sym s s' i := by
  obtain ⟨hp, he⟩ := push_frame (m := s.stackMem) stack v1 v2 v3 v4 sym.procEntry w1 w2 w3 w4
  rw [← hf] at hp he
  refine ⟨?_, hc, fun j hj => by rw [ho j hj], by rw [hb]; exact hp, he⟩
  ext j
  rw [Finset.mem_insert, mem_alive, mem_alive]
  by_cases hj : j = i
  · subst hj
    simp [hn]
  · rw [ho j hj]
    simp [hj]

theorem processCreate_made (func arg stack : Nat) :
    (∃ s', processCreate sym s func arg name priority stack = (none, s') ∧ Unmade s s') ∨
      ∃ i s', processCreate sym s func arg name priority stack = (some i, s') ∧
        allocProc s = some i ∧ stack ≠ 0 ∧ Made sym s s' i := by
  unfold processCreate
  cases ha : allocProc s with
  | none => exact .inl ⟨s, rfl, rfl, rfl, fun _ => rfl⟩
  | some i =>
    have hi := allocProc_dead ha
    simp only
    split
    · refine .inl ⟨_, rfl, unmade_of hi (by simp [setState]) (fun j hj => ?_) (by simp [setState])
        rfl⟩
      rw [setProc_of_ne hj, setProc_of_ne hj]
    · next hk =>
      refine .inr ⟨i, _, rfl, rfl, hk, made_of sym stack hi (by simp) (fun j hj => ?_) rfl
        (by simp) (by simp [counted]; rfl)⟩
      rw [counted_procs, setProc_of_ne hj, setProc_of_ne hj]

theorem processCreateUser_made (entry kstack : Nat) (mapped : Bool) :
    (∃ s', processCreateUser sym s entry name priority kstack mapped = (none, s') ∧ Unmade s s') ∨
      ∃ i s', processCreateUser sym s entry name priority kstack mapped = (some i, s') ∧
        allocProc s = some i ∧ kstack ≠ 0 ∧ mapped = true ∧ Made sym s s' i := by
  unfold processCreateUser
  cases ha : allocProc s with
  | none => exact .inl ⟨s, rfl, rfl, rfl, fun _ => rfl⟩
  | some i =>
    have hi := allocProc_dead ha
    simp only
    split
    · refine .inl ⟨_, rfl, unmade_of hi (by simp [setState]) (fun j hj => ?_) (by simp [setState])
        rfl⟩
      rw [setProc_of_ne hj, setProc_of_ne hj]
    · next hk =>
      cases mapped with
      | false =>
        simp only [Bool.not_false, if_true]
        refine .inl ⟨_, rfl, unmade_of hi (by simp [setState]) (fun j hj => ?_)
          (by simp [setState]) rfl⟩
        rw [setProc_of_ne hj, setProc_of_ne hj, setProc_of_ne hj]
      | true =>
        simp only [Bool.not_true, Bool.false_eq_true, if_false]
        refine .inr ⟨i, _, rfl, rfl, hk, trivial, made_of sym kstack hi (by simp)
          (fun j hj => ?_) rfl (by simp) (by simp [counted]; rfl)⟩
        rw [counted_procs, setProc_of_ne hj, setProc_of_ne hj, setProc_of_ne hj]

end Made

section Steps

variable {sym : Symbols} {s s' : Sched} {g : Ghost}

theorem isOver_false {p : Option Nat} : isOver g p = false ↔ ∀ n, p = some n → n ∉ g.gone := by
  cases p with
  | none => simp [isOver]
  | some n => simp [isOver]

theorem Occupied.same (h : Occupied sym s g) (hc : s'.currentIdx = s.currentIdx)
    (ha : alive s' ⊆ alive s) (he : ∀ i, i ≠ s.currentIdx → (s'.procs i).esp = (s.procs i).esp) :
    Occupied sym s' g where
  running := by rw [hc, h.running]
  saved i hi := h.saved i (hc ▸ hi)
  living i hi := h.living i (ha hi)
  own := h.own
  bound := h.bound
  ended := h.ended
  entered := h.entered
  frame i hi n hn he' := by rw [he i (hc ▸ hi), h.frame i (hc ▸ hi) n hn he']
  current n hn := h.current n (hc ▸ hn)
  resumed := h.resumed
  given := h.given

theorem Occupied.finish (h : Occupied sym s g) {i : Slot} (hc : s'.currentIdx = s.currentIdx)
    (ha : alive s' ⊆ (alive s).erase i)
    (he : ∀ j, j ≠ s.currentIdx → (s'.procs j).esp = (s.procs j).esp) :
    Occupied sym s' (g.finish (g.occupant i)) := by
  have hs := h.same hc (ha.trans (Finset.erase_subset ..)) he
  refine { hs with living := fun j hj => ?_, ended := fun n hn => ?_ }
  · obtain ⟨hne, hj⟩ := Finset.mem_erase.mp (ha hj)
    refine isOver_false.mpr fun n hn hm => ?_
    rcases List.mem_append.mp hm with hm | hm
    · exact hne (h.own j i n hn (Option.mem_toList.mp hm))
    · exact isOver_false.mp (h.living j hj) n hn hm
  · rcases List.mem_append.mp hn with hm | hm
    · exact h.bound i n (Option.mem_toList.mp hm)
    · exact h.ended n hm

theorem grant_occupant_self (i : Slot) : (g.grant s' i).occupant i = some g.born :=
  Function.update_self ..

theorem grant_occupant_of_ne {i j : Slot} (h : j ≠ i) :
    (g.grant s' i).occupant j = g.occupant j := Function.update_of_ne h ..

theorem Occupied.grant (h : Occupied sym s g) {i : Slot} (hi : i ≠ s.currentIdx)
    (hm : Made sym s s' i) : Occupied sym s' (g.grant s' i) where
  running := by
    rw [hm.current, grant_occupant_of_ne hi.symm]
    exact h.running
  saved j hj := by
    rw [hm.current] at hj
    by_cases hji : j = i
    · subst hji
      simp [Ghost.grant]
    · simpa [Ghost.grant, hji] using h.saved j hj
  living j hj := by
    refine isOver_false.mpr fun n hn hover => ?_
    rw [hm.slots, Finset.mem_insert] at hj
    by_cases hji : j = i
    · rw [hji, grant_occupant_self] at hn
      cases hn
      exact absurd (h.ended _ hover) (Nat.lt_irrefl _)
    · rw [grant_occupant_of_ne hji] at hn
      exact isOver_false.mp (h.living j (hj.resolve_left hji)) n hn hover
  own j k n hj hk := by
    by_cases hji : j = i
    · by_cases hki : k = i
      · rw [hji, hki]
      · rw [hji, grant_occupant_self] at hj
        rw [grant_occupant_of_ne hki] at hk
        cases hj
        exact absurd (h.bound k _ hk) (Nat.lt_irrefl _)
    · rw [grant_occupant_of_ne hji] at hj
      by_cases hki : k = i
      · rw [hki, grant_occupant_self] at hk
        cases hk
        exact absurd (h.bound j _ hj) (Nat.lt_irrefl _)
      · rw [grant_occupant_of_ne hki] at hk
        exact h.own j k n hj hk
  bound j n hj := by
    by_cases hji : j = i
    · rw [hji, grant_occupant_self] at hj
      cases hj
      exact Nat.lt_succ_self _
    · rw [grant_occupant_of_ne hji] at hj
      exact Nat.lt_succ_of_lt (h.bound j n hj)
  ended n hn := Nat.lt_succ_of_lt (h.ended n hn)
  entered n hn := Nat.lt_succ_of_lt (h.entered n hn)
  frame j hj n hn he := by
    rw [hm.current] at hj
    by_cases hji : j = i
    · rw [hji, grant_occupant_self] at hn
      cases hn
      rw [hji]
      exact (Function.update_self (f := g.frame) g.born _).symm
    · rw [grant_occupant_of_ne hji] at hn
      rw [hm.esp j hji, h.frame j hj n hn he]
      exact (Function.update_of_ne (h.bound j n hn).ne _ g.frame).symm
  current n hn := by
    rw [hm.current, grant_occupant_of_ne hi.symm] at hn
    exact h.current n hn
  resumed := h.resumed
  given v hv := by
    rcases List.mem_cons.mp hv with rfl | hv
    · refine ⟨?_, hm.frame, hm.entry⟩
      cases ho : g.occupant i with
      | none => exact .inl rfl
      | some n =>
        refine .inr fun he => hi ?_
        rw [h.running] at he
        exact h.own i s.currentIdx n ho he.symm
    · exact h.given v hv

theorem moved_of_eq (h : s'.currentIdx = s.currentIdx) : g.moved s s' = g := if_pos h

theorem Occupied.moved (h : Occupied sym s g) (hm : Moves s s') :
    Occupied sym s' (g.moved s s') := by
  by_cases hc : s'.currentIdx = s.currentIdx
  · rw [moved_of_eq hc]
    exact h.same hc hm.slots.subset hm.esp
  · have hd := hm.dest hc
    have hctx : g.saved s'.currentIdx = g.occupant s'.currentIdx := h.saved _ hc
    rw [Ghost.moved, if_neg hc]
    simp only [Function.update_of_ne hc, hctx]
    exact {
      running := rfl
      saved := fun i hi => by
        by_cases hic : i = s.currentIdx
        · subst hic
          exact (Function.update_self ..).trans h.running
        · exact (Function.update_of_ne hic ..).trans (h.saved i hic)
      living := fun i hi => h.living i (hm.slots ▸ hi)
      own := h.own
      bound := h.bound
      ended := h.ended
      entered := fun n hn => by
        rcases List.mem_append.mp hn with hn | hn
        · exact h.bound _ n (Option.mem_toList.mp hn)
        · exact h.entered n hn
      frame := fun i hi n hn he => by
        have hne : n ∉ g.entered := fun hmem => he (List.mem_append_right _ hmem)
        by_cases hic : i = s.currentIdx
        · subst hic
          exact absurd (h.current n hn) hne
        · rw [hm.esp i hic, h.frame i hic n hn hne]
      current := fun n hn => List.mem_append_left _ (Option.mem_toList.mpr hn)
      resumed := fun r hr => by
        rcases List.mem_cons.mp hr with rfl | hr
        · refine ⟨h.living _ hd, rfl, fun f hf => ?_⟩
          obtain ⟨n, hn, rfl⟩ := Option.map_eq_some_iff.mp hf
          obtain ⟨hn, hne⟩ := Option.filter_eq_some_iff.mp hn
          rw [hm.cpu hc, h.frame _ hc n hn (by simpa using hne)]
        · exact h.resumed r hr
      given := h.given }

theorem setDead_erase (i : Slot) :
    alive (setProc s i (setState .dead)) ⊆ (alive s).erase i := (died_setProc s i).slots.subset

theorem setProc_esp {i : Slot} {f : Process → Process} (h : ∀ p, (f p).esp = p.esp) (j : Slot) :
    ((setProc s i f).procs j).esp = (s.procs j).esp := by
  rw [setProc_apply]
  split
  · next hj => rw [h, hj]
  · rfl

theorem Occupied.exec (h : Occupied sym s g) (a : Act) (hk : deathKept (s, g) a) :
    Occupied sym (exec sym s a) (g.follow sym s a) := by
  cases a with
  | create func arg name priority stack =>
    rw [Scheduler.exec, Ghost.follow]
    rcases processCreate_made sym s name priority func arg stack with
      ⟨s', he, hu⟩ | ⟨i, s', he, ha, hs, hm⟩
    · rw [he]
      exact h.same hu.current hu.slots.subset fun i _ => hu.esp i
    · rw [he]
      refine h.grant (fun hi => ?_) hm
      exact (hk.resolve_left hs) (hi ▸ ha)
  | createUser entry name priority kstack mapped =>
    rw [Scheduler.exec, Ghost.follow]
    rcases processCreateUser_made sym s name priority entry kstack mapped with
      ⟨s', he, hu⟩ | ⟨i, s', he, ha, hs, hmap, hm⟩
    · rw [he]
      exact h.same hu.current hu.slots.subset fun i _ => hu.esp i
    · rw [he]
      refine h.grant (fun hi => ?_) hm
      rcases hk with hk | hk | hk
      · exact hs hk
      · rw [hmap] at hk
        cases hk
      · exact hk (hi ▸ ha)
  | exit now sp =>
    have hf : Occupied sym { setProc s s.currentIdx (setState .dead) with
        procCount := s.procCount - 1 } (g.finish g.running) := by
      rw [h.running]
      exact h.finish rfl (setDead_erase s.currentIdx) fun j _ => setProc_esp (by exact fun _ => rfl) j
    exact hf.moved (moves_yield _ now sp)
  | sleep ms frequency now sp =>
    have hf : Occupied sym (setProc s s.currentIdx fun p => { p with
        state := .sleep, sleepUntil := u32 (now + u32 (ms * frequency) / 1000) }) g := by
      refine h.same rfl ?_ fun j _ => setProc_esp (by exact fun _ => rfl) j
      intro j hj
      rw [mem_alive, setProc_apply] at hj
      split at hj
      · next he => exact he ▸ hk
      · exact mem_alive.mpr hj
    exact hf.moved (moves_yield _ now sp)
  | block p =>
    cases p with
    | none => exact h
    | some i =>
      refine h.same rfl ?_ fun j _ => setProc_esp (by exact fun _ => rfl) j
      intro j hj
      rw [mem_alive, Scheduler.exec, processBlock, setProc_apply] at hj
      split at hj
      · next he => exact he ▸ hk
      · exact mem_alive.mpr hj
  | unblock p =>
    cases p with
    | none => exact h
    | some i =>
      rw [Scheduler.exec, processUnblock, Ghost.follow]
      split
      · next hb =>
        refine h.same rfl ?_ fun j _ => setProc_esp (by exact fun _ => rfl) j
        exact (sameTable_setProc (by simp [setState, hb]) rfl).slots.subset
      · exact h
  | kill pid =>
    rw [Scheduler.exec, Ghost.follow, cmdKill]
    split
    · exact h
    · split
      · next i _ => exact h.finish rfl (setDead_erase i) fun j _ => setProc_esp (by exact fun _ => rfl) j
      · exact h
  | yield now sp => exact h.moved (moves_yield s now sp)
  | tick now sp => exact h.moved (moves_tick s now sp)

end Steps

section Runs

variable {sym : Symbols}

theorem boot_occupant {i : Slot} {n : Nat} (h : Ghost.boot.occupant i = some n) :
    i = 0 ∧ n = 0 := by
  by_cases hi : i = 0
  · subst hi
    cases h
    exact ⟨rfl, rfl⟩
  · simp [Ghost.boot, hi] at h

theorem occupied_boot (s0 : Sched) : Occupied sym (schedulerInit s0) Ghost.boot := by
  refine ⟨rfl, fun i hi => ?_, fun i hi => ?_, fun i j n hi hj => ?_, fun i n hi => ?_,
    fun n hn => (List.not_mem_nil hn).elim, fun n hn => ?_, fun i hi n hn => ?_, fun n hn => ?_,
    fun r hr => (List.not_mem_nil hr).elim, fun v hv => (List.not_mem_nil hv).elim⟩
  · exact (Function.update_of_ne hi ..).symm
  · exact isOver_false.mpr fun n _ hn => List.not_mem_nil hn
  · rw [(boot_occupant hi).1, (boot_occupant hj).1]
  · rw [(boot_occupant hi).2]
    exact Nat.zero_lt_one
  · rw [List.mem_singleton.mp hn]
    exact Nat.zero_lt_one
  · exact absurd (boot_occupant hn).1 hi
  · rw [(boot_occupant hn).2]
    exact List.mem_singleton_self 0

def occupiedInvariant (sym : Symbols) : ((tracked sym).restrict deathKept).Invariant where
  holds t := Occupied sym t.1 t.2
  start := by
    rintro ⟨s, g⟩ ⟨⟨s0, rfl⟩, rfl⟩
    exact occupied_boot s0
  step := by
    rintro t a t' h ⟨hk, rfl⟩
    exact h.exec a hk

theorem dead_never_resumed (sym : Symbols) :
    ∀ t, ((tracked sym).restrict deathKept).Reach t →
      (∀ r ∈ t.2.resumed, r.Right) ∧ ∀ v ∈ t.2.given, v.Right sym := by
  intro t ht
  have h := (occupiedInvariant sym).reach ht
  exact ⟨h.resumed, h.given⟩

def follow (t : Sched × Ghost) (acts : List Act) : Sched × Ghost :=
  acts.foldl (fun t a => (exec ⟨0, 4096⟩ t.1 a, t.2.follow ⟨0, 4096⟩ t.1 a)) t

def bootTracked : Sched × Ghost := (schedulerInit blankSched, Ghost.boot)

-- A process is spawned, runs, is killed by another one and never comes back.
theorem dead_never_resumed_killed :
    let t := follow bootTracked
      [.create 64 0 [] 5 0x800014, .yield 3 0x80a000, .tick 4 0x801f00, .kill 1, .yield 5 0x80a000]
    (∀ r ∈ t.2.resumed, r.Right) ∧ ∀ v ∈ t.2.given, v.Right ⟨0, 4096⟩ := by
  intro t
  have ht : ((tracked ⟨0, 4096⟩).restrict deathKept).Reach t :=
    .next (a := .yield 5 0x80a000) (.next (a := .kill 1) (.next (a := .tick 4 0x801f00)
      (.next (a := .yield 3 0x80a000) (.next (a := .create 64 0 [] 5 0x800014)
        (.start ⟨⟨blankSched, rfl⟩, rfl⟩) ⟨Or.inr (by decide), rfl⟩) ⟨trivial, rfl⟩)
      ⟨trivial, rfl⟩) ⟨trivial, rfl⟩) ⟨trivial, rfl⟩
  exact dead_never_resumed ⟨0, 4096⟩ t ht

-- The process on the CPU is killed and its slot is given away before the CPU leaves it: the new
-- process is left with the dead one's registers. A killed process that is blocked and unblocked
-- runs again as well.
theorem dead_never_resumed_fails :
    let spawned := [Act.create 64 0 [] 5 0x800014, .yield 3 0x80a000, .kill 1]
    let reused := follow bootTracked (spawned ++ [.create 128 0 [] 5 0x804014])
    let wrong := follow reused [.yield 4 0x801f00, .yield 5 0x80a000]
    let woken := follow bootTracked (spawned ++
      [.yield 4 0x801f00, .block (some 1), .unblock (some 1), .yield 5 0x80a000])
    (¬ ∀ v ∈ reused.2.given, v.Right ⟨0, 4096⟩) ∧ (¬ ∀ r ∈ wrong.2.resumed, r.Right) ∧
      ¬ ∀ r ∈ woken.2.resumed, r.Right := by
  refine ⟨by decide, by decide, by decide⟩

end Runs

end Scheduler
