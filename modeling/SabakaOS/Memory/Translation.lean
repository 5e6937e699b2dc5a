import SabakaOS.Memory.Paging

namespace Paging

open Word Loop

def Present (p : Tables) (d : Nat) : Prop := p.pageDirectory d &&& pagePresent ≠ 0

instance (p : Tables) (d : Nat) : Decidable (Present p d) := inferInstanceAs (Decidable (_ ≠ _))

def tableOf (p : Tables) (d : Nat) : Nat := p.pageDirectory d &&& frameMask

-- The frame the MMU finds for a page number.
def walk (p : Tables) (page : Nat) : Option Nat :=
  if Present p (page / 1024) then
    let pte := p.mem (tableOf p (page / 1024) + 4 * (page % 1024))
    if pte &&& pagePresent = 0 then none else some (pte &&& frameMask)
  else none

theorem pagingGetPhysaddr_eq (p : Tables) (virt : Nat) :
    pagingGetPhysaddr p virt = match walk p (virt / 4096) with
      | some frame => frame + (virt &&& 0xFFF)
      | none => 0 := by
  unfold pagingGetPhysaddr walk Present tableOf
  rw [pdIdx_eq, ptIdx_eq]
  by_cases hp : p.pageDirectory (virt / 4096 / 1024) &&& pagePresent = 0
  · simp [hp]
  · simp only [hp, if_false, ne_eq, not_false_eq_true, if_true]
    split <;> rfl

-- No two directory slots share a table.
structure Wired (p : Tables) : Prop where
  aligned : ∀ d < 1024, Present p d → ∃ a, tableOf p d = 4096 * a
  apart : ∀ d < 1024, ∀ d' < 1024, Present p d → Present p d' → tableOf p d = tableOf p d' → d = d'

structure Fresh (p : Tables) (frame : Nat) : Prop where
  aligned : 4096 ∣ frame
  bound : frame < 4294967296
  unused : ∀ d < 1024, Present p d → tableOf p d ≠ frame

section Walk

variable {p : Tables} {d frame page : Nat}

theorem slot_ne (h : Wired p) {d d' i j : Nat} (hd : d < 1024) (hd' : d' < 1024)
    (hp : Present p d) (hp' : Present p d') (hi : i < 1024) (hj : j < 1024)
    (he : tableOf p d + 4 * i = tableOf p d' + 4 * j) : d = d' ∧ i = j := by
  obtain ⟨a, ha⟩ := h.aligned d hd hp
  obtain ⟨b, hb⟩ := h.aligned d' hd' hp'
  have hab : tableOf p d = tableOf p d' := by omega
  exact ⟨h.apart d hd d' hd' hp hp' hab, by omega⟩

def setPte (p : Tables) (page v : Nat) : Tables :=
  { p with mem := Function.update p.mem (tableOf p (page / 1024) + 4 * (page % 1024)) v }

theorem walk_setPte (h : Wired p) (hpage : page < 1048576) (hp : Present p (page / 1024))
    (v : Nat) {q : Nat} (hq : q < 1048576) :
    walk (setPte p page v) q =
      if q = page then (if v &&& pagePresent = 0 then none else some (v &&& frameMask))
      else walk p q := by
  have hpd : ∀ d, Present (setPte p page v) d ↔ Present p d := fun _ => Iff.rfl
  have htab : ∀ d, tableOf (setPte p page v) d = tableOf p d := fun _ => rfl
  have hmem : (setPte p page v).mem =
      Function.update p.mem (tableOf p (page / 1024) + 4 * (page % 1024)) v := rfl
  unfold walk
  simp only [hpd, htab, hmem]
  by_cases hqp : q = page
  · subst hqp
    rw [if_pos hp, if_pos rfl, Function.update_self]
  · rw [if_neg hqp]
    by_cases hpq : Present p (q / 1024)
    · have hne : tableOf p (q / 1024) + 4 * (q % 1024) ≠
          tableOf p (page / 1024) + 4 * (page % 1024) := by
        intro he
        have := slot_ne h (by omega) (by omega) hpq hp (by omega) (by omega) he
        omega
      rw [if_pos hpq, if_pos hpq, Function.update_of_ne hne]
    · rw [if_neg hpq, if_neg hpq]

theorem Wired.setPte (h : Wired p) (page v : Nat) : Wired (setPte p page v) := ⟨h.aligned, h.apart⟩

theorem walk_create (h : Wired p) (hp : ¬ Present p d) (hf : Fresh p frame) :
    let c := getOrCreatePt p d frame
    c.1 = frame ∧ tableOf c.2 d = frame ∧ Present c.2 d ∧ Wired c.2 ∧
      ∀ q < 1048576, walk c.2 q = walk p q := by
  have hz : p.pageDirectory d &&& pagePresent = 0 := not_not.mp hp
  obtain ⟨a, ha⟩ := hf.aligned
  have hbound := hf.bound
  have hval : (frame ||| pagePresent ||| pageWrite ||| pageUser) &&& frameMask = frame := by
    rw [Nat.or_assoc, Nat.or_assoc]
    exact frame_or a ha (by omega) (by decide)
  have hpres : (frame ||| pagePresent ||| pageWrite ||| pageUser) &&& pagePresent ≠ 0 := by
    rw [Nat.or_assoc]
    exact or_present frame _
  intro c
  have hc : c = getOrCreatePt p d frame := rfl
  rw [getOrCreatePt, if_pos hz] at hc
  have hpd : c.2.pageDirectory = Function.update p.pageDirectory d
      (frame ||| pagePresent ||| pageWrite ||| pageUser) := by rw [hc]
  have hmem : c.2.mem = upto 1024 (fun i m => Function.update m (frame + 4 * i) 0) p.mem := by
    rw [hc]
  have hother : ∀ e, e ≠ d → c.2.pageDirectory e = p.pageDirectory e := fun e he => by
    rw [hpd, Function.update_of_ne he]
  have hself : c.2.pageDirectory d = frame ||| pagePresent ||| pageWrite ||| pageUser := by
    rw [hpd, Function.update_self]
  have htab : tableOf c.2 d = frame := by rw [tableOf, hself, hval]
  have htabo : ∀ e, e ≠ d → tableOf c.2 e = tableOf p e := fun e he => by
    rw [tableOf, tableOf, hother e he]
  have hpo : ∀ e, e ≠ d → (Present c.2 e ↔ Present p e) := fun e he => by
    rw [Present, Present, hother e he]
  refine ⟨?_, htab, by rw [Present, hself]; exact hpres, ⟨fun e he hep => ?_,
    fun e he e' he' hep hep' heq => ?_⟩, fun q hq => ?_⟩
  · rw [hc]
    simp [hval]
  · by_cases hed : e = d
    · exact ⟨a, by rw [hed, htab, ha]⟩
    · rw [htabo e hed]
      exact h.aligned e he ((hpo e hed).mp hep)
  · by_cases hed : e = d
    · by_cases hed' : e' = d
      · rw [hed, hed']
      · rw [hed, htab, htabo e' hed'] at heq
        exact absurd heq.symm (hf.unused e' he' ((hpo e' hed').mp hep'))
    · by_cases hed' : e' = d
      · rw [hed', htab, htabo e hed] at heq
        exact absurd heq (hf.unused e he ((hpo e hed).mp hep))
      · rw [htabo e hed, htabo e' hed'] at heq
        exact h.apart e he e' he' ((hpo e hed).mp hep) ((hpo e' hed').mp hep') heq
  · unfold walk
    by_cases hqd : q / 1024 = d
    · have hzero : c.2.mem (frame + 4 * (q % 1024)) = 0 := by
        rw [hmem]
        exact upto_update_self (f := fun _ => 0) (fun i _ j _ he => by omega)
          (Nat.mod_lt q (by decide))
      rw [hqd, if_neg hp, if_pos (by rw [Present, hself]; exact hpres), htab, hzero]
      simp
    · simp only [hpo _ hqd, htabo _ hqd]
      by_cases hpq : Present p (q / 1024)
      · obtain ⟨b, hb⟩ := h.aligned _ (by omega) hpq
        have hkeep : c.2.mem (tableOf p (q / 1024) + 4 * (q % 1024)) =
            p.mem (tableOf p (q / 1024) + 4 * (q % 1024)) := by
          rw [hmem]
          refine upto_update_other fun i hi he => ?_
          exact hf.unused _ (by omega) hpq (by omega)
        rw [if_pos hpq, if_pos hpq, hkeep]
      · rw [if_neg hpq, if_neg hpq]

theorem getOrCreatePt_fst (p : Tables) (d frame : Nat) :
    (getOrCreatePt p d frame).1 = tableOf (getOrCreatePt p d frame).2 d := by
  unfold getOrCreatePt
  split <;> rfl

theorem pagingMap_eq (p : Tables) (virt phys flags frame : Nat) :
    pagingMap p virt phys flags frame =
      setPte (getOrCreatePt p (pdIdx virt) frame).2 (virt / 4096) (entry phys flags) := by
  rw [pagingMap, setPte, ← pdIdx_eq, ← ptIdx_eq, getOrCreatePt_fst]

theorem walk_map (h : Wired p) {virt : Nat} (hv : virt < 4294967296)
    (hf : ¬ Present p (pdIdx virt) → Fresh p frame) (phys flags : Nat) :
    Wired (pagingMap p virt phys flags frame) ∧
      ∀ q < 1048576, walk (pagingMap p virt phys flags frame) q =
        if q = virt / 4096 then some (phys &&& frameMask) else walk p q := by
  have hpte : ∀ {r : Tables}, Wired r → Present r (pdIdx virt) → ∀ q < 1048576,
      walk (setPte r (virt / 4096) (entry phys flags)) q =
        if q = virt / 4096 then some (phys &&& frameMask) else walk r q := by
    intro r hr hrp q hq
    rw [pdIdx_eq] at hrp
    rw [walk_setPte hr (by omega) hrp _ hq, if_neg (entry_present phys flags), entry_frame]
  rw [pagingMap_eq]
  by_cases hp : Present p (pdIdx virt)
  · have hr : (getOrCreatePt p (pdIdx virt) frame).2 = p := by
      rw [getOrCreatePt, if_neg hp]
    rw [hr]
    exact ⟨h.setPte _ _, hpte h hp⟩
  · obtain ⟨-, -, hpres, hw, hsame⟩ := walk_create h hp (hf hp)
    refine ⟨hw.setPte _ _, fun q hq => ?_⟩
    rw [hpte hw hpres q hq, hsame q hq]

theorem pagingUnmap_eq {virt : Nat} (hp : Present p (pdIdx virt)) :
    pagingUnmap p virt = setPte p (virt / 4096) 0 := by
  rw [pagingUnmap, if_neg hp, setPte, ← pdIdx_eq, ← ptIdx_eq]
  rfl

theorem walk_unmap (h : Wired p) {virt : Nat} (hv : virt < 4294967296) :
    Wired (pagingUnmap p virt) ∧ ∀ q < 1048576, walk (pagingUnmap p virt) q =
      if q = virt / 4096 then none else walk p q := by
  by_cases hp : Present p (pdIdx virt)
  · rw [pagingUnmap_eq hp]
    refine ⟨h.setPte _ _, fun q hq => ?_⟩
    rw [walk_setPte h (by omega) (by rw [← pdIdx_eq]; exact hp) 0 hq, Nat.zero_and, if_pos rfl]
  · have he : pagingUnmap p virt = p := if_pos (not_not.mp hp)
    rw [he]
    refine ⟨h, fun q hq => ?_⟩
    by_cases hqv : q = virt / 4096
    · rw [if_pos hqv, walk, if_neg]
      rwa [hqv, ← pdIdx_eq]
    · rw [if_neg hqv]

end Walk

section Boot

structure Symbols.Placed (sym : Symbols) : Prop where
  low : 4096 ∣ sym.pageTableLow
  high : 4096 ∣ sym.pageTableHighKernel
  apart : sym.pageTableLow ≠ sym.pageTableHighKernel
  bound : sym.pageTableLow < 4294967296 ∧ sym.pageTableHighKernel < 4294967296

variable {sym : Symbols}

theorem pagingInit_directory (p : Tables) {d : Nat} (hd : d < 1024) :
    (pagingInit sym p).pageDirectory d =
      if d = 0 then sym.pageTableLow ||| pagePresent ||| pageWrite
      else if d = 1 then sym.pageTableHighKernel ||| pagePresent ||| pageWrite else 0 := by
  simp only [pagingInit, Function.update_apply]
  by_cases h0 : d = 0
  · simp [h0]
  · by_cases h1 : d = 1
    · simp [h1]
    · rw [if_neg h1, if_neg h0, if_neg h0, if_neg h1]
      exact upto_update_self (f := fun _ => 0) (fun i _ j _ he => he) hd

theorem pagingInit_present (p : Tables) {d : Nat} (hd : d < 1024) :
    Present (pagingInit sym p) d ↔ d = 0 ∨ d = 1 := by
  rw [Present, pagingInit_directory p hd]
  by_cases h0 : d = 0
  · rw [if_pos h0]
    exact iff_of_true (or_present _ _) (.inl h0)
  · by_cases h1 : d = 1
    · rw [if_neg h0, if_pos h1]
      exact iff_of_true (or_present _ _) (.inr h1)
    · simp [h0, h1]

theorem pagingInit_tableOf (hs : sym.Placed) (p : Tables) :
    tableOf (pagingInit sym p) 0 = sym.pageTableLow ∧
      tableOf (pagingInit sym p) 1 = sym.pageTableHighKernel := by
  obtain ⟨a, ha⟩ := hs.low
  obtain ⟨b, hb⟩ := hs.high
  obtain ⟨hl, hh⟩ := hs.bound
  rw [tableOf, tableOf, pagingInit_directory p (by decide), pagingInit_directory p (by decide),
    if_pos rfl, if_neg (by decide), if_pos rfl, Nat.or_assoc, Nat.or_assoc]
  exact ⟨frame_or a ha (by omega) (by decide), frame_or b hb (by omega) (by decide)⟩

theorem pagingInit_low (hs : sym.Placed) (p : Tables) {i : Nat} (hi : i < 1024) :
    (pagingInit sym p).mem (sym.pageTableLow + 4 * i) =
      (i * 4096 ||| pagePresent ||| pageWrite) := by
  obtain ⟨a, ha⟩ := hs.low
  obtain ⟨b, hb⟩ := hs.high
  have hapart := hs.apart
  refine (upto_update_other fun j hj he => hapart (by omega)).trans ?_
  exact @upto_update_self _ _ _ 1024 (fun i => sym.pageTableLow + 4 * i)
    (fun i => i * 4096 ||| pagePresent ||| pageWrite) p.mem (fun i _ j _ he => by omega) i hi

theorem pagingInit_high (p : Tables) {i : Nat} (hi : i < 1024) :
    (pagingInit sym p).mem (sym.pageTableHighKernel + 4 * i) =
      ((0x400000 + i * 4096) ||| pagePresent ||| pageWrite) :=
  @upto_update_self _ _ _ 1024 (fun i => sym.pageTableHighKernel + 4 * i)
    (fun i => (0x400000 + i * 4096) ||| pagePresent ||| pageWrite) _
    (fun i _ j _ he => by omega) i hi

theorem pagingInit_wired (hs : sym.Placed) (p : Tables) : Wired (pagingInit sym p) := by
  obtain ⟨a, ha⟩ := hs.low
  obtain ⟨b, hb⟩ := hs.high
  obtain ⟨ht0, ht1⟩ := pagingInit_tableOf hs p
  refine ⟨fun d hd hp => ?_, fun d hd e he hp hp' heq => ?_⟩
  · rcases (pagingInit_present p hd).mp hp with rfl | rfl
    · exact ⟨a, ht0.trans ha⟩
    · exact ⟨b, ht1.trans hb⟩
  · rcases (pagingInit_present p hd).mp hp with rfl | rfl
    · rcases (pagingInit_present p he).mp hp' with rfl | rfl
      · rfl
      · exact absurd (ht0.symm.trans (heq.trans ht1)) hs.apart
    · rcases (pagingInit_present p he).mp hp' with rfl | rfl
      · exact absurd (ht0.symm.trans (heq.symm.trans ht1)) hs.apart
      · rfl

theorem walk_pagingInit (hs : sym.Placed) (p : Tables) {q : Nat} (hq : q < 1048576) :
    walk (pagingInit sym p) q = if q < 2048 then some (q * 4096) else none := by
  obtain ⟨ht0, ht1⟩ := pagingInit_tableOf hs p
  have hframe : ∀ x k, x = 4096 * k → k < 2048 →
      (x ||| pagePresent ||| pageWrite) &&& frameMask = x := by
    intro x k hx hk
    rw [Nat.or_assoc]
    exact frame_or k hx (by omega) (by decide)
  have hpres : ∀ d < 1024, Present (pagingInit sym p) d ↔ d = 0 ∨ d = 1 := fun _ hd =>
    pagingInit_present p hd
  unfold walk
  by_cases h0 : q < 1024
  · rw [show q / 1024 = 0 by omega, show q % 1024 = q by omega,
      if_pos ((hpres 0 (by decide)).mpr (.inl rfl)), ht0, pagingInit_low hs p h0,
      if_neg (or_present _ _), hframe _ q (by omega) (by omega), if_pos (by omega)]
  · by_cases h1 : q < 2048
    · rw [show q / 1024 = 1 by omega, if_pos ((hpres 1 (by decide)).mpr (.inr rfl)), ht1,
        pagingInit_high p (by omega)]
      rw [if_neg (or_present _ _), hframe _ q (by omega) h1, if_pos h1]
      congr 1
      omega
    · rw [if_neg, if_neg h1]
      intro hp
      rcases (hpres _ (by omega)).mp hp with h | h <;> omega

end Boot

inductive Call where
  | map (virt phys flags frame : Nat)
  | unmap (virt : Nat)
  deriving DecidableEq

def Call.page : Call → Nat
  | .map virt _ _ _ => virt / 4096
  | .unmap virt => virt / 4096

def Call.run (p : Tables) : Call → Tables
  | .map virt phys flags frame => pagingMap p virt phys flags frame
  | .unmap virt => pagingUnmap p virt

def Call.target : Call → Option Nat
  | .map _ phys _ _ => some (phys &&& frameMask)
  | .unmap _ => none

def latest (calls : List Call) (page : Nat) : Option Call := calls.find? fun c => c.page = page

def target (calls : List Call) (page : Nat) : Option Nat :=
  match latest calls page with
  | some c => c.target
  | none => if page < 2048 then some (page * 4096) else none

-- What the calls made so far, newest first, say about a virtual address.
def expected (calls : List Call) (virt : Nat) : Nat :=
  match latest calls (virt / 4096) with
  | some (.map _ phys _ _) => (phys &&& frameMask) + (virt &&& 0xFFF)
  | some (.unmap _) => 0
  | none => if virt < 0x800000 then virt else 0

def paging (sym : Symbols) : System (Tables × List Call) Call where
  init x := ∃ p : Tables, x = (pagingInit sym p, [])
  step x c x' := x' = (c.run x.1, c :: x.2)

-- The frame a call gets for a new page table is one that holds no page table yet.
def supplied (x : Tables × List Call) : Call → Prop
  | .map virt _ _ frame => virt < 4294967296 ∧ (¬ Present x.1 (pdIdx virt) → Fresh x.1 frame)
  | .unmap virt => virt < 4294967296

structure Translates (p : Tables) (calls : List Call) : Prop where
  wired : Wired p
  walk_eq : ∀ q < 1048576, walk p q = target calls q

section Runs

variable {sym : Symbols} {p : Tables} {calls : List Call}

theorem target_cons (c : Call) (calls : List Call) (q : Nat) :
    target (c :: calls) q = if q = c.page then c.target else target calls q := by
  by_cases hq : q = c.page
  · rw [if_pos hq, target, latest, List.find?_cons_of_pos (by simp [hq])]
  · rw [if_neg hq, target, latest, List.find?_cons_of_neg (by simpa using Ne.symm hq)]
    rfl

theorem Translates.run (h : Translates p calls) {c : Call} (hc : supplied (p, calls) c) :
    Translates (c.run p) (c :: calls) := by
  cases c with
  | map virt phys flags frame =>
    obtain ⟨hw, hq⟩ := walk_map h.wired hc.1 hc.2 phys flags
    refine ⟨hw, fun q hlt => ?_⟩
    rw [target_cons, Call.run, hq q hlt, h.walk_eq q hlt]
    rfl
  | unmap virt =>
    obtain ⟨hw, hq⟩ := walk_unmap h.wired hc
    refine ⟨hw, fun q hlt => ?_⟩
    rw [target_cons, Call.run, hq q hlt, h.walk_eq q hlt]
    rfl

theorem Translates.physaddr (h : Translates p calls) {virt : Nat} (hv : virt < 4294967296) :
    pagingGetPhysaddr p virt = expected calls virt := by
  rw [pagingGetPhysaddr_eq, h.walk_eq _ (by omega), target, expected]
  rcases latest calls (virt / 4096) with _ | c
  · have hlow : virt &&& 0xFFF = virt % 4096 := Nat.and_two_pow_sub_one_eq_mod _ 12
    simp only
    by_cases hb : virt < 0x800000
    · rw [if_pos (by omega), if_pos hb, hlow]
      simp only
      omega
    · rw [if_neg (by omega), if_neg hb]
  · cases c <;> rfl

def translationInvariant (hs : sym.Placed) : ((paging sym).restrict supplied).Invariant where
  holds x := Translates x.1 x.2
  start := by
    rintro x ⟨p, rfl⟩
    exact ⟨pagingInit_wired hs p, fun q hq => walk_pagingInit hs p hq⟩
  step := by
    rintro x c x' h ⟨hc, rfl⟩
    exact h.run hc

theorem reach_call (h : ((paging sym).restrict supplied).Reach (p, calls)) (c : Call)
    (hc : supplied (p, calls) c) : ((paging sym).restrict supplied).Reach (c.run p, c :: calls) :=
  h.next (a := c) ⟨hc, rfl⟩

theorem fresh_after_init (hs : sym.Placed) (p : Tables) {frame : Nat} (ha : 4096 ∣ frame)
    (hb : frame < 4294967296) (hl : frame ≠ sym.pageTableLow)
    (hh : frame ≠ sym.pageTableHighKernel) : Fresh (pagingInit sym p) frame := by
  obtain ⟨ht0, ht1⟩ := pagingInit_tableOf hs p
  refine ⟨ha, hb, fun d hd hp he => ?_⟩
  rcases (pagingInit_present p hd).mp hp with rfl | rfl
  · exact hl (he.symm.trans ht0)
  · exact hh (he.symm.trans ht1)

end Runs

end Paging
