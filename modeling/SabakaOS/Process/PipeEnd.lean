import SabakaOS.Process.Pipe

namespace Pipes

variable {ι : Type}

-- A blocking read that returned 0.
def Return.zero (r : Return) : Prop := r.blocking = true ∧ r.n = 0

structure EndOfFile (l : List Return) : Prop where
  at_end : ∀ r ∈ l, r.zero → r.atEnd = true
  final : l.Pairwise fun r r' => r.zero → r'.n = 0

def Action.positive : Action ι → Prop
  | .read _ len => 0 < len
  | _ => True

-- Where a pipe_read stands behind its waiting loop.
def Pc.past : Pc → Prop
  | .readCheck _ | .readSection true _ => True
  | _ => False

-- Process p may enter its section: a read that empties the open pipe leaves no other pipe_read
-- behind its waiting loop, and nothing is written once a pipe_read has returned 0.
def Orderly (s : State ι) (p : ι) : Prop :=
  match s.pc p with
  | .readSection _ len =>
    0 < s.pipe.count → avail s len = s.pipe.count → s.pipe.writeClosed = false →
      ∀ q, q ≠ p → ¬(s.pc q).past
  | .writeSection data written =>
    (∃ r ∈ s.returns, r.zero) → chunkOf s data written = []
  | _ => True

def calls [DecidableEq ι] (buf : Nat → UInt8) : System (State ι) (Action ι) :=
  (system buf).restrict fun _ a => a.positive

def orderly [DecidableEq ι] (buf : Nat → UInt8) : System (State ι) (Action ι) :=
  (calls buf).restrict fun s a => ∀ p, a = .access p → Orderly s p

def Pc.lenOk : Pc → Prop
  | .readWait len | .readClosed len | .readCheck len | .readSection true len => 0 < len
  | _ => True

structure Ending (s : State ι) : Prop where
  flows : Flows s
  len_pos : ∀ p, (s.pc p).lenOk
  past : ∀ p, (s.pc p).past → 0 < s.pipe.count ∨ s.pipe.writeClosed = true
  zero : (∃ r ∈ s.returns, r.zero) → s.pipe.writeClosed = true ∧ s.pipe.count = 0
  eof : EndOfFile s.returns

theorem ending_create (buf : Nat → UInt8) : Ending (pipeCreate buf : State ι) where
  flows := flows_create buf
  len_pos _ := trivial
  past _ h := h.elim
  zero := by
    rintro ⟨r, hr, -⟩
    exact absurd hr List.not_mem_nil
  eof := ⟨fun r hr => absurd hr List.not_mem_nil, .nil⟩

section Steps

variable {s s' : State ι} {p : ι} {data : List UInt8} {written len n : Nat} {c : Pc}

theorem Flows.all_read (h : Flows s) (h0 : s.pipe.count = 0) : chunks s.reads = chunks s.writes := by
  have hs := h.stream
  rwa [buffered, h0, Ring.contents_zero, List.append_nil] at hs

theorem Flows.ended (h : Flows s) (h0 : s.pipe.count = 0) (hc : s.pipe.writeClosed = true) :
    ended s = true := by
  simp [Pipes.ended, hc, h.all_read h0]

theorem EndOfFile.snoc {l : List Return} {r : Return} (h : EndOfFile l)
    (hr : r.zero → r.atEnd = true) (hz : (∃ e ∈ l, e.zero) → r.n = 0) :
    EndOfFile (l ++ [r]) where
  at_end e he := by
    rcases List.mem_append.mp he with he | he
    · exact h.at_end e he
    · rw [List.mem_singleton.mp he]
      exact hr
  final := by
    refine List.pairwise_append.mpr ⟨h.final, List.pairwise_singleton _ _, ?_⟩
    intro e he r' hr' hez
    rw [List.mem_singleton.mp hr']
    exact hz ⟨e, he, hez⟩

theorem avail_zero (hl : 0 < len) : avail s len = 0 ↔ s.pipe.count = 0 := by
  rw [avail]
  split <;> omega

theorem Ending.close (h : Ending s) : Ending (pipeCloseWrite s) := by
  rw [pipeCloseWrite]
  split
  · exact ⟨h.flows.same rfl rfl rfl rfl rfl rfl, h.len_pos, fun q _ => Or.inr rfl,
      fun hz => ⟨rfl, (h.zero hz).2⟩, h.eof⟩
  · exact h

variable [DecidableEq ι]

theorem Ending.moved (h : Ending s) (hl : c.lenOk)
    (hp : c.past → 0 < s.pipe.count ∨ s.pipe.writeClosed = true) : Ending (setPc s p c) where
  flows := h.flows.same rfl rfl rfl rfl rfl rfl
  len_pos q := by
    by_cases hq : q = p
    · subst hq
      simpa [setPc] using hl
    · simpa [setPc, hq] using h.len_pos q
  past q hq := by
    by_cases hqp : q = p
    · subst hqp
      exact hp (by simpa [setPc] using hq)
    · exact h.past q (by simpa [setPc, hqp] using hq)
  zero := h.zero
  eof := h.eof

theorem Ending.returned {blocking : Bool} (h : Ending s)
    (hz : blocking = true → n = 0 → s.pipe.writeClosed = true ∧ s.pipe.count = 0)
    (hn : (∃ r ∈ s.returns, r.zero) → n = 0) : Ending (returned s p blocking n) where
  flows := h.flows.returned _ _
  len_pos q := by
    by_cases hq : q = p
    · subst hq
      simp [Pipes.returned, setPc, Pc.lenOk]
    · simpa [Pipes.returned, setPc, hq] using h.len_pos q
  past q hq := by
    by_cases hqp : q = p
    · subst hqp
      simp [Pipes.returned, setPc, Pc.past] at hq
    · exact h.past q (by simpa [Pipes.returned, setPc, hqp] using hq)
  zero := by
    rintro ⟨r, hr, hrz⟩
    rcases List.mem_append.mp hr with hr | hr
    · exact h.zero ⟨r, hr, hrz⟩
    · rw [List.mem_singleton.mp hr] at hrz
      exact hz hrz.1 hrz.2
  eof := h.eof.snoc (fun hr => by
    obtain ⟨hc, h0⟩ := hz hr.1 hr.2
    exact h.flows.ended h0 hc) hn

theorem Ending.fill (h : Ending s) (hp : s.pc p = .writeSection data written)
    (ho : Orderly s p) : Ending (fill s p data written) where
  flows := h.flows.fill
  len_pos q := by
    by_cases hq : q = p
    · subst hq
      simp only [Pipes.fill, setPc, Function.update_self, writeLoop]
      split <;> trivial
    · simpa [Pipes.fill, setPc, hq] using h.len_pos q
  past q hq := by
    by_cases hqp : q = p
    · subst hqp
      simp only [Pipes.fill, setPc, Function.update_self, writeLoop] at hq
      split at hq <;> exact hq.elim
    · refine (h.past q (by simpa [Pipes.fill, setPc, hqp] using hq)).imp_left fun hpos => ?_
      exact Nat.lt_of_lt_of_le hpos (Nat.le_add_right _ _)
  zero hz := by
    rw [Orderly, hp] at ho
    obtain ⟨hc, h0⟩ := h.zero hz
    refine ⟨hc, ?_⟩
    change s.pipe.count + (chunkOf s data written).length = 0
    rw [h0, ho hz]
    rfl
  eof := h.eof

theorem Ending.drained {blocking : Bool} (h : Ending s) (hp : s.pc p = .readSection blocking len)
    (ho : Orderly s p) : Ending (Pipes.returned (drain s p len) p blocking (avail s len)) := by
  have hle : avail s len ≤ s.pipe.count := by
    rw [avail]
    split <;> omega
  have hcount : (drain s p len).pipe.count = s.pipe.count - avail s len := rfl
  have hzero : blocking = true → avail s len = 0 → s.pipe.writeClosed = true ∧ s.pipe.count = 0 := by
    rintro rfl h0
    have hlen := h.len_pos p
    have hpast := h.past p
    rw [hp] at hlen hpast
    have hc := (avail_zero hlen).mp h0
    exact ⟨(hpast trivial).resolve_left (by omega), hc⟩
  constructor
  · exact h.flows.drain.returned _ _
  · intro q
    by_cases hq : q = p
    · subst hq
      simp [Pipes.returned, setPc, Pc.lenOk]
    · simpa [Pipes.returned, setPc, drain, hq] using h.len_pos q
  · intro q hq
    by_cases hqp : q = p
    · subst hqp
      simp [Pipes.returned, setPc, Pc.past] at hq
    have hq' : (s.pc q).past := by simpa [Pipes.returned, setPc, drain, hqp] using hq
    change 0 < s.pipe.count - avail s len ∨ s.pipe.writeClosed = true
    rcases h.past q hq' with hpos | hc
    · rw [Orderly, hp] at ho
      by_cases hall : avail s len = s.pipe.count
      · cases hclosed : s.pipe.writeClosed with
        | true => exact Or.inr rfl
        | false => exact absurd hq' (ho hpos hall hclosed q hqp)
      · exact Or.inl (by omega)
    · exact Or.inr hc
  · rintro ⟨r, hr, hrz⟩
    rcases List.mem_append.mp hr with hr | hr
    · obtain ⟨hc, h0⟩ := h.zero ⟨r, hr, hrz⟩
      exact ⟨hc, Nat.sub_eq_zero_of_le (by omega)⟩
    · rw [List.mem_singleton.mp hr] at hrz
      obtain ⟨hc, h0⟩ := hzero hrz.1 hrz.2
      exact ⟨hc, Nat.sub_eq_zero_of_le (by omega)⟩
  · refine h.eof.snoc (fun hr => ?_) (fun hz => ?_)
    · obtain ⟨hc, h0⟩ := hzero hr.1 hr.2
      exact h.flows.drain.ended (by rw [hcount]; omega) hc
    · have h0 := (h.zero hz).2
      change avail s len = 0
      omega

theorem Ending.access (h : Ending s) (ho : Orderly s p) : Ending (access s p) := by
  have hlen := h.len_pos p
  have hpast := h.past p
  rw [Pipes.access]
  cases hp : s.pc p with
  | idle => exact h
  | wrote data written => exact h
  | writeSection data written => exact h.fill hp ho
  | writeTest data written =>
    dsimp only
    split
    · exact h
    · exact h.moved trivial fun hc => hc.elim
  | readWait len =>
    rw [hp] at hlen
    dsimp only
    split
    · exact h.moved hlen fun hc => hc.elim
    · exact h.moved hlen fun _ => Or.inl (by omega)
  | readClosed len =>
    rw [hp] at hlen
    dsimp only
    split
    · rename_i hc
      exact h.moved hlen fun _ => Or.inr hc
    · exact h.moved hlen fun hc => hc.elim
  | readCheck len =>
    rw [hp] at hlen hpast
    dsimp only
    split
    · rename_i h0
      exact h.returned (fun _ _ => ⟨(hpast trivial).resolve_left (by omega), h0⟩) fun _ => rfl
    · exact h.moved hlen fun _ => hpast trivial
  | nbCheck len =>
    dsimp only
    split
    · exact h.returned (fun hb => by cases hb) fun _ => rfl
    · exact h.moved trivial fun hc => hc.elim
  | readSection blocking len => exact h.drained hp ho

theorem Ending.write (h : Ending s) : Ending (pipeWrite s p data) := by
  rw [pipeWrite]
  split
  · exact h
  have hm : Ending (setPc s p (writeLoop data 0)) := by
    refine h.moved ?_ ?_ <;> rw [writeLoop] <;> split
    · trivial
    · trivial
    · exact fun hc => hc.elim
    · exact fun hc => hc.elim
  exact ⟨hm.flows.same rfl rfl rfl rfl rfl rfl, hm.len_pos, hm.past, hm.zero, hm.eof⟩

theorem ending_step {buf : Nat → UInt8} {a : Action ι} (h : Ending s)
    (hs : (orderly buf).step s a s') : Ending s' := by
  obtain ⟨ho, hpos, hs⟩ := hs
  cases hs with
  | write => exact h.write
  | read =>
    unfold pipeRead
    split
    · exact h
    · exact h.moved hpos fun hc => hc.elim
  | readNb =>
    unfold pipeReadNb
    split
    · exact h
    · exact h.moved trivial fun hc => hc.elim
  | closeWrite => exact h.close
  | access => exact h.access (ho _ rfl)

def endingInvariant (buf : Nat → UInt8) : (orderly buf : System (State ι) (Action ι)).Invariant where
  holds := Ending
  start hs := hs ▸ ending_create buf
  step := ending_step

end Steps

theorem met_orderly : (orderly zeros).Reach met := by
  have hstep : ∀ {s s' : State Bool} {a : Action Bool}, (orderly zeros).Reach s → a.positive →
      (∀ p, a = .access p → Orderly s p) → Step s a s' → (orderly zeros).Reach s' :=
    fun h hp ho hs => h.next ⟨ho, hp, hs⟩
  have h0 : (orderly zeros).Reach (pipeCreate zeros : State Bool) := .start rfl
  have h1 := hstep h0 (a := .write true [0x68, 0x69]) trivial (fun _ h => by cases h) (.write trivial)
  have h2 := hstep h1 (a := .access true) trivial (by rintro p ⟨⟩; trivial) .access
  have h3 := hstep h2 (a := .access true) trivial
    (by rintro p ⟨⟩; exact fun ⟨r, hr, _⟩ => absurd hr List.not_mem_nil) .access
  have h4 := hstep h3 (a := .read false 1) Nat.one_pos (fun _ h => by cases h) (.read trivial)
  have h5 := hstep h4 (a := .access false) trivial (by rintro p ⟨⟩; trivial) .access
  exact hstep h5 (a := .access false) trivial (by rintro p ⟨⟩; trivial) .access

-- The writer, process true, reads itself: both readers see the one byte, and true takes it.
def raced : State Bool :=
  access (access (access (access (access (pipeRead (pipeRead (access (access
    (pipeWrite (pipeCreate zeros) true [0x68]) true) true) true 1) false 1) true) false) true)
    true) false

theorem raced_reach : (calls zeros).Reach raced := by
  have hstep : ∀ {s s' : State Bool} {a : Action Bool}, (calls zeros).Reach s → a.positive →
      Step s a s' → (calls zeros).Reach s' := fun h hp hs => h.next ⟨hp, hs⟩
  have h0 : (calls zeros).Reach (pipeCreate zeros : State Bool) := .start rfl
  have h1 := hstep h0 (a := .write true [0x68]) trivial (.write trivial)
  have h2 := hstep (hstep h1 (a := .access true) trivial .access) (a := .access true) trivial .access
  have h3 := hstep h2 (a := .read true 1) Nat.one_pos (.read trivial)
  have h4 := hstep h3 (a := .read false 1) Nat.one_pos (.read trivial)
  have h5 := hstep (hstep h4 (a := .access true) trivial .access) (a := .access false) trivial .access
  have h6 := hstep (hstep h5 (a := .access true) trivial .access) (a := .access true) trivial .access
  exact hstep h6 (a := .access false) trivial .access

end Pipes
