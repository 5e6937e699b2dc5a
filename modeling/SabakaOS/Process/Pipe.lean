import SabakaOS.Library.Ring
import SabakaOS.Library.Run

namespace Pipes

variable {ι : Type}

def pipeBufSize : Nat := 1024

structure Pipe where
  buf : Nat → UInt8
  readPos : Nat
  writePos : Nat
  count : Nat
  used : Bool
  writeClosed : Bool

-- What a process does next to the pipe: a load of one of its words or a section between cli and
-- sti. wrote is a pipe_write that has returned.
inductive Pc where
  | idle
  | writeTest (data : List UInt8) (written : Nat)
  | writeSection (data : List UInt8) (written : Nat)
  | wrote (data : List UInt8) (written : Nat)
  | readWait (len : Nat)
  | readClosed (len : Nat)
  | readCheck (len : Nat)
  | nbCheck (len : Nat)
  | readSection (blocking : Bool) (len : Nat)

-- A read that has returned n, and whether the pipe was closed and all of it read then.
structure Return where
  blocking : Bool
  n : Nat
  atEnd : Bool
  deriving DecidableEq

-- The sections of writers and readers, where the writes of the current call begin, and the
-- returned reads are a record that no process consults.
structure State (ι : Type) where
  pipe : Pipe
  pc : ι → Pc
  writes : List (ι × List UInt8)
  reads : List (ι × List UInt8)
  mark : ι → Nat
  returns : List Return

def pipeCreate (buf : Nat → UInt8) : State ι where
  pipe := {
    buf := buf
    readPos := 0
    writePos := 0
    count := 0
    used := true
    writeClosed := false }
  pc := fun _ => .idle
  writes := []
  reads := []
  mark := fun _ => 0
  returns := []

def chunks (l : List (ι × List UInt8)) : List UInt8 := l.flatMap Prod.snd

def ended (s : State ι) : Bool := s.pipe.writeClosed && chunks s.reads == chunks s.writes

section Calls

variable [DecidableEq ι]

def setPc (s : State ι) (p : ι) (c : Pc) : State ι := { s with pc := Function.update s.pc p c }

-- The condition of the outer loop of pipe_write.
def writeLoop (data : List UInt8) (written : Nat) : Pc :=
  if written < data.length then .writeTest data written else .wrote data written

def pipeWrite (s : State ι) (p : ι) (data : List UInt8) : State ι :=
  if !s.pipe.used then s
  else { setPc s p (writeLoop data 0) with mark := Function.update s.mark p s.writes.length }

def pipeRead (s : State ι) (p : ι) (len : Nat) : State ι :=
  if !s.pipe.used then s else setPc s p (.readWait len)

def pipeReadNb (s : State ι) (p : ι) (len : Nat) : State ι :=
  if !s.pipe.used then s else setPc s p (.nbCheck len)

def pipeCloseWrite (s : State ι) : State ι :=
  if s.pipe.used then { s with pipe := { s.pipe with writeClosed := true } } else s

def returned (s : State ι) (p : ι) (blocking : Bool) (n : Nat) : State ι :=
  { setPc s p .idle with returns := s.returns ++ [⟨blocking, n, ended s⟩] }

def chunkOf (s : State ι) (data : List UInt8) (written : Nat) : List UInt8 :=
  let space := pipeBufSize - s.pipe.count
  let chunk := data.length - written
  (data.drop written).take (if space < chunk then space else chunk)

def fill (s : State ι) (p : ι) (data : List UInt8) (written : Nat) : State ι :=
  let chunk := chunkOf s data written
  let r := Ring.push pipeBufSize s.pipe.buf s.pipe.writePos chunk
  { setPc s p (writeLoop data (written + chunk.length)) with
    pipe := { s.pipe with buf := r.1, writePos := r.2, count := s.pipe.count + chunk.length }
    writes := s.writes ++ [(p, chunk)] }

def avail (s : State ι) (len : Nat) : Nat := if s.pipe.count < len then s.pipe.count else len

def drain (s : State ι) (p : ι) (len : Nat) : State ι :=
  let r := Ring.pop pipeBufSize s.pipe.buf s.pipe.readPos (avail s len)
  { s with
    pipe := { s.pipe with readPos := r.2, count := s.pipe.count - avail s len }
    reads := s.reads ++ [(p, r.1)] }

def access (s : State ι) (p : ι) : State ι :=
  match s.pc p with
  | .idle => s
  | .writeTest data written =>
    if pipeBufSize ≤ s.pipe.count then s else setPc s p (.writeSection data written)
  | .writeSection data written => fill s p data written
  | .wrote _ _ => s
  | .readWait len => setPc s p (if s.pipe.count = 0 then .readClosed len else .readCheck len)
  | .readClosed len => setPc s p (if s.pipe.writeClosed then .readCheck len else .readWait len)
  | .readCheck len =>
    if s.pipe.count = 0 then returned s p true 0 else setPc s p (.readSection true len)
  | .nbCheck len =>
    if s.pipe.count = 0 then returned s p false 0 else setPc s p (.readSection false len)
  | .readSection blocking len => returned (drain s p len) p blocking (avail s len)

def Pc.free : Pc → Prop
  | .idle | .wrote _ _ => True
  | _ => False

inductive Action (ι : Type) where
  | write (p : ι) (data : List UInt8)
  | read (p : ι) (len : Nat)
  | readNb (p : ι) (len : Nat)
  | closeWrite
  | access (p : ι)

inductive Step (s : State ι) : Action ι → State ι → Prop where
  | write {p data} : (s.pc p).free → Step s (.write p data) (pipeWrite s p data)
  | read {p len} : (s.pc p).free → Step s (.read p len) (pipeRead s p len)
  | readNb {p len} : (s.pc p).free → Step s (.readNb p len) (pipeReadNb s p len)
  | closeWrite : Step s .closeWrite (pipeCloseWrite s)
  | access {p} : Step s (.access p) (access s p)

def system (buf : Nat → UInt8) : System (State ι) (Action ι) where
  init s := s = pipeCreate buf
  step := Step

-- What the current pipe_write of p has put into the pipe.
def contributed (s : State ι) (p : ι) : List UInt8 :=
  chunks ((s.writes.drop (s.mark p)).filter fun w => w.1 = p)

end Calls

def buffered (s : State ι) : List UInt8 :=
  Ring.contents pipeBufSize s.pipe.buf s.pipe.readPos s.pipe.count

structure Flows (s : State ι) : Prop where
  count_le : s.pipe.count ≤ pipeBufSize
  read_lt : s.pipe.readPos < pipeBufSize
  write_pos : s.pipe.writePos = (s.pipe.readPos + s.pipe.count) % pipeBufSize
  stream : chunks s.reads ++ buffered s = chunks s.writes

-- What got, the bytes that a pipe_write has put into the pipe, has to be where it stands.
def Progress (got : List UInt8) : Pc → Prop
  | .writeTest data written => written < data.length ∧ got = data.take written
  | .writeSection data written => written < data.length ∧ got = data.take written
  | .wrote data written => written = data.length ∧ got = data
  | _ => True

structure Contributes [DecidableEq ι] (s : State ι) : Prop where
  mark_le : ∀ p, s.mark p ≤ s.writes.length
  progress : ∀ p, Progress (contributed s p) (s.pc p)

theorem chunks_append (a b : List (ι × List UInt8)) : chunks (a ++ b) = chunks a ++ chunks b :=
  List.flatMap_append

section Invariant

variable {s s' : State ι} {p : ι} {data : List UInt8} {written len : Nat}

theorem flows_create (buf : Nat → UInt8) : Flows (pipeCreate buf : State ι) where
  count_le := Nat.zero_le _
  read_lt := by unfold pipeBufSize; exact Nat.succ_pos _
  write_pos := rfl
  stream := rfl

theorem chunkOf_length (s : State ι) (data : List UInt8) (written : Nat) :
    (chunkOf s data written).length =
      min (data.length - written) (pipeBufSize - s.pipe.count) := by
  rw [chunkOf, List.length_take, List.length_drop]
  split <;> omega

theorem Flows.same (h : Flows s) (hp : s'.pipe.buf = s.pipe.buf)
    (hr : s'.pipe.readPos = s.pipe.readPos) (hw : s'.pipe.writePos = s.pipe.writePos)
    (hc : s'.pipe.count = s.pipe.count) (hreads : s'.reads = s.reads)
    (hwrites : s'.writes = s.writes) : Flows s' where
  count_le := hc ▸ h.count_le
  read_lt := hr ▸ h.read_lt
  write_pos := by rw [hw, hr, hc]; exact h.write_pos
  stream := by rw [buffered, hp, hr, hc, hreads, hwrites]; exact h.stream

theorem Flows.drain (h : Flows s) : Flows (drain s p len) := by
  have hle : avail s len ≤ s.pipe.count := by
    rw [avail]
    split <;> omega
  obtain ⟨k, hk⟩ := Nat.exists_eq_add_of_le hle
  obtain ⟨hc, hr⟩ := Ring.pop_spec s.pipe.buf h.read_lt (avail s len) k
  have hrest : s.pipe.count - avail s len = k := by omega
  refine ⟨?_, ?_, ?_, ?_⟩
  · exact le_trans (Nat.sub_le _ _) h.count_le
  · simp only [Pipes.drain, hr]
    exact Nat.mod_lt _ (Nat.zero_lt_of_lt h.read_lt)
  · simp only [Pipes.drain, hr, hrest, Nat.mod_add_mod]
    rw [h.write_pos, hk, Nat.add_assoc]
  · have hs := h.stream
    rw [buffered, hk, hc, ← List.append_assoc] at hs
    simp only [Pipes.drain, buffered, hrest, chunks_append]
    rw [← hs]
    simp [chunks]

variable [DecidableEq ι]

theorem Flows.fill (h : Flows s) : Flows (fill s p data written) := by
  have hle := h.count_le
  have hlen := chunkOf_length s data written
  have hfit : s.pipe.count + (chunkOf s data written).length ≤ pipeBufSize := by omega
  obtain ⟨hc, hw⟩ := Ring.push_spec s.pipe.buf s.pipe.readPos (chunkOf s data written) hfit
  rw [← h.write_pos] at hc hw
  refine ⟨hfit, h.read_lt, hw, ?_⟩
  simp only [Pipes.fill, buffered, hc, chunks_append]
  rw [← h.stream, ← List.append_assoc, ← buffered]
  simp [chunks, setPc]

theorem Flows.returned (h : Flows s) (blocking : Bool) (n : Nat) :
    Flows (returned s p blocking n) := h.same rfl rfl rfl rfl rfl rfl

theorem Flows.access (h : Flows s) : Flows (access s p) := by
  rw [Pipes.access]
  cases s.pc p with
  | writeSection data written => exact h.fill
  | readSection blocking len => exact h.drain.returned _ _
  | writeTest data written => dsimp only; split <;> exact h.same rfl rfl rfl rfl rfl rfl
  | readCheck len => dsimp only; split <;> exact h.same rfl rfl rfl rfl rfl rfl
  | nbCheck len => dsimp only; split <;> exact h.same rfl rfl rfl rfl rfl rfl
  | _ => exact h.same rfl rfl rfl rfl rfl rfl

theorem flows_step {a : Action ι} (h : Flows s) (hs : Step s a s') : Flows s' := by
  cases hs with
  | write => unfold pipeWrite; split <;> exact h.same rfl rfl rfl rfl rfl rfl
  | read => unfold pipeRead; split <;> exact h.same rfl rfl rfl rfl rfl rfl
  | readNb => unfold pipeReadNb; split <;> exact h.same rfl rfl rfl rfl rfl rfl
  | closeWrite => unfold pipeCloseWrite; split <;> exact h.same rfl rfl rfl rfl rfl rfl
  | access => exact h.access

theorem contributes_create (buf : Nat → UInt8) : Contributes (pipeCreate buf : State ι) where
  mark_le _ := le_rfl
  progress _ := trivial

theorem progress_loop {got : List UInt8} (hle : written ≤ data.length)
    (h : got = data.take written) : Progress got (writeLoop data written) := by
  rw [writeLoop]
  split
  · rename_i hlt
    exact ⟨hlt, h⟩
  · rename_i hlt
    have he : written = data.length := by omega
    rw [he, List.take_length] at h
    exact ⟨he, h⟩

theorem Contributes.moved (h : Contributes s) (c : Pc)
    (hc : Progress (contributed s p) (s.pc p) → Progress (contributed s p) c) :
    Contributes (setPc s p c) where
  mark_le := h.mark_le
  progress q := by
    by_cases hq : q = p
    · subst hq
      change Progress (contributed s q) ((setPc s q c).pc q)
      simpa [setPc] using hc (h.progress q)
    · change Progress (contributed s q) ((setPc s p c).pc q)
      simpa [setPc, hq] using h.progress q

theorem Contributes.same (h : Contributes s) (hpc : s'.pc = s.pc) (hm : s'.mark = s.mark)
    (hw : s'.writes = s.writes) : Contributes s' where
  mark_le q := by rw [hm, hw]; exact h.mark_le q
  progress q := by rw [contributed, hm, hw, hpc]; exact h.progress q

theorem Contributes.fill (h : Contributes s) (hp : s.pc p = .writeSection data written) :
    Contributes (fill s p data written) where
  mark_le q := by
    refine le_trans (h.mark_le q) ?_
    simp [Pipes.fill]
  progress q := by
    have hq := h.progress q
    have happ : contributed (Pipes.fill s p data written) q =
        contributed s q ++ if p = q then chunkOf s data written else [] := by
      simp only [contributed, Pipes.fill, setPc]
      rw [List.drop_append_of_le_length (h.mark_le q), List.filter_append, chunks_append]
      congr 1
      by_cases hpq : p = q
      · simp [hpq, chunks]
      · simp [hpq, chunks]
    by_cases hqp : q = p
    · subst hqp
      rw [hp] at hq
      obtain ⟨hlt, hgot⟩ := hq
      rw [happ, if_pos rfl, hgot]
      have hpc : (Pipes.fill s q data written).pc q =
          writeLoop data (written + (chunkOf s data written).length) := by
        simp [Pipes.fill, setPc]
      have hlen := chunkOf_length s data written
      rw [hpc]
      refine progress_loop (by omega) ?_
      rw [List.take_add]
      congr 1
      rw [chunkOf, List.length_take, ← List.take_take, List.take_length]
    · rw [happ, if_neg (Ne.symm hqp), List.append_nil]
      simpa [Pipes.fill, setPc, hqp] using hq

theorem Contributes.access (h : Contributes s) : Contributes (access s p) := by
  rw [Pipes.access]
  cases hp : s.pc p with
  | idle => exact h
  | wrote data written => exact h
  | writeSection data written => exact h.fill hp
  | writeTest data written =>
    dsimp only
    split
    · exact h
    · exact h.moved _ (by rw [hp]; exact id)
  | readWait len =>
    refine h.moved _ (fun _ => ?_)
    split <;> trivial
  | readClosed len =>
    refine h.moved _ (fun _ => ?_)
    split <;> trivial
  | readCheck len =>
    dsimp only
    split
    · exact (h.moved (p := p) .idle fun _ => trivial).same rfl rfl rfl
    · exact h.moved _ fun _ => trivial
  | nbCheck len =>
    dsimp only
    split
    · exact (h.moved (p := p) .idle fun _ => trivial).same rfl rfl rfl
    · exact h.moved _ fun _ => trivial
  | readSection blocking len =>
    exact (h.moved (p := p) .idle fun _ => trivial).same rfl rfl rfl

theorem Contributes.write (h : Contributes s) : Contributes (pipeWrite s p data) := by
  rw [pipeWrite]
  split
  · exact h
  constructor
  · intro q
    by_cases hq : q = p
    · subst hq
      simp [setPc]
    · simpa [setPc, hq] using h.mark_le q
  · intro q
    by_cases hq : q = p
    · subst hq
      have hnone : contributed { setPc s q (writeLoop data 0) with
          mark := Function.update s.mark q s.writes.length } q = [] := by
        simp [contributed, setPc, chunks]
      rw [hnone]
      simpa [setPc] using progress_loop (Nat.zero_le data.length) rfl
    · simpa [contributed, setPc, hq] using h.progress q

theorem contributes_step {a : Action ι} (h : Contributes s) (hs : Step s a s') :
    Contributes s' := by
  cases hs with
  | write => exact h.write
  | read =>
    unfold pipeRead
    split
    · exact h
    · exact h.moved _ fun _ => trivial
  | readNb =>
    unfold pipeReadNb
    split
    · exact h
    · exact h.moved _ fun _ => trivial
  | closeWrite => unfold pipeCloseWrite; split <;> exact h.same rfl rfl rfl
  | access => exact h.access

def invariant (buf : Nat → UInt8) : (system buf : System (State ι) (Action ι)).Invariant where
  holds s := Flows s ∧ Contributes s
  start hs := hs ▸ ⟨flows_create buf, contributes_create buf⟩
  step h hs := ⟨flows_step h.1 hs, contributes_step h.2 hs⟩

end Invariant

theorem stream_kept [DecidableEq ι] (buf : Nat → UInt8) (s : State ι)
    (h : (system buf).Reach s) :
    s.pipe.count ≤ pipeBufSize ∧
      s.pipe.writePos = (s.pipe.readPos + s.pipe.count) % pipeBufSize ∧
      chunks s.reads ++ buffered s = chunks s.writes ∧
      ∀ p data written, s.pc p = .wrote data written →
        written = data.length ∧ contributed s p = data := by
  obtain ⟨hf, hc⟩ := (invariant buf).reach h
  refine ⟨hf.count_le, hf.write_pos, hf.stream, fun p data written hp => ?_⟩
  have := hc.progress p
  rwa [hp] at this

def zeros : Nat → UInt8 := fun _ => 0

-- Process true has put its bytes into the pipe, and process false has passed its waiting loop.
def met : State Bool :=
  access (access (pipeRead (access (access (pipeWrite (pipeCreate zeros) true [0x68, 0x69]) true)
    true) false 1) false) false

theorem met_reach : (system zeros).Reach met := by
  have h0 : (system zeros).Reach (pipeCreate zeros : State Bool) := .start rfl
  have h1 := h0.next (show Step _ (.write true [0x68, 0x69]) _ from .write trivial)
  have h2 := (h1.next (show Step _ (.access true) _ from .access)).next
    (show Step _ (.access true) _ from .access)
  have h3 := h2.next (show Step _ (.read false 1) _ from .read trivial)
  exact (h3.next (show Step _ (.access false) _ from .access)).next
    (show Step _ (.access false) _ from .access)

theorem stream_kept_met : met.pipe.count ≤ pipeBufSize ∧
    met.pipe.writePos = (met.pipe.readPos + met.pipe.count) % pipeBufSize ∧
    chunks met.reads ++ buffered met = chunks met.writes ∧
    ∀ p data written, met.pc p = .wrote data written →
      written = data.length ∧ contributed met p = data :=
  stream_kept zeros met met_reach

end Pipes
