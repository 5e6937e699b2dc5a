import Mathlib.Data.List.TakeWhile
import SabakaOS.Library.ByteMemory

namespace Terminal

open ByteMemory

def inputMax : Nat := 256

def histMax : Nat := 16

abbrev Buffer := Nat → UInt8

-- What stands in a buffer before its NUL.
def cstring (buf : Buffer) : List UInt8 := (readBytes buf inputMax 0).takeWhile (· != 0)

def kstrlen (buf : Buffer) : Nat := (cstring buf).length

def kstrcpy (dst src : Buffer) : Buffer := writeBytes dst 0 (cstring src ++ [0])

-- hist_idx is none for -1; entered is a record of the command lines, that no function reads.
structure Statics where
  inputBuf : Buffer
  inputLen : Nat
  inputPos : Nat
  history : Nat → Buffer
  histCount : Nat
  histIdx : Option Nat
  entered : List (List UInt8)

def powerOn : Statics where
  inputBuf := fun _ => 0
  inputLen := 0
  inputPos := 0
  history := fun _ _ => 0
  histCount := 0
  histIdx := none
  entered := []

-- for (i = pos + n; i > pos; i--) buf[i] = buf[i-1];
def shiftUp (pos : Nat) : Nat → Buffer → Buffer
  | 0, buf => buf
  | n + 1, buf => shiftUp pos n (Function.update buf (pos + n + 1) (buf (pos + n)))

-- n turns of the loop buf[i] = buf[i+1] from i on.
def shiftDown : Nat → Nat → Buffer → Buffer
  | _, 0, buf => buf
  | i, n + 1, buf => shiftDown (i + 1) n (Function.update buf i (buf (i + 1)))

-- n turns of the loop kstrcpy(history[i], history[i+1]) from i on.
def shiftHistory : Nat → Nat → (Nat → Buffer) → Nat → Buffer
  | _, 0, history => history
  | i, n + 1, history =>
    shiftHistory (i + 1) n (Function.update history i (kstrcpy (history i) (history (i + 1))))

def startInput (t : Statics) : Statics :=
  { t with
    inputLen := 0
    inputPos := 0
    histIdx := none
    inputBuf := fun _ => 0 }

-- The line buf put in place of the one typed.
def showLine (t : Statics) (idx : Option Nat) (buf : Buffer) : Statics :=
  { t with
    histIdx := idx
    inputBuf := buf
    inputLen := kstrlen buf
    inputPos := kstrlen buf }

def onUp (t : Statics) : Statics :=
  if 0 < t.histCount then
    let idx := match t.histIdx with
      | none => t.histCount - 1
      | some i => if 0 < i then i - 1 else i
    showLine t (some idx) (kstrcpy t.inputBuf (t.history idx))
  else t

def onDown (t : Statics) : Statics :=
  match t.histIdx with
  | none => t
  | some i =>
    if i + 1 < t.histCount then
      showLine t (some (i + 1)) (kstrcpy t.inputBuf (t.history (i + 1)))
    else showLine t none fun _ => 0

def remember (t : Statics) : Statics :=
  let idx := if t.histCount < histMax then t.histCount else histMax - 1
  let history := if idx = histMax - 1 then shiftHistory 0 (histMax - 1) t.history else t.history
  { t with
    histCount := if t.histCount < histMax then t.histCount + 1 else t.histCount
    history := Function.update history idx (kstrcpy (history idx) t.inputBuf)
    entered := t.entered ++ [readBytes t.inputBuf t.inputLen 0] }

-- The command itself, which execute_cb runs, works on other data.
def onEnter (t : Statics) : Statics :=
  let t := { t with inputBuf := Function.update t.inputBuf t.inputLen 0 }
  startInput (if 0 < t.inputLen then remember t else t)

def onBackspace (t : Statics) : Statics :=
  if 0 < t.inputPos then
    let buf := shiftDown (t.inputPos - 1) (t.inputLen - t.inputPos) t.inputBuf
    { t with
      inputBuf := Function.update buf (t.inputLen - 1) 0
      inputLen := t.inputLen - 1
      inputPos := t.inputPos - 1 }
  else t

def onChar (t : Statics) (c : UInt8) : Statics :=
  if t.inputLen < inputMax - 1 then
    let buf := shiftUp t.inputPos (t.inputLen - t.inputPos) t.inputBuf
    { t with
      inputBuf := Function.update (Function.update buf t.inputPos c) (t.inputLen + 1) 0
      inputPos := t.inputPos + 1
      inputLen := t.inputLen + 1 }
  else t

def keyUp : UInt8 := 17

def keyDown : UInt8 := 18

def newline : UInt8 := 10

def backspace : UInt8 := 8

def terminalOnKey (t : Statics) (c : UInt8) : Statics :=
  if c = keyUp then onUp t
  else if c = keyDown then onDown t
  else if c = newline then onEnter t
  else if c = backspace then onBackspace t
  else if 32 ≤ c ∧ c < 127 then onChar t c
  else t

def typed (keys : List UInt8) : Statics := keys.foldl terminalOnKey powerOn

-- The input line is a string that ends at inputLen.
structure InputKept (t : Statics) : Prop where
  pos : t.inputPos ≤ t.inputLen
  len : t.inputLen < inputMax
  terminator : t.inputBuf t.inputLen = 0
  text : ∀ i < t.inputLen, t.inputBuf i ≠ 0

-- The buffer holds the string s and its NUL.
structure Spells (buf : Buffer) (s : List UInt8) : Prop where
  cells : ∀ i ≤ s.length, buf i = s.getD i 0
  text : 0 ∉ s
  length_lt : s.length < inputMax

section Strings

variable {buf src : Buffer} {s : List UInt8} {i n p : Nat} {c : UInt8}

theorem Spells.read (h : Spells buf s) : readBytes buf s.length 0 = s := by
  refine List.ext_getElem (by simp) fun i hi hs => ?_
  have hcell := h.cells i hs.le
  rw [List.getD_eq_getElem _ _ hs] at hcell
  simpa [readBytes] using hcell

theorem Spells.cstring (h : Spells buf s) : cstring buf = s := by
  obtain ⟨k, hk⟩ := Nat.exists_eq_add_of_lt h.length_lt
  have hend : buf s.length = 0 := by
    rw [h.cells _ le_rfl, List.getD_eq_default _ _ le_rfl]
  have htail : readBytes buf (k + 1) (0 + s.length) = 0 :: readBytes buf k (1 + s.length) := by
    rw [Nat.add_comm k 1, readBytes_append, Nat.zero_add, Nat.add_comm s.length 1]
    simp [readBytes, hend]
  rw [Terminal.cstring, hk, Nat.add_assoc, readBytes_append, htail, h.read,
    List.takeWhile_append_of_pos fun a ha =>
      bne_iff_ne.mpr fun (h0 : a = 0) => h.text (h0 ▸ ha)]
  simp

theorem Spells.copied (h : Spells src s) (dst : Buffer) : Spells (kstrcpy dst src) s := by
  refine ⟨fun i hi => ?_, h.text, h.length_lt⟩
  rw [kstrcpy, h.cstring, writeBytes_eq, if_pos ⟨Nat.zero_le _, by simp; omega⟩, Nat.sub_zero]
  rcases Nat.lt_or_eq_of_le hi with hlt | rfl
  · rw [List.getD_append _ _ _ _ hlt]
  · rw [List.getD_append_right _ _ _ _ le_rfl, Nat.sub_self, List.getD_eq_default _ _ le_rfl]
    rfl

theorem spells_nil (h : buf 0 = 0) : Spells buf [] :=
  ⟨fun i hi => by rw [Nat.le_zero.mp hi, h]; rfl, List.not_mem_nil, by decide⟩

theorem shiftUp_at (p n : Nat) (buf : Buffer) (i : Nat) :
    shiftUp p n buf i = if p < i ∧ i ≤ p + n then buf (i - 1) else buf i := by
  induction n generalizing buf with
  | zero => rw [shiftUp, if_neg (by omega)]
  | succ n ih =>
    rw [shiftUp, ih]
    by_cases hlast : i = p + n + 1
    · subst hlast
      rw [if_neg (by omega), Function.update_self, if_pos (by omega)]
      rfl
    · rw [Function.update_of_ne hlast]
      by_cases hin : p < i ∧ i ≤ p + n
      · rw [if_pos hin, if_pos (by omega), Function.update_of_ne (by omega)]
      · rw [if_neg hin, if_neg (by omega)]

theorem shiftDown_at (p n : Nat) (buf : Buffer) (i : Nat) :
    shiftDown p n buf i = if p ≤ i ∧ i < p + n then buf (i + 1) else buf i := by
  induction n generalizing p buf with
  | zero => rw [shiftDown, if_neg (by omega)]
  | succ n ih =>
    rw [shiftDown, ih]
    by_cases hfirst : i = p
    · subst hfirst
      rw [if_neg (by omega), Function.update_self, if_pos (by omega)]
    · rw [Function.update_of_ne hfirst]
      by_cases hin : p + 1 ≤ i ∧ i < p + 1 + n
      · rw [if_pos hin, if_pos (by omega), Function.update_of_ne (by omega)]
      · rw [if_neg hin, if_neg (by omega)]

theorem getD_inserted {α : Type} {s : List α} {p : Nat} (hp : p ≤ s.length) (c d : α) (i : Nat) :
    (s.take p ++ c :: s.drop p).getD i d =
      if i < p then s.getD i d else if i = p then c else s.getD (i - 1) d := by
  have htake : (s.take p).length = p := List.length_take_of_le hp
  by_cases h1 : i < p
  · rw [if_pos h1, List.getD_append _ _ _ _ (by omega)]
    simp [List.getD_eq_getElem?_getD, h1]
  · rw [if_neg h1, List.getD_append_right _ _ _ _ (by omega), htake]
    by_cases h2 : i = p
    · rw [if_pos h2, h2, Nat.sub_self]
      rfl
    · obtain ⟨k, rfl⟩ := Nat.exists_eq_add_of_lt (show p < i by omega)
      rw [if_neg h2, show p + k + 1 - p = k + 1 by omega, List.getD_cons_succ]
      simp [List.getD_eq_getElem?_getD]

theorem getD_erased (hp : p < s.length) (i : Nat) : (s.take p ++ s.drop (p + 1)).getD i 0 =
    if i < p then s.getD i 0 else s.getD (i + 1) 0 := by
  have htake : (s.take p).length = p := List.length_take_of_le hp.le
  by_cases h1 : i < p
  · rw [if_pos h1, List.getD_append _ _ _ _ (by omega)]
    simp [List.getD_eq_getElem?_getD, h1]
  · obtain ⟨k, rfl⟩ := Nat.exists_eq_add_of_le (Nat.le_of_not_lt h1)
    rw [if_neg h1, List.getD_append_right _ _ _ _ (by omega), htake, Nat.add_sub_cancel_left]
    simp [List.getD_eq_getElem?_getD, Nat.add_right_comm, Nat.add_comm k 1, Nat.add_assoc]

theorem Spells.inserted (h : Spells buf s) (hp : p ≤ s.length) (hc : c ≠ 0)
    (hlen : s.length < inputMax - 1) :
    Spells (Function.update (Function.update (shiftUp p (s.length - p) buf) p c)
      (s.length + 1) 0) (s.take p ++ c :: s.drop p) := by
  have hlength : (s.take p ++ c :: s.drop p).length = s.length + 1 := by
    simp
    omega
  refine ⟨fun i hi => ?_, ?_, by rw [hlength]; exact Nat.add_lt_of_lt_sub hlen⟩
  · rw [hlength] at hi
    rw [getD_inserted hp, Function.update_apply, Function.update_apply, shiftUp_at]
    rcases Nat.lt_trichotomy i p with hlt | rfl | hgt
    · rw [if_neg (by omega), if_neg (by omega), if_neg (by omega), if_pos hlt,
        h.cells i (by omega)]
    · rw [if_neg (by omega), if_pos rfl, if_neg (by omega), if_pos rfl]
    · rw [if_neg (by omega : ¬ i = p), if_neg (by omega : ¬ i < p), if_neg (by omega : ¬ i = p)]
      rcases Nat.lt_or_eq_of_le hi with hin | rfl
      · rw [if_neg (by omega), if_pos (by omega), h.cells (i - 1) (by omega)]
      · rw [if_pos rfl, Nat.add_sub_cancel, List.getD_eq_default _ _ le_rfl]
  · intro hmem
    rcases List.mem_append.mp hmem with hmem | hmem
    · exact h.text (List.mem_of_mem_take hmem)
    · rcases List.mem_cons.mp hmem with h0 | hmem
      · exact hc h0.symm
      · exact h.text (List.mem_of_mem_drop hmem)

theorem Spells.erased (h : Spells buf s) (hp : p < s.length) :
    Spells (Function.update (shiftDown p (s.length - (p + 1)) buf) (s.length - 1) 0)
      (s.take p ++ s.drop (p + 1)) := by
  have hlength : (s.take p ++ s.drop (p + 1)).length = s.length - 1 := by
    simp
    omega
  have hmax := h.length_lt
  refine ⟨fun i hi => ?_, ?_, by omega⟩
  · rw [hlength] at hi
    rw [getD_erased hp, Function.update_apply, shiftDown_at]
    rcases Nat.lt_or_ge i p with hlt | hge
    · rw [if_neg (by omega), if_neg (by omega), if_pos hlt, h.cells i (by omega)]
    · rw [if_neg (by omega : ¬ i < p)]
      rcases Nat.lt_or_eq_of_le hi with hin | rfl
      · rw [if_neg (by omega), if_pos (by omega), h.cells (i + 1) (by omega)]
      · rw [if_pos rfl, List.getD_eq_default _ _ (by omega)]
  · intro hmem
    rcases List.mem_append.mp hmem with hmem | hmem
    · exact h.text (List.mem_of_mem_take hmem)
    · exact h.text (List.mem_of_mem_drop hmem)

end Strings

end Terminal
