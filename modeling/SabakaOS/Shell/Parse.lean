import Mathlib.Data.List.Basic
import Mathlib.Tactic.Common

namespace Shell

def shellMaxArgs : Nat := 16

def shellArgLen : Nat := 64

def space : UInt8 := 0x20

def quote : UInt8 := 0x22

-- The loop that copies one argument, of at most n bytes more, and the rest of the line.
def copyArg (quoted : Bool) : Nat → List UInt8 → List UInt8 × List UInt8
  | 0, line => ([], line)
  | _ + 1, [] => ([], [])
  | n + 1, c :: line =>
    if quoted ∧ c = quote then ([], line)
    else if ¬quoted ∧ c = space then ([], c :: line)
    else (c :: (copyArg quoted n line).1, (copyArg quoted n line).2)

-- The outer loop of parse, none where it has not ended within its turns.
def parseFrom : Nat → List (List UInt8) → List UInt8 → Option (List (List UInt8))
  | 0, _, _ => none
  | turns + 1, argv, line =>
    if line = [] ∨ shellMaxArgs ≤ argv.length then some argv
    else
      match line.dropWhile (· = space) with
      | [] => some argv
      | c :: rest =>
        let quoted : Bool := c = quote
        let r := copyArg quoted (shellArgLen - 1) (if quoted then rest else c :: rest)
        parseFrom turns (if r.1 = [] then argv else argv ++ [r.1]) r.2

def parse (turns : Nat) (line : List UInt8) : Option (List (List UInt8)) :=
  parseFrom turns [] line

-- A word, and whether it is written in quotes.
structure Argument where
  text : List UInt8
  quoted : Bool
  ne_nil : text ≠ []
  length_le : text.length ≤ shellArgLen - 1
  plain : ∀ c ∈ text, c ≠ quote ∧ c ≠ 0
  bare : quoted = false → space ∉ text

def Argument.written (w : Argument) : List UInt8 :=
  if w.quoted then quote :: (w.text ++ [quote]) else w.text

def blanks (n : Nat) : List UInt8 := List.replicate n space

inductive Line : List Argument → List UInt8 → Prop where
  | last (w : Argument) : Line [w] w.written
  | cons {ws : List Argument} {t : List UInt8} (w : Argument) (k : Nat) : Line ws t →
      Line (w :: ws) (w.written ++ (blanks (k + 1) ++ t))

-- The loop that copies the word meets its closing quote before its limit.
def Argument.Closed (w : Argument) : Prop := w.quoted = true → w.text.length < shellArgLen - 1

instance (w : Argument) : Decidable w.Closed := inferInstanceAs (Decidable (_ → _))

section Copying

variable {quoted : Bool} {n k turns : Nat} {text line t : List UInt8} {argv r : List (List UInt8)}
  {w : Argument} {c : UInt8}

theorem copyArg_text (hplain : ∀ c ∈ text, c ≠ quote) (hbare : quoted = false → space ∉ text)
    (hn : text.length ≤ n) (line : List UInt8) : copyArg quoted n (text ++ line) =
      (text ++ (copyArg quoted (n - text.length) line).1,
        (copyArg quoted (n - text.length) line).2) := by
  induction text generalizing n with
  | nil => rfl
  | cons c text ih =>
    obtain ⟨m, rfl⟩ := Nat.exists_eq_add_of_le hn
    have hspace : ¬(¬quoted = true ∧ c = space) := fun h =>
      hbare (Bool.eq_false_iff.mpr h.1) (h.2 ▸ List.mem_cons_self)
    have hrest := ih (n := text.length + m) (fun d hd => hplain d (List.mem_cons_of_mem c hd))
      (fun hq hm => hbare hq (List.mem_cons_of_mem c hm)) (Nat.le_add_right _ _)
    rw [List.length_cons, Nat.add_right_comm, List.cons_append, copyArg,
      if_neg (fun h => hplain c List.mem_cons_self h.2), if_neg hspace, hrest,
      Nat.add_sub_cancel_left, Nat.add_right_comm, Nat.add_sub_cancel_left]
    rfl

theorem copyArg_bare (hw : w.quoted = false) (k : Nat) (t : List UInt8) :
    copyArg false (shellArgLen - 1) (w.text ++ (blanks (k + 1) ++ t)) =
      (w.text, blanks (k + 1) ++ t) := by
  have hstop : ∀ n, copyArg false n (blanks (k + 1) ++ t) = ([], blanks (k + 1) ++ t) := fun n => by
    cases n with
    | zero => rfl
    | succ n =>
      change copyArg false (n + 1) (space :: (blanks k ++ t)) = _
      rw [copyArg, if_neg (fun h => by cases h.1), if_pos ⟨by decide, rfl⟩]
      rfl
  rw [copyArg_text (fun c hc => (w.plain c hc).1) (fun _ => w.bare hw) w.length_le, hstop,
    List.append_nil]

theorem copyArg_nil (n : Nat) : copyArg quoted n [] = ([], []) := by
  cases n <;> rfl

theorem copyArg_quote (n : Nat) (line : List UInt8) :
    copyArg true (n + 1) (quote :: line) = ([], line) := by
  rw [copyArg, if_pos ⟨rfl, rfl⟩]

theorem copyArg_last (hw : w.quoted = false) : copyArg false (shellArgLen - 1) w.text =
    (w.text, []) := by
  have htext : copyArg false (shellArgLen - 1) (w.text ++ []) = _ :=
    copyArg_text (fun c hc => (w.plain c hc).1) (fun _ => w.bare hw) w.length_le []
  rwa [copyArg_nil, List.append_nil] at htext

theorem copyArg_quoted (w : Argument) (line : List UInt8) :
    copyArg true (shellArgLen - 1) (w.text ++ line) =
      (w.text ++ (copyArg true (shellArgLen - 1 - w.text.length) line).1,
        (copyArg true (shellArgLen - 1 - w.text.length) line).2) :=
  copyArg_text (fun c hc => (w.plain c hc).1) (fun (h : true = false) => by cases h) w.length_le line

theorem copyArg_closed (hw : w.quoted = true) (hc : w.Closed) (line : List UInt8) :
    copyArg true (shellArgLen - 1) (w.text ++ quote :: line) = (w.text, line) := by
  obtain ⟨m, hm⟩ := Nat.exists_eq_add_of_lt (hc hw)
  have hroom : shellArgLen - 1 - w.text.length = m + 1 := by omega
  rw [copyArg_quoted, hroom, copyArg_quote, List.append_nil]

theorem copyArg_full (hc : ¬w.Closed) (line : List UInt8) :
    copyArg true (shellArgLen - 1) (w.text ++ quote :: line) = (w.text, quote :: line) := by
  have hle := w.length_le
  have hfull : ¬w.text.length < shellArgLen - 1 := fun h => hc fun _ => h
  have hroom : shellArgLen - 1 - w.text.length = 0 := by omega
  rw [copyArg_quoted, hroom]
  change (w.text ++ [], quote :: line) = _
  rw [List.append_nil]

theorem dropBlanks (k : Nat) (t : List UInt8) :
    (blanks k ++ t).dropWhile (· = space) = t.dropWhile (· = space) :=
  List.dropWhile_append_of_pos fun _ hc => decide_eq_true (List.eq_of_mem_replicate hc)

theorem parseFrom_done (h : line = [] ∨ shellMaxArgs ≤ argv.length) :
    parseFrom (turns + 1) argv line = some argv := by
  rw [parseFrom, if_pos h]

theorem parseFrom_turn (hroom : argv.length < shellMaxArgs) (hc : c ≠ space) (k : Nat)
    (line : List UInt8) : parseFrom (turns + 1) argv (blanks k ++ c :: line) =
      (let r := copyArg (c = quote) (shellArgLen - 1) (if c = quote then line else c :: line)
      parseFrom turns (if r.1 = [] then argv else argv ++ [r.1]) r.2) := by
  have hdrop : (blanks k ++ c :: line).dropWhile (· = space) = c :: line := by
    rw [dropBlanks, List.dropWhile_cons_of_neg (by simpa using hc)]
  rw [parseFrom, if_neg, hdrop]
  · simp only [decide_eq_true_eq]
  · rintro (h | h)
    · exact absurd h (by simp)
    · omega

theorem parseFrom_blanks (hturns : 0 < turns) (k : Nat) :
    parseFrom turns argv (blanks k) = some argv := by
  obtain ⟨turns, rfl⟩ := Nat.exists_eq_add_of_lt hturns
  rw [Nat.zero_add, parseFrom]
  split
  · rfl
  · have hdrop := dropBlanks k []
    rw [List.append_nil, List.dropWhile_nil] at hdrop
    rw [hdrop]

theorem Argument.head_ne_space (hw : w.quoted = false) : ∃ c text, w.text = c :: text ∧ c ≠ space ∧
    c ≠ quote := by
  obtain ⟨c, text, htext⟩ := List.exists_cons_of_ne_nil w.ne_nil
  have hmem : c ∈ w.text := htext ▸ List.mem_cons_self
  exact ⟨c, text, htext, fun h => w.bare hw (h ▸ hmem), (w.plain c hmem).1⟩

theorem written_bare (hw : w.quoted = false) : w.written = w.text := by
  rw [Argument.written, hw]
  rfl

theorem written_quoted (hw : w.quoted = true) : w.written = quote :: (w.text ++ [quote]) :=
  if_pos hw

-- One turn takes one word, and the blanks behind it stay for the next.
theorem parseFrom_word (hroom : argv.length < shellMaxArgs) (hc : w.Closed) (j k : Nat)
    (t : List UInt8) :
    parseFrom (turns + 1) argv (blanks j ++ (w.written ++ (blanks (k + 1) ++ t))) =
      parseFrom turns (argv ++ [w.text]) (blanks (k + 1) ++ t) := by
  cases hw : w.quoted with
  | true =>
    rw [written_quoted hw, List.cons_append, parseFrom_turn hroom (by decide), if_pos rfl,
      List.append_assoc, decide_eq_true rfl]
    change (let r := copyArg true (shellArgLen - 1) (w.text ++ quote :: (blanks (k + 1) ++ t))
      parseFrom turns (if r.1 = [] then argv else argv ++ [r.1]) r.2) = _
    rw [copyArg_closed hw hc]
    dsimp only
    rw [if_neg w.ne_nil]
  | false =>
    obtain ⟨c, text, htext, hspace, hquote⟩ := w.head_ne_space hw
    have hcopy := copyArg_bare hw k t
    rw [written_bare hw]
    rw [htext, List.cons_append] at hcopy ⊢
    rw [parseFrom_turn hroom hspace, if_neg hquote, decide_eq_false hquote, hcopy]
    dsimp only
    rw [if_neg (List.cons_ne_nil _ _)]

-- A word that fills its argument leaves its closing quote in the line.
theorem parseFrom_full (hroom : argv.length < shellMaxArgs) (hw : w.quoted = true)
    (hc : ¬w.Closed) (j : Nat) (t : List UInt8) :
    parseFrom (turns + 1) argv (blanks j ++ (w.written ++ t)) =
      parseFrom turns (argv ++ [w.text]) (quote :: t) := by
  rw [written_quoted hw, List.cons_append, parseFrom_turn hroom (by decide), if_pos rfl,
    List.append_assoc, decide_eq_true rfl]
  change (let r := copyArg true (shellArgLen - 1) (w.text ++ quote :: t)
    parseFrom turns (if r.1 = [] then argv else argv ++ [r.1]) r.2) = _
  rw [copyArg_full hc]
  dsimp only
  rw [if_neg w.ne_nil]

theorem prefix_added (argv : List (List UInt8)) (arg : List UInt8) :
    argv <+: if arg = [] then argv else argv ++ [arg] := by
  split
  · exact List.prefix_refl _
  · exact List.prefix_append _ _

theorem parseFrom_prefix (h : parseFrom turns argv line = some r) : argv <+: r := by
  induction turns generalizing argv line with
  | zero => cases h
  | succ turns ih =>
    rw [parseFrom] at h
    split at h
    · exact Option.some.inj h ▸ List.prefix_refl _
    · split at h
      · exact Option.some.inj h ▸ List.prefix_refl _
      · exact (prefix_added argv _).trans (ih h)

theorem parseFrom_last (hroom : argv.length < shellMaxArgs) (j : Nat) (hturns : 2 ≤ turns)
    (hquoted : w.quoted = true → 3 ≤ turns) :
    parseFrom turns argv (blanks j ++ w.written) = some (argv ++ [w.text]) := by
  obtain ⟨turns, rfl⟩ := Nat.exists_eq_add_of_le' hturns
  cases hw : w.quoted with
  | true =>
    have hthree := hquoted hw
    by_cases hc : w.Closed
    · rw [written_quoted hw, parseFrom_turn hroom (by decide), if_pos rfl, decide_eq_true rfl,
        copyArg_closed hw hc]
      dsimp only
      rw [if_neg w.ne_nil]
      exact parseFrom_blanks (Nat.succ_pos _) 0
    · obtain ⟨turns, rfl⟩ := Nat.exists_eq_add_of_le' (show 1 ≤ turns by omega)
      have hfull : parseFrom (turns + 3) argv (blanks j ++ (w.written ++ [])) = _ :=
        parseFrom_full hroom hw hc j []
      rw [List.append_nil] at hfull
      rw [hfull]
      by_cases hlast : (argv ++ [w.text]).length < shellMaxArgs
      · have hturn : parseFrom (turns + 2) (argv ++ [w.text]) [quote] = _ :=
          parseFrom_turn hlast (by decide) 0 []
        rw [if_pos rfl, copyArg_nil] at hturn
        exact hturn.trans (parseFrom_blanks (Nat.succ_pos _) 0)
      · exact parseFrom_done (.inr (Nat.le_of_not_lt hlast))
  | false =>
    obtain ⟨c, text, htext, hspace, hquote⟩ := w.head_ne_space hw
    have hcopy := copyArg_last hw
    rw [written_bare hw]
    rw [htext] at hcopy ⊢
    rw [parseFrom_turn hroom hspace, if_neg hquote, decide_eq_false hquote, hcopy]
    dsimp only
    rw [if_neg (List.cons_ne_nil _ _)]
    exact parseFrom_blanks (Nat.succ_pos _) 0

theorem written_length (w : Argument) : 1 ≤ w.written.length ∧
    (w.quoted = true → 3 ≤ w.written.length) := by
  have htext := List.length_pos_iff.mpr w.ne_nil
  cases hw : w.quoted with
  | true =>
    rw [written_quoted hw]
    simp
    omega
  | false => exact ⟨(written_bare hw).symm ▸ htext, fun h => by cases h⟩

end Copying

section Lines

variable {ws : List Argument} {t : List UInt8} {argv : List (List UInt8)} {w v : Argument}

theorem parseFrom_line (h : Line ws t) (hclosed : ∀ w ∈ ws.dropLast, w.Closed) (j turns : Nat)
    (hroom : argv.length + ws.length ≤ shellMaxArgs) (hturns : t.length < turns) :
    parseFrom turns argv (blanks j ++ t) = some (argv ++ ws.map Argument.text) := by
  induction h generalizing argv j turns with
  | last w =>
    obtain ⟨hone, hthree⟩ := written_length w
    refine parseFrom_last (Nat.lt_of_succ_le (by simpa using hroom)) j (by omega) fun hw => ?_
    have := hthree hw
    omega
  | @cons ws t w k hline ih =>
    obtain ⟨v, vs, rfl⟩ : ∃ v vs, ws = v :: vs := by cases hline <;> exact ⟨_, _, rfl⟩
    obtain ⟨turns, rfl⟩ := Nat.exists_eq_add_of_lt hturns
    have hone := (written_length w).1
    simp only [List.length_cons, List.length_append] at hroom hturns
    rw [parseFrom_word (by omega) (hclosed w (by simp))]
    have hrest := @ih (argv ++ [w.text]) (fun v hv => hclosed v (by simp at hv ⊢; exact .inr hv))
      (k + 1) ((w.written ++ (blanks (k + 1) ++ t)).length + turns)
    rw [hrest]
    · simp
    · simp
      omega
    · simp
      omega

theorem line_exists (hne : ws ≠ []) : ∃ t, Line ws t := by
  induction ws with
  | nil => exact absurd rfl hne
  | cons w ws ih =>
    cases ws with
    | nil => exact ⟨_, .last w⟩
    | cons v vs =>
      obtain ⟨t, ht⟩ := ih (List.cons_ne_nil _ _)
      exact ⟨_, .cons w 0 ht⟩

-- A number of blanks that is not all of the word's text.
theorem gap_exists (v : Argument) : ∃ k < 2, v.text ≠ blanks (k + 1) := by
  by_cases h : v.text = blanks 1
  · exact ⟨1, by decide, fun h' => by cases congrArg List.length (h.symm.trans h')⟩
  · exact ⟨0, by decide, h⟩

-- The closing quote left behind opens an argument that begins with the blanks of the gap.
theorem gap_read (h : Line (v :: ws) t) {k : Nat} (hk : k < 2) (hne : v.text ≠ blanks (k + 1)) :
    (copyArg true (shellArgLen - 1) (blanks (k + 1) ++ t)).1 ≠ [] ∧
      (copyArg true (shellArgLen - 1) (blanks (k + 1) ++ t)).1 ≠ v.text := by
  obtain ⟨s, rfl⟩ : ∃ s, t = v.written ++ s := by
    cases h with
    | last w => exact ⟨[], (List.append_nil _).symm⟩
    | cons w k _ => exact ⟨_, rfl⟩
  have hplain : ∀ c ∈ blanks (k + 1), c ≠ quote := fun c hc => by
    rw [List.eq_of_mem_replicate hc]
    decide
  have hroom : (blanks (k + 1)).length ≤ shellArgLen - 1 := by
    simp only [blanks, List.length_replicate, shellArgLen]
    omega
  have hcopy := copyArg_text hplain (fun (h : true = false) => by cases h) hroom (v.written ++ s)
  rw [hcopy]
  refine ⟨by simp [blanks, List.replicate_succ], fun he => ?_⟩
  cases hv : v.quoted with
  | true =>
    obtain ⟨m, hm⟩ : ∃ m, shellArgLen - 1 - (blanks (k + 1)).length = m + 1 :=
      ⟨61 - k, by simp [blanks, shellArgLen]; omega⟩
    rw [hm, written_quoted hv, List.cons_append, copyArg_quote, List.append_nil] at he
    exact hne he.symm
  | false =>
    refine v.bare hv (he ▸ ?_)
    simp [blanks]

theorem parse_strays (hopen : ¬∀ w ∈ ws.dropLast, w.Closed) : ∃ t, Line ws t ∧
    ∀ (argv : List (List UInt8)) (j turns : Nat), argv.length + ws.length ≤ shellMaxArgs →
      parseFrom turns argv (blanks j ++ t) ≠ some (argv ++ ws.map Argument.text) := by
  induction ws with
  | nil => exact absurd (fun w hw => by cases hw) hopen
  | cons w ws ih =>
    cases ws with
    | nil => exact absurd (fun w hw => by cases hw) hopen
    | cons v vs =>
      by_cases hw : w.Closed
      · obtain ⟨t, hline, hstray⟩ := ih fun hrest => hopen fun x hx => by
          rcases List.mem_cons.mp hx with rfl | hx
          · exact hw
          · exact hrest x hx
        refine ⟨_, .cons w 0 hline, fun argv j turns hroom => ?_⟩
        cases turns with
        | zero => exact fun h => by cases h
        | succ turns =>
          simp only [List.length_cons] at hroom
          rw [parseFrom_word (by omega) hw]
          have hne := hstray (argv ++ [w.text]) 1 turns (by simp; omega)
          simpa using hne
      · obtain ⟨k, hk, hgap⟩ := gap_exists v
        obtain ⟨t, hline⟩ := line_exists (List.cons_ne_nil v vs)
        obtain ⟨hsome, hother⟩ := gap_read hline hk hgap
        refine ⟨_, .cons w k hline, fun argv j turns hroom => ?_⟩
        have hquoted : w.quoted = true := by
          cases hq : w.quoted with
          | true => rfl
          | false => exact absurd (fun h => absurd (hq.symm.trans h) (by decide)) hw
        match turns with
        | 0 => exact fun h => by cases h
        | 1 =>
          simp only [List.length_cons] at hroom
          rw [parseFrom_full (by omega) hquoted hw]
          exact fun h => by cases h
        | turns + 2 =>
          simp only [List.length_cons] at hroom
          rw [parseFrom_full (by omega) hquoted hw]
          have hargs : (argv ++ [w.text]).length < shellMaxArgs := by
            simp
            omega
          have hturn := @parseFrom_turn turns _ quote hargs (by decide) 0 (blanks (k + 1) ++ t)
          rw [if_pos rfl, decide_eq_true rfl] at hturn
          intro hrun
          have hpre := parseFrom_prefix (hturn.symm.trans hrun)
          rw [if_neg hsome] at hpre
          simp at hpre
          exact hother hpre

end Lines

-- For the given words and quotes every line that spells them is read as these words, if and only
-- if no quoted word but the last fills its argument.
theorem parse_words_iff {ws : List Argument} (hmax : ws.length ≤ shellMaxArgs) :
    (∀ t, Line ws t → ∀ turns, t.length < turns → parse turns t = some (ws.map Argument.text)) ↔
      ∀ w ∈ ws.dropLast, w.Closed := by
  constructor
  · intro h
    by_contra hopen
    obtain ⟨t, hline, hstray⟩ := parse_strays hopen
    exact hstray [] 0 _ (by simpa using hmax) (h t hline _ (Nat.lt_succ_self _))
  · intro hclosed t hline turns hturns
    exact parseFrom_line hline hclosed 0 turns (by simpa using hmax) hturns

-- The words a b, in quotes, and c.
def twoWords : List Argument :=
  [{ text := [0x61, 0x20, 0x62]
     quoted := true
     ne_nil := List.cons_ne_nil _ _
     length_le := by decide
     plain := by simp [quote]
     bare := by decide },
   { text := [0x63]
     quoted := false
     ne_nil := List.cons_ne_nil _ _
     length_le := by decide
     plain := by simp [quote]
     bare := by decide }]

theorem parse_words_two :
    parse 8 [0x22, 0x61, 0x20, 0x62, 0x22, 0x20, 0x63] = some [[0x61, 0x20, 0x62], [0x63]] :=
  (@parse_words_iff twoWords (by decide)).mpr (by decide) _ (.cons _ 0 (.last _)) 8 (by decide)

-- A word of 63 letters in quotes, and b.
def fullWords : List Argument :=
  [{ text := List.replicate 63 0x61
     quoted := true
     ne_nil := List.cons_ne_nil _ _
     length_le := by decide
     plain := by simp [quote]
     bare := by decide },
   { text := [0x62]
     quoted := false
     ne_nil := List.cons_ne_nil _ _
     length_le := by decide
     plain := by simp [quote]
     bare := by decide }]

theorem parse_strays_full : ¬∀ (ws : List Argument) (t : List UInt8), 1 ≤ ws.length →
    ws.length ≤ shellMaxArgs → Line ws t →
      ∀ turns, t.length < turns → parse turns t = some (ws.map Argument.text) := by
  intro h
  have hparse := h fullWords _ (by decide) (by decide) (.cons _ 0 (.last _)) 68 (by decide)
  exact absurd hparse (by decide +kernel)

end Shell
