import SabakaOS.Shell.Terminal

namespace Terminal

abbrev Line := List UInt8

-- Going through a list of lines: none is the empty input below its last line.
def older (L : List Line) : Option Nat → Option Nat
  | none => some (L.length - 1)
  | some i => some (i - 1)

def newer (L : List Line) : Option Nat → Option Nat
  | none => none
  | some i => if i + 1 < L.length then some (i + 1) else none

def recalled (L : List Line) : Option Nat → Line
  | none => []
  | some i => L.getD i []

structure Shows (t : Statics) (L : List Line) (cursor : Option Nat) : Prop where
  histIdx : t.histIdx = cursor
  text : Spells t.inputBuf (recalled L cursor)
  len : t.inputLen = (recalled L cursor).length
  pos : t.inputPos = (recalled L cursor).length

-- The up and down keys step through L and nothing else.
structure Recalls (t : Statics) (L : List Line) : Prop where
  up : L ≠ [] → Shows (terminalOnKey t keyUp) L (older L t.histIdx)
  up_empty : L = [] → terminalOnKey t keyUp = t
  down : t.histIdx ≠ none → Shows (terminalOnKey t keyDown) L (newer L t.histIdx)
  down_none : t.histIdx = none → terminalOnKey t keyDown = t

-- history[0..hist_count) as strings.
def lines (t : Statics) : List Line := (List.range t.histCount).map fun i => cstring (t.history i)

def lastLines (t : Statics) : List Line := t.entered.drop (t.entered.length - histMax)

def HistoryKept (t : Statics) : Prop := lines t = lastLines t ∧ Recalls t (lastLines t)

-- What the slots have been given, oldest first: the last slot is emptied into the one before it
-- when it is filled for the first time.
def stored (entered : List Line) : List Line := entered.take 15 ++ [] :: entered.drop 15

structure Stored (t : Statics) : Prop where
  slots : ∀ i < histMax,
    Spells (t.history i) ((stored t.entered).getD (i + (t.entered.length - 15)) [])
  histCount : t.histCount = min t.entered.length histMax
  nonempty : ∀ l ∈ t.entered, l ≠ []

structure Kept (t : Statics) : Prop where
  stored : Stored t
  input : ∃ s, Spells t.inputBuf s ∧ t.inputLen = s.length ∧ t.inputPos ≤ s.length
  histIdx : ∀ i, t.histIdx = some i → i < t.histCount

theorem stored_short {e : List Line} (h : e.length ≤ 15) (i : Nat) :
    (stored e).getD i [] = e.getD i [] := by
  rw [stored, List.take_of_length_le h, List.drop_of_length_le h]
  rcases Nat.lt_or_ge i e.length with hlt | hge
  · rw [List.getD_append _ _ _ _ hlt]
  · rw [List.getD_append_right _ _ _ _ hge, List.getD_eq_default _ _ hge]
    cases i - e.length with
    | zero => rfl
    | succ k => exact List.getD_eq_default _ _ (Nat.succ_le_succ (Nat.zero_le k))

theorem stored_long {e : List Line} (h : 15 ≤ e.length) (i : Nat) :
    (stored e).getD i [] =
      if i < 15 then e.getD i [] else if i = 15 then [] else e.getD (i - 1) [] :=
  getD_inserted h [] [] i

theorem stored_snoc_old {e : List Line} {s : Line} {i : Nat} (h : 15 ≤ e.length)
    (hi : i ≤ e.length) : (stored (e ++ [s])).getD i [] = (stored e).getD i [] := by
  have hle : 15 ≤ (e ++ [s]).length := by
    rw [List.length_append]
    omega
  rw [stored_long h, stored_long hle]
  split_ifs with h1 h2
  · rw [List.getD_append _ _ _ _ (by omega)]
  · rfl
  · rw [List.getD_append _ _ _ _ (by omega)]

theorem getD_snoc (e : List Line) (s : Line) : (e ++ [s]).getD e.length [] = s := by
  rw [List.getD_append_right _ _ _ _ le_rfl, Nat.sub_self]
  rfl

theorem stored_snoc_new {e : List Line} (s : Line) (h : 15 ≤ e.length) :
    (stored (e ++ [s])).getD (e.length + 1) [] = s := by
  have hle : 15 ≤ (e ++ [s]).length := by
    rw [List.length_append]
    omega
  rw [stored_long hle, if_neg (by omega), if_neg (by omega), Nat.add_sub_cancel, getD_snoc]

-- Each turn reads a slot that no earlier turn has written.
theorem shiftHistory_spells {line : Nat → Line} (n : Nat) : ∀ (k : Nat) (history : Nat → Buffer),
    (∀ i, k < i → i ≤ k + n → Spells (history i) (line i)) →
      (∀ i, k ≤ i → i < k + n → Spells (shiftHistory k n history i) (line (i + 1))) ∧
        ∀ i, i < k ∨ k + n ≤ i → shiftHistory k n history i = history i := by
  induction n with
  | zero =>
    intro k history _
    exact ⟨fun i h1 h2 => absurd h2 (Nat.not_lt.mpr h1), fun _ _ => rfl⟩
  | succ n ih =>
    intro k history hslots
    obtain ⟨hin, hout⟩ := ih (k + 1)
      (Function.update history k (kstrcpy (history k) (history (k + 1)))) fun i h1 h2 => by
        rw [Function.update_of_ne (by omega)]
        exact hslots i (by omega) (by omega)
    rw [shiftHistory]
    refine ⟨fun i h1 h2 => ?_, fun i hi => ?_⟩
    · rcases Nat.lt_or_eq_of_le h1 with hlt | rfl
      · exact hin i hlt (by omega)
      · rw [hout k (Or.inl (Nat.lt_succ_self k)), Function.update_self]
        exact (hslots (k + 1) (by omega) (by omega)).copied _
    · rw [hout i (by omega), Function.update_of_ne (by omega)]

section Keys

variable {t : Statics} {s : Line} {i n : Nat} {c : UInt8}

theorem Kept.inputKept (h : Kept t) : InputKept t := by
  obtain ⟨s, hs, hlen, hpos⟩ := h.input
  refine ⟨hlen ▸ hpos, hlen ▸ hs.length_lt, ?_, fun i hi h0 => hs.text ?_⟩
  · rw [hlen, hs.cells _ le_rfl, List.getD_eq_default _ _ le_rfl]
  · have his : i < s.length := hlen ▸ hi
    rw [← h0, hs.cells i his.le, List.getD_eq_getElem _ _ his]
    exact List.getElem_mem his

theorem Stored.lines_eq (h : Stored t) : lines t =
    (List.range (min t.entered.length histMax)).map fun i =>
      (stored t.entered).getD (i + (t.entered.length - 15)) [] := by
  rw [lines, h.histCount]
  refine List.map_congr_left fun i hi => (h.slots i ?_).cstring
  exact Nat.lt_of_lt_of_le (List.mem_range.mp hi) (Nat.min_le_right _ _)

theorem lines_length (t : Statics) : (lines t).length = t.histCount := by
  rw [lines, List.length_map, List.length_range]

theorem Stored.slot (h : Stored t) (hi : i < t.histCount) :
    Spells (t.history i) (recalled (lines t) (some i)) := by
  have hslot := h.slots i (Nat.lt_of_lt_of_le hi (h.histCount ▸ Nat.min_le_right _ _))
  have hline : recalled (lines t) (some i) = cstring (t.history i) := by
    rw [recalled, List.getD_eq_getElem _ _ (by rwa [lines_length])]
    simp [lines]
  rwa [hline, hslot.cstring]

theorem showLine_shows {L : List Line} {cursor : Option Nat} {buf : Buffer}
    (h : Spells buf (recalled L cursor)) : Shows (showLine t cursor buf) L cursor :=
  ⟨rfl, h, congrArg List.length h.cstring, congrArg List.length h.cstring⟩

theorem Kept.recalls (h : Kept t) : Recalls t (lines t) := by
  have hcount := lines_length t
  refine ⟨fun hL => ?_, fun hL => ?_, fun hi => ?_, fun hi => ?_⟩
  · have hpos : 0 < t.histCount := hcount ▸ List.length_pos_iff.mpr hL
    have hup : terminalOnKey t keyUp = onUp t := if_pos rfl
    rw [hup, onUp, if_pos hpos]
    cases hidx : t.histIdx with
    | none =>
      rw [older, hcount]
      exact showLine_shows ((h.stored.slot (Nat.sub_lt hpos Nat.one_pos)).copied _)
    | some i =>
      have hi := h.histIdx i hidx
      have hold : (if 0 < i then i - 1 else i) = i - 1 := by
        split_ifs <;> omega
      simp only [hold]
      exact showLine_shows ((h.stored.slot (by omega)).copied _)
  · have hzero : t.histCount = 0 := by rw [← hcount, hL]; rfl
    exact (if_pos rfl).trans (if_neg (by rw [hzero]; exact Nat.lt_irrefl 0))
  · have hdown : terminalOnKey t keyDown = onDown t := rfl
    obtain ⟨i, hidx⟩ := Option.ne_none_iff_exists'.mp hi
    rw [hdown, onDown, hidx, newer, hcount]
    dsimp only
    by_cases hlast : i + 1 < t.histCount
    · rw [if_pos hlast, if_pos hlast]
      exact showLine_shows ((h.stored.slot hlast).copied _)
    · rw [if_neg hlast, if_neg hlast]
      exact showLine_shows (spells_nil rfl)
  · have hdown : terminalOnKey t keyDown = onDown t := rfl
    rw [hdown, onDown, hi]

theorem Shows.input {L : List Line} {cursor : Option Nat} (h : Shows t L cursor) :
    ∃ s, Spells t.inputBuf s ∧ t.inputLen = s.length ∧ t.inputPos ≤ s.length :=
  ⟨_, h.text, h.len, h.pos.le⟩

theorem Kept.onUp (h : Kept t) : Kept (onUp t) := by
  rcases Nat.eq_zero_or_pos t.histCount with hzero | hpos
  · rwa [Terminal.onUp, if_neg (by omega)]
  · have hne : lines t ≠ [] := fun hL => by
      have hcount := lines_length t
      rw [hL] at hcount
      exact absurd hcount hpos.ne
    have hshows := h.recalls.up hne
    have hkey : terminalOnKey t keyUp = Terminal.onUp t := if_pos rfl
    have hsame : (Terminal.onUp t).histCount = t.histCount ∧
        Stored (Terminal.onUp t) := by
      rw [Terminal.onUp, if_pos hpos]
      exact ⟨rfl, h.stored.slots, h.stored.histCount, h.stored.nonempty⟩
    rw [hkey] at hshows
    refine ⟨hsame.2, hshows.input, fun i hi => ?_⟩
    rw [hsame.1]
    rw [hshows.histIdx] at hi
    cases hidx : t.histIdx with
    | none =>
      rw [hidx, older, lines_length] at hi
      have := Option.some.inj hi
      omega
    | some j =>
      have hj := h.histIdx j hidx
      rw [hidx, older] at hi
      have := Option.some.inj hi
      omega

theorem Kept.onDown (h : Kept t) : Kept (onDown t) := by
  by_cases hnone : t.histIdx = none
  · rwa [Terminal.onDown, hnone]
  · have hshows := h.recalls.down hnone
    have hkey : terminalOnKey t keyDown = Terminal.onDown t := rfl
    obtain ⟨j, hidx⟩ := Option.ne_none_iff_exists'.mp hnone
    have hsame : (Terminal.onDown t).histCount = t.histCount ∧
        Stored (Terminal.onDown t) := by
      rw [Terminal.onDown, hidx]
      dsimp only
      split_ifs <;> exact ⟨rfl, h.stored.slots, h.stored.histCount, h.stored.nonempty⟩
    rw [hkey] at hshows
    refine ⟨hsame.2, hshows.input, fun i hi => ?_⟩
    rw [hsame.1]
    rw [hshows.histIdx, hidx, newer, lines_length] at hi
    split_ifs at hi with hlast
    rwa [← Option.some.inj hi]

theorem Kept.onBackspace (h : Kept t) : Kept (onBackspace t) := by
  obtain ⟨s, hs, hlen, hpos⟩ := h.input
  rw [Terminal.onBackspace]
  split_ifs with hp
  · have hlt : t.inputPos - 1 < s.length := by omega
    have herased := hs.erased hlt
    rw [show s.length - (t.inputPos - 1 + 1) = s.length - t.inputPos by omega, ← hlen] at herased
    refine ⟨⟨h.stored.slots, h.stored.histCount, h.stored.nonempty⟩, ⟨_, herased, ?_, ?_⟩,
      h.histIdx⟩
    · simp
      omega
    · simp
      omega
  · exact h

theorem Kept.onChar (h : Kept t) (hc : c ≠ 0) : Kept (onChar t c) := by
  obtain ⟨s, hs, hlen, hpos⟩ := h.input
  rw [Terminal.onChar]
  split_ifs with hroom
  · have hinserted := hs.inserted hpos hc (hlen ▸ hroom)
    rw [← hlen] at hinserted
    refine ⟨⟨h.stored.slots, h.stored.histCount, h.stored.nonempty⟩, ⟨_, hinserted, ?_, ?_⟩,
      h.histIdx⟩
    · simp
      omega
    · simp
      omega
  · exact h

-- Fewer than fifteen lines: the line goes into the next slot. From fifteen on it goes into the
-- last slot, after the shift.
theorem Stored.remember (h : Stored t) (hs : Spells t.inputBuf s) (hlen : t.inputLen = s.length)
    (hne : s ≠ []) : Stored (remember t) := by
  have hentered : (Terminal.remember t).entered = t.entered ++ [s] := by
    rw [Terminal.remember, hlen, hs.read]
  have hcount : (Terminal.remember t).histCount =
      if t.histCount < histMax then t.histCount + 1 else t.histCount := rfl
  have hold := h.histCount
  rw [histMax] at hold hcount
  refine ⟨fun i hi => ?_, ?_, fun l hl => ?_⟩
  · rw [hentered, List.length_append, List.length_singleton]
    rw [histMax] at hi
    rcases Nat.lt_or_ge t.entered.length 15 with hshort | hlong
    · have hidx : (if t.histCount < histMax then t.histCount else histMax - 1)
          = t.entered.length := by
        rw [histMax]
        split_ifs <;> omega
      have hslot : (Terminal.remember t).history i = Function.update t.history t.entered.length
          (kstrcpy (t.history t.entered.length) t.inputBuf) i := by
        rw [Terminal.remember, hidx, if_neg (by rw [histMax]; omega)]
      have hbefore := h.slots i hi
      rw [stored_short hshort.le, show i + (t.entered.length - 15) = i by omega] at hbefore
      have hall : (t.entered ++ [s]).length ≤ 15 := by
        rw [List.length_append, List.length_singleton]
        omega
      rw [hslot, stored_short hall, show i + (t.entered.length + 1 - 15) = i by omega]
      rcases Nat.lt_trichotomy i t.entered.length with hlt | rfl | hgt
      · rw [Function.update_of_ne hlt.ne, List.getD_append _ _ _ _ hlt]
        exact hbefore
      · rw [Function.update_self, getD_snoc]
        exact hs.copied _
      · rw [Function.update_of_ne hgt.ne', List.getD_eq_default _ _ (by simp; omega)]
        rwa [List.getD_eq_default _ _ hgt.le] at hbefore
    · have hidx : (if t.histCount < histMax then t.histCount else histMax - 1) = 15 := by
        rw [histMax]
        split_ifs <;> omega
      have hslot : (Terminal.remember t).history i =
          Function.update (shiftHistory 0 15 t.history) 15
            (kstrcpy (shiftHistory 0 15 t.history 15) t.inputBuf) i := by
        rw [Terminal.remember, hidx]
        rfl
      rw [hslot]
      rcases Nat.lt_or_eq_of_le (Nat.le_of_lt_succ hi) with hlt | rfl
      · have hslots (j : Nat) (_ : 0 < j) (hj : j ≤ 0 + 15) := h.slots j (by rw [histMax]; omega)
        have hshift := (shiftHistory_spells 15 0 t.history hslots).1 i (Nat.zero_le i) (by omega)
        rw [Function.update_of_ne hlt.ne, stored_snoc_old hlong (by omega)]
        rwa [show i + (t.entered.length + 1 - 15) = i + 1 + (t.entered.length - 15) by omega]
      · rw [Function.update_self, show 15 + (t.entered.length + 1 - 15) = t.entered.length + 1 by
          omega, stored_snoc_new s hlong]
        exact hs.copied _
  · rw [hentered, hcount, hold, List.length_append, List.length_singleton, histMax]
    split_ifs <;> omega
  · rw [hentered] at hl
    rcases List.mem_append.mp hl with hl | hl
    · exact h.nonempty l hl
    · rwa [List.mem_singleton.mp hl]

theorem Stored.restart (h : Stored t) : Kept (startInput t) :=
  ⟨⟨h.slots, h.histCount, h.nonempty⟩, ⟨[], spells_nil rfl, rfl, le_rfl⟩, fun _ hi => by cases hi⟩

theorem Kept.onEnter (h : Kept t) : Kept (onEnter t) := by
  obtain ⟨s, hs, hlen, hpos⟩ := h.input
  have hterminated : { t with inputBuf := Function.update t.inputBuf t.inputLen 0 } = t := by
    rw [← h.inputKept.terminator, Function.update_eq_self]
  rw [Terminal.onEnter, hterminated]
  split_ifs with hentered
  · have hne : s ≠ [] := fun hs0 => by
      rw [hlen, hs0] at hentered
      exact Nat.lt_irrefl 0 hentered
    exact (h.stored.remember hs hlen hne).restart
  · exact h.stored.restart

theorem Kept.terminalOnKey (h : Kept t) (c : UInt8) : Kept (terminalOnKey t c) := by
  rw [Terminal.terminalOnKey]
  split_ifs with hup hdown henter hback hprint
  · exact h.onUp
  · exact h.onDown
  · exact h.onEnter
  · exact h.onBackspace
  · refine h.onChar fun h0 => ?_
    rw [h0] at hprint
    exact absurd hprint.1 (by decide)
  · exact h

theorem kept_powerOn : Kept powerOn := by
  refine ⟨⟨fun i _ => ?_, rfl, fun l hl => by cases hl⟩, ⟨[], spells_nil rfl, rfl, le_rfl⟩,
    fun _ hi => by cases hi⟩
  rw [show powerOn.entered = [] from rfl, stored_short (e := []) (Nat.zero_le 15)]
  exact spells_nil rfl

theorem typed_kept (keys : List UInt8) : Kept (typed keys) :=
  List.foldlRecOn keys terminalOnKey kept_powerOn fun _ h c _ => h.terminalOnKey c

-- While the empty line is among the last sixteen things stored, one of the lines is missing.
theorem Stored.lines_last_iff (h : Stored t) : lines t = lastLines t ↔
    t.entered.length < histMax ∨ 2 * histMax - 1 ≤ t.entered.length := by
  rw [h.lines_eq, lastLines, histMax]
  constructor
  · intro heq
    by_contra hmiss
    obtain ⟨h16, h31⟩ := not_or.mp hmiss
    have hcell := congrArg (fun L : List Line => L.getD (30 - t.entered.length) []) heq
    rw [List.getD_eq_getElem _ _ (by simp; omega), List.getD_eq_getElem _ _ (by simp; omega)]
      at hcell
    rw [List.getElem_map, List.getElem_range, List.getElem_drop, stored_long (by omega),
      if_neg (by omega), if_pos (by omega)] at hcell
    exact h.nonempty _ (List.getElem_mem _) hcell.symm
  · intro hn
    refine List.ext_getElem (by simp; omega) fun i h1 h2 => ?_
    have hi : i < min t.entered.length 16 := by simpa using h1
    have hlast : t.entered.length - 16 + i < t.entered.length := by omega
    rw [List.getElem_map, List.getElem_range, List.getElem_drop]
    rcases Nat.lt_or_ge 15 t.entered.length with hlong | hshort
    · have hcell : i + (t.entered.length - 15) - 1 = t.entered.length - 16 + i := by omega
      rw [stored_long hlong.le, if_neg (by omega), if_neg (by omega), hcell,
        List.getD_eq_getElem _ _ hlast]
    · have hcell : i + (t.entered.length - 15) = t.entered.length - 16 + i := by omega
      rw [stored_short hshort, hcell, List.getD_eq_getElem _ _ hlast]

end Keys

theorem history_kept_iff (keys : List UInt8) : InputKept (typed keys) ∧
    (HistoryKept (typed keys) ↔
      (typed keys).entered.length < histMax ∨ 2 * histMax - 1 ≤ (typed keys).entered.length) := by
  have h := typed_kept keys
  refine ⟨h.inputKept, fun hkept => h.stored.lines_last_iff.mp hkept.1, fun hn => ?_⟩
  have hlines := h.stored.lines_last_iff.mpr hn
  exact ⟨hlines, hlines ▸ h.recalls⟩

-- The sixteenth line is entered.
theorem history_sixteen :
    ¬ HistoryKept (typed (List.replicate 16 [0x61, newline]).flatten) := by
  intro hkept
  have hcount : (typed (List.replicate 16 [0x61, newline]).flatten).entered.length = 16 := by
    decide
  have hn := (typed_kept _).stored.lines_last_iff.mp hkept.1
  rw [hcount] at hn
  exact absurd hn (by decide)

end Terminal
