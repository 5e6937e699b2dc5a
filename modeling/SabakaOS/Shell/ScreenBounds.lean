import SabakaOS.Library.Fold
import SabakaOS.Shell.VgaScreen

namespace Terminal

-- How many characters the line has that the key c puts on the screen, if it puts one there.
def redrawn (t : Statics) (c : UInt8) : Option Nat :=
  if c = keyUp then
    if 0 < t.histCount then
      some (kstrlen (t.history (match t.histIdx with
        | none => t.histCount - 1
        | some i => if 0 < i then i - 1 else i)))
    else none
  else if c = keyDown then
    t.histIdx.map fun i => if i + 1 < t.histCount then kstrlen (t.history (i + 1)) else 0
  else if c = newline then none
  else if c = backspace then if 0 < t.inputPos then some (t.inputLen - 1) else none
  else if 32 ≤ c ∧ c < 127 then
    if t.inputLen < inputMax - 1 then some (t.inputLen + 1) else none
  else none

-- A line of n characters ends above VGA_TERM_END.
def Room (v : Vga) (n : Nat) : Prop :=
  v.promptRow * vgaCols + v.promptCol + n < vgaTermEnd * vgaCols

def Fits (v : Vga) : Event → Prop
  | .key c _ => ∀ n, redrawn v.text c = some n → Room v n
  | _ => True

-- What holds between two events while every line has had room.
structure Ready (v : Vga) : Prop where
  kept : Kept v.text
  prompt : inTerminal (v.promptRow, v.promptCol)
  room : Room v v.text.inputLen
  confined : Confined v

section Redrawing

variable {v w : Vga} {e : Nat → UInt16} {c : UInt8} {n : Nat}

theorem advance_place {p : Nat × Nat} (h : p.2 < vgaCols) :
    (advance p).1 * vgaCols + (advance p).2 = p.1 * vgaCols + p.2 + 1 ∧
      (advance p).2 < vgaCols := by
  unfold advance
  unfold vgaCols at *
  split <;> dsimp only <;> omega

theorem overLine_place (e : Nat → UInt16) (h : v.promptCol < vgaCols) :
    (overLine e v).2.1 * vgaCols + (overLine e v).2.2 =
      v.promptRow * vgaCols + v.promptCol + v.text.inputLen ∧ (overLine e v).2.2 < vgaCols := by
  refine Loop.upto_inv (fun i (t : Vga × (Nat × Nat)) => t.2.1 * vgaCols + t.2.2 =
    v.promptRow * vgaCols + v.promptCol + i ∧ t.2.2 < vgaCols) ⟨rfl, h⟩ fun i t _ ht => ?_
  obtain ⟨hplace, hcol⟩ := advance_place ht.2
  exact ⟨by rw [hplace, ht.1, Nat.add_assoc], hcol⟩

theorem overLine_marks (e : Nat → UInt16) (hp : inTerminal (v.promptRow, v.promptCol))
    (hroom : Room v v.text.inputLen) : Marks v (overLine e v).1 := by
  suffices h : Marks v (overLine e v).1 ∧ (overLine e v).2.1 * vgaCols + (overLine e v).2.2 =
      v.promptRow * vgaCols + v.promptCol + v.text.inputLen ∧ (overLine e v).2.2 < vgaCols from h.1
  refine Loop.upto_inv (fun i (t : Vga × (Nat × Nat)) => Marks v t.1 ∧ t.2.1 * vgaCols + t.2.2 =
    v.promptRow * vgaCols + v.promptCol + i ∧ t.2.2 < vgaCols) ⟨.refl v, rfl, hp.2.2⟩
    fun i t hi ⟨hmarks, hplace, hcol⟩ => ?_
  obtain ⟨hnext, hcol'⟩ := advance_place hcol
  refine ⟨hmarks.trans (put_marks ⟨?_, ?_, hcol⟩), by rw [hnext, hplace, Nat.add_assoc], hcol'⟩
  all_goals
    obtain ⟨hstart, -, -⟩ := hp
    unfold Room vgaTermEnd vgaCols at *
    dsimp only at *
    omega

theorem wrapLoop_place (turns : Nat) (p : Nat × Nat) (h : p.2 ≤ turns) :
    (wrapLoop turns p).1 * vgaCols + (wrapLoop turns p).2 = p.1 * vgaCols + p.2 ∧
      (wrapLoop turns p).2 < vgaCols := by
  induction turns generalizing p with
  | zero => exact ⟨rfl, Nat.lt_of_le_of_lt h (by decide)⟩
  | succ turns ih =>
    rw [wrapLoop]
    split
    · rename_i hge
      unfold vgaCols at *
      obtain ⟨hplace, hcol⟩ := ih (p.1 + 1, p.2 - 80) (by dsimp only; omega)
      refine ⟨hplace.trans ?_, hcol⟩
      dsimp only
      omega
    · rename_i hlt
      exact ⟨rfl, Nat.lt_of_not_ge hlt⟩

theorem inputRedrawVga_stays (hp : inTerminal (v.promptRow, v.promptCol))
    (hpos : v.text.inputPos ≤ v.text.inputLen) (hroom : Room v v.text.inputLen) :
    Stays v (inputRedrawVga v) := by
  unfold inputRedrawVga
  have hcursor := vgaShowCursor_stays v false
  refine hcursor.trans ?_
  rw [← hcursor.text] at hpos
  have hroom' : Room (vgaShowCursor v false) (vgaShowCursor v false).text.inputLen := by
    rwa [Room, hcursor.text, hcursor.promptRow, hcursor.promptCol]
  rw [← hcursor.promptRow, ← hcursor.promptCol] at hp
  generalize vgaShowCursor v false = v at hp hpos hroom'
  dsimp only
  have hline := overLine_marks (fun i => vgaEntry (v.text.inputBuf i) 10 0) hp hroom'
  obtain ⟨hplace, hcol⟩ := overLine_place (fun i => vgaEntry (v.text.inputBuf i) 10 0) hp.2.2
  generalize overLine (fun i => vgaEntry (v.text.inputBuf i) 10 0) v = t at hline hplace hcol
  have hstart := hp.1
  have hrow : vgaTermStart ≤ t.2.1 ∧ t.2.1 < vgaTermEnd := by
    unfold Room vgaTermEnd vgaCols at *
    dsimp only at *
    omega
  have htail := upto_marks (n := vgaCols - t.2.2) (fun k v hk => put_marks (v := v) (e := blank)
    (r := t.2.1) (c := t.2.2 + k) ⟨hrow.1, hrow.2, Nat.add_lt_of_lt_sub' hk⟩) t.1
  have hmarks := (hline.trans htail).stays
  generalize Loop.upto (vgaCols - t.2.2) (fun k v => put v t.2.1 (t.2.2 + k) blank) t.1 = u
    at hmarks
  obtain ⟨hwrap, hwcol⟩ := wrapLoop_place (u.promptCol + u.text.inputPos)
    (u.promptRow, u.promptCol + u.text.inputPos) le_rfl
  refine (hmarks.trans (moved_stays _ fun _ => ⟨?_, ?_, hwcol⟩)).trans (vgaShowCursor_stays _ true)
  all_goals
    rw [hmarks.text, hmarks.promptRow, hmarks.promptCol] at hwrap hwcol ⊢
    unfold Room vgaTermEnd vgaCols at *
    dsimp only at *
    omega

-- The rest of the row in which the line ends is written as well.
theorem inputRedrawVga_outside (hcol : v.promptCol < vgaCols) (hroom : ¬Room v v.text.inputLen) :
    ¬Confined (inputRedrawVga v) := by
  have hcursor := vgaShowCursor_stays v false
  unfold inputRedrawVga
  dsimp only
  have hout : ¬Room (vgaShowCursor v false) (vgaShowCursor v false).text.inputLen := by
    rwa [Room, hcursor.text, hcursor.promptRow, hcursor.promptCol]
  rw [← hcursor.promptCol] at hcol
  generalize vgaShowCursor v false = v at hcol hout
  obtain ⟨hplace, hcol'⟩ := overLine_place (fun i => vgaEntry (v.text.inputBuf i) 10 0) hcol
  generalize overLine (fun i => vgaEntry (v.text.inputBuf i) 10 0) v = t at hplace hcol'
  have hfirst : (t.2.1, t.2.2) ∈ (Loop.upto (vgaCols - t.2.2)
      (fun k v => put v t.2.1 (t.2.2 + k) blank) t.1).written := by
    refine Loop.upto_inv (fun i (u : Vga) => 0 < i → (t.2.1, t.2.2) ∈ u.written)
      (fun h => absurd h (Nat.lt_irrefl 0)) (fun i u _ hu _ => ?_) (Nat.sub_pos_of_lt hcol')
    rcases Nat.eq_zero_or_pos i with rfl | hi
    · exact List.mem_append_right _ (List.mem_singleton.mpr rfl)
    · exact put_grows u _ _ _ _ (hu hi)
  intro hconfined
  have hin := hconfined.written _ ((vgaShowCursor_stays _ true).grows _ hfirst)
  refine hout ?_
  obtain ⟨-, hrow, -⟩ := hin
  unfold Room vgaTermEnd vgaCols at *
  dsimp only at *
  omega

end Redrawing

section Events

variable {v u : Vga} {t : Statics} {c : UInt8} {n : Nat} {out : List Output} {ev : Event}

theorem Stays.room (h : Stays v u) : Room u n ↔ Room v n := by
  rw [Room, Room, h.promptRow, h.promptCol]

theorem Ready.retext (hv : Ready v) (h : Stays v u) (ht : Kept t) (hroom : Room v t.inputLen) :
    Ready { u with text := t } := by
  refine ⟨ht, ?_, h.room.mpr hroom, ?_⟩
  · have hp := hv.prompt
    rwa [← h.promptRow, ← h.promptCol] at hp
  · have hu := h.confined hv.confined
    exact ⟨hu.written, hu.cursor⟩

theorem Stays.ready (h : Stays v u) (hv : Ready v) : Ready u := by
  refine ⟨h.text ▸ hv.kept, ?_, h.room.mpr (h.text ▸ hv.room), h.confined hv.confined⟩
  rw [h.promptRow, h.promptCol]
  exact hv.prompt

theorem Ready.redraw (hv : Ready v) : Ready (inputRedrawVga v) :=
  (inputRedrawVga_stays hv.prompt hv.kept.inputKept.pos hv.room).ready hv

theorem startInputVga_ready (hv : Confined v) (ht : Kept (startInput v.text)) :
    Ready (startInputVga v) := by
  have hset : Confined { v with text := startInput v.text } := ⟨hv.written, hv.cursor⟩
  have hprompt := printPrompt_stays { v with text := startInput v.text }
  unfold startInputVga
  dsimp only
  generalize printPrompt { v with text := startInput v.text } = u at hprompt
  have hu := hprompt.confined hset
  refine (vgaShowCursor_stays _ true).ready ⟨?_, hu.cursor, ?_, hu.written, hu.cursor⟩
  · exact hprompt.text ▸ ht
  · obtain ⟨-, hrow, hcol⟩ := hu.cursor
    have hlen : u.text.inputLen = 0 := congrArg Statics.inputLen hprompt.text
    unfold Room vgaTermEnd vgaCols at *
    dsimp only at *
    omega

theorem outputs_stay (v : Vga) (out : List Output) : Stays v (out.foldl output v) :=
  List.foldlRecOn out output (.refl v) fun _ h o _ => h.trans (output_stays _ o)

theorem Ready.enter (hv : Ready v) (out : List Output) : Ready (onKeyVga v newline out) := by
  have hline := (vgaShowCursor_stays v false).trans (terminalPutchar_stays _ newline)
  have hkey : onKeyVga v newline out = startInputVga (out.foldl output
      { terminalPutchar (vgaShowCursor v false) newline with
        text := enterLine (terminalPutchar (vgaShowCursor v false) newline).text }) := by
    rw [onKeyVga, if_neg (by decide), if_neg (by decide), if_pos rfl]
  rw [hkey, hline.text]
  have hconf := hline.confined hv.confined
  generalize terminalPutchar (vgaShowCursor v false) newline = u at hconf
  have hout := outputs_stay { u with text := enterLine v.text } out
  refine startInputVga_ready (hout.confined ⟨hconf.written, hconf.cursor⟩) ?_
  rw [hout.text]
  exact hv.kept.onEnter

theorem Kept.recalled_len (ht : Kept t) {i : Nat} (hi : i < t.histCount) (dst : Buffer) :
    kstrlen (kstrcpy dst (t.history i)) = kstrlen (t.history i) :=
  congrArg List.length
    (((ht.stored.slot hi).copied dst).cstring.trans (ht.stored.slot hi).cstring.symm)

theorem Kept.up_lt (ht : Kept t) (hcount : 0 < t.histCount) : (match t.histIdx with
    | none => t.histCount - 1
    | some i => if 0 < i then i - 1 else i) < t.histCount := by
  cases hidx : t.histIdx with
  | none => exact Nat.sub_lt hcount Nat.one_pos
  | some i =>
    have hi := ht.histIdx i hidx
    dsimp only
    split <;> omega

-- The key that puts a line on the screen puts there what it leaves in the input buffer.
theorem onKeyVga_redraws (hv : Ready v) (h : redrawn v.text c = some n) (out : List Output) :
    ∃ u, Stays v u ∧
      onKeyVga v c out = inputRedrawVga { u with text := terminalOnKey v.text c } ∧
        (terminalOnKey v.text c).inputLen = n := by
  have hclear := (overLine_marks (fun _ => blank) hv.prompt hv.room).stays
  unfold redrawn at h
  unfold onKeyVga terminalOnKey
  split_ifs at h ⊢ with hup hcount hdown hidx hnl hback hpos hprint hlen
  · refine ⟨_, hclear, rfl, ?_⟩
    rw [onUp, if_pos hcount, ← Option.some.inj h]
    exact hv.kept.recalled_len (hv.kept.up_lt hcount) _
  · refine ⟨_, hclear, rfl, ?_⟩
    obtain ⟨i, hi⟩ := Option.ne_none_iff_exists'.mp hidx
    rw [hi, Option.map_some] at h
    rw [onDown, hi, ← Option.some.inj h]
    dsimp only
    split_ifs with hnext
    · exact hv.kept.recalled_len hnext _
    · rfl
  · rw [not_not.mp hidx] at h
    cases h
  · refine ⟨v, .refl v, rfl, ?_⟩
    rw [onBackspace, if_pos hpos, ← Option.some.inj h]
  · refine ⟨v, .refl v, rfl, ?_⟩
    rw [onChar, if_pos hlen, ← Option.some.inj h]

theorem onKeyVga_still (h : redrawn v.text c = none) (hnl : c ≠ newline) :
    onKeyVga v c out = v := by
  unfold redrawn at h
  unfold onKeyVga
  split_ifs at h ⊢ with hup hcount hdown hidx hback hpos hprint hlen
  · rfl
  · exact absurd (Option.map_eq_none_iff.mp h) hidx
  all_goals rfl

-- An event for which there is room.
theorem Ready.step (hv : Ready v) (hfits : Fits v ev) : Ready (vgaStep v ev) := by
  cases ev with
  | output o => exact (output_stays v o).ready hv
  | prompt => exact startInputVga_ready hv.confined hv.kept.stored.restart
  | key c out =>
    rw [vgaStep]
    by_cases hnl : c = newline
    · rw [hnl]
      exact hv.enter out
    · cases hline : redrawn v.text c with
      | none => rwa [onKeyVga_still hline hnl]
      | some n =>
        obtain ⟨u, hu, hkey, hlen⟩ := onKeyVga_redraws hv hline out
        rw [hkey]
        exact (hv.retext hu (hv.kept.terminalOnKey c) (hlen.symm ▸ hfits n hline)).redraw

theorem Ready.step_outside (hv : Ready v) (hfits : ¬Fits v ev) : ¬Confined (vgaStep v ev) := by
  cases ev with
  | output o => exact absurd trivial hfits
  | prompt => exact absurd trivial hfits
  | key c out =>
    obtain ⟨n, hn⟩ := not_forall.mp hfits
    obtain ⟨hline, hroom⟩ := Classical.not_imp.mp hn
    obtain ⟨u, hu, hkey, hlen⟩ := onKeyVga_redraws hv hline out
    rw [vgaStep, hkey]
    have hcol : u.promptCol < vgaCols := hu.promptCol.symm ▸ hv.prompt.2.2
    rw [← hlen] at hroom
    exact inputRedrawVga_outside hcol (mt hu.room.mp hroom)

end Events

theorem vgaInit_ready (cells : Nat → UInt16) : Ready (vgaInit cells) := by
  have hbase : Ready
      { text := powerOn, cells := cells, vgaRow := vgaTermStart, vgaCol := 0,
        promptRow := vgaTermStart, promptCol := 0, curFg := Color.white, promptPath := [0x2F],
        written := [] } := by
    refine ⟨kept_powerOn, ?_, show 240 < 1920 by decide, ⟨(fun _ h => by cases h), ?_⟩⟩
    all_goals exact ⟨le_rfl, show 3 < 24 by decide, show 0 < 80 by decide⟩
  exact (terminalClear_marks _).stays.ready hbase

theorem screen_confined_iff (cells : Nat → UInt16) (evs : List Event) :
    (∀ pre, pre <+: evs → Confined (screen cells pre)) ↔
      ∀ pre ev, pre ++ [ev] <+: evs → Fits (screen cells pre) ev :=
  Fold.good_iff_fits Ready evs (vgaInit_ready cells) (fun _ _ hready hfits => hready.step hfits)
    (fun _ _ hready hnot => hready.step_outside hnot) fun _ hready => hready.confined

def longLine : List Event :=
  List.replicate 20 (.output (.putchar newline)) ++ .prompt :: List.replicate 58 (.key 0x61 [])

-- The prompt stands in the last row, and the line typed there goes on to the end of that row.
theorem screen_left : ¬∀ pre, pre <+: longLine ++ [.key 0x61 []] →
    Confined (screen (fun _ => 0) pre) := by
  intro hconf
  have hfits := (screen_confined_iff _ _).mp hconf longLine (.key 0x61 []) List.prefix_rfl
  have hline : redrawn (screen (fun _ => 0) longLine).text 0x61 = some 59 := by
    decide +kernel
  have hroom := hfits 59 hline
  have hrow : (screen (fun _ => 0) longLine).promptRow = 23 := by
    decide +kernel
  have hcol : (screen (fun _ => 0) longLine).promptCol = 21 := by
    decide +kernel
  rw [Room, hrow, hcol] at hroom
  exact absurd hroom (by decide)

end Terminal
