import SabakaOS.Library.Loop
import SabakaOS.Shell.History

namespace Terminal

def vgaCols : Nat := 80

def vgaTermStart : Nat := 3

def vgaTermEnd : Nat := 24

namespace Color

def black : UInt32 := 0x0D0D0D

def white : UInt32 := 0xF2F2F2

def red : UInt32 := 0xFF5555

def green : UInt32 := 0x50FA7B

def yellow : UInt32 := 0xF1FA8C

def blue : UInt32 := 0xBD93F9

def cyan : UInt32 := 0x8BE9FD

def magenta : UInt32 := 0xFF79C6

def orange : UInt32 := 0xFFB86C

def prompt : UInt32 := 0x8BE9FD

def promptAt : UInt32 := 0xF2F2F2

def promptHost : UInt32 := 0x50FA7B

def promptPath : UInt32 := 0x8BE9FD

def promptArrow : UInt32 := 0xBD93F9

def input : UInt32 := 0xF2F2F2

end Color

-- A char is signed: its upper half is filled with its sign.
def vgaEntry (c fg bg : UInt8) : UInt16 :=
  c.toInt8.toInt16.toUInt16 ||| (bg.toUInt16 <<< 4 ||| fg.toUInt16) <<< 8

def rgbToVga (c : UInt32) : UInt8 :=
  if c = Color.white then 15
  else if c = Color.green then 10
  else if c = Color.yellow then 14
  else if c = Color.cyan then 11
  else if c = Color.red then 12
  else if c = Color.magenta then 13
  else if c = Color.blue then 9
  else if c = Color.orange then 14
  else 7

def vgaPal : List UInt32 :=
  [Color.black, 0x0000AA, Color.green, Color.cyan, Color.red, Color.magenta, 0xAA5500, 0xAAAAAA,
    0x555555, Color.blue, Color.green, Color.cyan, Color.red, Color.magenta, Color.yellow,
    Color.white]

-- written is a record of the cells written to, that no function reads.
structure Vga where
  text : Statics
  cells : Nat → UInt16
  vgaRow : Nat
  vgaCol : Nat
  promptRow : Nat
  promptCol : Nat
  curFg : UInt32
  promptPath : List UInt8
  written : List (Nat × Nat)

-- VGA[r*VGA_COLS+c] = e
def put (v : Vga) (r c : Nat) (e : UInt16) : Vga :=
  { v with
    cells := Function.update v.cells (r * vgaCols + c) e
    written := v.written ++ [(r, c)] }

def space : UInt8 := 0x20

def tab : UInt8 := 9

def blank : UInt16 := vgaEntry space 15 0

def vgaScroll (v : Vga) : Vga :=
  let v := Loop.upto (vgaTermEnd - 1 - vgaTermStart) (fun k v =>
    let r := vgaTermStart + k
    Loop.upto vgaCols (fun c v => put v r c (v.cells ((r + 1) * vgaCols + c))) v) v
  Loop.upto vgaCols (fun c v => put v (vgaTermEnd - 1) c blank) v

def vgaShowCursor (v : Vga) (on : Bool) : Vga :=
  if v.vgaRow < vgaTermEnd then
    put v v.vgaRow v.vgaCol (vgaEntry (if on then 0x5F else space) 14 0)
  else v

def vgaNewline (v : Vga) : Vga :=
  let v := { v with vgaCol := 0, vgaRow := v.vgaRow + 1 }
  if v.vgaRow ≥ vgaTermEnd then { vgaScroll v with vgaRow := vgaTermEnd - 1 } else v

-- A turn brings vga_col closer to stop.
def tabLoop (fg : UInt8) (stop : Nat) : Nat → Vga → Vga
  | 0, v => v
  | turns + 1, v =>
    if v.vgaCol < stop ∧ v.vgaCol < vgaCols - 1 then
      tabLoop fg stop turns
        { put v v.vgaRow v.vgaCol (vgaEntry space fg 0) with vgaCol := v.vgaCol + 1 }
    else v

def terminalPutchar (v : Vga) (c : UInt8) : Vga :=
  let v := vgaShowCursor v false
  let fg := rgbToVga v.curFg
  let v :=
    if c = newline then vgaNewline v
    else if c = tab then
      let stop := (v.vgaCol / 4 + 1) * 4
      tabLoop fg stop (stop - v.vgaCol) v
    else
      let v := put v v.vgaRow v.vgaCol (vgaEntry c fg 0)
      if v.vgaCol + 1 ≥ vgaCols then vgaNewline v else { v with vgaCol := v.vgaCol + 1 }
  vgaShowCursor v true

def terminalPuts (v : Vga) (s : List UInt8) : Vga := s.foldl terminalPutchar v

def terminalSetColorFg (v : Vga) (idx : UInt8) : Vga :=
  { v with curFg := vgaPal.getD idx.toNat Color.white }

def terminalResetColor (v : Vga) : Vga := { v with curFg := Color.white }

def terminalClear (v : Vga) : Vga :=
  let v := Loop.upto (vgaTermEnd - vgaTermStart) (fun k v =>
    Loop.upto vgaCols (fun c v => put v (vgaTermStart + k) c blank) v) v
  { v with vgaRow := vgaTermStart, vgaCol := 0 }

-- path ends at its NUL.
def terminalSetPromptPath (v : Vga) (path : List UInt8) : Vga :=
  { v with promptPath := (path.takeWhile (· != 0)).take 255 }

def inColor (v : Vga) (c : UInt32) : Vga := { v with curFg := c }

def printPrompt (v : Vga) : Vga :=
  let v := vgaShowCursor v false
  let v := terminalPuts (inColor v Color.prompt) [0x73, 0x61, 0x62, 0x61, 0x6B, 0x61]
  let v := terminalPutchar (inColor v Color.promptAt) 0x40
  let v := terminalPuts (inColor v Color.promptHost)
    [0x53, 0x61, 0x62, 0x61, 0x6B, 0x61, 0x4F, 0x53]
  let v := terminalPuts (inColor v Color.white) [0x3A, space]
  let v := terminalPuts (inColor v Color.promptPath) [0x7E]
  let v := if v.promptPath.head? = some 0x2F ∧ v.promptPath.length ≠ 1 then
    terminalPuts v v.promptPath else v
  let v := terminalPuts (inColor v Color.promptArrow) [space, 0x3E, space]
  inColor v Color.input

-- if (++c >= VGA_COLS) { c=0; r++; }
def advance (p : Nat × Nat) : Nat × Nat :=
  if p.2 + 1 ≥ vgaCols then (p.1 + 1, 0) else (p.1, p.2 + 1)

-- The loop over the characters of the input line, from the prompt on.
def overLine (e : Nat → UInt16) (v : Vga) : Vga × (Nat × Nat) :=
  Loop.upto v.text.inputLen (fun i t => (put t.1 t.2.1 t.2.2 (e i), advance t.2))
    (v, (v.promptRow, v.promptCol))

-- while (vga_col >= VGA_COLS) { vga_col -= VGA_COLS; vga_row++; }
def wrapLoop : Nat → Nat × Nat → Nat × Nat
  | 0, p => p
  | turns + 1, p => if p.2 ≥ vgaCols then wrapLoop turns (p.1 + 1, p.2 - vgaCols) else p

def inputRedrawVga (v : Vga) : Vga :=
  let v := vgaShowCursor v false
  let t := overLine (fun i => vgaEntry (v.text.inputBuf i) 10 0) v
  let v := Loop.upto (vgaCols - t.2.2) (fun k v => put v t.2.1 (t.2.2 + k) blank) t.1
  let p := wrapLoop (v.promptCol + v.text.inputPos) (v.promptRow, v.promptCol + v.text.inputPos)
  vgaShowCursor { v with vgaRow := p.1, vgaCol := p.2 } true

def inputClearLine (v : Vga) : Vga :=
  let v := (overLine (fun _ => blank) v).1
  { v with text := { v.text with inputLen := 0, inputPos := 0 } }

def startInputVga (v : Vga) : Vga :=
  let v := printPrompt { v with text := startInput v.text }
  vgaShowCursor { v with promptRow := v.vgaRow, promptCol := v.vgaCol } true

-- What a command or another process does with the terminal.
inductive Output where
  | putchar (c : UInt8)
  | setColorFg (idx : UInt8)
  | resetColor
  | clear
  | setPromptPath (path : List UInt8)

def output (v : Vga) : Output → Vga
  | .putchar c => terminalPutchar v c
  | .setColorFg idx => terminalSetColorFg v idx
  | .resetColor => terminalResetColor v
  | .clear => terminalClear v
  | .setPromptPath path => terminalSetPromptPath v path

-- on_enter up to the call of execute_cb.
def enterLine (t : Statics) : Statics :=
  let t := { t with inputBuf := Function.update t.inputBuf t.inputLen 0 }
  if 0 < t.inputLen then remember t else t

-- terminal_on_key in text mode; out is what execute_cb puts out if the key is Enter.
def onKeyVga (v : Vga) (c : UInt8) (out : List Output) : Vga :=
  if c = keyUp then
    if 0 < v.text.histCount then inputRedrawVga { inputClearLine v with text := onUp v.text } else v
  else if c = keyDown then
    if v.text.histIdx ≠ none then inputRedrawVga { inputClearLine v with text := onDown v.text }
    else v
  else if c = newline then
    let v := terminalPutchar (vgaShowCursor v false) newline
    startInputVga (out.foldl output { v with text := enterLine v.text })
  else if c = backspace then
    if 0 < v.text.inputPos then inputRedrawVga { v with text := onBackspace v.text } else v
  else if 32 ≤ c ∧ c < 127 then
    if v.text.inputLen < inputMax - 1 then inputRedrawVga { v with text := onChar v.text c } else v
  else v

inductive Event where
  | output (o : Output)
  | prompt
  | key (c : UInt8) (out : List Output)

def vgaStep (v : Vga) : Event → Vga
  | .output o => output v o
  | .prompt => startInputVga v
  | .key c out => onKeyVga v c out

-- What terminal_init leaves in text mode.
def vgaInit (cells : Nat → UInt16) : Vga :=
  terminalClear
    { text := powerOn, cells := cells, vgaRow := vgaTermStart, vgaCol := 0,
      promptRow := vgaTermStart, promptCol := 0, curFg := Color.white, promptPath := [0x2F],
      written := [] }

def screen (cells : Nat → UInt16) (evs : List Event) : Vga := evs.foldl vgaStep (vgaInit cells)

def inTerminal (p : Nat × Nat) : Prop := vgaTermStart ≤ p.1 ∧ p.1 < vgaTermEnd ∧ p.2 < vgaCols

structure Confined (v : Vga) : Prop where
  written : ∀ p ∈ v.written, inTerminal p
  cursor : inTerminal (v.vgaRow, v.vgaCol)

-- Cells of the terminal are written and nothing else happens.
structure Marks (v v' : Vga) : Prop where
  same : ∃ cells ws, v' = { v with cells := cells, written := v.written ++ ws } ∧
    ∀ p ∈ ws, inTerminal p

-- The input line and its prompt stay, and so does what is confined.
structure Stays (v v' : Vga) : Prop where
  text : v'.text = v.text
  promptRow : v'.promptRow = v.promptRow
  promptCol : v'.promptCol = v.promptCol
  grows : ∀ p ∈ v.written, p ∈ v'.written
  confined : Confined v → Confined v'

section Marking

variable {v v' v'' : Vga} {r c n : Nat} {e : UInt16}

theorem Marks.refl (v : Vga) : Marks v v :=
  ⟨v.cells, [], by rw [List.append_nil], fun _ h => by cases h⟩

theorem Marks.trans (h : Marks v v') (h' : Marks v' v'') : Marks v v'' := by
  obtain ⟨_, ws, rfl, hws⟩ := h
  obtain ⟨cells, ws', rfl, hws'⟩ := h'
  refine ⟨cells, ws ++ ws', by rw [List.append_assoc], fun p hp => ?_⟩
  exact (List.mem_append.mp hp).elim (hws p) (hws' p)

theorem put_marks (hin : inTerminal (r, c)) : Marks v (put v r c e) :=
  ⟨_, [(r, c)], rfl, fun _ hp => List.mem_singleton.mp hp ▸ hin⟩

theorem upto_marks {f : Nat → Vga → Vga} (hf : ∀ i v, i < n → Marks v (f i v)) (v : Vga) :
    Marks v (Loop.upto n f v) :=
  Loop.upto_inv (fun _ t => Marks v t) (.refl v) fun i t hi ht => ht.trans (hf i t hi)

theorem vgaScroll_marks (v : Vga) : Marks v (vgaScroll v) := by
  refine (upto_marks (fun k v hk => upto_marks (fun c v hc => put_marks ?_) v) v).trans
    (upto_marks (fun c v hc => put_marks ?_) _)
  · exact ⟨Nat.le_add_right _ _, Nat.lt_of_lt_of_le (Nat.add_lt_add_left hk _) (by decide), hc⟩
  · exact ⟨show 3 ≤ 23 by decide, show 23 < 24 by decide, hc⟩

theorem vgaShowCursor_marks {on : Bool} (hcol : v.vgaCol < vgaCols)
    (hrow : vgaTermStart ≤ v.vgaRow) :
    Marks v (vgaShowCursor v on) := by
  unfold vgaShowCursor
  split
  · rename_i hlt
    exact put_marks ⟨hrow, hlt, hcol⟩
  · exact .refl v

theorem Marks.stays (h : Marks v v') : Stays v v' := by
  obtain ⟨cells, ws, rfl, hws⟩ := h
  refine ⟨rfl, rfl, rfl, fun p hp => List.mem_append_left _ hp,
    fun hv => ⟨fun p hp => ?_, hv.cursor⟩⟩
  exact (List.mem_append.mp hp).elim (hv.written p) (hws p)

theorem Stays.refl (v : Vga) : Stays v v := ⟨rfl, rfl, rfl, fun _ h => h, fun h => h⟩

theorem Stays.trans (h : Stays v v') (h' : Stays v' v'') : Stays v v'' :=
  ⟨h'.text.trans h.text, h'.promptRow.trans h.promptRow, h'.promptCol.trans h.promptCol,
    fun p hp => h'.grows p (h.grows p hp), fun hv => h'.confined (h.confined hv)⟩

theorem put_grows (v : Vga) (r c : Nat) (e : UInt16) : ∀ p ∈ v.written, p ∈ (put v r c e).written :=
  fun _ hp => List.mem_append_left _ hp

-- Cells are written where the cursor stands.
theorem put_stays (hin : Confined v → inTerminal (r, c)) : Stays v (put v r c e) :=
  ⟨rfl, rfl, rfl, put_grows v r c e, fun hv => (put_marks (hin hv)).stays.confined hv⟩

theorem vgaShowCursor_stays (v : Vga) (on : Bool) : Stays v (vgaShowCursor v on) := by
  unfold vgaShowCursor
  split
  · exact put_stays Confined.cursor
  · exact .refl v

theorem moved_stays (v : Vga) (hin : Confined v → inTerminal (r, c)) :
    Stays v { v with vgaRow := r, vgaCol := c } :=
  ⟨rfl, rfl, rfl, fun _ hp => hp, fun hv => ⟨hv.written, hin hv⟩⟩

theorem vgaNewline_stays (v : Vga) : Stays v (vgaNewline v) := by
  unfold vgaNewline
  dsimp only
  split
  · obtain ⟨cells, ws, heq, hws⟩ := vgaScroll_marks { v with vgaCol := 0, vgaRow := v.vgaRow + 1 }
    rw [heq]
    have hmarks : Marks v { v with cells := cells, written := v.written ++ ws } :=
      ⟨cells, ws, rfl, hws⟩
    exact hmarks.stays.trans (moved_stays _ fun _ => ⟨show 3 ≤ 23 by decide, show 23 < 24 by decide,
      show 0 < 80 by decide⟩)
  · rename_i hrow
    refine moved_stays v fun hv => ⟨hv.cursor.1.trans (Nat.le_succ _), Nat.lt_of_not_ge hrow, ?_⟩
    exact show 0 < 80 by decide

theorem tabLoop_stays (fg : UInt8) (stop turns : Nat) (v : Vga) :
    Stays v (tabLoop fg stop turns v) := by
  induction turns generalizing v with
  | zero => exact .refl v
  | succ turns ih =>
    unfold tabLoop
    split
    · rename_i hlt
      refine (Stays.trans (put_stays Confined.cursor) (moved_stays _ fun hv => ?_)).trans (ih _)
      exact ⟨hv.cursor.1, hv.cursor.2.1, Nat.add_lt_of_lt_sub hlt.2⟩
    · exact .refl v

theorem terminalPutchar_stays (v : Vga) (c : UInt8) : Stays v (terminalPutchar v c) := by
  unfold terminalPutchar
  refine ((vgaShowCursor_stays v false).trans ?_).trans (vgaShowCursor_stays _ true)
  generalize vgaShowCursor v false = v
  dsimp only
  split_ifs with hnl htab hcol
  · exact vgaNewline_stays v
  · exact tabLoop_stays _ _ _ v
  · exact (put_stays Confined.cursor).trans (vgaNewline_stays _)
  · refine Stays.trans (put_stays Confined.cursor) (moved_stays _ fun hv => ?_)
    exact ⟨hv.cursor.1, hv.cursor.2.1, Nat.lt_of_not_ge hcol⟩

theorem terminalPuts_stays (v : Vga) (s : List UInt8) : Stays v (terminalPuts v s) :=
  List.foldlRecOn s terminalPutchar (.refl v) fun _ h c _ => h.trans (terminalPutchar_stays _ c)

theorem color_stays (v : Vga) (c : UInt32) : Stays v { v with curFg := c } :=
  ⟨rfl, rfl, rfl, fun _ hp => hp, fun hv => ⟨hv.written, hv.cursor⟩⟩

theorem terminalClear_marks (v : Vga) : Marks { v with vgaRow := vgaTermStart, vgaCol := 0 }
    (terminalClear v) := by
  have hloop := upto_marks (n := vgaTermEnd - vgaTermStart) (fun k v hk => upto_marks
    (fun c v hc => put_marks (v := v) (e := blank) (r := vgaTermStart + k) (c := c)
      ⟨Nat.le_add_right _ _, Nat.lt_of_lt_of_le (Nat.add_lt_add_left hk _) (by decide), hc⟩) v) v
  obtain ⟨cells, ws, heq, hws⟩ := hloop
  refine ⟨cells, ws, ?_, hws⟩
  unfold terminalClear
  rw [heq]

theorem output_stays (v : Vga) (o : Output) : Stays v (output v o) := by
  cases o with
  | putchar c => exact terminalPutchar_stays v c
  | setColorFg idx => exact color_stays v _
  | resetColor => exact color_stays v _
  | clear =>
    refine (moved_stays v fun _ => ?_).trans (terminalClear_marks v).stays
    exact ⟨le_rfl, show 3 < 24 by decide, show 0 < 80 by decide⟩
  | setPromptPath path => exact ⟨rfl, rfl, rfl, fun _ hp => hp, fun hv => ⟨hv.written, hv.cursor⟩⟩

theorem printPrompt_stays (v : Vga) : Stays v (printPrompt v) := by
  have hpath (v : Vga) : Stays v (if v.promptPath.head? = some 0x2F ∧ v.promptPath.length ≠ 1 then
      terminalPuts v v.promptPath else v) := by
    split
    · exact terminalPuts_stays v _
    · exact .refl v
  have hname := ((vgaShowCursor_stays v false).trans (color_stays _ Color.prompt)).trans
    (terminalPuts_stays _ [0x73, 0x61, 0x62, 0x61, 0x6B, 0x61])
  have hat := (hname.trans (color_stays _ Color.promptAt)).trans (terminalPutchar_stays _ 0x40)
  have hhost := (hat.trans (color_stays _ Color.promptHost)).trans
    (terminalPuts_stays _ [0x53, 0x61, 0x62, 0x61, 0x6B, 0x61, 0x4F, 0x53])
  have hcolon := (hhost.trans (color_stays _ Color.white)).trans
    (terminalPuts_stays _ [0x3A, space])
  have htilde := (hcolon.trans (color_stays _ Color.promptPath)).trans (terminalPuts_stays _ [0x7E])
  exact (((htilde.trans (hpath _)).trans (color_stays _ Color.promptArrow)).trans
    (terminalPuts_stays _ [space, 0x3E, space])).trans (color_stays _ Color.input)

end Marking

end Terminal
