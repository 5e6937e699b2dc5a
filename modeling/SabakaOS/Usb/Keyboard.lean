import Mathlib.Data.List.Count
import SabakaOS.Library.Fold
import SabakaOS.Library.Ring

namespace Kbd

def ascii (c : Char) : UInt8 := UInt8.ofNat c.toNat

def hidKeys : List UInt8 :=
  List.replicate 4 0 ++
  ['a', 'b', 'c', 'd', 'e', 'f', 'g', 'h',
    'i', 'j', 'k', 'l', 'm', 'n', 'o', 'p',
    'q', 'r', 's', 't', 'u', 'v', 'w', 'x',
    'y', 'z',
    '1', '2', '3', '4', '5', '6', '7', '8', '9', '0'].map ascii ++
  [10, 27, 8, 9, 32] ++
  ['-', '=', '[', ']', '\x5c', '\x00', ';', '\x27',
    '\x60', ',', '.', '/'].map ascii ++
  List.replicate 27 0 ++
  ['/', '*', '-', '+', '\x0a',
    '1', '2', '3', '4', '5', '6', '7', '8', '9', '0', '.'].map ascii

def hidShiftKeys : List UInt8 :=
  List.replicate 4 0 ++
  ['A', 'B', 'C', 'D', 'E', 'F', 'G', 'H',
    'I', 'J', 'K', 'L', 'M', 'N', 'O', 'P',
    'Q', 'R', 'S', 'T', 'U', 'V', 'W', 'X',
    'Y', 'Z',
    '!', '@', '#', '$', '%', '^', '&', '*', '(', ')'].map ascii ++
  [10, 27, 8, 9, 32] ++
  ['_', '+', '\x7b', '\x7d', '|', '\x00', ':', '\x22',
    '~', '<', '>', '?'].map ascii ++
  List.replicate 27 0 ++
  ['/', '*', '-', '+', '\x0a',
    '1', '2', '3', '4', '5', '6', '7', '8', '9', '0', '.'].map ascii

-- The rest of the 256 entries is 0.
def hidMap (kc : UInt8) : UInt8 := hidKeys.getD kc.toNat 0

def hidShiftMap (kc : UInt8) : UInt8 := hidShiftKeys.getD kc.toNat 0

def modLshift : UInt8 := 0x02

def modRshift : UInt8 := 0x20

def modShift : UInt8 := modLshift ||| modRshift

def capsLock : UInt8 := 0x39

def bufSize : Nat := 256

structure HidKeyState where
  modifier : UInt8
  keycodes : List UInt8
  six : keycodes.length = 6

structure Push where
  key : UInt8
  char : UInt8

-- pushes records the calls of buf_push with the key each is for, calls the characters handed to
-- the callback and toggles how often caps has been turned over; no function reads them.
structure Keyboard where
  buf : Nat → UInt8
  bufHead : Nat
  bufTail : Nat
  caps : Bool
  userCb : Bool
  prevKeys : List UInt8
  pushes : List Push
  calls : List UInt8
  toggles : Nat

def keyboardInit : Keyboard where
  buf := fun _ => 0
  bufHead := 0
  bufTail := 0
  caps := false
  userCb := false
  prevKeys := List.replicate 6 0
  pushes := []
  calls := []
  toggles := 0

def bufPush (c : UInt8) (k : Keyboard) : Keyboard :=
  let next := (k.bufHead + 1) % bufSize
  if next ≠ k.bufTail then { k with buf := Function.update k.buf k.bufHead c, bufHead := next }
  else k

def onCapsLock (k : Keyboard) (kc : UInt8) : Keyboard :=
  if kc ≠ capsLock then k
  else if capsLock ∈ k.prevKeys then k
  else { k with caps := !k.caps, toggles := k.toggles + 1 }

def translate (shift caps : Bool) (kc : UInt8) : UInt8 :=
  let c := if shift then hidShiftMap kc else hidMap kc
  if caps then
    if ascii 'a' ≤ c ∧ c ≤ ascii 'z' then c - 32
    else if ascii 'A' ≤ c ∧ c ≤ ascii 'Z' ∧ ¬shift then c + 32
    else c
  else c

def pushKey (kc c : UInt8) (k : Keyboard) : Keyboard :=
  let k := { bufPush c k with pushes := ⟨kc, c⟩ :: k.pushes }
  if k.userCb then { k with calls := c :: k.calls } else k

def onKey (shift : Bool) (k : Keyboard) (kc : UInt8) : Keyboard :=
  if kc = 0 ∨ kc = 0x01 then k
  else if kc ∈ k.prevKeys then k
  else
    let c := translate shift k.caps kc
    if c = 0 then k else pushKey kc c k

def onKeyboard (ks : HidKeyState) (k : Keyboard) : Keyboard :=
  let shift := ks.modifier &&& modShift != 0
  let k := ks.keycodes.foldl onCapsLock k
  let k := ks.keycodes.foldl (onKey shift) k
  { k with prevKeys := ks.keycodes }

def keyboardGetchar (k : Keyboard) : UInt8 × Keyboard :=
  if k.bufHead = k.bufTail then (0, k)
  else (k.buf k.bufTail, { k with bufTail := (k.bufTail + 1) % bufSize })

inductive Event where
  | report (ks : HidKeyState)
  | getchar
  | setCallback (cb : Bool)

def step (k : Keyboard) : Event → Keyboard
  | .report ks => onKeyboard ks k
  | .getchar => (keyboardGetchar k).2
  | .setCallback cb => { k with userCb := cb }

-- An error report says nothing about the keys.
def HidKeyState.rollover (ks : HidKeyState) : Prop := ks.keycodes = List.replicate 6 0x01

instance (ks : HidKeyState) : Decidable ks.rollover := inferInstanceAs (Decidable (_ = _))

-- The keys that are held down, as the reports tell it: held is what the last report that was no
-- error lists, error whether the last report was one.
structure Fingers where
  held : List UInt8
  error : Bool
  presses : UInt8 → Nat

def noFingers : Fingers where
  held := List.replicate 6 0
  error := false
  presses := fun _ => 0

def follow (f : Fingers) : Event → Fingers
  | .report ks =>
    if ks.rollover then { f with error := true }
    else {
      held := ks.keycodes
      error := false
      presses := fun key => f.presses key + if key ∈ ks.keycodes ∧ key ∉ f.held then 1 else 0 }
  | _ => f

def watch (s : Keyboard × Fingers) (ev : Event) : Keyboard × Fingers := (step s.1 ev, follow s.2 ev)

def run (evs : List Event) : Keyboard × Fingers := evs.foldl watch (keyboardInit, noFingers)

def CharacterKey (key : UInt8) : Prop := hidMap key ≠ 0

instance (key : UInt8) : Decidable (CharacterKey key) := inferInstanceAs (Decidable (_ ≠ _))

def pushed (k : Keyboard) (key : UInt8) : Nat := (k.pushes.map Push.key).count key

structure Exact (s : Keyboard × Fingers) : Prop where
  characters : ∀ key, CharacterKey key → pushed s.1 key = s.2.presses key
  caps : s.1.toggles = s.2.presses capsLock

-- A key that is held is not listed after an error report, and a key pressed is not listed twice.
def Clean (f : Fingers) (ks : HidKeyState) : Prop :=
  ¬ks.rollover → ∀ key ∈ ks.keycodes, CharacterKey key ∨ key = capsLock →
    (key ∈ f.held → f.error = false) ∧ (key ∉ f.held → ks.keycodes.count key = 1)

def Fits (s : Keyboard × Fingers) : Event → Prop
  | .report ks => Clean s.2 ks
  | _ => True

section Buffer

variable {k : Keyboard} {len : Nat}

theorem bufPush_next (hhead : k.bufHead = (k.bufTail + len) % bufSize) :
    (k.bufHead + 1) % bufSize = (k.bufTail + (len + 1)) % bufSize := by
  rw [hhead, Nat.mod_add_mod, Nat.add_assoc]

-- A character is put behind those that wait, as long as there is room.
theorem bufPush_stores (c : UInt8) (hlen : len + 1 < bufSize)
    (hhead : k.bufHead = (k.bufTail + len) % bufSize) :
    Ring.contents bufSize (bufPush c k).buf (bufPush c k).bufTail (len + 1) =
        Ring.contents bufSize k.buf k.bufTail len ++ [c] ∧
      (bufPush c k).bufHead = ((bufPush c k).bufTail + (len + 1)) % bufSize := by
  have hroom : (k.bufTail + (len + 1)) % bufSize ≠ k.bufTail := by
    unfold bufSize at *
    omega
  unfold bufPush
  dsimp only
  rw [bufPush_next hhead, if_pos hroom]
  dsimp only
  rw [Ring.contents_snoc, hhead, Ring.contents_update _ _ (Nat.lt_of_succ_lt hlen),
    Function.update_self]
  exact ⟨rfl, rfl⟩

theorem bufPush_full (c : UInt8) (htail : k.bufTail < bufSize) (hlen : len + 1 = bufSize)
    (hhead : k.bufHead = (k.bufTail + len) % bufSize) : bufPush c k = k := by
  have hfull : (k.bufTail + (len + 1)) % bufSize = k.bufTail := by
    rw [hlen, Nat.add_mod_right, Nat.mod_eq_of_lt htail]
  unfold bufPush
  dsimp only
  rw [bufPush_next hhead, if_neg (not_not.mpr hfull)]

end Buffer

section Loops

variable {k : Keyboard} {key : UInt8} {β : Type*} {f : Keyboard → UInt8 → Keyboard}

theorem foldl_same {m : Keyboard → β} (h : ∀ k kc, m (f k kc) = m k) (keys : List UInt8)
    (k : Keyboard) : m (keys.foldl f k) = m k := by
  induction keys generalizing k with
  | nil => rfl
  | cons kc keys ih => exact (ih (f k kc)).trans (h k kc)

-- A loop that counts each time it meets key, unless the last report lists it.
theorem foldl_counts {m : Keyboard → Nat} (hprev : ∀ k kc, (f k kc).prevKeys = k.prevKeys)
    (hm : ∀ k kc, m (f k kc) = m k + if kc = key ∧ key ∉ k.prevKeys then 1 else 0)
    (keys : List UInt8) (k : Keyboard) :
    m (keys.foldl f k) = m k + if key ∈ k.prevKeys then 0 else keys.count key := by
  induction keys generalizing k with
  | nil =>
    rw [List.count_nil, ite_self]
    rfl
  | cons kc keys ih =>
    rw [List.foldl_cons, ih, hprev, hm, List.count_cons]
    by_cases hheld : key ∈ k.prevKeys
    · simp only [hheld, not_true_eq_false, and_false, if_true, if_false]
    · by_cases hkc : kc = key
      · simp only [hheld, hkc, not_false_eq_true, and_self, if_true, if_false, beq_self_eq_true]
        omega
      · simp only [hheld, hkc, false_and, if_false, beq_iff_eq, Nat.add_zero]

theorem onCapsLock_prevKeys (k : Keyboard) (kc : UInt8) :
    (onCapsLock k kc).prevKeys = k.prevKeys := by
  unfold onCapsLock
  split_ifs <;> rfl

theorem onCapsLock_pushes (k : Keyboard) (kc : UInt8) : (onCapsLock k kc).pushes = k.pushes := by
  unfold onCapsLock
  split_ifs <;> rfl

theorem onCapsLock_toggles (k : Keyboard) (kc : UInt8) : (onCapsLock k kc).toggles =
    k.toggles + if kc = capsLock ∧ capsLock ∉ k.prevKeys then 1 else 0 := by
  unfold onCapsLock
  by_cases hkc : kc = capsLock
  · by_cases hheld : capsLock ∈ k.prevKeys
    · simp [hkc, hheld]
    · simp [hkc, hheld]
  · simp [hkc]

theorem translate_eq_zero (shift caps : Bool) (kc : UInt8) :
    translate shift caps kc = 0 ↔ hidMap kc = 0 := by
  have hall : ∀ shift caps : Bool, ∀ n < 256,
      (translate shift caps (UInt8.ofNat n) = 0 ↔ hidMap (UInt8.ofNat n) = 0) := by
    decide +kernel
  have h := hall shift caps kc.toNat kc.toNat_lt
  rwa [UInt8.ofNat_toNat] at h

theorem CharacterKey.not_skipped (h : CharacterKey key) : ¬(key = 0 ∨ key = 0x01) := by
  rintro (rfl | rfl)
  · exact h (by decide)
  · exact h (by decide)

theorem bufPush_eq (c : UInt8) (k : Keyboard) :
    ∃ buf head, bufPush c k = { k with buf := buf, bufHead := head } := by
  unfold bufPush
  dsimp only
  split
  · exact ⟨_, _, rfl⟩
  · exact ⟨k.buf, k.bufHead, rfl⟩

theorem pushKey_eq (kc c : UInt8) (k : Keyboard) : ∃ buf head calls, pushKey kc c k =
    { k with buf := buf, bufHead := head, pushes := ⟨kc, c⟩ :: k.pushes, calls := calls } := by
  obtain ⟨buf, head, hpush⟩ := bufPush_eq c k
  unfold pushKey
  rw [hpush]
  dsimp only
  split
  · exact ⟨buf, head, _, rfl⟩
  · exact ⟨buf, head, k.calls, rfl⟩

-- A key code does nothing, or it is pushed because it is a character key that was not down.
theorem onKey_cases (shift : Bool) (k : Keyboard) (kc : UInt8) :
    (¬(CharacterKey kc ∧ kc ∉ k.prevKeys) ∧ onKey shift k kc = k) ∨
      (CharacterKey kc ∧ kc ∉ k.prevKeys ∧ ∃ c buf head calls, onKey shift k kc =
        { k with buf := buf, bufHead := head, pushes := ⟨kc, c⟩ :: k.pushes, calls := calls }) := by
  unfold onKey
  dsimp only
  split_ifs with hskip hheld hzero
  · exact .inl ⟨fun h => h.1.not_skipped hskip, rfl⟩
  · exact .inl ⟨fun h => h.2 hheld, rfl⟩
  · exact .inl ⟨fun h => h.1 ((translate_eq_zero ..).mp hzero), rfl⟩
  · exact .inr ⟨mt (translate_eq_zero ..).mpr hzero, hheld, _, pushKey_eq ..⟩

theorem onKey_prevKeys (shift : Bool) (k : Keyboard) (kc : UInt8) :
    (onKey shift k kc).prevKeys = k.prevKeys := by
  obtain ⟨-, h⟩ | ⟨-, -, c, buf, head, calls, h⟩ := onKey_cases shift k kc
  · rw [h]
  · rw [h]

theorem onKey_toggles (shift : Bool) (k : Keyboard) (kc : UInt8) :
    (onKey shift k kc).toggles = k.toggles := by
  obtain ⟨-, h⟩ | ⟨-, -, c, buf, head, calls, h⟩ := onKey_cases shift k kc
  · rw [h]
  · rw [h]

theorem onKey_pushed (hkey : CharacterKey key) (shift : Bool) (k : Keyboard) (kc : UInt8) :
    pushed (onKey shift k kc) key =
      pushed k key + if kc = key ∧ key ∉ k.prevKeys then 1 else 0 := by
  obtain ⟨hnot, h⟩ | ⟨-, hheld, c, buf, head, calls, h⟩ := onKey_cases shift k kc
  · have hidle : ¬(kc = key ∧ key ∉ k.prevKeys) := by
      rintro ⟨rfl, hheld⟩
      exact hnot ⟨hkey, hheld⟩
    rw [h, if_neg hidle, Nat.add_zero]
  · rw [h, pushed, pushed, List.map_cons, List.count_cons]
    by_cases hkc : kc = key
    · subst hkc
      rw [if_pos (beq_self_eq_true _), if_pos ⟨rfl, hheld⟩]
    · rw [if_neg (mt beq_iff_eq.mp hkc), if_neg fun h => hkc h.1]

end Loops

section Reports

variable {k : Keyboard} {key : UInt8} {ks : HidKeyState}

theorem onKeyboard_pushed (hkey : CharacterKey key) (ks : HidKeyState) (k : Keyboard) :
    pushed (onKeyboard ks k) key =
      pushed k key + if key ∈ k.prevKeys then 0 else ks.keycodes.count key := by
  have hcaps : (ks.keycodes.foldl onCapsLock k).prevKeys = k.prevKeys :=
    foldl_same (m := Keyboard.prevKeys) onCapsLock_prevKeys ks.keycodes k
  have hpushes : (ks.keycodes.foldl onCapsLock k).pushes = k.pushes :=
    foldl_same (m := Keyboard.pushes) onCapsLock_pushes ks.keycodes k
  have hkeys := foldl_counts (m := fun k => pushed k key)
    (onKey_prevKeys (ks.modifier &&& modShift != 0)) (onKey_pushed hkey _) ks.keycodes
    (ks.keycodes.foldl onCapsLock k)
  rw [hcaps] at hkeys
  refine hkeys.trans ?_
  rw [pushed, hpushes]
  rfl

theorem onKeyboard_toggles (ks : HidKeyState) (k : Keyboard) :
    (onKeyboard ks k).toggles =
      k.toggles + if capsLock ∈ k.prevKeys then 0 else ks.keycodes.count capsLock := by
  have hcaps := foldl_counts (m := Keyboard.toggles) onCapsLock_prevKeys onCapsLock_toggles
    ks.keycodes k
  have hkeys := foldl_same (m := Keyboard.toggles) (onKey_toggles (ks.modifier &&& modShift != 0))
    ks.keycodes (ks.keycodes.foldl onCapsLock k)
  exact hkeys.trans hcaps

-- s_prev_keys is what the last report listed, an error report too.
structure Kept (s : Keyboard × Fingers) : Prop extends Exact s where
  prevKeys : s.1.prevKeys = if s.2.error then List.replicate 6 0x01 else s.2.held

theorem not_rollover_key (h : CharacterKey key ∨ key = capsLock) : key ∉ List.replicate 6 0x01 := by
  intro hmem
  rw [List.eq_of_mem_replicate hmem] at h
  rcases h with h | h
  · exact h (by decide)
  · exact absurd h (by decide)

-- How often key is found to be new, and how often it has been pressed.
theorem counted_iff {prev : List UInt8} {f : Fingers}
    (hkey : CharacterKey key ∨ key = capsLock)
    (hprev : prev = if f.error then List.replicate 6 0x01 else f.held) (keys : List UInt8) :
    (if key ∈ prev then 0 else keys.count key) = (if key ∈ keys ∧ key ∉ f.held then 1 else 0) ↔
      (key ∈ keys → (key ∈ f.held → f.error = false) ∧ (key ∉ f.held → keys.count key = 1)) := by
  by_cases hlisted : key ∈ keys
  · have hpos : 0 < keys.count key := List.count_pos_iff.mpr hlisted
    cases herr : f.error with
    | false =>
      have hsame : key ∈ prev ↔ key ∈ f.held := by
        rw [hprev, herr]
        rfl
      by_cases hheld : key ∈ f.held
      · simp [hsame, hheld]
      · simp [hsame, hheld, hlisted]
    | true =>
      have hnot : key ∉ prev := by
        rw [hprev, herr]
        exact not_rollover_key hkey
      by_cases hheld : key ∈ f.held
      · simp [hnot, hheld, hlisted, hpos.ne']
      · simp [hnot, hheld, hlisted]
  · simp [hlisted, List.count_eq_zero_of_not_mem hlisted]

theorem HidKeyState.rollover.skips (h : ks.rollover) (hkey : CharacterKey key ∨ key = capsLock) :
    ks.keycodes.count key = 0 := by
  rw [show ks.keycodes = List.replicate 6 0x01 from h]
  exact List.count_eq_zero_of_not_mem (not_rollover_key hkey)

theorem report_exact_iff {s : Keyboard × Fingers} (h : Kept s) (ks : HidKeyState) :
    Exact (watch s (.report ks)) ↔ Clean s.2 ks := by
  obtain ⟨k, f⟩ := s
  obtain ⟨⟨hchars, hcaps⟩, hprev⟩ := h
  dsimp only at hchars hcaps hprev
  by_cases hroll : ks.rollover
  · have hsame : (watch (k, f) (.report ks)).2.presses = f.presses := by
      show (follow f (.report ks)).presses = f.presses
      rw [follow, if_pos hroll]
    refine iff_of_true ⟨fun key hkey => ?_, ?_⟩ fun hnot => absurd hroll hnot
    · rw [hsame, ← hchars key hkey]
      refine (onKeyboard_pushed hkey ks k).trans ?_
      rw [hroll.skips (.inl hkey), ite_self, Nat.add_zero]
    · rw [hsame, ← hcaps]
      refine (onKeyboard_toggles ks k).trans ?_
      rw [hroll.skips (.inr rfl), ite_self, Nat.add_zero]
  · have hpresses (key : UInt8) : (watch (k, f) (.report ks)).2.presses key =
        f.presses key + if key ∈ ks.keycodes ∧ key ∉ f.held then 1 else 0 := by
      show (follow f (.report ks)).presses key = _
      rw [follow, if_neg hroll]
    have hchar {key : UInt8} (hkey : CharacterKey key) :
        pushed (watch (k, f) (.report ks)).1 key = (watch (k, f) (.report ks)).2.presses key ↔
          (key ∈ ks.keycodes → (key ∈ f.held → f.error = false) ∧
            (key ∉ f.held → ks.keycodes.count key = 1)) := by
      rw [← counted_iff (.inl hkey) hprev, hpresses, ← hchars key hkey]
      exact (Eq.congr_left (onKeyboard_pushed hkey ks k)).trans Nat.add_left_cancel_iff
    have hlock : (watch (k, f) (.report ks)).1.toggles =
        (watch (k, f) (.report ks)).2.presses capsLock ↔
          (capsLock ∈ ks.keycodes → (capsLock ∈ f.held → f.error = false) ∧
            (capsLock ∉ f.held → ks.keycodes.count capsLock = 1)) := by
      rw [← counted_iff (.inr rfl) hprev, hpresses, ← hcaps]
      exact (Eq.congr_left (onKeyboard_toggles ks k)).trans Nat.add_left_cancel_iff
    constructor
    · intro hexact _ key hlisted hkey
      rcases hkey with hkey | rfl
      · exact (hchar hkey).mp (hexact.characters key hkey) hlisted
      · exact hlock.mp hexact.caps hlisted
    · intro hclean
      exact ⟨fun key hkey => (hchar hkey).mpr fun hlisted => hclean hroll key hlisted (.inl hkey),
        hlock.mpr fun hlisted => hclean hroll capsLock hlisted (.inr rfl)⟩

theorem watch_prevKeys {s : Keyboard × Fingers}
    (h : s.1.prevKeys = if s.2.error then List.replicate 6 0x01 else s.2.held) (ev : Event) :
    (watch s ev).1.prevKeys =
      if (watch s ev).2.error then List.replicate 6 0x01 else (watch s ev).2.held := by
  cases ev with
  | report ks =>
    show ks.keycodes = if (follow s.2 (.report ks)).error then List.replicate 6 0x01
      else (follow s.2 (.report ks)).held
    by_cases hroll : ks.rollover
    · rw [follow, if_pos hroll]
      exact hroll
    · rw [follow, if_neg hroll]
      rfl
  | getchar =>
    refine Eq.trans ?_ h
    show (keyboardGetchar s.1).2.prevKeys = s.1.prevKeys
    unfold keyboardGetchar
    split <;> rfl
  | setCallback cb => exact h

-- What is no report has no part in the counts.
theorem Exact.other {s : Keyboard × Fingers} (h : Exact s) {ev : Event}
    (hev : ∀ ks, ev ≠ .report ks) : Exact (watch s ev) := by
  cases ev with
  | report ks => exact absurd rfl (hev ks)
  | getchar =>
    have hsame : (keyboardGetchar s.1).2.pushes = s.1.pushes ∧
        (keyboardGetchar s.1).2.toggles = s.1.toggles := by
      unfold keyboardGetchar
      split
      · exact ⟨rfl, rfl⟩
      · exact ⟨rfl, rfl⟩
    refine ⟨fun key hkey => ?_, hsame.2.trans h.caps⟩
    rw [← show s.2.presses key = (watch s .getchar).2.presses key from rfl, ← h.characters key hkey]
    exact congrArg (fun pushes => (pushes.map Push.key).count key) hsame.1
  | setCallback cb => exact ⟨h.characters, h.caps⟩

theorem watch_exact_iff {s : Keyboard × Fingers} (h : Kept s) (ev : Event) :
    Exact (watch s ev) ↔ Fits s ev := by
  cases ev with
  | report ks => exact report_exact_iff h ks
  | getchar => exact iff_of_true (h.toExact.other fun _ h => by cases h) trivial
  | setCallback cb => exact iff_of_true (h.toExact.other fun _ h => by cases h) trivial

end Reports

theorem presses_exact_iff (evs : List Event) :
    (∀ pre, pre <+: evs → Exact (run pre)) ↔ ∀ pre ev, pre ++ [ev] <+: evs → Fits (run pre) ev := by
  refine Fold.good_iff_fits Kept evs ?_ (fun s ev h hfits => ?_) (fun s ev h hnot => ?_) fun _ h =>
    h.toExact
  · exact ⟨⟨fun _ _ => rfl, rfl⟩, rfl⟩
  · exact ⟨(watch_exact_iff h ev).mpr hfits, watch_prevKeys h.prevKeys ev⟩
  · exact fun hexact => hnot ((watch_exact_iff h ev).mp hexact)

def keyA : HidKeyState := ⟨0, [0x04, 0, 0, 0, 0, 0], rfl⟩

def errorReport : HidKeyState := ⟨0, List.replicate 6 0x01, rfl⟩

-- The key a stays down while an error is reported, and is taken for pressed again.
theorem rollover_repeats :
    ¬∀ pre, pre <+: [.report keyA, .report errorReport, .report keyA] → Exact (run pre) := by
  intro hall
  have hkey := (hall _ List.prefix_rfl).characters 0x04 (by decide)
  exact absurd hkey (by decide)

end Kbd
