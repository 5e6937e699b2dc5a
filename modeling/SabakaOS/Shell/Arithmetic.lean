import Mathlib.Data.List.DropRight
import Mathlib.Data.UInt
import SabakaOS.Shell.Osmath

namespace Osmath

open Prog

def Numeral := { ds : List UInt8 // ds ≠ [] ∧ ∀ c ∈ ds, isDigit c = true }

def Numeral.value (n : Numeral) : Nat :=
  n.val.foldl (fun v c => v * 10 + (c.toNat - 48)) 0

inductive Expr where
  | num (n : Numeral)
  | bin (op : Op) (l r : Expr)

def Expr.eval : Expr → Value
  | .num n => .ok (UInt32.ofNat n.value)
  | .bin op l r => do
    let a ← l.eval
    let b ← r.eval
    op.apply a b

inductive Level where
  | factor
  | term
  | expression

def spaces (n : Nat) : List UInt8 := List.replicate n space

-- The ways to write an expression where a factor, a term or any expression may stand.
inductive Written : Level → Expr → List UInt8 → Prop where
  | numeral (k : Nat) (n : Numeral) : Written .factor (.num n) (spaces k ++ n.val)
  | parens {e : Expr} {t : List UInt8} (k m : Nat) : Written .expression e t →
      Written .factor e (spaces k ++ openParen :: (t ++ (spaces m ++ [closeParen])))
  | factor {e : Expr} {t : List UInt8} : Written .factor e t → Written .term e t
  | product {op : Op} {l r : Expr} {t u : List UInt8} (k : Nat) : op = .mul ∨ op = .div →
      Written .term l t → Written .factor r u →
      Written .term (.bin op l r) (t ++ (spaces k ++ op.char :: u))
  | term {e : Expr} {t : List UInt8} : Written .term e t → Written .expression e t
  | sum {op : Op} {l r : Expr} {t u : List UInt8} (k : Nat) : op = .add ∨ op = .sub →
      Written .expression l t → Written .term r u →
      Written .expression (.bin op l r) (t ++ (spaces k ++ op.char :: u))

-- With enough fuel the function ends so: at a value and a place in the text, or at a fault.
def Gives (p : Nat → Parser Value) (s : Cursor) : Except Fault (UInt32 × Cursor) → Prop
  | .ok (v, s') => ∃ n, ∀ fuel, n ≤ fuel → p fuel s = (some (.ok v), s')
  | .error f => ∃ n, ∀ fuel, n ≤ fuel → (p fuel s).1 = some (.error f)

section Steps

variable {p q : Nat → Parser Value} {s s' : Cursor} {r : Except Fault (UInt32 × Cursor)}
  {v : UInt32} {f : Fault}

theorem Gives.step (hq : Gives q s' r)
    (h : ∃ n, ∀ fuel, n ≤ fuel → p (fuel + 1) s = q fuel s') : Gives p s r := by
  obtain ⟨m, hp⟩ := h
  match r, hq with
  | .ok (v, s''), ⟨n, hq⟩ =>
    refine ⟨max m n + 1, fun fuel hf => ?_⟩
    obtain ⟨k, rfl⟩ := Nat.exists_eq_add_of_lt (Nat.lt_of_succ_le hf)
    rw [hp _ (by omega), hq _ (by omega)]
  | .error f, ⟨n, hq⟩ =>
    refine ⟨max m n + 1, fun fuel hf => ?_⟩
    obtain ⟨k, rfl⟩ := Nat.exists_eq_add_of_lt (Nat.lt_of_succ_le hf)
    rw [hp _ (by omega), hq _ (by omega)]

theorem Gives.value (h : ∃ n, ∀ fuel, n ≤ fuel → p (fuel + 1) s = (some (.ok v), s')) :
    Gives p s (.ok (v, s')) := by
  obtain ⟨n, h⟩ := h
  refine ⟨n + 1, fun fuel hf => ?_⟩
  obtain ⟨k, rfl⟩ := Nat.exists_eq_add_of_le hf
  rw [Nat.add_right_comm]
  exact h _ (Nat.le_add_right n k)

theorem Gives.fault (h : ∃ n, ∀ fuel, n ≤ fuel → (p (fuel + 1) s).1 = some (.error f)) :
    Gives p s (.error f) := by
  obtain ⟨n, h⟩ := h
  refine ⟨n + 1, fun fuel hf => ?_⟩
  obtain ⟨k, rfl⟩ := Nat.exists_eq_add_of_le hf
  rw [Nat.add_right_comm]
  exact h _ (Nat.le_add_right n k)

end Steps

section Text

variable {s rest : Cursor} {c : UInt8} {k : Nat} {ds : List UInt8} {v : UInt32}

def skipped (s : Cursor) : Cursor := s.dropWhile (· = space)

def NoDigit (s : Cursor) : Prop := ∀ c ∈ s.head?, isDigit c = false

-- Behind its spaces the text goes on with neither of two operators.
def Stops (a b : Op) (s : Cursor) : Prop := ∀ c ∈ (skipped s).head?, c ≠ a.char ∧ c ≠ b.char

theorem skipped_spaces (k : Nat) (s : Cursor) : skipped (spaces k ++ s) = skipped s :=
  List.dropWhile_append_of_pos fun _ hc => decide_eq_true (List.eq_of_mem_replicate hc)

theorem skipped_cons (h : c ≠ space) (s : Cursor) : skipped (c :: s) = c :: s :=
  List.dropWhile_cons_of_neg (by simpa using h)

theorem skipped_skipped (s : Cursor) : skipped (skipped s) = skipped s :=
  List.dropWhile_idempotent ..

theorem noDigit_spaces (h : NoDigit s) (k : Nat) : NoDigit (spaces k ++ s) := by
  cases k with
  | zero => exact h
  | succ k =>
    intro c hc
    obtain rfl : c = space := by simpa [spaces, List.replicate_succ, eq_comm] using hc
    decide

theorem Op.char_ne_space (op : Op) : op.char ≠ space := by
  cases op <;> decide

theorem Op.char_noDigit (op : Op) : isDigit op.char = false := by
  cases op <;> decide

theorem noDigit_op (op : Op) (k : Nat) (s : Cursor) : NoDigit (spaces k ++ op.char :: s) :=
  noDigit_spaces (fun c hc => by
    obtain rfl : op.char = c := by simpa using hc
    exact op.char_noDigit) k

theorem skipped_op (op : Op) (k : Nat) (s : Cursor) :
    skipped (spaces k ++ op.char :: s) = op.char :: s := by
  rw [skipped_spaces, skipped_cons op.char_ne_space]

theorem numberFrom_digits (hds : ∀ c ∈ ds, isDigit c = true) (hrest : NoDigit rest) (n : Nat) :
    numberFrom (UInt32.ofNat n) (ds ++ rest) =
      (UInt32.ofNat (ds.foldl (fun v c => v * 10 + (c.toNat - 48)) n), rest) := by
  induction ds generalizing n with
  | nil =>
    cases rest with
    | nil => rfl
    | cons c rest =>
      have hc : isDigit c = false := hrest c rfl
      simp [numberFrom, hc]
  | cons c ds ih =>
    have hc : isDigit c = true := hds c List.mem_cons_self
    have hvalue : UInt32.ofNat n * 10 + digitValue c = UInt32.ofNat (n * 10 + (c.toNat - 48)) := by
      have hle : (0x30 : UInt8) ≤ c := by
        simp only [isDigit, Bool.and_eq_true, decide_eq_true_eq] at hc
        exact hc.1
      have hdigit : digitValue c = UInt32.ofNat (c.toNat - 48) := by
        rw [digitValue, ← UInt32.toNat_inj]
        have hlt := c.toNat_lt
        rw [UInt8.toNat_toUInt32, UInt8.toNat_sub_of_le _ _ hle, UInt32.toNat_ofNat_of_lt']
        · rfl
        · change c.toNat - 48 < 2 ^ 32
          omega
      rw [hdigit, UInt32.ofNat_add, UInt32.ofNat_mul]
      rfl
    rw [List.cons_append, numberFrom, if_pos hc, hvalue, List.foldl_cons]
    exact ih (fun d hd => hds d (List.mem_cons_of_mem c hd)) _

end Text

section Functions

variable {a b op : Op} {operand : Parser Value} {loop : UInt32 → Parser Value} {s s₁ s₂ s₃ : Cursor}
  {v x y : UInt32} {f : Fault} {fuel : Nat}

theorem bind_fault {p : Parser Value} {g : Value → Parser Value} (h : (p s).1 = some (.error f))
    (hg : ∀ s', (g (.error f) s').1 = some (.error f)) : ((p >>= g) s).1 = some (.error f) := by
  rw [bind_ended (Prod.ext h rfl)]
  exact hg _

theorem firstThen_value (h : operand s = (some (.ok v), s₁)) :
    firstThen operand loop s = loop v s₁ := by
  rw [firstThen, bind_ended h]

theorem firstThen_fault (h : (operand s).1 = some (.error f)) :
    (firstThen operand loop s).1 = some (.error f) :=
  bind_fault h fun _ => rfl

theorem turn_stops (h : Stops a b s) : turn a b operand loop v s = (some (.ok v), skipped s) := by
  have hc : (skipped s).headD 0 ≠ a.char ∧ (skipped s).headD 0 ≠ b.char := by
    cases hs : skipped s with
    | nil => cases a <;> cases b <;> decide
    | cons c rest => exact h c (by rw [hs]; rfl)
  change (if (skipped s).headD 0 ≠ a.char ∧ (skipped s).headD 0 ≠ b.char then _ else _ :
    Parser Value) (skipped s) = _
  rw [if_pos hc]
  rfl

theorem turn_skipped : turn a b operand loop v (skipped s) = turn a b operand loop v s := by
  have hskip : (skipSpaces : Parser Unit) (skipped s) = (some (), skipped s) :=
    congrArg (Prod.mk (some ())) (skipped_skipped s)
  unfold turn
  rw [bind_ended hskip, bind_ended (show skipSpaces s = (some (), skipped s) from rfl)]

theorem turn_operator (hop : op = a ∨ op = b) (hab : b.char ≠ a.char)
    (hs : skipped s = op.char :: s₁) : turn a b operand loop x s = (operand >>= fun rhs =>
      match rhs with
      | .error f => pure (.error f)
      | .ok rhs =>
        match op.apply x rhs with
        | .error f => pure (.error f)
        | .ok value => loop value) s₁ := by
  have hwhich : (if op.char = a.char then a else b) = op := by
    rcases hop with rfl | rfl
    · exact if_pos rfl
    · exact if_neg hab
  have hsome : ¬(op.char ≠ a.char ∧ op.char ≠ b.char) := by
    rcases hop with rfl | rfl
    · exact fun h => h.1 rfl
    · exact fun h => h.2 rfl
  have hhead : (skipped s).headD 0 = op.char := by rw [hs, List.headD_cons]
  change (if (skipped s).headD 0 ≠ a.char ∧ (skipped s).headD 0 ≠ b.char then pure (.ok x)
    else do
      advance
      let rhs ← operand
      match rhs with
      | .error f => pure (.error f)
      | .ok rhs =>
        match (if (skipped s).headD 0 = a.char then a else b).apply x rhs with
        | .error f => pure (.error f)
        | .ok value => loop value : Parser Value) (skipped s) = _
  rw [hhead, if_neg hsome, hwhich, hs]
  rfl

theorem turn_value (hop : op = a ∨ op = b) (hab : b.char ≠ a.char)
    (hs : skipped s = op.char :: s₁) (hy : operand s₁ = (some (.ok y), s₂))
    (hv : op.apply x y = .ok v) : turn a b operand loop x s = loop v s₂ := by
  rw [turn_operator hop hab hs, bind_ended hy]
  simp only [hv]

theorem turn_fault (hop : op = a ∨ op = b) (hab : b.char ≠ a.char)
    (hs : skipped s = op.char :: s₁) (hy : (operand s₁).1 = some (.error f)) :
    (turn a b operand loop x s).1 = some (.error f) := by
  rw [turn_operator hop hab hs]
  exact bind_fault hy fun _ => rfl

theorem turn_divides (hop : op = a ∨ op = b) (hab : b.char ≠ a.char)
    (hs : skipped s = op.char :: s₁) (hy : operand s₁ = (some (.ok y), s₂))
    (hv : op.apply x y = .error f) : (turn a b operand loop x s).1 = some (.error f) := by
  rw [turn_operator hop hab hs, bind_ended hy]
  simp only [hv]
  rfl

theorem parseFactor_number (h : (skipped s).headD 0 ≠ openParen) : parseFactor (fuel + 1) s =
    (some (.ok (numberFrom 0 (skipped s)).1), (numberFrom 0 (skipped s)).2) := by
  rw [parseFactor]
  change (if (skipped s).headD 0 = openParen then _ else _ : Parser Value) (skipped s) = _
  rw [if_neg h]
  rfl

theorem parseFactor_parens (hs : skipped s = openParen :: s₁) :
    parseFactor (fuel + 1) s = (parseExpression fuel >>= fun value =>
      match value with
      | .error f => pure (.error f)
      | .ok value => do
        skipSpaces
        let c ← current
        if c = closeParen then do
          advance
          pure (.ok value)
        else pure (.ok value)) s₁ := by
  rw [parseFactor]
  change (if (skipped s).headD 0 = openParen then _ else _ : Parser Value) (skipped s) = _
  rw [hs, List.headD_cons, if_pos rfl]
  rfl

theorem parseFactor_value (hs : skipped s = openParen :: s₁)
    (hv : parseExpression fuel s₁ = (some (.ok v), s₂)) (hc : skipped s₂ = closeParen :: s₃) :
    parseFactor (fuel + 1) s = (some (.ok v), s₃) := by
  rw [parseFactor_parens hs, bind_ended hv]
  change (if (skipped s₂).headD 0 = closeParen then _ else _ : Parser Value) (skipped s₂) = _
  rw [hc, List.headD_cons, if_pos rfl]
  rfl

theorem parseFactor_fault (hs : skipped s = openParen :: s₁)
    (hf : (parseExpression fuel s₁).1 = some (.error f)) :
    (parseFactor (fuel + 1) s).1 = some (.error f) := by
  rw [parseFactor_parens hs]
  exact bind_fault hf fun _ => rfl

end Functions

-- From s the function reads e and goes on with its loop at rest.
structure ReadsInto (first : Nat → Parser Value) (loop : Nat → UInt32 → Parser Value) (e : Expr)
    (s rest : Cursor) : Prop where
  value : ∀ v r, e.eval = .ok v → Gives (fun n => loop n v) rest r → Gives first s r
  fault : ∀ f, e.eval = .error f → Gives first s (.error f)

def levelParser : Level → Nat → Parser Value
  | .factor => parseFactor
  | .term => parseTerm
  | .expression => parseExpression

def levelLoop : Level → Nat → UInt32 → Parser Value
  | .factor => fun _ v => pure (.ok v)
  | .term => termLoop
  | .expression => expressionLoop

-- What may stand behind the text of a level without being read as a part of it.
def Behind : Level → Cursor → Prop
  | .expression, rest => NoDigit rest ∧ Stops .mul .div rest
  | _, rest => NoDigit rest

def Reads (level : Level) (e : Expr) (t : List UInt8) : Prop :=
  ∀ rest, Behind level rest →
    ReadsInto (levelParser level) (levelLoop level) e (t ++ rest) rest

section Reading

variable {first p q : Nat → Parser Value} {loop loop' : Nat → UInt32 → Parser Value}
  {e l r : Expr} {s s₁ s₂ rest : Cursor} {t u : List UInt8} {v : UInt32} {a b op : Op} {k m : Nat}
  {res : Except Fault (UInt32 × Cursor)}

theorem gives_skipped (h : Gives (fun n => expressionLoop n v) s res) :
    Gives (fun n => expressionLoop n v) (skipped s) res := by
  have hskip : ∀ n, expressionLoop (n + 1) v (skipped s) = expressionLoop (n + 1) v s :=
    fun n => turn_skipped
  match res, h with
  | .ok (x, s'), ⟨n, h⟩ =>
    exact Gives.value ⟨n, fun fuel hf => (hskip fuel).trans (h _ (by omega))⟩
  | .error f, ⟨n, h⟩ =>
    exact Gives.fault ⟨n, fun fuel hf => (congrArg _ (hskip fuel)).trans (h _ (by omega))⟩

theorem ReadsInto.firstThen (hq : ∀ n, q (n + 1) = firstThen (p n) (loop' n))
    (h : ReadsInto p loop e s rest)
    (hloop : ∀ v, Gives (fun n => loop n v) rest (.ok (v, s₁)))
    (hskip : ∀ v res, Gives (fun n => loop' n v) rest res → Gives (fun n => loop' n v) s₁ res) :
    ReadsInto q loop' e s rest where
  value v res he hres := by
    obtain ⟨n, hp⟩ := h.value v _ he (hloop v)
    refine (hskip v res hres).step ⟨n, fun fuel hf => ?_⟩
    rw [hq, firstThen_value (hp fuel hf)]
  fault f he := by
    obtain ⟨n, hp⟩ := h.fault f he
    refine Gives.fault ⟨n, fun fuel hf => ?_⟩
    rw [hq, firstThen_fault (hp fuel hf)]

theorem ReadsInto.binary (hq : ∀ n x, loop (n + 1) x = turn a b (p n) (loop n) x)
    (hop : op = a ∨ op = b) (hab : b.char ≠ a.char)
    (hl : ReadsInto first loop l s (spaces k ++ op.char :: s₁)) (hr : ReadsInto p loop' r s₁ rest)
    (hloop : ∀ v, Gives (fun n => loop' n v) rest (.ok (v, s₂)))
    (hskip : ∀ v res, Gives (fun n => loop n v) rest res → Gives (fun n => loop n v) s₂ res) :
    ReadsInto first loop (.bin op l r) s rest := by
  have hs := skipped_op op k s₁
  constructor
  · intro v res he hres
    rw [Expr.eval] at he
    cases hx : l.eval with
    | error f => rw [hx] at he; cases he
    | ok x =>
      cases hy : r.eval with
      | error f => rw [hx, hy] at he; cases he
      | ok y =>
        rw [hx, hy] at he
        obtain ⟨n, hp⟩ := hr.value y _ hy (hloop y)
        refine hl.value x res hx ((hskip v res hres).step ⟨n, fun fuel hf => ?_⟩)
        rw [hq, turn_value hop hab hs (hp fuel hf) he]
  · intro f he
    rw [Expr.eval] at he
    cases hx : l.eval with
    | error g =>
      rw [hx] at he
      obtain rfl : g = f := Except.error.inj he
      exact hl.fault g hx
    | ok x =>
      cases hy : r.eval with
      | error g =>
        rw [hx, hy] at he
        obtain rfl : g = f := Except.error.inj he
        obtain ⟨n, hp⟩ := hr.fault g hy
        refine hl.value x _ hx (Gives.fault ⟨n, fun fuel hf => ?_⟩)
        rw [hq, turn_fault hop hab hs (hp fuel hf)]
      | ok y =>
        rw [hx, hy] at he
        obtain ⟨n, hp⟩ := hr.value y _ hy (hloop y)
        refine hl.value x _ hx (Gives.fault ⟨n, fun fuel hf => ?_⟩)
        rw [hq, turn_divides hop hab hs (hp fuel hf) he]

theorem gives_term (h : Stops .mul .div rest) (v : UInt32) :
    Gives (fun n => termLoop n v) rest (.ok (v, skipped rest)) :=
  Gives.value ⟨0, fun _ _ => turn_stops h⟩

theorem gives_expression (h : Stops .add .sub rest) (v : UInt32) :
    Gives (fun n => expressionLoop n v) rest (.ok (v, skipped rest)) :=
  Gives.value ⟨0, fun _ _ => turn_stops h⟩

theorem gives_factor (v : UInt32) :
    Gives (fun n => levelLoop .factor n v) rest (.ok (v, rest)) :=
  ⟨0, fun _ _ => rfl⟩

theorem reads_numeral (k : Nat) (n : Numeral) : Reads .factor (.num n) (spaces k ++ n.val) := by
  intro rest hrest
  obtain ⟨ds, hne, hds⟩ := n
  obtain ⟨c, ds', rfl⟩ := List.exists_cons_of_ne_nil hne
  have hc : isDigit c = true := hds c List.mem_cons_self
  have hskip : skipped ((spaces k ++ c :: ds') ++ rest) = c :: ds' ++ rest := by
    rw [List.append_assoc, skipped_spaces, List.cons_append, skipped_cons]
    rintro rfl
    cases hc
  have hparen : (skipped ((spaces k ++ c :: ds') ++ rest)).headD 0 ≠ openParen := by
    rw [hskip]
    rintro rfl
    cases hc
  constructor
  · intro v r he hr
    refine hr.step ⟨0, fun fuel _ => ?_⟩
    obtain rfl := Except.ok.inj he
    change parseFactor (fuel + 1) _ = _
    rw [parseFactor_number hparen, hskip]
    have hn := numberFrom_digits hds hrest 0
    change numberFrom 0 (c :: ds' ++ rest) = _ at hn
    rw [hn]
    rfl
  · exact fun f he => by cases he

theorem reads_parens (k m : Nat) (h : Reads .expression e t) :
    Reads .factor e (spaces k ++ openParen :: (t ++ (spaces m ++ [closeParen]))) := by
  intro rest _
  have hclose : skipped (spaces m ++ closeParen :: rest) = closeParen :: rest := by
    rw [skipped_spaces, skipped_cons (by decide)]
  have hbehind : Behind .expression (spaces m ++ closeParen :: rest) := by
    refine ⟨noDigit_spaces (fun c hc => ?_) m, fun c hc => ?_⟩
    · obtain rfl : closeParen = c := by simpa using hc
      decide
    · rw [hclose] at hc
      obtain rfl : closeParen = c := by simpa using hc
      decide
  have hstops : Stops .add .sub (spaces m ++ closeParen :: rest) := fun c hc => by
    rw [hclose] at hc
    obtain rfl : closeParen = c := by simpa using hc
    decide
  have htext : (spaces k ++ openParen :: (t ++ (spaces m ++ [closeParen]))) ++ rest =
      spaces k ++ openParen :: (t ++ (spaces m ++ closeParen :: rest)) := by simp
  have hopen : skipped (spaces k ++ openParen :: (t ++ (spaces m ++ closeParen :: rest))) =
      openParen :: (t ++ (spaces m ++ closeParen :: rest)) := by
    rw [skipped_spaces, skipped_cons (by decide)]
  have hin := h _ hbehind
  rw [htext]
  constructor
  · intro v res he hres
    obtain ⟨n, hp⟩ := hin.value v _ he (gives_expression hstops v)
    refine hres.step ⟨n, fun fuel hf => ?_⟩
    exact parseFactor_value hopen (hp fuel hf) ((skipped_skipped _).trans hclose)
  · intro f he
    obtain ⟨n, hp⟩ := hin.fault f he
    exact Gives.fault ⟨n, fun fuel hf => parseFactor_fault hopen (hp fuel hf)⟩

theorem reads_written {level : Level} (h : Written level e t) : Reads level e t := by
  induction h with
  | numeral k n => exact reads_numeral k n
  | parens k m _ ih => exact reads_parens k m ih
  | factor _ ih =>
    intro rest hrest
    exact (ih rest hrest).firstThen (fun _ => rfl) gives_factor (fun _ _ hr => hr)
  | term _ ih =>
    rintro rest ⟨hrest, hstops⟩
    exact (ih rest hrest).firstThen (fun _ => rfl) (gives_term hstops)
      (fun _ _ hr => gives_skipped hr)
  | @product op l r t u k hop _ _ ihl ihr =>
    intro rest hrest
    rw [List.append_assoc, List.append_assoc, List.cons_append]
    exact (ihl _ (noDigit_op op k _)).binary (fun _ _ => rfl) hop (by decide) (ihr rest hrest)
      gives_factor (fun _ _ hr => hr)
  | @sum op l r t u k hop _ _ ihl ihr =>
    rintro rest ⟨hrest, hstops⟩
    have hop' : Stops .mul .div (spaces k ++ op.char :: (u ++ rest)) := fun c hc => by
      rw [skipped_op] at hc
      obtain rfl : op.char = c := by simpa using hc
      rcases hop with rfl | rfl <;> decide
    rw [List.append_assoc, List.append_assoc, List.cons_append]
    exact (ihl _ ⟨noDigit_op op k _, hop'⟩).binary (fun _ _ => rfl) hop (by decide) (ihr rest hrest)
      (gives_term hstops) (fun _ _ hr => gives_skipped hr)

end Reading

theorem spaces_end (m : Nat) : skipped (spaces m) = [] := by
  have h := skipped_spaces m []
  rwa [List.append_nil] at h

-- Whatever parentheses and spaces an expression is written with, its value or its division by
-- zero is what evaluate comes to.
theorem evaluate_written {e : Expr} {t : List UInt8} (h : Written .expression e t) (m : Nat) :
    ∃ n, ∀ fuel, n ≤ fuel → evaluate fuel (t ++ spaces m) = some e.eval := by
  have hnone : ∀ c ∈ (skipped (spaces m)).head?, False := fun c hc => by
    rw [spaces_end] at hc
    cases hc
  have hdigit : NoDigit (spaces m) := by
    have hnil := noDigit_spaces (s := []) (fun c hc => by cases hc) m
    rwa [List.append_nil] at hnil
  have hread := reads_written h (spaces m) ⟨hdigit, fun c hc => (hnone c hc).elim⟩
  cases he : e.eval with
  | error f => exact hread.fault f he
  | ok v =>
    obtain ⟨n, hp⟩ := hread.value v _ he (gives_expression (fun c hc => (hnone c hc).elim) v)
    exact ⟨n, fun fuel hf => congrArg Prod.fst (hp fuel hf)⟩

def digit (d : UInt8) (h : isDigit d = true) : Expr :=
  .num ⟨[d], List.cons_ne_nil _ _, fun c hc => by rwa [List.mem_singleton.mp hc]⟩

-- "8- 2*(1+2) ": the value is 2.
theorem evaluate_written_eight : ∃ n, ∀ fuel, n ≤ fuel →
    evaluate fuel [0x38, 0x2D, 0x20, 0x32, 0x2A, 0x28, 0x31, 0x2B, 0x32, 0x29, 0x20] =
      some (.ok 2) := by
  have hwrite (k : Nat) (d : UInt8) (h : isDigit d = true) :
      Written .factor (digit d h) (spaces k ++ [d]) := .numeral k _
  have hsum : Written .expression (.bin .add (digit 0x31 rfl) (digit 0x32 rfl))
      [0x31, 0x2B, 0x32] :=
    .sum 0 (.inl rfl) (.term (.factor (hwrite 0 0x31 rfl))) (.factor (hwrite 0 0x32 rfl))
  have hproduct : Written .term
      (.bin .mul (digit 0x32 rfl) (.bin .add (digit 0x31 rfl) (digit 0x32 rfl)))
      [0x20, 0x32, 0x2A, 0x28, 0x31, 0x2B, 0x32, 0x29] :=
    .product 0 (.inl rfl) (.factor (hwrite 1 0x32 rfl)) (.parens 0 0 hsum)
  exact evaluate_written (.sum 0 (.inr rfl) (.term (.factor (hwrite 0 0x38 rfl))) hproduct) 1

end Osmath
