import SabakaOS.Library.Prog

namespace Osmath

open Prog

-- The bytes of the expression from the cursor on, without the NUL that ends them.
abbrev Cursor := List UInt8

abbrev Parser (α : Type) := Prog Cursor α

inductive Fault where
  | divideError
  deriving DecidableEq

-- What a function that computes leaves: its value, or the fault that ended it.
abbrev Value := Except Fault UInt32

def space : UInt8 := 0x20

def openParen : UInt8 := 0x28

def closeParen : UInt8 := 0x29

def isDigit (c : UInt8) : Bool := 0x30 ≤ c && c ≤ 0x39

def digitValue (c : UInt8) : UInt32 := (c - 0x30).toUInt32

def current : Parser UInt8 := fun rest => (some (rest.headD 0), rest)

def advance : Parser Unit := modify List.tail

def skipSpaces : Parser Unit := modify fun rest => rest.dropWhile (· = space)

-- The loop of parseNumber.
def numberFrom : UInt32 → List UInt8 → UInt32 × List UInt8
  | value, [] => (value, [])
  | value, c :: rest =>
    if isDigit c then numberFrom (value * 10 + digitValue c) rest else (value, c :: rest)

def parseNumber : Parser Value := fun rest =>
  (some (.ok (numberFrom 0 rest).1), (numberFrom 0 rest).2)

inductive Op where
  | add
  | sub
  | mul
  | div
  deriving DecidableEq

def Op.char : Op → UInt8
  | .add => 0x2B
  | .sub => 0x2D
  | .mul => 0x2A
  | .div => 0x2F

def Op.apply : Op → UInt32 → UInt32 → Value
  | .add, a, b => .ok (a + b)
  | .sub, a, b => .ok (a - b)
  | .mul, a, b => .ok (a * b)
  | .div, a, b => if b = 0 then .error .divideError else .ok (a / b)

-- A turn of the loops of parseTerm and parseExpression, for the operators a and b.
def turn (a b : Op) (operand : Parser Value) (loop : UInt32 → Parser Value) (value : UInt32) :
    Parser Value := do
  skipSpaces
  let op ← current
  if op ≠ a.char ∧ op ≠ b.char then pure (.ok value)
  else do
    advance
    let rhs ← operand
    match rhs with
    | .error f => pure (.error f)
    | .ok rhs =>
      match (if op = a.char then a else b).apply value rhs with
      | .error f => pure (.error f)
      | .ok value => loop value

def firstThen (operand : Parser Value) (loop : UInt32 → Parser Value) : Parser Value := do
  let value ← operand
  match value with
  | .error f => pure (.error f)
  | .ok value => loop value

mutual

def parseFactor : Nat → Parser Value
  | 0 => stopped
  | fuel + 1 => do
    skipSpaces
    let c ← current
    if c = openParen then do
      advance
      let value ← parseExpression fuel
      match value with
      | .error f => pure (.error f)
      | .ok value => do
        skipSpaces
        let c ← current
        if c = closeParen then do
          advance
          pure (.ok value)
        else pure (.ok value)
    else parseNumber

def termLoop : Nat → UInt32 → Parser Value
  | 0, _ => stopped
  | fuel + 1, value => turn .mul .div (parseFactor fuel) (termLoop fuel) value

def parseTerm : Nat → Parser Value
  | 0 => stopped
  | fuel + 1 => firstThen (parseFactor fuel) (termLoop fuel)

def expressionLoop : Nat → UInt32 → Parser Value
  | 0, _ => stopped
  | fuel + 1, value => turn .add .sub (parseTerm fuel) (expressionLoop fuel) value

def parseExpression : Nat → Parser Value
  | 0 => stopped
  | fuel + 1 => firstThen (parseTerm fuel) (expressionLoop fuel)

end

-- none where the fuel was not enough.
def evaluate (fuel : Nat) (expr : List UInt8) : Option Value := (parseExpression fuel expr).1

end Osmath
