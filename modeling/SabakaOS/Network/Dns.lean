import SabakaOS.Library.ByteMemory
import SabakaOS.Library.Prog
import SabakaOS.Library.Word

namespace Dns

open Word ByteMemory Prog

def dnsMaxName : Nat := 253

def dnsCacheSize : Nat := 16

def dnsMaxRetries : Nat := 3

def dnsPort : Nat := 53

def headerSize : Nat := 12

def dnsFlagQr : Nat := 0x8000

def dnsFlagRd : Nat := 0x0100

def dnsRcodeMask : Nat := 0x000F

def dnsTypeA : Nat := 1

def dot : UInt8 := 46

section Encode

-- The turns of the loop over a name; what it stops at is left out of the result.
def encodeLabels (p : List UInt8) : List UInt8 :=
  let label := p.takeWhile (· != dot)
  let labelLen := u8 label.length
  if _hlen : p = [] ∨ labelLen = 0 ∨ 63 < labelLen then []
  else
    let rest := p.drop labelLen
    UInt8.ofNat labelLen :: p.take labelLen ++
      encodeLabels (if rest.head? = some dot then rest.tail else rest)
termination_by p.length
decreasing_by
  have hpos : 0 < p.length := List.length_pos_iff.mpr fun h => _hlen (.inl h)
  have hshort : (p.drop labelLen).length < p.length := by
    rw [List.length_drop]
    exact Nat.sub_lt hpos (Nat.pos_of_ne_zero fun h => _hlen (.inr (.inl h)))
  split
  · exact lt_of_le_of_lt (by rw [List.length_tail]; exact Nat.sub_le _ _) hshort
  · exact hshort

def encodeName (name : List UInt8) : List UInt8 := encodeLabels name ++ [0]

end Encode

-- pkt and out are the two buffers with what lies behind them. reads records the ranges of pkt
-- that are read, outs the ranges of out that are written or read back.
structure Bufs where
  pkt : Nat → UInt8
  out : Nat → UInt8
  reads : List (Nat × Nat)
  outs : List (Nat × Nat)

abbrev Parser (α : Type) := Prog Bufs α

def pktBytes (off n : Nat) : Parser (List UInt8) := do
  Prog.modify fun s => { s with reads := (off, n) :: s.reads }
  let s ← get
  pure (readBytes s.pkt n off)

def pktByte (off : Nat) : Parser UInt8 := do
  Prog.modify fun s => { s with reads := (off, 1) :: s.reads }
  let s ← get
  pure (s.pkt off)

def pktShort (off : Nat) : Parser Nat := do
  let high ← pktByte off
  let low ← pktByte (off + 1)
  pure (high.toNat * 256 + low.toNat)

def pktWord (off : Nat) : Parser Nat := do
  let high ← pktShort off
  let low ← pktShort (off + 2)
  pure (high * 65536 + low)

def putOut (off : Nat) (bytes : List UInt8) : Parser Unit :=
  Prog.modify fun s =>
    { s with out := writeBytes s.out off bytes, outs := (off, bytes.length) :: s.outs }

def outByte (off : Nat) : Parser UInt8 := do
  Prog.modify fun s => { s with outs := (off, 1) :: s.outs }
  let s ← get
  pure (s.out off)

section Decode

def isPointer (len : UInt8) : Bool := (len &&& 0xC0) == 0xC0

def dropDot (outPos : Nat) : Parser Nat :=
  if 0 < outPos then do
    let last ← outByte (outPos - 1)
    pure (if last = dot then outPos - 1 else outPos)
  else pure outPos

-- none is the result -1.
def decodeLoop (pktLen outMax : Nat) : Nat → Nat → Nat → Nat → Option Nat → Parser (Option Nat)
  | 0, _, _, _, _ => Prog.stopped
  | fuel + 1, pos, outPos, jumps, endPos =>
    if pos < pktLen then do
      let len ← pktByte pos
      if len = 0 then do
        let outPos ← dropDot outPos
        putOut outPos [0]
        pure (some (endPos.getD (pos + 1)))
      else if isPointer len then
        if pktLen ≤ pos + 1 then pure none
        else do
          let low ← pktByte (pos + 1)
          if 10 < jumps + 1 then pure none
          else
            decodeLoop pktLen outMax fuel (u16 ((len &&& 0x3F).toNat * 256 + low.toNat)) outPos
              (jumps + 1) (some (endPos.getD (pos + 2)))
      else
        if pktLen < u16 (pos + 1) + len.toNat then pure none
        else if outMax ≤ outPos + len.toNat + 1 then pure none
        else do
          let label ← pktBytes (u16 (pos + 1)) len.toNat
          putOut outPos label
          putOut (u16 (outPos + len.toNat)) [dot]
          decodeLoop pktLen outMax fuel (u16 (u16 (pos + 1) + len.toNat))
            (u16 (u16 (outPos + len.toNat) + 1)) jumps endPos
    else pure none

def decodeName (fuel pktLen offset outMax : Nat) : Parser (Option Nat) :=
  decodeLoop pktLen outMax fuel offset 0 0 none

end Decode

section Parse

-- An address in network order, as the processor holds it.
def htonl (v : Nat) : Nat :=
  v % 256 * 16777216 + v / 256 % 256 * 65536 + v / 65536 % 256 * 256 + v / 16777216 % 256

-- The questions that are passed over; none where the response is given up.
def skipQuestions (fuel pktLen : Nat) : Nat → Nat → Parser (Option Nat)
  | 0, pos => pure (some pos)
  | left + 1, pos => do
    let next ← decodeName fuel pktLen pos (dnsMaxName + 1)
    match next with
    | none => pure none
    | some next =>
      let pos := u16 (u16 next + 4)
      if pktLen < pos then pure none else skipQuestions fuel pktLen left pos

def scanAnswers (fuel pktLen : Nat) : Nat → Nat → Parser Nat
  | 0, _ => pure 0
  | left + 1, pos =>
    if pktLen ≤ pos then pure 0
    else do
      let next ← decodeName fuel pktLen pos (dnsMaxName + 1)
      match next with
      | none => pure 0
      | some next =>
        let pos := u16 next
        if pktLen < pos + 10 then pure 0
        else do
          let rtype ← pktShort pos
          let _ttl ← pktWord (pos + 4)
          let rdlen ← pktShort (pos + 8)
          let pos := u16 (pos + 10)
          if pktLen < pos + rdlen then pure 0
          else if rtype = dnsTypeA ∧ rdlen = 4 then do
            let ip ← pktWord pos
            pure (htonl ip)
          else scanAnswers fuel pktLen left (u16 (pos + rdlen))

def parseResponse (fuel pktLen : Nat) : Parser Nat :=
  if pktLen < headerSize then pure 0
  else do
    let flags ← pktShort 2
    let ancount ← pktShort 6
    let qdcount ← pktShort 4
    if flags &&& dnsRcodeMask ≠ 0 then pure 0
    else if ancount = 0 then pure 0
    else do
      let pos ← skipQuestions fuel pktLen qdcount headerSize
      match pos with
      | none => pure 0
      | some pos => scanAnswers fuel pktLen ancount pos

end Parse

def fresh (pkt out : Nat → UInt8) : Bufs := { pkt := pkt, out := out, reads := [], outs := [] }

end Dns
