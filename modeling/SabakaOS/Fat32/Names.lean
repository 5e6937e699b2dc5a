import SabakaOS.Library.ByteMemory

namespace Fat32

open ByteMemory

-- The 32 bytes of one directory slot.
abbrev Slot := Nat → UInt8

-- A plain char is signed.
def charVal (b : UInt8) : Int := if b < 0x80 then b.toNat else (b.toNat : Int) - 256

def upper (c : UInt8) : UInt8 := if 0x61 ≤ c ∧ c ≤ 0x7A then c - 32 else c

def isCString (s : List UInt8) : Prop := ∀ c ∈ s, c ≠ 0

-- What a C string reader sees of the bytes before its terminator.
def cString (s : List UInt8) : List UInt8 := s.takeWhile (· != 0)

def kstrcmp : List UInt8 → List UInt8 → Int
  | a :: as, b :: bs => if a = b then kstrcmp as bs else (a.toNat : Int) - b.toNat
  | a :: _, [] => a.toNat
  | [], b :: _ => -(b.toNat : Int)
  | [], [] => 0

def kstricmp : List UInt8 → List UInt8 → Int
  | a :: as, b :: bs =>
    if upper a ≠ upper b then charVal (upper a) - charVal (upper b) else kstricmp as bs
  | a :: _, [] => a.toNat
  | [], b :: _ => -(b.toNat : Int)
  | [], [] => 0

def dotName : List UInt8 := [0x2E]

def dotdotName : List UInt8 := [0x2E, 0x2E]

def isDots (name : List UInt8) : Bool := kstrcmp name dotName = 0 || kstrcmp name dotdotName = 0

def ucs2ToAscii (c : Nat) : UInt8 := if 0x20 ≤ c ∧ c ≤ 0x7E then UInt8.ofNat c else 0x5F

def lfnOffsets : List Nat := [1, 3, 5, 7, 9, 14, 16, 18, 20, 22, 24, 28, 30]

def lfnChars (s : Slot) : List Nat := lfnOffsets.map (readLE s 2)

-- lfns holds the collected slots, the last one first, as the loop visits them.
def lfnCollect (lfns : List Slot) : List UInt8 :=
  (((lfns.flatMap lfnChars).takeWhile fun c => c != 0xFFFF && c != 0).take 255).map ucs2ToAscii

def parse83Name (s : Slot) : List UInt8 :=
  let base := (readBytes s 8 0).takeWhile (· != 0x20)
  let ext := (readBytes s 3 8).takeWhile (· != 0x20)
  cString (if s 8 != 0x20 then base ++ 0x2E :: ext else base)

def padTo (n : Nat) (s : List UInt8) : List UInt8 := s.take n ++ List.replicate (n - s.length) 0x20

-- The part before the last dot and, when there is a dot, the part after it.
def splitLastDot (name : List UInt8) : List UInt8 × Option (List UInt8) :=
  match name.reverse.dropWhile (· != 0x2E) with
  | [] => (name, none)
  | _ :: base => (base.reverse, some ((name.reverse.takeWhile (· != 0x2E)).reverse))

def make83 (name : List UInt8) : List UInt8 :=
  let parts := splitLastDot name
  padTo 8 (parts.1.map upper) ++ padTo 3 ((parts.2.getD []).map upper)

end Fat32
