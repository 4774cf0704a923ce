/-! Texts as bytes in UTF-8, and bytes as texts: what is no code of a character is read as the
replacement character, once for each part that could have begun a code. -/

namespace PLZero.Text

def encode (cs : List Char) : List UInt8 := cs.flatMap String.utf8EncodeChar

def bytes (s : String) : List UInt8 := encode s.toList

def isContinuation (b : UInt8) : Bool := b &&& 0xC0 == 0x80

def replacement : Char := '�'

/-- A code that has begun: the bounds of its next byte, how many follow that one, and the number
that its digits make so far. -/
structure Pending where
  low : Nat
  high : Nat
  more : Nat
  value : Nat

/-- The first byte of a code: the character that it is, or what it begins. The bounds leave out
codes that are longer than they need to be, surrogates and numbers above the last character. -/
def leading (b : Nat) : List Char × Option Pending :=
  if b < 0x80 then ([Char.ofNat b], none)
  else if b < 0xC2 then ([replacement], none)
  else if b < 0xE0 then ([], some ⟨0x80, 0xBF, 0, b % 32⟩)
  else if b < 0xF0 then
    ([], some ⟨if b = 0xE0 then 0xA0 else 0x80, if b = 0xED then 0x9F else 0xBF, 1, b % 16⟩)
  else if b < 0xF5 then
    ([], some ⟨if b = 0xF0 then 0x90 else 0x80, if b = 0xF4 then 0x8F else 0xBF, 2, b % 8⟩)
  else ([replacement], none)

/-- Reads one byte. One that does not continue the code that has begun is the first of another. -/
def decodeByte : Option Pending → Nat → List Char × Option Pending
  | none, b => leading b
  | some p, b =>
    if p.low ≤ b ∧ b ≤ p.high then
      match p.more with
      | 0 => ([Char.ofNat (64 * p.value + b % 64)], none)
      | more + 1 => ([], some ⟨0x80, 0xBF, more, 64 * p.value + b % 64⟩)
    else (replacement :: (leading b).1, (leading b).2)

def decode : Option Pending → List UInt8 → List Char
  | none, [] => []
  | some _, [] => [replacement]
  | p, b :: rest => (decodeByte p b.toNat).1 ++ decode (decodeByte p b.toNat).2 rest

def lossy (bs : List UInt8) : String := String.ofList (decode none bs)

end PLZero.Text
