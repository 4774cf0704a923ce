/-! Decimal numerals: signed 32-bit values and the non-negative counts below `2 ^ 64`. -/

namespace PLZero.Text

def digitValue (c : Char) : Nat := c.toNat - '0'.toNat

def readDigits (cs : List Char) : Option Nat :=
  if cs ≠ [] ∧ cs.all Char.isDigit then some (cs.foldl (fun n c => 10 * n + digitValue c) 0)
  else none

/-- A count: digits after at most one `+`, below `2 ^ 64`. -/
def readCount (cs : List Char) : Option Nat :=
  let digits := match cs with
    | '+' :: rest => rest
    | _ => cs
  (readDigits digits).filter (· < UInt64.size)

/-- An integer: digits after at most one sign. -/
def readInt : List Char → Option Int
  | '-' :: rest => (readDigits rest).map fun n => -(n : Int)
  | '+' :: rest => (readDigits rest).map fun n => (n : Int)
  | cs => (readDigits cs).map fun n => (n : Int)

def readWord (cs : List Char) : Option Int32 :=
  ((readInt cs).filter fun i => Int32.minValue.toInt ≤ i && i ≤ Int32.maxValue.toInt).map Int32.ofInt

def ofNat (n : Nat) : String := n.repr

theorem isDigit_ofNat {n : Nat} {c : Char} (hc : c ∈ (ofNat n).toList) : c.isDigit = true := by
  rw [ofNat, Nat.toList_repr] at hc
  exact Nat.isDigit_of_mem_toDigits (by decide) (by decide) hc

def ofWord (v : Int32) : String := v.toInt.repr

end PLZero.Text
