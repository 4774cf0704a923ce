import PLZero.Text.Decimal

/-! Documents with ordered fields, written on one line or indented by two blanks. -/

namespace PLZero

inductive Json
  | null
  | bool (b : Bool)
  | int (i : Int)
  | str (s : String)
  | arr (items : List Json)
  | obj (fields : List (String × Json))
  deriving Inhabited

namespace Json

def nat (n : Nat) : Json := int n

def word (v : Int32) : Json := int v.toInt

def ofOption (f : α → Json) : Option α → Json
  | some a => f a
  | none => null

def hexDigit (n : Nat) : Char :=
  if n < 10 then Char.ofNat ('0'.toNat + n) else Char.ofNat ('a'.toNat + (n - 10))

def escapeChar (c : Char) : List Char :=
  if c = '"' then ['\\', '"']
  else if c = '\\' then ['\\', '\\']
  else if c = '\n' then ['\\', 'n']
  else if c = '\r' then ['\\', 'r']
  else if c = '\t' then ['\\', 't']
  else if c.toNat = 8 then ['\\', 'b']
  else if c.toNat = 12 then ['\\', 'f']
  else if c.toNat < 32 then ['\\', 'u', '0', '0', hexDigit (c.toNat / 16), hexDigit (c.toNat % 16)]
  else [c]

def quote (s : String) : String :=
  String.ofList ('"' :: s.toList.flatMap escapeChar ++ ['"'])

structure Layout where
  /-- What stands before an item at a depth, and before the bracket that closes one. -/
  gap : Nat → String
  colon : String

namespace Layout

def compact : Layout := ⟨fun _ => "", ":"⟩

def pretty : Layout := ⟨fun depth => "\n".pushn ' ' (2 * depth), ": "⟩

end Layout

mutual

/-- The pieces of a document's text, `rest` behind them. -/
def pieces (l : Layout) (depth : Nat) : Json → List String → List String
  | null, rest => "null" :: rest
  | bool b, rest => (if b then "true" else "false") :: rest
  | int i, rest => i.repr :: rest
  | str s, rest => quote s :: rest
  | arr items, rest =>
    if items.isEmpty then "[]" :: rest
    else "[" :: itemPieces l (depth + 1) "" items (l.gap depth :: "]" :: rest)
  | obj fields, rest =>
    if fields.isEmpty then "\x7b\x7d" :: rest
    else "\x7b" :: fieldPieces l (depth + 1) "" fields (l.gap depth :: "\x7d" :: rest)

def itemPieces (l : Layout) (depth : Nat) (mark : String) : List Json → List String → List String
  | [], rest => rest
  | j :: js, rest =>
    mark :: l.gap depth :: pieces l depth j (itemPieces l depth "," js rest)

def fieldPieces (l : Layout) (depth : Nat) (mark : String) :
    List (String × Json) → List String → List String
  | [], rest => rest
  | (k, j) :: others, rest =>
    mark :: l.gap depth :: quote k :: l.colon
      :: pieces l depth j (fieldPieces l depth "," others rest)

end

def compact (j : Json) : String := String.join (j.pieces .compact 0 [])

def pretty (j : Json) : String := String.join (j.pieces .pretty 0 [])

end Json

end PLZero
