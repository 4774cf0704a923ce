import PLZero.Text.Utf8
import PLZero.Token
import PLZero.Warning

/-! Scanning. The bytes of a source are taken from the left, piece by piece; the tokens are the
lexemes among the pieces and the warnings the characters that start nothing. -/

namespace PLZero

inductive Piece
  | newline
  | blank (b : UInt8)
  | comment (taken : List UInt8)
  | lexeme (kind : TokenKind) (taken : List UInt8)
  | stray (taken : List UInt8)
  deriving DecidableEq, Repr

namespace Piece

/-- The bytes below 128 are the characters of ASCII. -/
def ascii (b : UInt8) : Char := Char.ofNat b.toNat

def isSpace (c : Char) : Bool := c == ' ' || c == '\t' || c == '\r' || c.toNat == 12

def wordKind (text : String) : TokenKind := if text ∈ keywords then .keyword else .identifier

/-- The lexeme that starts with a character of no word, number or comment, by the character behind
that: its kind, and whether it takes both. -/
def symbol : Char → Option Char → Option (TokenKind × Bool)
  | ',', _ => some (.comma, false)
  | ';', _ => some (.semicolon, false)
  | '.', _ => some (.period, false)
  | '(', _ => some (.parenthesis, false)
  | ')', _ => some (.parenthesis, false)
  | '+', _ => some (.operator, false)
  | '-', _ => some (.operator, false)
  | '*', _ => some (.operator, false)
  | '/', _ => some (.operator, false)
  | '=', _ => some (.operator, false)
  | '<', some '=' => some (.operator, true)
  | '<', some '>' => some (.operator, true)
  | '<', _ => some (.operator, false)
  | '>', some '=' => some (.operator, true)
  | '>', _ => some (.operator, false)
  | ':', some '=' => some (.assign, true)
  | _, _ => none

/-- A character that starts nothing is taken whole: with its first byte go those that continue it. -/
def unexpected (b : UInt8) (rest : List UInt8) : Piece × List UInt8 :=
  if b < 0x80 then (stray [b], rest)
  else (stray (b :: rest.takeWhile Text.isContinuation), rest.dropWhile Text.isContinuation)

def punctuation (b : UInt8) (rest : List UInt8) : Piece × List UInt8 :=
  match symbol (ascii b) (rest.head?.map ascii) with
  | some (kind, false) => (lexeme kind [b], rest)
  | some (kind, true) => (lexeme kind (b :: rest.take 1), rest.drop 1)
  | none => unexpected b rest

def first (b : UInt8) (rest : List UInt8) : Piece × List UInt8 :=
  let c := ascii b
  if c = '\n' then (newline, rest)
  else if isSpace c then (blank b, rest)
  else if c = '/' ∧ rest.head?.map ascii = some '/' then
    (comment (b :: rest.takeWhile (ascii · != '\n')), rest.dropWhile (ascii · != '\n'))
  else if c.isDigit then
    (lexeme .number (b :: rest.takeWhile (ascii · |>.isDigit)), rest.dropWhile (ascii · |>.isDigit))
  else if c.isAlpha then
    let word := b :: rest.takeWhile (ascii · |>.isAlphanum)
    (lexeme (wordKind (Text.lossy word)) word, rest.dropWhile (ascii · |>.isAlphanum))
  else punctuation b rest

def take : Nat → List UInt8 → List Piece
  | 0, _ => []
  | _, [] => []
  | n + 1, b :: bs => (first b bs).1 :: take n (first b bs).2

/-- All pieces: there are never more of them than bytes. -/
def ofBytes (bs : List UInt8) : List Piece := take bs.length bs

end Piece

structure Scan where
  tokens : List Token
  warnings : List Warning
  deriving DecidableEq, Repr

namespace Scan

def strayWarning (text : String) (line : Nat) : Warning :=
  ⟨s!"unrecognized character '{text}'", line, some "W0001"⟩

/-- Reads off pieces the first of which stands on `line`. -/
def ofPieces : Nat → List Piece → Scan
  | line, [] => ⟨[⟨.eof, "", line⟩], []⟩
  | line, .newline :: rest => ofPieces (line + 1) rest
  | line, .blank _ :: rest => ofPieces line rest
  | line, .comment _ :: rest => ofPieces line rest
  | line, .lexeme kind taken :: rest =>
    let scan := ofPieces line rest
    { scan with tokens := ⟨kind, Text.lossy taken, line⟩ :: scan.tokens }
  | line, .stray taken :: rest =>
    let scan := ofPieces line rest
    { scan with warnings := strayWarning (Text.lossy taken) line :: scan.warnings }

/-- The tokens of a source text, an end token last, and its warnings. -/
def ofSource (source : String) : Scan := ofPieces 1 (Piece.ofBytes (Text.bytes source))

def trace (scan : Scan) : List String := scan.warnings.map fun w => s!"lexer: {w.text}"

def json (scan : Scan) : Json :=
  .obj [("tokens", .arr (scan.tokens.map Token.json)),
    ("diagnostics", .arr (scan.warnings.map Warning.json))]

end Scan

end PLZero
