import PLZero.Program.ParseError
import PLZero.Text.Decimal

/-! Reading a token list from the left. A reader sees the next token, takes it or stops; past the
last token it sees an end token. Repetition and nesting are cut off at a bound that no token list of
that length reaches. -/

namespace PLZero

/-- The tokens not yet read, the line of the end token behind them, and the names that a statement
may call without `call`. -/
structure Input where
  rest : List Token
  endLine : Nat
  procedures : List String

namespace Input

def current (s : Input) : Token :=
  match s.rest with
  | t :: _ => t
  | [] => ⟨.eof, "", s.endLine⟩

def next (s : Input) : Token :=
  match s.rest with
  | _ :: t :: _ => t
  | _ => ⟨.eof, "", s.endLine⟩

def advance (s : Input) : Input := { s with rest := s.rest.tail }

end Input

abbrev Reader (α : Type) := StateT Input (Except ParseError) α

namespace Reader

def current : Reader Token := fun s => .ok (s.current, s)

def advance : Reader Token := fun s => .ok (s.current, s.advance)

def stop (what : Expected) : Reader α := fun s => .error (.unexpected what s.current)

def expect (kind : TokenKind) (what : Expected) : Reader Token := do
  if (← current).kind = kind then advance else stop what

def expectText (kind : TokenKind) (text : String) (what : Expected) : Reader Token := do
  if (← current).is kind text then advance else stop what

def keyword (word : String) : Reader Token := expectText .keyword word (.keyword word)

def identifier : Reader Token := expect .identifier .identifier

def semicolon : Reader Token := expect .semicolon (.mark ";")

def closeParen : Reader Token := expectText .parenthesis ")" (.mark ")")

def skipSemicolon : Reader Unit := do
  if (← current).kind = .semicolon then discard advance

def number : Reader Int32 := do
  let t ← expect .number .number
  match Text.readWord t.text.toList with
  | some v => pure v
  | none => throw (.numberOutOfRange t)

/-- Reads items as long as `more` holds, at most `n` of them, behind those in `read`. -/
def manyBehind (more : Input → Bool) (item : Reader α) : Nat → Array α → Reader (Array α)
  | 0, read => pure read
  | n + 1, read => do
    if more (← get) then
      let x ← item
      manyBehind more item n (read.push x)
    else pure read

/-- Items as long as `more` holds. An item takes at least one token, so any `bound` that is no less
than the number of tokens left will do. -/
def many (bound : Nat) (more : Input → Bool) (item : Reader α) : Reader (List α) := do
  return (← manyBehind more item bound #[]).toList

def items (bound : Nat) (item : Reader α) : Reader (List α) := do
  let x ← item
  let xs ← many bound (·.current.kind == .comma) do
    discard advance
    item
  return x :: xs

end Reader

end PLZero
