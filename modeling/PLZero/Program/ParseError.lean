import PLZero.Token

/-! Why a token list is no program. -/

namespace PLZero

inductive Expected
  | block
  | statement
  | operand
  | identifier
  | number
  | keyword (word : String)
  | mark (text : String)
  | endOfInput
  deriving DecidableEq, Repr

def Expected.describe : Expected → String
  | .block => "declaration or statement"
  | .statement => "statement"
  | .operand => "number, identifier or '('"
  | .identifier => "identifier"
  | .number => "number"
  | .keyword word => s!"keyword '{word}'"
  | .mark text => s!"'{text}'"
  | .endOfInput => "end of input"

inductive ParseError
  | unexpected (expected : Expected) (found : Token)
  | numberOutOfRange (found : Token)
  deriving DecidableEq, Repr

namespace ParseError

def found : ParseError → Token
  | unexpected _ t => t
  | numberOutOfRange t => t

def line (e : ParseError) : Nat := e.found.line

def message : ParseError → String
  | unexpected expected t =>
    s!"line {t.line}: expected {expected.describe}, found {t.kind.describe} '{t.text}'"
  | numberOutOfRange t =>
    s!"line {t.line}: number literal '{t.text}' does not fit in a 32-bit integer"

end ParseError

end PLZero
