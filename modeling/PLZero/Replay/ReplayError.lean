import PLZero.Instr.CodeError
import PLZero.Program.ParseError
import PLZero.Symbol.ScopeError

/-! Why a replay ends early. -/

namespace PLZero

inductive ReplayError
  | parse (e : ParseError)
  | scope (e : ScopeError)
  | structural (e : CodeError)
  | divisionByZero (line : Nat)
  | stepLimit (limit : Nat)
  deriving DecidableEq, Repr

def ReplayError.message : ReplayError → String
  | .parse e => e.message
  | .scope e => e.message
  | .structural e => s!"structural error: {e.message}"
  | .divisionByZero line => s!"line {line}: division by zero"
  | .stepLimit limit => s!"execution exceeded the step limit of {limit}"

end PLZero
