import PLZero.Instr.CodeError
import PLZero.Program.ParseError
import PLZero.Symbol.ScopeError

/-! Why a source is not found, not read or not compiled. -/

namespace PLZero

inductive BuildError
  | notText
  | missingRoot (path : String)
  | parse (e : ParseError)
  | scope (e : ScopeError)
  | code (e : CodeError)
  deriving DecidableEq, Repr

def BuildError.message : BuildError → String
  | .notText => "failed to read source: stream did not contain valid UTF-8"
  | .missingRoot path => s!"source directory was not found at {path}"
  | .parse e => s!"parse error: {e.message}"
  | .scope e => s!"semantic error: {e.message}"
  | .code e => s!"code generation error: {e.message}"

end PLZero
