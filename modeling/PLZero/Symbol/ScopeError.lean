/-! Why the names of a program do not fit its declarations. -/

namespace PLZero

inductive ScopeError
  | duplicate (name : String) (line : Nat)
  | undeclaredVariable (name : String) (line : Nat)
  | undeclaredProcedure (name : String) (line : Nat)
  | constantAssigned (name : String) (line : Nat)
  | initialNotConstant (name : String) (line : Nat)
  deriving DecidableEq, Repr

def ScopeError.message : ScopeError → String
  | .duplicate name line => s!"line {line}: '{name}' is already declared in this scope"
  | .undeclaredVariable name line => s!"line {line}: '{name}' is not a declared variable or constant"
  | .undeclaredProcedure name line => s!"line {line}: '{name}' is not a declared procedure"
  | .constantAssigned name line => s!"line {line}: cannot assign to constant '{name}'"
  | .initialNotConstant name line => s!"line {line}: constant initializer '{name}' is not a constant"

end PLZero
