import PLZero.Instr

/-! Why a list of instructions is no well-formed code. -/

namespace PLZero

inductive CodeError
  | unmatched (marker : String) (line : Nat)
  | unclosed (marker : String) (line : Nat)
  | misplacedBranch (marker : String) (line : Nat)
  | underflow (instruction : String) (line : Nat)
  | unknownName (name : String) (line : Nat)
  deriving DecidableEq, Repr

namespace CodeError

def message : CodeError → String
  | unmatched marker line => s!"line {line}: {marker} has no matching opening marker"
  | unclosed marker line => s!"line {line}: {marker} is never closed"
  | misplacedBranch marker line => s!"line {line}: {marker} appears after the else branch"
  | underflow instruction line =>
    s!"line {line}: {instruction} needs a value but the expression stack is empty"
  | unknownName name line => s!"line {line}: '{name}' does not resolve to any declaration"

def unmatchedAt (i : Instr) : CodeError := unmatched i.op.text i.line

def misplacedAt (i : Instr) : CodeError := misplacedBranch i.op.text i.line

def underflowAt (i : Instr) : CodeError := underflow i.op.text i.line

def unknownAt (name : String) (i : Instr) : CodeError := unknownName name i.line

end CodeError

end PLZero
