import PLZero.Operator

/-! Jump code: what the replay machine runs. The markers of the intermediate code have become jumps to
positions. -/

namespace PLZero.Replay

/-- A variable, and the number of the procedure that owns it; no number for a global. -/
structure VarRef where
  owner : Option Nat
  name : String
  deriving DecidableEq, Repr

inductive Step
  | declare (v : VarRef)
  | const (v : VarRef) (value : Int32)
  | load (v : VarRef)
  | store (v : VarRef)
  | push (value : Int32)
  | oper (op : BinOp)
  | read (v : VarRef)
  | write
  | call (procedure : Nat)
  | leave
  | jump (target : Nat)
  | jumpIfFalse (target : Nat)
  /-- Takes the bound off the stack and leaves the loop unless the counter is below it. -/
  | forTest (v : VarRef) (exit : Nat)
  /-- Counts up and goes back to where the bound is computed. -/
  | forStep (v : VarRef) (head : Nat)
  deriving DecidableEq, Repr

namespace Step

def name : Step → String
  | declare _ => "DECLARE"
  | const _ _ => "CONST"
  | load _ => "LOAD"
  | store _ => "STORE"
  | push _ => "PUSH"
  | oper _ => "OPER"
  | read _ => "READ"
  | write => "WRITE"
  | call _ => "CALL"
  | leave => "RETURN"
  | jump _ => "JUMP"
  | jumpIfFalse _ => "JUMP_IF_FALSE"
  | forTest _ _ => "FOR_TO"
  | forStep _ _ => "ENDFOR"

def withTarget (target : Nat) : Step → Step
  | jump _ => jump target
  | jumpIfFalse _ => jumpIfFalse target
  | forTest v _ => forTest v target
  | s => s

end Step

/-- A step and its source line; control transfers that stand for no instruction have none. -/
structure Exec where
  step : Step
  line : Option Nat
  deriving DecidableEq, Repr

structure Procedure where
  name : String
  entry : Nat
  deriving DecidableEq, Repr

structure JumpCode where
  code : Array Exec
  /-- Procedures by number, in the order of their declaration. -/
  procedures : Array Procedure
  deriving DecidableEq, Repr

namespace JumpCode

def lines (p : JumpCode) : List Nat := p.code.toList.filterMap (·.line)

def number? (p : JumpCode) (name : String) : Option Nat := p.procedures.findIdx? (·.name == name)

end JumpCode

end PLZero.Replay
