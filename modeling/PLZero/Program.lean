import PLZero.Operator

/-! Source programs as trees. Every node carries the line of the token that introduced it. -/

namespace PLZero

inductive Expr
  | binary (op : BinOp) (left right : Expr) (line : Nat)
  | literal (value : Int32) (line : Nat)
  | ident (name : String) (line : Nat)
  deriving DecidableEq, Repr, Inhabited

/-- What a declared name starts with: a number, or the value of an earlier constant. -/
inductive Initial
  | number (value : Int32)
  | constant (name : String)
  deriving DecidableEq, Repr

inductive Decl
  | var (name : String) (init : Option Initial) (line : Nat)
  | const (name : String) (init : Option Initial) (line : Nat)
  deriving DecidableEq, Repr

mutual

inductive Stmt where
  | assign (name : String) (value : Expr) (line : Nat)
  | ifElse (cond : Expr) (body : List Stmt) (elseIfs : List ElseIf) (otherwise : Option (List Stmt))
      (line : Nat)
  | whileDo (cond : Expr) (body : List Stmt) (line : Nat)
  | forTo (counter : String) (start bound : Expr) (body : List Stmt) (line : Nat)
  | read (names : List String) (line : Nat)
  | write (values : List Expr) (line : Nat)
  | call (name : String) (line : Nat)
  | group (body : List Stmt) (line : Nat)
  | procedure (name : String) (body : Block) (line : Nat)

structure ElseIf where
  cond : Expr
  body : List Stmt
  line : Nat

/-- Declarations, then at most one statement. -/
structure Block where
  decls : List Decl
  stmt : Option Stmt
  line : Nat

end

instance : Inhabited Stmt := ⟨.group [] 0⟩

structure Program where
  blocks : List Block
  line : Nat

end PLZero
