import PLZero.Program
import PLZero.Program.Reader

/-! Reading expressions: products bind tighter than sums, sums tighter than one comparison, and
operators of one level group to the left. -/

namespace PLZero.Reader

def operatorAt (level : Level) (t : Token) : Option BinOp :=
  if t.kind = .operator then (BinOp.ofSymbol? t.text).filter (·.level = level) else none

def chain (level : Level) (operand : Reader Expr) : Nat → Expr → Reader Expr
  | 0, left => pure left
  | n + 1, left => do
    let t ← current
    match operatorAt level t with
    | some op =>
      discard advance
      let right ← operand
      chain level operand n (.binary op left right t.line)
    | none => pure left

def chained (bound : Nat) (level : Level) (operand : Reader Expr) : Reader Expr := do
  let left ← operand
  chain level operand bound left

/-- An operand; `inner` reads what stands in parentheses. -/
def factor (inner : Reader Expr) : Reader Expr := do
  let t ← current
  match t.kind with
  | .number => return .literal (← number) t.line
  | .identifier =>
    discard advance
    return .ident t.text t.line
  | .parenthesis =>
    if t.text = "(" then
      discard advance
      let e ← inner
      discard closeParen
      return e
    else stop .operand
  | _ => stop .operand

def sum (bound : Nat) (inner : Reader Expr) : Reader Expr :=
  chained bound .additive (chained bound .multiplicative (factor inner))

def comparison (bound : Nat) (inner : Reader Expr) : Reader Expr := do
  let left ← sum bound inner
  let t ← current
  match operatorAt .relational t with
  | some op =>
    discard advance
    let right ← sum bound inner
    return .binary op left right t.line
  | none => return left

def exprWithin (bound : Nat) : Nat → Reader Expr
  | 0 => stop .operand
  | n + 1 => comparison bound (exprWithin bound n)

/-- Each open parenthesis takes a token, so the bound on the tokens left bounds the nesting too. -/
def expr (bound : Nat) : Reader Expr := exprWithin bound bound

end PLZero.Reader
