/-! The binary operators: symbols, binding levels and their arithmetic on signed 32-bit words. -/

namespace PLZero

inductive BinOp
  | add | sub | mul | div | lt | le | eq | ne | gt | ge
  deriving DecidableEq, Repr, Inhabited

inductive Level
  | relational | additive | multiplicative
  deriving DecidableEq, Repr

namespace BinOp

def all : List BinOp := [add, sub, mul, div, lt, le, eq, ne, gt, ge]

def symbol : BinOp → String
  | add => "+"
  | sub => "-"
  | mul => "*"
  | div => "/"
  | lt => "<"
  | le => "<="
  | eq => "="
  | ne => "<>"
  | gt => ">"
  | ge => ">="

def ofSymbol? (s : String) : Option BinOp := all.find? (·.symbol == s)

def tag : BinOp → String
  | add => "Add"
  | sub => "Sub"
  | mul => "Mul"
  | div => "Div"
  | lt => "Lt"
  | le => "Le"
  | eq => "Eq"
  | ne => "Ne"
  | gt => "Gt"
  | ge => "Ge"

def level : BinOp → Level
  | add | sub => .additive
  | mul | div => .multiplicative
  | lt | le | eq | ne | gt | ge => .relational

def truth (b : Bool) : Int32 := if b then 1 else 0

/-- Arithmetic wraps and division goes toward zero; only a zero divisor has no result. -/
def apply : BinOp → Int32 → Int32 → Option Int32
  | add, l, r => some (l + r)
  | sub, l, r => some (l - r)
  | mul, l, r => some (l * r)
  | div, l, r => if r = 0 then none else some (l / r)
  | lt, l, r => some (truth (l < r))
  | le, l, r => some (truth (l ≤ r))
  | eq, l, r => some (truth (l = r))
  | ne, l, r => some (truth (l ≠ r))
  | gt, l, r => some (truth (l > r))
  | ge, l, r => some (truth (l ≥ r))

theorem ofSymbol?_symbol (op : BinOp) : ofSymbol? op.symbol = some op := by
  cases op <;> rfl

end BinOp

end PLZero
