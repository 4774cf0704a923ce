import PLZero.Operator

/-! Expressions folded back out of postfix code. The names in them are those of the target. -/

namespace PLZero

inductive Folded
  | const (value : Int32)
  | name (name : String)
  | binary (op : BinOp) (left right : Folded)
  deriving DecidableEq, Repr, Inhabited

end PLZero
