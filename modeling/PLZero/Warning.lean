import PLZero.Json

/-! Warnings: remarks on a source line that do not stop the work. -/

namespace PLZero

structure Warning where
  message : String
  line : Nat
  code : Option String
  deriving DecidableEq, Repr

namespace Warning

def text (w : Warning) : String :=
  match w.code with
  | some code => s!"warning[{code}] line {w.line}: {w.message}"
  | none => s!"warning line {w.line}: {w.message}"

def json (w : Warning) : Json :=
  .obj ([("severity", .str "warning"), ("message", .str w.message), ("line", .nat w.line)]
    ++ (w.code.map fun code => ("code", Json.str code)).toList)

end Warning

end PLZero
