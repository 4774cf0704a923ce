import PLZero.Program
import PLZero.Json

/-! Program trees as documents. -/

namespace PLZero

def Expr.json : Expr → Json
  | .binary op left right line =>
    .obj [("type", .str "Binary"), ("op", .str op.tag), ("left", left.json), ("right", right.json),
      ("line", .nat line)]
  | .literal value line => .obj [("type", .str "Literal"), ("value", .word value), ("line", .nat line)]
  | .ident name line => .obj [("type", .str "Identifier"), ("name", .str name), ("line", .nat line)]

def Initial.json : Initial → Json
  | .number value => .obj [("type", .str "Number"), ("value", .word value)]
  | .constant name => .obj [("type", .str "Constant"), ("value", .str name)]

def Decl.json : Decl → Json
  | .var name init line =>
    .obj [("kind", .str "Var"), ("name", .str name), ("init", .ofOption Initial.json init),
      ("line", .nat line)]
  | .const name init line =>
    .obj [("kind", .str "Const"), ("name", .str name), ("init", .ofOption Initial.json init),
      ("line", .nat line)]

mutual

def Stmt.json : Stmt → Json
  | .assign name value line =>
    .obj [("type", .str "Assignment"), ("name", .str name), ("value", value.json), ("line", .nat line)]
  | .ifElse cond body elseIfs otherwise line =>
    .obj [("type", .str "If"), ("condition", cond.json), ("then_branch", .arr (Stmt.jsonAll body)),
      ("else_ifs", .arr (ElseIf.jsonAll elseIfs)),
      ("else_branch", match otherwise with
        | some body => .arr (Stmt.jsonAll body)
        | none => .null),
      ("line", .nat line)]
  | .whileDo cond body line =>
    .obj [("type", .str "While"), ("condition", cond.json), ("body", .arr (Stmt.jsonAll body)),
      ("line", .nat line)]
  | .forTo counter start bound body line =>
    .obj [("type", .str "For"), ("variable", .str counter), ("from", start.json), ("to", bound.json),
      ("body", .arr (Stmt.jsonAll body)), ("line", .nat line)]
  | .read names line =>
    .obj [("type", .str "Read"), ("names", .arr (names.map .str)), ("line", .nat line)]
  | .write values line =>
    .obj [("type", .str "Write"), ("values", .arr (values.map Expr.json)), ("line", .nat line)]
  | .call name line => .obj [("type", .str "Call"), ("name", .str name), ("line", .nat line)]
  | .group body line =>
    .obj [("type", .str "BeginEnd"), ("statements", .arr (Stmt.jsonAll body)), ("line", .nat line)]
  | .procedure name body line =>
    .obj [("type", .str "Procedure"), ("name", .str name), ("body", body.json), ("line", .nat line)]

def Stmt.jsonAll : List Stmt → List Json
  | [] => []
  | s :: rest => s.json :: Stmt.jsonAll rest

def ElseIf.jsonAll : List ElseIf → List Json
  | [] => []
  | ⟨cond, body, line⟩ :: rest =>
    .obj [("condition", cond.json), ("body", .arr (Stmt.jsonAll body)), ("line", .nat line)]
      :: ElseIf.jsonAll rest

def Block.json : Block → Json
  | ⟨decls, stmt, line⟩ =>
    .obj [("declarations", .arr (decls.map Decl.json)),
      ("statement", match stmt with
        | some s => s.json
        | none => .null),
      ("line", .nat line)]

end

def Program.json (p : Program) : Json :=
  .obj [("blocks", .arr (p.blocks.map Block.json)), ("line", .nat p.line)]

end PLZero
