import PLZero.Json

/-! Declared names. A table lists the names of one scope in the order of their declaration. -/

namespace PLZero

/-- A variable with the value it is declared with, a constant with its value, or a procedure with
the table of its body. -/
inductive Symbol
  | var (name : String) (init : Option Int32) (line : Nat)
  | const (name : String) (value : Int32) (line : Nat)
  | procedure (name : String) (body : List Symbol) (line : Nat)
  deriving Inhabited

abbrev Table := List Symbol

namespace Symbol

def name : Symbol → String
  | var name _ _ => name
  | const name _ _ => name
  | procedure name _ _ => name

def line : Symbol → Nat
  | var _ _ line => line
  | const _ _ line => line
  | procedure _ _ line => line

mutual

def json : Symbol → Json
  | var name init line =>
    .obj [("name", .str name), ("kind", .str "variable"), ("value", .ofOption .word init),
      ("line", .nat line)]
  | const name value line =>
    .obj [("name", .str name), ("kind", .str "constant"), ("value", .word value), ("line", .nat line)]
  | procedure name body line =>
    .obj [("name", .str name), ("kind", .str "procedure"), ("value", .null), ("line", .nat line),
      ("body", .obj [("symbols", .arr (jsonAll body))])]

def jsonAll : List Symbol → List Json
  | [] => []
  | s :: rest => s.json :: jsonAll rest

end

end Symbol

namespace Table

def find? (table : Table) (name : String) : Option Symbol := List.find? (·.name == name) table

/-- The symbol that a name means: innermost scope first. -/
def lookup (scopes : List Table) (name : String) : Option Symbol := scopes.findSome? (·.find? name)

def json (table : Table) : Json := .obj [("symbols", .arr (Symbol.jsonAll table))]

end Table

end PLZero
