import PLZero.Instr.Scopes
import PLZero.Symbol

/-! The variables and constants that a table declares, at every depth, with a value each. -/

namespace PLZero

inductive BindingKind
  | variable | constant
  deriving DecidableEq, Repr

def BindingKind.text : BindingKind → String
  | .variable => "variable"
  | .constant => "constant"

structure Binding where
  name : String
  /-- Nothing while no value was assigned. -/
  value : Option Int32
  kind : BindingKind
  /-- The procedures around the declaration, outermost first. -/
  path : List String
  deriving DecidableEq, Repr

namespace Binding

def scope (b : Binding) : String :=
  if b.path.isEmpty then "global" else "procedure:" ++ dotted b.path

def json (b : Binding) : Json :=
  .obj [("name", .str b.name), ("value", .ofOption .word b.value), ("type", .str b.kind.text),
    ("scope", .str b.scope)]

end Binding

namespace Symbol

mutual

/-- Constants have their own value; `value` gives that of a variable from its path, its name and the
value it is declared with. -/
def bindings (value : List String → String → Option Int32 → Option Int32) (path : List String) :
    Symbol → List Binding
  | var name init _ => [⟨name, value path name init, .variable, path⟩]
  | const name v _ => [⟨name, some v, .constant, path⟩]
  | procedure name body _ => bindingsAll value (path ++ [name]) body

def bindingsAll (value : List String → String → Option Int32 → Option Int32) (path : List String) :
    List Symbol → List Binding
  | [] => []
  | s :: rest => s.bindings value path ++ bindingsAll value path rest

end

end Symbol

namespace Table

def bindings (table : Table) (value : List String → String → Option Int32 → Option Int32) :
    List Binding :=
  Symbol.bindingsAll value [] table

def declared (table : Table) : List Binding := table.bindings fun _ _ init => init

/-- Every binding before anything has run: only constants have a value. -/
def unassigned (table : Table) : List Binding := table.bindings fun _ _ _ => none

end Table

end PLZero
