import PLZero.Program
import PLZero.Symbol
import PLZero.Symbol.ScopeError

/-! Scope analysis: every name is declared once in its scope and before it is used, and used as what
it was declared. The result is the table of the outermost scope. -/

namespace PLZero

namespace Table

def declare (table : Table) (s : Symbol) : Except ScopeError Table :=
  match table.find? s.name with
  | some _ => .error (.duplicate s.name s.line)
  | none => .ok (table ++ [s])

/-- A name that may be read: a variable or a constant. -/
def readable (scopes : List Table) (name : String) (line : Nat) : Except ScopeError Unit :=
  match lookup scopes name with
  | some (.var ..) | some (.const ..) => .ok ()
  | some (.procedure ..) | none => .error (.undeclaredVariable name line)

def assignable (scopes : List Table) (name : String) (line : Nat) : Except ScopeError Unit :=
  match lookup scopes name with
  | some (.var ..) => .ok ()
  | some (.const ..) => .error (.constantAssigned name line)
  | some (.procedure ..) | none => .error (.undeclaredVariable name line)

def callable (scopes : List Table) (name : String) (line : Nat) : Except ScopeError Unit :=
  match lookup scopes name with
  | some (.procedure ..) => .ok ()
  | _ => .error (.undeclaredProcedure name line)

def constantValue (scopes : List Table) (name : String) (line : Nat) : Except ScopeError Int32 :=
  match lookup scopes name with
  | some (.const _ value _) => .ok value
  | some _ => .error (.initialNotConstant name line)
  | none => .error (.undeclaredVariable name line)

end Table

def Initial.value (scopes : List Table) (line : Nat) : Initial → Except ScopeError Int32
  | .number v => .ok v
  | .constant name => Table.constantValue scopes name line

def Decl.symbol (scopes : List Table) : Decl → Except ScopeError Symbol
  | .var name none line => .ok (.var name none line)
  | .var name (some init) line => do return .var name (some (← init.value scopes line)) line
  | .const name none line => .ok (.const name 0 line)
  | .const name (some init) line => do return .const name (← init.value scopes line) line

def Decl.analyzeAll (outer : List Table) : List Decl → Table → Except ScopeError Table
  | [], table => .ok table
  | d :: rest, table => do
    let s ← d.symbol (table :: outer)
    analyzeAll outer rest (← table.declare s)

def Expr.analyze (scopes : List Table) : Expr → Except ScopeError Unit
  | .binary _ left right _ => do
    left.analyze scopes
    right.analyze scopes
  | .literal .. => .ok ()
  | .ident name line => Table.readable scopes name line

mutual

/-- The scope `table`, inside the scopes `outer`, after a statement: only the procedures that the
statement declares are new. -/
def Stmt.analyze (outer : List Table) (table : Table) : Stmt → Except ScopeError Table
  | .assign name value line => do
    Table.assignable (table :: outer) name line
    value.analyze (table :: outer)
    return table
  | .ifElse cond body elseIfs otherwise _ => do
    cond.analyze (table :: outer)
    let table ← Stmt.analyzeAll outer table body
    let table ← ElseIf.analyzeAll outer table elseIfs
    match otherwise with
    | some body => Stmt.analyzeAll outer table body
    | none => return table
  | .whileDo cond body _ => do
    cond.analyze (table :: outer)
    Stmt.analyzeAll outer table body
  | .forTo counter start bound body line => do
    Table.assignable (table :: outer) counter line
    start.analyze (table :: outer)
    bound.analyze (table :: outer)
    Stmt.analyzeAll outer table body
  | .read names line => do
    names.forM fun name => Table.assignable (table :: outer) name line
    return table
  | .write values _ => do
    values.forM (·.analyze (table :: outer))
    return table
  | .call name line => do
    Table.callable (table :: outer) name line
    return table
  | .group body _ => Stmt.analyzeAll outer table body
  | .procedure name body line => do
    let inside ← table.declare (.procedure name [] line)
    let locals ← body.analyze (inside :: outer) []
    return table ++ [.procedure name locals line]

def Stmt.analyzeAll (outer : List Table) (table : Table) : List Stmt → Except ScopeError Table
  | [] => .ok table
  | s :: rest => do
    let table ← s.analyze outer table
    Stmt.analyzeAll outer table rest

def ElseIf.analyzeAll (outer : List Table) (table : Table) : List ElseIf → Except ScopeError Table
  | [] => .ok table
  | ⟨cond, body, _⟩ :: rest => do
    cond.analyze (table :: outer)
    let table ← Stmt.analyzeAll outer table body
    ElseIf.analyzeAll outer table rest

def Block.analyze (outer : List Table) (table : Table) : Block → Except ScopeError Table
  | ⟨decls, stmt, _⟩ => do
    let table ← Decl.analyzeAll outer decls table
    match stmt with
    | some s => s.analyze outer table
    | none => return table

end

def Block.analyzeAll (outer : List Table) (table : Table) : List Block → Except ScopeError Table
  | [] => .ok table
  | b :: rest => do
    let table ← b.analyze outer table
    analyzeAll outer table rest

def Program.analyze (p : Program) : Except ScopeError Table := Block.analyzeAll [] [] p.blocks

end PLZero
