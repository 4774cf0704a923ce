import PLZero.Instr
import PLZero.Program

/-! The intermediate code of a program. It is defined for every program, also for one whose names
are not declared. -/

namespace PLZero

/-- The constants in sight with their values, the one to be found first in front. -/
abbrev Constants := List (String × Int32)

namespace Constants

/-- The value that a name stands for as an initializer, zero for a name that is no constant. -/
def value (env : Constants) : Initial → Int32
  | .number v => v
  | .constant name => (env.lookup name).getD 0

end Constants

def Decl.bind (env : Constants) : Decl → Constants
  | .var .. => env
  | .const name init _ => (name, init.elim 0 env.value) :: env

def Decl.codeThen (env : Constants) (d : Decl) (rest : List Instr) : List Instr :=
  match d with
  | .var name none line => ⟨.declare name, line⟩ :: rest
  | .var name (some init) line =>
    ⟨.declare name, line⟩ :: ⟨.push (env.value init), line⟩ :: ⟨.store name, line⟩ :: rest
  | .const name init line => ⟨.const name (init.elim 0 env.value), line⟩ :: rest

def Decl.bindAll (env : Constants) (ds : List Decl) : Constants := ds.foldl Decl.bind env

def Decl.codeAllThen : Constants → List Decl → List Instr → List Instr
  | _, [], rest => rest
  | env, d :: ds, rest => d.codeThen env (codeAllThen (d.bind env) ds rest)

def Expr.codeThen : Expr → List Instr → List Instr
  | .binary op left right line, rest => left.codeThen (right.codeThen (⟨.oper op, line⟩ :: rest))
  | .literal value line, rest => ⟨.push value, line⟩ :: rest
  | .ident name line, rest => ⟨.load name, line⟩ :: rest

def Expr.writeAllThen (line : Nat) : List Expr → List Instr → List Instr
  | [], rest => rest
  | e :: es, rest => e.codeThen (⟨.write, line⟩ :: writeAllThen line es rest)

mutual

/-- The code of a statement, `rest` behind it. -/
def Stmt.codeThen (env : Constants) : Stmt → List Instr → List Instr
  | .assign name value line, rest => value.codeThen (⟨.store name, line⟩ :: rest)
  | .ifElse cond body elseIfs otherwise line, rest =>
    cond.codeThen (⟨.ifMark, line⟩ :: Stmt.codeAllThen env body (ElseIf.codeAllThen env elseIfs
      (match otherwise with
        | some body => ⟨.elseMark, line⟩ :: Stmt.codeAllThen env body (⟨.endIf, line⟩ :: rest)
        | none => ⟨.endIf, line⟩ :: rest)))
  | .whileDo cond body line, rest =>
    ⟨.whileMark, line⟩ :: cond.codeThen (⟨.doMark, line⟩ ::
      Stmt.codeAllThen env body (⟨.endWhile, line⟩ :: rest))
  | .forTo counter start bound body line, rest =>
    start.codeThen (⟨.forInit counter, line⟩ :: bound.codeThen (⟨.forTo counter, line⟩ ::
      Stmt.codeAllThen env body (⟨.endFor counter, line⟩ :: rest)))
  | .read names line, rest => names.map (fun name => ⟨.read name, line⟩) ++ rest
  | .write values line, rest => Expr.writeAllThen line values rest
  | .call name line, rest => ⟨.call name, line⟩ :: rest
  | .group body _, rest => Stmt.codeAllThen env body rest
  | .procedure name body line, rest =>
    ⟨.procedureStart name, line⟩ :: body.codeThen env (⟨.procedureEnd name, line⟩ :: rest)

def Stmt.codeAllThen (env : Constants) : List Stmt → List Instr → List Instr
  | [], rest => rest
  | s :: ss, rest => s.codeThen env (Stmt.codeAllThen env ss rest)

def ElseIf.codeAllThen (env : Constants) : List ElseIf → List Instr → List Instr
  | [], rest => rest
  | ⟨cond, body, line⟩ :: others, rest =>
    cond.codeThen (⟨.elseIf, line⟩ ::
      Stmt.codeAllThen env body (ElseIf.codeAllThen env others rest))

/-- The constants that the block declares are in sight of its own statement only. -/
def Block.codeThen (env : Constants) : Block → List Instr → List Instr
  | ⟨decls, stmt, _⟩, rest =>
    Decl.codeAllThen env decls (match stmt with
      | some s => s.codeThen (Decl.bindAll env decls) rest
      | none => rest)

end

/-- Blocks one after the other: each sees the constants of those before it. -/
def Block.codeAllThen : Constants → List Block → List Instr → List Instr
  | _, [], rest => rest
  | env, b :: bs, rest => b.codeThen env (codeAllThen (Decl.bindAll env b.decls) bs rest)

def Expr.code (e : Expr) : List Instr := e.codeThen []

def Stmt.code (env : Constants) (s : Stmt) : List Instr := s.codeThen env []

def Program.code (p : Program) : List Instr := Block.codeAllThen [] p.blocks []

theorem Decl.codeThen_append (env : Constants) (d : Decl) (k rest : List Instr) :
    d.codeThen env (k ++ rest) = d.codeThen env k ++ rest := by
  cases d with
  | var name init line => cases init <;> rfl
  | const name init line => rfl

theorem Decl.codeAllThen_append (env : Constants) (ds : List Decl) (k rest : List Instr) :
    Decl.codeAllThen env ds (k ++ rest) = Decl.codeAllThen env ds k ++ rest := by
  induction ds generalizing env with
  | nil => rfl
  | cons d ds ih => rw [codeAllThen, ih, codeThen_append]; rfl

theorem Expr.codeThen_append (e : Expr) (k rest : List Instr) :
    e.codeThen (k ++ rest) = e.codeThen k ++ rest := by
  induction e generalizing k with
  | binary op left right line ihl ihr => rw [codeThen, codeThen, ← ihl, ← ihr]; rfl
  | literal value line => rfl
  | ident name line => rfl

theorem Expr.writeAllThen_append (line : Nat) (es : List Expr) (k rest : List Instr) :
    Expr.writeAllThen line es (k ++ rest) = Expr.writeAllThen line es k ++ rest := by
  induction es with
  | nil => rfl
  | cons e es ih => rw [writeAllThen, writeAllThen, ih, ← List.cons_append, codeThen_append]

mutual

theorem Stmt.codeThen_append (env : Constants) (s : Stmt) (k rest : List Instr) :
    s.codeThen env (k ++ rest) = s.codeThen env k ++ rest := by
  match s with
  | .assign name value line => simp only [Stmt.codeThen, ← List.cons_append, Expr.codeThen_append]
  | .ifElse cond body elseIfs (some otherwise) line =>
    simp only [Stmt.codeThen, ← List.cons_append, Stmt.codeAllThen_append env otherwise,
      ElseIf.codeAllThen_append env elseIfs, Stmt.codeAllThen_append env body, Expr.codeThen_append]
  | .ifElse cond body elseIfs none line =>
    simp only [Stmt.codeThen, ← List.cons_append, ElseIf.codeAllThen_append env elseIfs,
      Stmt.codeAllThen_append env body, Expr.codeThen_append]
  | .whileDo cond body line =>
    simp only [Stmt.codeThen, ← List.cons_append, Stmt.codeAllThen_append env body,
      Expr.codeThen_append]
  | .forTo counter start bound body line =>
    simp only [Stmt.codeThen, ← List.cons_append, Stmt.codeAllThen_append env body,
      Expr.codeThen_append]
  | .read names line => simp only [Stmt.codeThen, List.append_assoc]
  | .write values line => simp only [Stmt.codeThen, Expr.writeAllThen_append]
  | .call name line => rfl
  | .group body line => simp only [Stmt.codeThen, Stmt.codeAllThen_append env body]
  | .procedure name body line =>
    simp only [Stmt.codeThen, ← List.cons_append, Block.codeThen_append env body]

theorem Stmt.codeAllThen_append (env : Constants) (ss : List Stmt) (k rest : List Instr) :
    Stmt.codeAllThen env ss (k ++ rest) = Stmt.codeAllThen env ss k ++ rest := by
  match ss with
  | [] => rfl
  | s :: ss =>
    simp only [Stmt.codeAllThen, Stmt.codeAllThen_append env ss, Stmt.codeThen_append env s]

theorem ElseIf.codeAllThen_append (env : Constants) (es : List ElseIf) (k rest : List Instr) :
    ElseIf.codeAllThen env es (k ++ rest) = ElseIf.codeAllThen env es k ++ rest := by
  match es with
  | [] => rfl
  | ⟨cond, body, line⟩ :: others =>
    simp only [ElseIf.codeAllThen, ElseIf.codeAllThen_append env others,
      Stmt.codeAllThen_append env body, ← List.cons_append, Expr.codeThen_append]

theorem Block.codeThen_append (env : Constants) (b : Block) (k rest : List Instr) :
    b.codeThen env (k ++ rest) = b.codeThen env k ++ rest := by
  match b with
  | ⟨decls, some s, line⟩ =>
    simp only [Block.codeThen, Stmt.codeThen_append _ s, Decl.codeAllThen_append]
  | ⟨decls, none, line⟩ => simp only [Block.codeThen, Decl.codeAllThen_append]

end

theorem Expr.codeThen_eq_append (e : Expr) (rest : List Instr) : e.codeThen rest = e.code ++ rest :=
  e.codeThen_append [] rest

theorem Stmt.codeThen_eq_append (env : Constants) (s : Stmt) (rest : List Instr) :
    s.codeThen env rest = s.code env ++ rest :=
  s.codeThen_append env [] rest

theorem Expr.code_binary (op : BinOp) (left right : Expr) (line : Nat) :
    (Expr.binary op left right line).code = left.code ++ right.code ++ [⟨.oper op, line⟩] := by
  rw [code, codeThen, codeThen_eq_append, codeThen_eq_append, List.append_assoc]

end PLZero
