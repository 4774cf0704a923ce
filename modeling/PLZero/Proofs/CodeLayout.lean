import PLZero.Proofs.Declared
import Mathlib.Data.List.Infix

/-! How the code of a program is laid out. Read from its front it is a row of declarations, of instructions that
stand alone and of instructions behind the expressions that they take the values of. The rows are described once, and what
is true of all of them is proved by induction on the description. -/

namespace PLZero

mutual

/-- The expressions in a statement, in the order of its code. -/
def Stmt.exprs : Stmt → List Expr
  | .assign _ value _ => [value]
  | .ifElse cond body elseIfs otherwise _ =>
    cond :: Stmt.exprsAll body ++ ElseIf.exprsAll elseIfs ++
      match otherwise with
      | some other => Stmt.exprsAll other
      | none => []
  | .whileDo cond body _ => cond :: Stmt.exprsAll body
  | .forTo _ start bound body _ => start :: bound :: Stmt.exprsAll body
  | .write values _ => values
  | .group body _ => Stmt.exprsAll body
  | .procedure _ body _ => body.exprs
  | .read .. | .call .. => []

def Stmt.exprsAll : List Stmt → List Expr
  | [] => []
  | s :: ss => s.exprs ++ Stmt.exprsAll ss

def ElseIf.exprsAll : List ElseIf → List Expr
  | [] => []
  | ⟨cond, body, _⟩ :: others => cond :: Stmt.exprsAll body ++ ElseIf.exprsAll others

def Block.exprs : Block → List Expr
  | ⟨_, some s, _⟩ => s.exprs
  | ⟨_, none, _⟩ => []

end

def Program.exprs (p : Program) : List Expr := p.blocks.flatMap Block.exprs

namespace Op

def isAlone : Op → Bool
  | .elseMark | .endIf | .endWhile | .endFor _ | .call _ | .read _ => true
  | _ => false

def isTaking : Op → Bool
  | .store _ | .write | .ifMark | .elseIf => true
  | _ => false

/-- The name that the instruction uses is in sight as what it is used for. -/
def Sees (layers : List Layer) : Op → Prop
  | .store name | .read name => Assignable layers name
  | .call name => Callable layers name
  | _ => True

end Op

/-- Code from a scope on, with the expressions in it and what it declares, in order. If `S` holds, every name in it
is in sight and every declaration is new in its scope. -/
inductive Layout (S : Prop) : List Layer → Layer → List Expr → List Declared → List Instr → Prop
  | nil {outer : List Layer} {l : Layer} : Layout S outer l [] [] []
  | alone {outer : List Layer} {l : Layer} {es : List Expr} {ds : List Declared} {op : Op} {line : Nat}
    {rest : List Instr} (hop : op.isAlone = true) (hu : S → op.Sees (l :: outer))
    (h : Layout S outer l es ds rest) : Layout S outer l es ds (⟨op, line⟩ :: rest)
  | taking {outer : List Layer} {l : Layer} {e : Expr} {es : List Expr} {ds : List Declared} {op : Op} {line : Nat}
    {rest : List Instr} (hop : op.isTaking = true) (hu : S → op.Sees (l :: outer)) (he : S → e.Scoped (l :: outer))
    (h : Layout S outer l es ds rest) : Layout S outer l (e :: es) ds (e.codeThen (⟨op, line⟩ :: rest))
  | test {outer : List Layer} {l : Layer} {e : Expr} {es : List Expr} {ds : List Declared} {line line' : Nat}
    {rest : List Instr} (he : S → e.Scoped (l :: outer)) (h : Layout S outer l es ds rest) :
    Layout S outer l (e :: es) ds (⟨.whileMark, line⟩ :: e.codeThen (⟨.doMark, line'⟩ :: rest))
  | count {outer : List Layer} {l : Layer} {start bound : Expr} {es : List Expr} {ds : List Declared} {name : String}
    {line line' : Nat} {rest : List Instr} (hu : S → Assignable (l :: outer) name)
    (hs : S → start.Scoped (l :: outer)) (hb : S → bound.Scoped (l :: outer)) (h : Layout S outer l es ds rest) :
    Layout S outer l (start :: bound :: es) ds
      (start.codeThen (⟨.forInit name, line⟩ :: bound.codeThen (⟨.forTo name, line'⟩ :: rest)))
  | declare {outer : List Layer} {l : Layer} {es : List Expr} {ds : List Declared} {d : Decl} {env : Constants}
    {rest : List Instr} (hd : S → IsWord d.name ∧ ¬ l.declares d.name)
    (h : Layout S outer (l.add (d.entry (l :: outer))) es ds rest) :
    Layout S outer l es ((l.path, d.entry (l :: outer)) :: ds) (d.codeThen env rest)
  | enter {outer : List Layer} {l : Layer} {es : List Expr} {ds : List Declared} {name : String} {body : Block}
    {line : Nat} {rest : List Instr} (hd : S → IsWord name ∧ ¬ l.declares name)
    (h : Layout S (l.add (.procedure name body) :: outer) (l.inside name) es ds rest) :
    Layout S outer l es ((l.path, .procedure name body) :: ds) (⟨.procedureStart name, line⟩ :: rest)
  | leave {outer : List Layer} {l inner : Layer} {es : List Expr} {ds : List Declared} {name : String} {line : Nat}
    {rest : List Instr} (h : Layout S outer l es ds rest) :
    Layout S (l :: outer) inner es ds (⟨.procedureEnd name, line⟩ :: rest)

section

variable {S : Prop}

section

variable {outer : List Layer} {l : Layer} {es : List Expr} {ds : List Declared} {env : Constants} {line : Nat}
  {rest : List Instr}

theorem Layout.mark {op : Op} (hop : op.isAlone = true) (hu : op.Sees (l :: outer))
    (h : Layout S outer l es ds rest) : Layout S outer l es ds (⟨op, line⟩ :: rest) :=
  .alone hop (fun _ => hu) h

theorem Layout.guard {e : Expr} {op : Op} (hop : op.isTaking = true) (hu : op.Sees (l :: outer))
    (he : S → e.Scoped (l :: outer)) (h : Layout S outer l es ds rest) :
    Layout S outer l (e :: es) ds (e.codeThen (⟨op, line⟩ :: rest)) :=
  .taking hop (fun _ => hu) he h

theorem Layout.reads {names : List String} (hs : S → ∀ name ∈ names, Assignable (l :: outer) name)
    (h : Layout S outer l es ds rest) :
    Layout S outer l es ds (names.map (fun name => ⟨.read name, line⟩) ++ rest) := by
  induction names with
  | nil => exact h
  | cons name names ih =>
    exact .alone rfl (fun hS => hs hS name List.mem_cons_self)
      (ih fun hS n hn => hs hS n (List.mem_cons_of_mem _ hn))

theorem Layout.writes {values : List Expr} (hs : S → ∀ e ∈ values, e.Scoped (l :: outer))
    (h : Layout S outer l es ds rest) : Layout S outer l (values ++ es) ds (Expr.writeAllThen line values rest) := by
  induction values with
  | nil => exact h
  | cons e values ih =>
    exact .guard rfl trivial (fun hS => hs hS e List.mem_cons_self)
      (ih fun hS x hx => hs hS x (List.mem_cons_of_mem _ hx))

theorem Decl.layoutAll {decls : List Decl} (hs : S → Decl.ScopedAll outer l decls)
    (h : Layout S outer (Decl.afterAll outer l decls) es ds rest) :
    Layout S outer l es (Decl.declaredAll outer l decls ++ ds) (Decl.codeAllThen env decls rest) := by
  induction decls generalizing l env with
  | nil => exact h
  | cons d decls ih => exact .declare (fun hS => ⟨(hs hS).1, (hs hS).2.1⟩) (ih (fun hS => (hs hS).2.2.2) h)

end

mutual

/-- The code of a statement is laid out in front of whatever is laid out in the scope behind it. -/
theorem Stmt.layout {outer : List Layer} {l : Layer} {es : List Expr} {ds : List Declared} {env : Constants}
    {rest : List Instr} (s : Stmt) (hs : S → s.Scoped outer l) (h : Layout S outer (s.after l) es ds rest) :
    Layout S outer l (s.exprs ++ es) (s.declared outer l ++ ds) (s.codeThen env rest) := by
  match s with
  | .assign name value line => exact .taking rfl (fun hS => (hs hS).1) (fun hS => (hs hS).2) h
  | .ifElse cond body elseIfs (some other) line =>
    simp only [Stmt.exprs, Stmt.declared, List.cons_append, List.append_assoc]
    exact .guard rfl trivial (fun hS => (hs hS).1) (Stmt.layoutAll body (fun hS => (hs hS).2.1)
      (ElseIf.layoutAll elseIfs (fun hS => (hs hS).2.2.1) (.mark rfl trivial
        (Stmt.layoutAll other (fun hS => (hs hS).2.2.2) (.mark rfl trivial h)))))
  | .ifElse cond body elseIfs none line =>
    simp only [Stmt.exprs, Stmt.declared, List.cons_append, List.append_assoc, List.nil_append]
    exact .guard rfl trivial (fun hS => (hs hS).1) (Stmt.layoutAll body (fun hS => (hs hS).2.1)
      (ElseIf.layoutAll elseIfs (fun hS => (hs hS).2.2.1) (.mark rfl trivial h)))
  | .whileDo cond body line =>
    exact .test (fun hS => (hs hS).1) (Stmt.layoutAll body (fun hS => (hs hS).2) (.mark rfl trivial h))
  | .forTo counter start bound body line =>
    exact .count (fun hS => (hs hS).1) (fun hS => (hs hS).2.1) (fun hS => (hs hS).2.2.1)
      (Stmt.layoutAll body (fun hS => (hs hS).2.2.2) (.mark rfl trivial h))
  | .read names line => exact .reads hs h
  | .write values line => exact .writes hs h
  | .call name line => exact .alone rfl hs h
  | .group body line => exact Stmt.layoutAll body hs h
  | .procedure name body line =>
    exact .enter (fun hS => ⟨(hs hS).1, (hs hS).2.1⟩) (Block.layout body (fun hS => (hs hS).2.2) (.leave h))

theorem Stmt.layoutAll {outer : List Layer} {l : Layer} {es : List Expr} {ds : List Declared} {env : Constants}
    {rest : List Instr} (ss : List Stmt) (hs : S → Stmt.ScopedAll outer l ss)
    (h : Layout S outer (Stmt.afterAll l ss) es ds rest) :
    Layout S outer l (Stmt.exprsAll ss ++ es) (Stmt.declaredAll outer l ss ++ ds) (Stmt.codeAllThen env ss rest) := by
  match ss with
  | [] => exact h
  | s :: ss =>
    simp only [Stmt.exprsAll, Stmt.declaredAll, List.append_assoc]
    exact Stmt.layout s (fun hS => (hs hS).1) (Stmt.layoutAll ss (fun hS => (hs hS).2) h)

theorem ElseIf.layoutAll {outer : List Layer} {l : Layer} {es : List Expr} {ds : List Declared} {env : Constants}
    {rest : List Instr} (elseIfs : List ElseIf) (hs : S → ElseIf.ScopedAll outer l elseIfs)
    (h : Layout S outer (ElseIf.afterAll l elseIfs) es ds rest) :
    Layout S outer l (ElseIf.exprsAll elseIfs ++ es) (ElseIf.declaredAll outer l elseIfs ++ ds)
      (ElseIf.codeAllThen env elseIfs rest) := by
  match elseIfs with
  | [] => exact h
  | ⟨cond, body, line⟩ :: others =>
    simp only [ElseIf.exprsAll, ElseIf.declaredAll, List.cons_append, List.append_assoc]
    exact .guard rfl trivial (fun hS => (hs hS).1) (Stmt.layoutAll body (fun hS => (hs hS).2.1)
      (ElseIf.layoutAll others (fun hS => (hs hS).2.2) h))

theorem Block.layout {outer : List Layer} {l : Layer} {es : List Expr} {ds : List Declared} {env : Constants}
    {rest : List Instr} (b : Block) (hs : S → b.Scoped outer l) (h : Layout S outer (b.after outer l) es ds rest) :
    Layout S outer l (b.exprs ++ es) (b.declared outer l ++ ds) (b.codeThen env rest) := by
  match b with
  | ⟨decls, some s, line⟩ =>
    simp only [Block.exprs, Block.declared, List.append_assoc]
    exact Decl.layoutAll (fun hS => (hs hS).1) (Stmt.layout s (fun hS => (hs hS).2) h)
  | ⟨decls, none, line⟩ =>
    simp only [Block.exprs, Block.declared, List.append_nil]
    exact Decl.layoutAll (fun hS => (hs hS).1) h

end

theorem Block.layoutAll {outer : List Layer} {l : Layer} {env : Constants} (bs : List Block)
    (hs : S → Block.ScopedAll outer l bs) :
    Layout S outer l (bs.flatMap Block.exprs) (Block.declaredAll outer l bs) (Block.codeAllThen env bs []) := by
  induction bs generalizing l env with
  | nil => exact .nil
  | cons b bs ih => exact Block.layout b (fun hS => (hs hS).1) (ih fun hS => (hs hS).2)

end

theorem Program.layout (p : Program) : Layout p.Scoped [] .initial p.exprs p.declared p.code :=
  Block.layoutAll p.blocks fun h => h

section

variable {S : Prop} {outer : List Layer} {l : Layer} {e : Expr} {es : List Expr} {ds : List Declared}
  {code : List Instr}

theorem Expr.suffix_taken (e : Expr) (i : Instr) (rest : List Instr) : rest <:+ e.codeThen (i :: rest) :=
  (List.suffix_cons _ _).trans ⟨e.code, (e.codeThen_eq_append _).symm⟩

theorem Decl.suffix_codeThen (d : Decl) (env : Constants) (rest : List Instr) : rest <:+ d.codeThen env rest :=
  ⟨Decl.codeAllThen env [d] [], (Decl.codeAllThen_append env [d] [] rest).symm⟩

theorem Expr.infix_codeThen (e : Expr) (rest : List Instr) : e.code <:+: e.codeThen rest :=
  ⟨[], rest, (e.codeThen_eq_append rest).symm⟩

/-- The code of every expression is in one piece. -/
theorem Layout.infix_code (h : Layout S outer l es ds code) (he : e ∈ es) : e.code <:+: code := by
  induction h with
  | nil => cases he
  | alone _ _ h ih | enter _ h ih | leave h ih => exact (ih he).trans (List.suffix_cons _ _).isInfix
  | taking _ _ _ h ih =>
    rcases List.mem_cons.mp he with rfl | he
    · exact e.infix_codeThen _
    · exact (ih he).trans (Expr.suffix_taken _ _ _).isInfix
  | test _ h ih =>
    rcases List.mem_cons.mp he with rfl | he
    · exact (e.infix_codeThen _).trans (List.suffix_cons _ _).isInfix
    · exact (ih he).trans ((Expr.suffix_taken _ _ _).trans (List.suffix_cons _ _)).isInfix
  | count _ _ _ h ih =>
    rcases List.mem_cons.mp he with rfl | he
    · exact e.infix_codeThen _
    · rcases List.mem_cons.mp he with rfl | he
      · exact (e.infix_codeThen _).trans (Expr.suffix_taken _ _ _).isInfix
      · exact (ih he).trans ((Expr.suffix_taken _ _ _).trans (Expr.suffix_taken _ _ _)).isInfix
  | declare _ h ih => exact (ih he).trans (Decl.suffix_codeThen _ _ _).isInfix

theorem Program.infix_code {p : Program} (h : e ∈ p.exprs) : e.code <:+: p.code := p.layout.infix_code h

end

end PLZero
