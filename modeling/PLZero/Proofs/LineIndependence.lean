import PLZero.Proofs.Printed
import PLZero.Symbol.Analysis

/-! Scope analysis does not depend on lines: of a program whose nodes are all on one line it makes the same table, with
all symbols on that line, or gives the same error there. -/

namespace PLZero

namespace Symbol

section

variable (n : Nat)

mutual

/-- The same symbol, declared on line `n` with all that is declared in it. -/
def onLine : Symbol → Symbol
  | var name init _ => var name init n
  | const name value _ => const name value n
  | procedure name body _ => procedure name (onLineAll body) n

def onLineAll : List Symbol → List Symbol
  | [] => []
  | s :: rest => s.onLine :: onLineAll rest

end

theorem onLineAll_eq_map (symbols : List Symbol) : onLineAll n symbols = symbols.map (onLine n) := by
  induction symbols with
  | nil => rfl
  | cons s symbols ih => rw [onLineAll, ih, List.map_cons]

end

theorem name_onLine (n : Nat) (s : Symbol) : (s.onLine n).name = s.name := by
  cases s <;> rfl

theorem line_onLine (n : Nat) (s : Symbol) : (s.onLine n).line = n := by
  cases s <;> rfl

end Symbol

def Table.onLine (n : Nat) (table : Table) : Table := table.map (Symbol.onLine n)

def ScopeError.onLine (n : Nat) : ScopeError → ScopeError
  | .duplicate name _ => .duplicate name n
  | .undeclaredVariable name _ => .undeclaredVariable name n
  | .undeclaredProcedure name _ => .undeclaredProcedure name n
  | .constantAssigned name _ => .constantAssigned name n
  | .initialNotConstant name _ => .initialNotConstant name n

variable {α β α' β' : Type} {n : Nat}

/-- The answer on line `n`, which gives `f a` where `a` was given. -/
def answerOn (n : Nat) (f : α → β) : Except ScopeError α → Except ScopeError β
  | .ok a => .ok (f a)
  | .error e => .error (e.onLine n)

theorem answerOn_bind {f : α → α'} {g : β → β'} {k : α → Except ScopeError β} {k' : α' → Except ScopeError β'}
    (x : Except ScopeError α) (hk : ∀ a, k' (f a) = answerOn n g (k a)) :
    (answerOn n f x >>= k') = answerOn n g (x >>= k) := by
  cases x with
  | ok a => exact hk a
  | error e => rfl

namespace Table

theorem find?_onLine (table : Table) (name : String) :
    (table.onLine n).find? name = (table.find? name).map (Symbol.onLine n) := by
  rw [find?, onLine, List.find?_map]
  congr 2
  funext s
  exact congrArg (· == name) (s.name_onLine n)

theorem lookup_onLine (scopes : List Table) (name : String) :
    lookup (scopes.map (onLine n)) name = (lookup scopes name).map (Symbol.onLine n) := by
  induction scopes with
  | nil => rfl
  | cons table scopes ih =>
    simp only [lookup, List.map_cons, List.findSome?_cons, find?_onLine] at ih ⊢
    cases table.find? name with
    | none => exact ih
    | some s => rfl

theorem declare_onLine (table : Table) (s : Symbol) :
    (table.onLine n).declare (s.onLine n) = answerOn n (onLine n) (table.declare s) := by
  rw [declare, declare, s.name_onLine, s.line_onLine, find?_onLine]
  cases table.find? s.name with
  | none =>
    change Except.ok _ = Except.ok _
    rw [onLine, onLine, List.map_append, List.map_singleton]
  | some _ => rfl

variable (scopes : List Table) (name : String) (line : Nat)

theorem readable_onLine : readable (scopes.map (onLine n)) name n = answerOn n id (readable scopes name line) := by
  rw [readable, readable, lookup_onLine]
  rcases lookup scopes name with _ | _ | _ | _ <;> rfl

theorem assignable_onLine : assignable (scopes.map (onLine n)) name n = answerOn n id (assignable scopes name line) := by
  rw [assignable, assignable, lookup_onLine]
  rcases lookup scopes name with _ | _ | _ | _ <;> rfl

theorem callable_onLine : callable (scopes.map (onLine n)) name n = answerOn n id (callable scopes name line) := by
  rw [callable, callable, lookup_onLine]
  rcases lookup scopes name with _ | _ | _ | _ <;> rfl

theorem constantValue_onLine :
    constantValue (scopes.map (onLine n)) name n = answerOn n id (constantValue scopes name line) := by
  rw [constantValue, constantValue, lookup_onLine]
  rcases lookup scopes name with _ | _ | _ | _ <;> rfl

end Table

theorem Initial.value_onLine (scopes : List Table) (line : Nat) (i : Initial) :
    i.value (scopes.map (Table.onLine n)) n = answerOn n id (i.value scopes line) := by
  cases i with
  | number v => rfl
  | constant name => exact Table.constantValue_onLine scopes name line

theorem Decl.symbol_onLine (scopes : List Table) (d : Decl) :
    (d.onLine n).symbol (scopes.map (Table.onLine n)) = answerOn n (Symbol.onLine n) (d.symbol scopes) := by
  cases d with
  | var name init line | const name init line =>
    cases init with
    | none => rfl
    | some i =>
      change (i.value _ n >>= _) = _
      rw [i.value_onLine scopes line]
      exact answerOn_bind _ fun _ => rfl

theorem Decl.analyzeAll_onLine (outer : List Table) (ds : List Decl) (table : Table) :
    Decl.analyzeAll (outer.map (Table.onLine n)) (ds.map (Decl.onLine n)) (table.onLine n) =
      answerOn n (Table.onLine n) (Decl.analyzeAll outer ds table) := by
  induction ds generalizing table with
  | nil => rfl
  | cons d ds ih =>
    rw [List.map_cons, Decl.analyzeAll, Decl.analyzeAll, ← List.map_cons, d.symbol_onLine]
    refine answerOn_bind _ fun s => ?_
    rw [Table.declare_onLine]
    exact answerOn_bind _ ih

theorem Expr.analyze_onLine (scopes : List Table) (e : Expr) :
    (e.onLine n).analyze (scopes.map (Table.onLine n)) = answerOn n id (e.analyze scopes) := by
  induction e with
  | binary op left right line ihl ihr =>
    rw [Expr.onLine, Expr.analyze, Expr.analyze, ihl]
    exact answerOn_bind _ fun _ => ihr
  | literal value line => rfl
  | ident name line => exact Table.readable_onLine scopes name line

theorem forM_onLine {f f' : α → Except ScopeError Unit} (hf : ∀ a, f' a = answerOn n id (f a)) (as : List α) :
    as.forM f' = answerOn n id (as.forM f) := by
  induction as with
  | nil => rfl
  | cons a as ih =>
    change (f' a >>= fun _ => as.forM f') = answerOn n id (f a >>= fun _ => as.forM f)
    rw [hf a]
    exact answerOn_bind _ fun _ => ih

mutual

theorem Stmt.analyze_onLine (outer : List Table) (table : Table) (s : Stmt) :
    (s.onLine n).analyze (outer.map (Table.onLine n)) (table.onLine n) =
      answerOn n (Table.onLine n) (s.analyze outer table) := by
  have hscopes : table.onLine n :: outer.map (Table.onLine n) = (table :: outer).map (Table.onLine n) := rfl
  match s with
  | .assign name value line =>
    rw [Stmt.onLine, Stmt.analyze, Stmt.analyze, hscopes, Table.assignable_onLine _ _ line]
    refine answerOn_bind _ fun _ => ?_
    rw [Expr.analyze_onLine]
    exact answerOn_bind _ fun _ => rfl
  | .ifElse cond body elseIfs (some other) line =>
    rw [Stmt.onLine, Stmt.onLineLast, Stmt.analyze, Stmt.analyze, hscopes, Expr.analyze_onLine]
    refine answerOn_bind _ fun _ => ?_
    rw [Stmt.analyzeAll_onLine outer table body]
    refine answerOn_bind _ fun table => ?_
    rw [ElseIf.analyzeAll_onLine outer table elseIfs]
    exact answerOn_bind _ fun table => Stmt.analyzeAll_onLine outer table other
  | .ifElse cond body elseIfs none line =>
    rw [Stmt.onLine, Stmt.onLineLast, Stmt.analyze, Stmt.analyze, hscopes, Expr.analyze_onLine]
    refine answerOn_bind _ fun _ => ?_
    rw [Stmt.analyzeAll_onLine outer table body]
    refine answerOn_bind _ fun table => ?_
    rw [ElseIf.analyzeAll_onLine outer table elseIfs]
    exact answerOn_bind _ fun table => rfl
  | .whileDo cond body line =>
    rw [Stmt.onLine, Stmt.analyze, Stmt.analyze, hscopes, Expr.analyze_onLine]
    exact answerOn_bind _ fun _ => Stmt.analyzeAll_onLine outer table body
  | .forTo counter start bound body line =>
    rw [Stmt.onLine, Stmt.analyze, Stmt.analyze, hscopes, Table.assignable_onLine _ _ line]
    refine answerOn_bind _ fun _ => ?_
    rw [Expr.analyze_onLine, Expr.analyze_onLine]
    refine answerOn_bind _ fun _ => answerOn_bind _ fun _ => ?_
    exact Stmt.analyzeAll_onLine outer table body
  | .read names line =>
    rw [Stmt.onLine, Stmt.analyze, Stmt.analyze, hscopes, forM_onLine (Table.assignable_onLine _ · line)]
    exact answerOn_bind _ fun _ => rfl
  | .write values line =>
    have hvalues : (values.map (Expr.onLine n)).forM (·.analyze ((table :: outer).map (Table.onLine n))) =
        answerOn n id (values.forM (·.analyze (table :: outer))) := by
      rw [List.forM_eq_forM, List.forM_map]
      exact forM_onLine (Expr.analyze_onLine _) values
    rw [Stmt.onLine, Stmt.analyze, Stmt.analyze, hscopes, hvalues]
    exact answerOn_bind _ fun _ => rfl
  | .call name line =>
    rw [Stmt.onLine, Stmt.analyze, Stmt.analyze, hscopes, Table.callable_onLine _ _ line]
    exact answerOn_bind _ fun _ => rfl
  | .group body line => exact Stmt.analyzeAll_onLine outer table body
  | .procedure name body line =>
    have hdeclare : (table.onLine n).declare (.procedure name [] n) = _ := table.declare_onLine (.procedure name [] line)
    rw [Stmt.onLine, Stmt.analyze, Stmt.analyze, hdeclare]
    refine answerOn_bind _ fun inside => ?_
    have hbody : (body.onLine n).analyze (inside.onLine n :: outer.map (Table.onLine n)) [] = _ :=
      Block.analyze_onLine (inside :: outer) [] body
    rw [hbody]
    refine answerOn_bind _ fun locals => ?_
    change Except.ok _ = Except.ok ((table ++ [Symbol.procedure name locals line]).map (Symbol.onLine n))
    rw [List.map_append, List.map_singleton, Symbol.onLine, Symbol.onLineAll_eq_map]
    rfl

theorem Stmt.analyzeAll_onLine (outer : List Table) (table : Table) (ss : List Stmt) :
    Stmt.analyzeAll (outer.map (Table.onLine n)) (table.onLine n) (Stmt.onLineAll n ss) =
      answerOn n (Table.onLine n) (Stmt.analyzeAll outer table ss) := by
  match ss with
  | [] => rfl
  | s :: ss =>
    rw [Stmt.onLineAll, Stmt.analyzeAll, Stmt.analyzeAll, Stmt.analyze_onLine outer table s]
    exact answerOn_bind _ fun table => Stmt.analyzeAll_onLine outer table ss

theorem ElseIf.analyzeAll_onLine (outer : List Table) (table : Table) (es : List ElseIf) :
    ElseIf.analyzeAll (outer.map (Table.onLine n)) (table.onLine n) (ElseIf.onLineAll n es) =
      answerOn n (Table.onLine n) (ElseIf.analyzeAll outer table es) := by
  match es with
  | [] => rfl
  | ⟨cond, body, line⟩ :: es =>
    have hscopes : table.onLine n :: outer.map (Table.onLine n) = (table :: outer).map (Table.onLine n) := rfl
    rw [ElseIf.onLineAll, ElseIf.analyzeAll, ElseIf.analyzeAll, hscopes, Expr.analyze_onLine]
    refine answerOn_bind _ fun _ => ?_
    rw [Stmt.analyzeAll_onLine outer table body]
    exact answerOn_bind _ fun table => ElseIf.analyzeAll_onLine outer table es

theorem Block.analyze_onLine (outer : List Table) (table : Table) (b : Block) :
    (b.onLine n).analyze (outer.map (Table.onLine n)) (table.onLine n) =
      answerOn n (Table.onLine n) (b.analyze outer table) := by
  match b with
  | ⟨decls, some s, line⟩ =>
    rw [Block.onLine, Block.analyze, Block.analyze, Decl.analyzeAll_onLine]
    exact answerOn_bind _ fun table => Stmt.analyze_onLine outer table s
  | ⟨decls, none, line⟩ =>
    rw [Block.onLine, Block.analyze, Block.analyze, Decl.analyzeAll_onLine]
    exact answerOn_bind _ fun table => rfl

end

theorem Block.analyzeAll_onLine (outer : List Table) (table : Table) (bs : List Block) :
    Block.analyzeAll (outer.map (Table.onLine n)) (table.onLine n) (bs.map (Block.onLine n)) =
      answerOn n (Table.onLine n) (Block.analyzeAll outer table bs) := by
  induction bs generalizing table with
  | nil => rfl
  | cons b bs ih =>
    rw [List.map_cons, Block.analyzeAll, Block.analyzeAll, b.analyze_onLine outer table]
    exact answerOn_bind _ ih

theorem Program.analyze_onLine (n : Nat) (p : Program) :
    (p.onLine n).analyze = answerOn n (Table.onLine n) p.analyze := Block.analyzeAll_onLine [] [] p.blocks

/-- Programs that differ by their lines only have tables that differ by their lines only. -/
theorem Program.analyze_of_onLine_eq {p p' : Program} {table : Table} (heq : p'.onLine n = p.onLine n)
    (h : p.analyze = .ok table) : ∃ table', p'.analyze = .ok table' ∧ table'.onLine n = table.onLine n := by
  have hanswer : answerOn n (Table.onLine n) p'.analyze = .ok (table.onLine n) := by
    rw [← p'.analyze_onLine, heq, p.analyze_onLine, h]
    rfl
  cases h' : p'.analyze with
  | ok table' =>
    rw [h'] at hanswer
    exact ⟨table', rfl, Except.ok.inj hanswer⟩
  | error e =>
    rw [h'] at hanswer
    cases hanswer

end PLZero
