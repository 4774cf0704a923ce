import PLZero.Proofs.CodeScopes

/-! Names of a program and of its code, one by one. A program mentions names in the order of its code: every use
of a name with the scopes that the analysis searches for it, every declared variable and constant with its scope.
The code has one instruction for each. -/

namespace PLZero

namespace Symbol

def bare : Symbol → Symbol
  | .procedure name _ line => .procedure name [] line
  | s => s

theorem eq_of_bare_eq {s x : Symbol} (h : s.bare = x.bare) (hx : x.kind ≠ .procedure) : s = x := by
  cases s <;> cases x <;> simp_all [bare, kind]

end Symbol

namespace Table

variable {s : Symbol}

def within? : Table → List String → Option Table
  | t, [] => some t
  | t, name :: path =>
    match t.find? name with
    | some (.procedure _ body _) => within? body path
    | _ => none

/-- What the procedure with this path declares under a name. -/
def entry? (t : Table) (path : List String) (name : String) : Option Symbol :=
  (t.within? path).bind (·.find? name)

variable {t t' : Table} {name n : String}

theorem find?_concat (t : Table) (s : Symbol) (name : String) :
    find? (t ++ [s]) name = (t.find? name).or (if s.name = name then some s else none) := by
  simp only [find?, List.find?_append, List.find?_singleton, beq_iff_eq]

/-- The names of a table stay what they are when symbols are added behind it. -/
theorem find?_append_of_some (h : t.find? name = some s) (added : Table) :
    find? (t ++ added) name = some s := by
  simp only [find?] at h ⊢
  rw [List.find?_append, h, Option.some_or]

theorem find?_concat_eq_some {x : Symbol} (hn : t.find? s.name = none) :
    find? (t ++ [s]) name = some x ↔ t.find? name = some x ∨ (s.name = name ∧ x = s) := by
  rw [find?_concat]
  by_cases hs : s.name = name
  · subst hs
    simp [hn, eq_comm]
  · simp [hs]

theorem find?_concat_self (hn : t.find? s.name = none) : find? (t ++ [s]) s.name = some s :=
  (find?_concat_eq_some hn).mpr (.inr ⟨rfl, rfl⟩)

/-- What a table declares a name as. -/
def kind? (t : Table) (name : String) : Option Kind := (t.find? name).map Symbol.kind

theorem kind?_concat (hn : t.find? s.name = none) (name : String) :
    kind? (t ++ [s]) name = if s.name = name then some s.kind else t.kind? name := by
  unfold kind?
  rw [find?_concat]
  by_cases hs : s.name = name
  · subst hs
    simp [hn]
  · simp [hs]

theorem lookup_cons (t : Table) (outer : List Table) (name : String) :
    lookup (t :: outer) name = (t.find? name).or (lookup outer name) := by
  simp only [lookup, List.findSome?_cons]
  cases t.find? name <;> rfl

theorem within?_concat (t : Table) (path : List String) (name : String) {body : Table} {line : Nat}
    (h : t.entry? path name = some (.procedure n body line)) : t.within? (path ++ [name]) = some body := by
  induction path generalizing t with
  | nil =>
    have hfind : t.find? name = some (.procedure n body line) := h
    simp only [List.nil_append, within?, hfind]
  | cons p path ih =>
    unfold entry? within? at h
    simp only [List.cons_append, within?]
    split at h
    · exact ih _ h
    · cases h

/-- Only procedures were declared. -/
def Extends (t t' : Table) : Prop := ∃ added : Table, t' = t ++ added ∧ ∀ s ∈ added, s.kind = .procedure

namespace Extends

theorem refl (t : Table) : t.Extends t := ⟨[], by simp, by simp⟩

theorem trans {t'' : Table} (h : t.Extends t') (h' : t'.Extends t'') : t.Extends t'' := by
  obtain ⟨added, rfl, hk⟩ := h
  obtain ⟨added', rfl, hk'⟩ := h'
  refine ⟨added ++ added', List.append_assoc .., ?_⟩
  intro s hs
  rcases List.mem_append.mp hs with hs | hs
  · exact hk s hs
  · exact hk' s hs

theorem find? (h : t.Extends t') (hs : t.find? name = some s) : t'.find? name = some s := by
  obtain ⟨added, rfl, -⟩ := h
  exact find?_append_of_some hs added

/-- What is no procedure was there before. -/
theorem find?_of_kind (h : t.Extends t') (hs : t'.find? name = some s) (hk : s.kind ≠ .procedure) :
    t.find? name = some s := by
  obtain ⟨added, rfl, hadded⟩ := h
  simp only [Table.find?, List.find?_append] at hs ⊢
  rcases Option.or_eq_some_iff.mp hs with hs | ⟨-, hs⟩
  · exact hs
  · exact absurd (hadded s (List.mem_of_find?_eq_some hs)) hk

end Extends

end Table

variable {scopes : List Table}

mutual

/-- Statements declare nothing but procedures. -/
theorem Stmt.extends_of_analyze {t t' : Table} (s : Stmt)
    (h : s.analyze scopes t = .ok t') : t.Extends t' := by
  match s with
  | .assign name value line =>
    obtain ⟨_, -, h⟩ := ok_of_bind h
    obtain ⟨_, -, h⟩ := ok_of_bind h
    cases h
    exact .refl t
  | .ifElse cond body elseIfs (some other) line =>
    obtain ⟨_, -, h⟩ := ok_of_bind h
    obtain ⟨t1, hb, h⟩ := ok_of_bind h
    obtain ⟨t2, he, h⟩ := ok_of_bind h
    exact ((Stmt.extends_of_analyzeAll body hb).trans (ElseIf.extends_of_analyzeAll elseIfs he)).trans
      (Stmt.extends_of_analyzeAll other h)
  | .ifElse cond body elseIfs none line =>
    obtain ⟨_, -, h⟩ := ok_of_bind h
    obtain ⟨t1, hb, h⟩ := ok_of_bind h
    obtain ⟨t2, he, h⟩ := ok_of_bind h
    cases h
    exact (Stmt.extends_of_analyzeAll body hb).trans (ElseIf.extends_of_analyzeAll elseIfs he)
  | .whileDo cond body line =>
    obtain ⟨_, -, h⟩ := ok_of_bind h
    exact Stmt.extends_of_analyzeAll body h
  | .forTo counter start bound body line =>
    obtain ⟨_, -, h⟩ := ok_of_bind h
    obtain ⟨_, -, h⟩ := ok_of_bind h
    obtain ⟨_, -, h⟩ := ok_of_bind h
    exact Stmt.extends_of_analyzeAll body h
  | .read names line | .write values line | .call name line =>
    obtain ⟨_, -, h⟩ := ok_of_bind h
    cases h
    exact .refl t
  | .group body line => exact Stmt.extends_of_analyzeAll body h
  | .procedure name body line =>
    obtain ⟨_, -, h⟩ := ok_of_bind h
    obtain ⟨locals, -, h⟩ := ok_of_bind h
    cases h
    exact ⟨_, rfl, by simp [Symbol.kind]⟩

theorem Stmt.extends_of_analyzeAll {t t' : Table} (ss : List Stmt)
    (h : Stmt.analyzeAll scopes t ss = .ok t') : t.Extends t' := by
  match ss with
  | [] =>
    cases h
    exact .refl t
  | s :: ss =>
    obtain ⟨t1, h1, h⟩ := ok_of_bind h
    exact (Stmt.extends_of_analyze s h1).trans (Stmt.extends_of_analyzeAll ss h)

theorem ElseIf.extends_of_analyzeAll {t t' : Table} (es : List ElseIf)
    (h : ElseIf.analyzeAll scopes t es = .ok t') : t.Extends t' := by
  match es with
  | [] =>
    cases h
    exact .refl t
  | ⟨cond, body, line⟩ :: others =>
    obtain ⟨_, -, h⟩ := ok_of_bind h
    obtain ⟨t1, hb, h⟩ := ok_of_bind h
    exact (Stmt.extends_of_analyzeAll body hb).trans (ElseIf.extends_of_analyzeAll others h)

end

/-- A scope that the analysis has open: the procedures around it, outermost first, and its table so far. -/
structure OpenScope where
  path : List String
  table : Table

namespace OpenScope

/-- The path of the innermost scope that declares a name. -/
def home? (scopes : List OpenScope) (name : String) : Option (List String) :=
  (scopes.find? fun o => (o.table.find? name).isSome).map (·.path)

def tables (scopes : List OpenScope) : List Table := scopes.map (·.table)

end OpenScope

/-- A use of a name: the instruction that it becomes, and the scopes that the analysis searches for it. -/
structure Reference where
  instr : Instr
  scopes : List OpenScope

/-- A declared variable or constant and the path of its scope. -/
structure Declaration where
  path : List String
  decl : Decl

abbrev Mention := Reference ⊕ Declaration

namespace Mention

def use (op : Op) (line : Nat) (scopes : List OpenScope) : Mention := .inl ⟨⟨op, line⟩, scopes⟩

/-- What is mentioned behind a part of a scope that the analysis gives this table for. -/
def behind (o : OpenScope) (r : Except ScopeError Table) (rest : OpenScope → List Mention) : List Mention :=
  match r with
  | .ok table => rest ⟨o.path, table⟩
  | .error _ => []

end Mention

open Mention (use behind)

def Expr.mentions (scopes : List OpenScope) : Expr → List Mention
  | .binary _ left right _ => left.mentions scopes ++ right.mentions scopes
  | .literal .. => []
  | .ident name line => [use (.load name) line scopes]

/-- A variable with a value is assigned where it is declared. -/
def Decl.mentions (outer : List OpenScope) (o : OpenScope) : Decl → List Mention
  | .var name none line => [.inr ⟨o.path, .var name none line⟩]
  | .var name (some init) line => [.inr ⟨o.path, .var name (some init) line⟩, use (.store name) line (o :: outer)]
  | .const name init line => [.inr ⟨o.path, .const name init line⟩]

def Decl.mentionsAll (outer : List OpenScope) : OpenScope → List Decl → List Mention
  | _, [] => []
  | o, d :: ds =>
    behind o (Decl.analyzeAll (OpenScope.tables outer) [d] o.table) fun o =>
      d.mentions outer o ++ mentionsAll outer o ds

mutual

def Stmt.mentions (outer : List OpenScope) (o : OpenScope) : Stmt → List Mention
  | .assign name value line => value.mentions (o :: outer) ++ [use (.store name) line (o :: outer)]
  | .ifElse cond body elseIfs otherwise _ =>
    cond.mentions (o :: outer) ++ Stmt.mentionsAll outer o body ++
      behind o (Stmt.analyzeAll (OpenScope.tables outer) o.table body) fun o =>
        ElseIf.mentionsAll outer o elseIfs ++
          match otherwise with
          | some other =>
            behind o (ElseIf.analyzeAll (OpenScope.tables outer) o.table elseIfs) fun o =>
              Stmt.mentionsAll outer o other
          | none => []
  | .whileDo cond body _ => cond.mentions (o :: outer) ++ Stmt.mentionsAll outer o body
  | .forTo counter start bound body line =>
    start.mentions (o :: outer) ++ use (.forInit counter) line (o :: outer) :: bound.mentions (o :: outer) ++
      Stmt.mentionsAll outer o body
  | .read names line => names.map fun name => use (.read name) line (o :: outer)
  | .write values _ => values.flatMap (·.mentions (o :: outer))
  | .call name line => [use (.call name) line (o :: outer)]
  | .group body _ => Stmt.mentionsAll outer o body
  | .procedure name body line =>
    behind o (o.table.declare (.procedure name [] line)) fun o =>
      body.mentions (o :: outer) ⟨o.path ++ [name], []⟩

def Stmt.mentionsAll (outer : List OpenScope) (o : OpenScope) : List Stmt → List Mention
  | [] => []
  | s :: ss =>
    s.mentions outer o ++ behind o (s.analyze (OpenScope.tables outer) o.table) fun o => Stmt.mentionsAll outer o ss

def ElseIf.mentionsAll (outer : List OpenScope) (o : OpenScope) : List ElseIf → List Mention
  | [] => []
  | ⟨cond, body, _⟩ :: others =>
    cond.mentions (o :: outer) ++ Stmt.mentionsAll outer o body ++
      behind o (Stmt.analyzeAll (OpenScope.tables outer) o.table body) fun o => ElseIf.mentionsAll outer o others

def Block.mentions (outer : List OpenScope) (o : OpenScope) : Block → List Mention
  | ⟨decls, stmt, _⟩ =>
    Decl.mentionsAll outer o decls ++
      match stmt with
      | some s => behind o (Decl.analyzeAll (OpenScope.tables outer) decls o.table) fun o => s.mentions outer o
      | none => []

end

def Block.mentionsAll (outer : List OpenScope) : OpenScope → List Block → List Mention
  | _, [] => []
  | o, b :: bs =>
    b.mentions outer o ++ behind o (b.analyze (OpenScope.tables outer) o.table) fun o => mentionsAll outer o bs

namespace Program

def mentions (p : Program) : List Mention := Block.mentionsAll [] ⟨[], []⟩ p.blocks

def references (p : Program) : List Reference := p.mentions.filterMap Sum.getLeft?

def declarations (p : Program) : List Declaration := p.mentions.filterMap Sum.getRight?

end Program

/-- An instruction where it stands: the scopes there, and the code behind it. -/
structure Placed where
  scopes : Scopes
  instr : Instr
  behind : List Instr

namespace Op

def binds : Op → Bool
  | .declare _ | .const _ _ => true
  | _ => false

end Op

/-- The instructions of a code that is read from these scopes on. -/
def placed : Scopes → List Instr → List Placed
  | _, [] => []
  | s, i :: rest => ⟨s, i, rest⟩ :: placed (s.after i.op) rest

namespace Placed

def isUse (c : Placed) : Bool := c.instr.op.uses.isSome

def isBinding (c : Placed) : Bool := c.instr.op.binds

end Placed

def usesIn (code : List Instr) : List Placed := (placed .initial code).filter (·.isUse)

def bindingsIn (code : List Instr) : List Placed := (placed .initial code).filter (·.isBinding)

namespace Reference

/-- The symbol that the analysis finds for the name of a use, which the table holds under this path. -/
def Means (t : Table) (r : Reference) (name : String) (path : List String) (s : Symbol) : Prop :=
  Table.lookup (OpenScope.tables r.scopes) name = some s ∧ OpenScope.home? r.scopes name = some path ∧
    (t.entry? path name).map Symbol.bare = some s.bare

/-- An instruction is that of a use, and its scopes resolve the name to the scope of the symbol that the analysis
finds: a procedure for a call, a variable where a value is stored, and otherwise a variable or a constant. -/
def Resolved (t : Table) (r : Reference) (c : Placed) : Prop :=
  c.instr = r.instr ∧
  match r.instr.op with
  | .load name => ∃ path s, r.Means t name path s ∧ s.kind ≠ .procedure ∧ t.entry? path name = some s ∧
      c.scopes.resolve name = some path
  | .store name | .read name | .forInit name => ∃ path s, r.Means t name path s ∧ s.kind = .var ∧
      t.entry? path name = some s ∧ c.scopes.resolve name = some path
  | .call name => ∃ path s, r.Means t name path s ∧ s.kind = .procedure ∧
      c.scopes.resolveProcedure name = some (path ++ [name])
  | _ => False

end Reference

/-- An instruction is that of a declaration in its scope, and its value is the one in the table. A variable that is
declared with a value gets it at once. -/
def Declaration.Recorded (t : Table) (d : Declaration) (c : Placed) : Prop :=
  c.scopes.path = d.path ∧
  match d.decl with
  | .const name _ line => ∃ v, t.entry? d.path name = some (.const name v line) ∧ c.instr = ⟨.const name v, line⟩
  | .var name none line => t.entry? d.path name = some (.var name none line) ∧ c.instr = ⟨.declare name, line⟩
  | .var name (some _) line => ∃ v, t.entry? d.path name = some (.var name (some v) line) ∧
      c.instr = ⟨.declare name, line⟩ ∧ [⟨.push v, line⟩, ⟨.store name, line⟩] <+: c.behind

def Mention.Agrees (t : Table) (m : Mention) (c : Placed) : Prop :=
  match m with
  | .inl r => r.Resolved t c
  | .inr d => d.Recorded t c

end PLZero
