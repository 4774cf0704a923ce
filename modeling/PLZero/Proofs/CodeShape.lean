import PLZero.Proofs.Constructs
import PLZero.Proofs.Postfix

/-! The shape of generated code. Whatever a program declares, its code is a row of phrases: an instruction that
belongs to no expression, behind the expression whose value it takes if it takes one. Its markers nest, and every
construct has the parts of the statement that it is the code of. -/

namespace PLZero

variable {rest : List Instr}

namespace Op

def takes : Op → Nat
  | .oper _ => 2
  | .store _ | .write | .ifMark | .elseIf | .doMark | .forInit _ | .forTo _ => 1
  | _ => 0

def gives (op : Op) : Nat := if op.isOperand then 1 else 0

end Op

/-- How many values there are behind code, if there are enough for every instruction in it. -/
def height? (h : Nat) (code : List Instr) : Option Nat :=
  code.foldlM (fun h i => if i.op.takes ≤ h then some (h - i.op.takes + i.op.gives) else none) h

theorem height?_cons {h : Nat} {i : Instr} (hi : i.op.takes ≤ h) :
    height? h (i :: rest) = height? (h - i.op.takes + i.op.gives) rest := by
  simp only [height?, List.foldlM_cons, hi, if_true]
  rfl

theorem height?_append {h h' : Nat} {code : List Instr} (hc : height? h code = some h') :
    height? h (code ++ rest) = height? h' rest := by
  unfold height? at hc ⊢
  rw [List.foldlM_append, hc]
  rfl

structure IsExpression (code : List Instr) : Prop where
  operands : ∀ i ∈ code, i.op.isOperand = true
  height : height? 0 code = some 1

inductive Phrased : List Instr → Prop
  | nil : Phrased []
  | plain {i : Instr} {rest : List Instr} (hi : i.op.takes = 0) (ho : i.op.isOperand = false) (h : Phrased rest) :
    Phrased (i :: rest)
  | taking {x : List Instr} {i : Instr} {rest : List Instr} (hx : IsExpression x) (hi : i.op.takes = 1)
    (h : Phrased rest) : Phrased (x ++ i :: rest)

theorem Op.not_operand_of_takes {op : Op} (h : op.takes = 1) : op.isOperand = false := by
  cases op <;> first | rfl | cases h

/-- No value is left, and none is missing on the way. -/
theorem Phrased.height {code : List Instr} (h : Phrased code) : height? 0 code = some 0 := by
  induction h with
  | nil => rfl
  | plain hi ho h ih =>
    rw [height?_cons (by omega), hi, Op.gives, ho]
    exact ih
  | taking hx hi h ih =>
    rw [height?_append hx.height, height?_cons (by omega), hi, Op.gives, Op.not_operand_of_takes hi]
    exact ih

/-- A construct as the code of one statement has it. -/
def Construct.Proper (c : Construct) : Prop :=
  match c.start.op with
  | .procedureStart name => c.middles = [] ∧ c.stop.op = .procedureEnd name
  | .ifMark => (∃ n last, (last = [] ∨ last = [Op.elseMark]) ∧
      c.middles.map (·.op) = List.replicate n .elseIf ++ last) ∧ c.stop.op = .endIf
  | .whileMark => c.middles.map (·.op) = [.doMark] ∧ c.stop.op = .endWhile
  | .forInit name => c.middles.map (·.op) = [.forTo name] ∧ c.stop.op = .endFor name
  | _ => False

structure WellFormedCode (code : List Instr) : Prop where
  phrased : Phrased code
  balanced : height? 0 code = some 0
  nested : ∃ cs, constructs code = .ok cs ∧ ∀ c ∈ cs, c.Proper

namespace Expr

theorem operands_codeThen (e : Expr) (h : ∀ i ∈ rest, i.op.isOperand = true) :
    ∀ i ∈ e.codeThen rest, i.op.isOperand = true := by
  induction e generalizing rest with
  | literal value line | ident name line => exact List.forall_mem_cons.mpr ⟨rfl, h⟩
  | binary op left right line ihl ihr => exact ihl (ihr (List.forall_mem_cons.mpr ⟨rfl, h⟩))

theorem height_codeThen (e : Expr) (h : Nat) (rest : List Instr) :
    height? h (e.codeThen rest) = height? (h + 1) rest := by
  induction e generalizing h rest with
  | literal value line | ident name line => exact height?_cons (Nat.zero_le h)
  | binary op left right line ihl ihr =>
    rw [codeThen, ihl, ihr, height?_cons (i := ⟨.oper op, line⟩) (by simp [Op.takes])]
    rfl

theorem isExpression (e : Expr) : IsExpression e.code :=
  ⟨e.operands_codeThen (by simp), e.height_codeThen 0 []⟩

theorem phrased (e : Expr) {i : Instr} (hi : i.op.takes = 1) (h : Phrased rest) :
    Phrased (e.codeThen (i :: rest)) := by
  rw [e.codeThen_eq_append]
  exact .taking e.isExpression hi h

end Expr

theorem Decl.phrased (env : Constants) (d : Decl) (h : Phrased rest) :
    Phrased (d.codeThen env rest) := by
  cases d with
  | const name init line => exact .plain rfl rfl h
  | var name init line =>
    cases init with
    | none => exact .plain rfl rfl h
    | some init =>
      refine .plain rfl rfl (.taking (x := [⟨.push (env.value init), line⟩]) ⟨?_, rfl⟩ rfl h)
      exact List.forall_mem_singleton.mpr rfl

theorem Layout.phrased {S : Prop} {outer : List Layer} {l : Layer} {es : List Expr} {ds : List Declared}
    {code : List Instr} (h : Layout S outer l es ds code) : Phrased code := by
  induction h with
  | nil => exact .nil
  | @alone _ _ _ _ op _ _ hop _ h ih =>
    refine .plain ?_ ?_ ih
    · cases op <;> first | rfl | cases hop
    · cases op <;> first | rfl | cases hop
  | @taking _ _ e _ _ op _ _ hop _ _ h ih =>
    refine e.phrased ?_ ih
    cases op <;> first | rfl | cases hop
  | test _ h ih => exact .plain rfl rfl (Expr.phrased _ rfl ih)
  | count _ _ _ h ih => exact Expr.phrased _ rfl (Expr.phrased _ rfl ih)
  | declare _ h ih => exact Decl.phrased _ _ ih
  | enter _ h ih | leave h ih => exact .plain rfl rfl ih

namespace MarkerRun

/-- Reading `part` leads from `r` to `r'`, whatever follows. -/
def Reads (part : List Instr → List Instr) (r r' : MarkerRun) : Prop :=
  ∀ rest, (part rest).foldlM instr r = rest.foldlM instr r'

variable {f g : List Instr → List Instr} {r r' r'' : MarkerRun} {i : Instr}

theorem Reads.instr (h : r.instr i = .ok r') : Reads (i :: ·) r r' := by
  intro rest
  rw [List.foldlM_cons, h]
  rfl

theorem Reads.plain (h : i.op.role = .plain) : Reads (i :: ·) r r := .instr (instr_plain h)

theorem Reads.trans (h : Reads f r r') (h' : Reads g r' r'') : Reads (fun rest => f (g rest)) r r'' :=
  fun rest => (h (g rest)).trans (h' rest)

/-- Code whose constructs are all closed in it, and proper. -/
def Nested (part : List Instr → List Instr) : Prop :=
  ∀ r : MarkerRun, ∃ cs, (∀ c ∈ cs, c.Proper) ∧ Reads part r { r with closed := r.closed ++ cs }

theorem nested_nil : Nested id := fun r => ⟨[], by simp, fun rest => by simp⟩

theorem nested_plain (h : i.op.role = .plain) : Nested (i :: ·) := by
  intro r
  refine ⟨[], by simp, ?_⟩
  rw [List.append_nil]
  exact .plain h

theorem Nested.comp (hf : Nested f) (hg : Nested g) : Nested fun rest => f (g rest) := by
  intro r
  obtain ⟨cs, hcs, h⟩ := hf r
  obtain ⟨cs', hcs', h'⟩ := hg { r with closed := r.closed ++ cs }
  refine ⟨cs ++ cs', List.forall_mem_append.mpr ⟨hcs, hcs'⟩, ?_⟩
  rw [List.append_assoc] at h'
  exact h.trans h'

/-- Inside the construct that `i` opens, with these markers in it so far and `cs` closed in it. -/
def inside (r : MarkerRun) (i : Instr) (middles : List Instr) (cs : List Construct) : MarkerRun :=
  ⟨r.markers.push ⟨i, middles⟩ i, r.closed ++ cs⟩

/-- Code that opens a construct with `i` and has come behind these markers in it. -/
def Inside (i : Instr) (part : List Instr → List Instr) (middles : List Instr) : Prop :=
  ∀ r : MarkerRun, ∃ cs, (∀ c ∈ cs, c.Proper) ∧ Reads part r (r.inside i middles cs)

variable {k : ControlKind} {middles : List Instr} {j : Instr}

theorem inside_opens (h : i.op.role = .opens k) : Inside i (i :: ·) [] := by
  intro r
  refine ⟨[], by simp, ?_⟩
  rw [inside, List.append_nil]
  exact .instr (instr_opens h)

namespace Inside

theorem nested (h : Inside i f middles) (hg : Nested g) : Inside i (fun rest => f (g rest)) middles := by
  intro r
  obtain ⟨cs, hcs, h⟩ := h r
  obtain ⟨cs', hcs', h'⟩ := hg (r.inside i middles cs)
  refine ⟨cs ++ cs', List.forall_mem_append.mpr ⟨hcs, hcs'⟩, ?_⟩
  rw [inside, ← List.append_assoc]
  exact h.trans h'

theorem divides (h : Inside i f middles) (hi : i.op.role = .opens k) (hj : j.op.role = .divides k) :
    Inside i (fun rest => f (j :: rest)) (middles ++ [j]) := by
  intro r
  obtain ⟨cs, hcs, h⟩ := h r
  exact ⟨cs, hcs, h.trans (.instr (instr_divides (o := ⟨⟨i, middles⟩, _, _⟩) hj rfl hi))⟩

theorem closes (h : Inside i f middles) (hi : i.op.role = .opens k) (hj : j.op.role = .closes k)
    (hc : Construct.Proper ⟨i, middles, j⟩) : Nested fun rest => f (j :: rest) := by
  intro r
  obtain ⟨cs, hcs, h⟩ := h r
  refine ⟨cs ++ [⟨i, middles, j⟩], List.forall_mem_append.mpr ⟨hcs, List.forall_mem_singleton.mpr hc⟩, h.trans ?_⟩
  rw [← List.append_assoc]
  exact .instr (instr_closes (o := ⟨⟨i, middles⟩, _, _⟩) hj rfl hi)

end Inside

end MarkerRun

open MarkerRun

theorem Expr.nested (e : Expr) : Nested e.codeThen := by
  induction e with
  | literal value line | ident name line => exact nested_plain rfl
  | binary op left right line ihl ihr => exact ihl.comp (ihr.comp (nested_plain rfl))

theorem Expr.nested_writeAll (line : Nat) (es : List Expr) : Nested (Expr.writeAllThen line es) := by
  induction es with
  | nil => exact nested_nil
  | cons e es ih => exact e.nested.comp ((nested_plain rfl).comp ih)

theorem Decl.nested (env : Constants) (d : Decl) : Nested (d.codeThen env) := by
  cases d with
  | const name init line => exact nested_plain rfl
  | var name init line =>
    cases init with
    | none => exact nested_plain rfl
    | some init => exact (nested_plain rfl).comp ((nested_plain rfl).comp (nested_plain rfl))

theorem Decl.nestedAll (env : Constants) (ds : List Decl) : Nested (Decl.codeAllThen env ds) := by
  induction ds generalizing env with
  | nil => exact nested_nil
  | cons d ds ih => exact (d.nested env).comp (ih _)

mutual

/-- The constructs in the code of a statement are closed in it. -/
theorem Stmt.nested (env : Constants) (s : Stmt) : Nested (s.codeThen env) := by
  match s with
  | .assign name value line => exact value.nested.comp (nested_plain rfl)
  | .ifElse cond body elseIfs (some other) line =>
    have hbody := (inside_opens (i := ⟨.ifMark, line⟩) rfl).nested (Stmt.nestedAll env body)
    obtain ⟨middles, hmiddles, hbranches⟩ := ElseIf.dividesAll env elseIfs hbody rfl
    have hlast := (hbranches.divides (j := ⟨.elseMark, line⟩) rfl rfl).nested (Stmt.nestedAll env other)
    refine cond.nested.comp (hlast.closes (j := ⟨.endIf, line⟩) rfl rfl ?_)
    exact ⟨⟨elseIfs.length, [.elseMark], .inr rfl, by simp [hmiddles]⟩, rfl⟩
  | .ifElse cond body elseIfs none line =>
    have hbody := (inside_opens (i := ⟨.ifMark, line⟩) rfl).nested (Stmt.nestedAll env body)
    obtain ⟨middles, hmiddles, hbranches⟩ := ElseIf.dividesAll env elseIfs hbody rfl
    refine cond.nested.comp (hbranches.closes (j := ⟨.endIf, line⟩) rfl rfl ?_)
    exact ⟨⟨elseIfs.length, [], .inl rfl, by simp [hmiddles]⟩, rfl⟩
  | .whileDo cond body line =>
    have htest := ((inside_opens (i := ⟨.whileMark, line⟩) rfl).nested cond.nested).divides
      (j := ⟨.doMark, line⟩) rfl rfl
    exact (htest.nested (Stmt.nestedAll env body)).closes (j := ⟨.endWhile, line⟩) rfl rfl ⟨rfl, rfl⟩
  | .forTo counter start bound body line =>
    have htest := ((inside_opens (i := ⟨.forInit counter, line⟩) rfl).nested bound.nested).divides
      (j := ⟨.forTo counter, line⟩) rfl rfl
    exact start.nested.comp
      ((htest.nested (Stmt.nestedAll env body)).closes (j := ⟨.endFor counter, line⟩) rfl rfl ⟨rfl, rfl⟩)
  | .read names line =>
    induction names with
    | nil => exact nested_nil
    | cons name names ih => exact (nested_plain rfl).comp ih
  | .write values line => exact Expr.nested_writeAll line values
  | .call name line => exact nested_plain rfl
  | .group body line => exact Stmt.nestedAll env body
  | .procedure name body line =>
    exact ((inside_opens (i := ⟨.procedureStart name, line⟩) rfl).nested (Block.nested env body)).closes
      (j := ⟨.procedureEnd name, line⟩) rfl rfl ⟨rfl, rfl⟩

theorem Stmt.nestedAll (env : Constants) (ss : List Stmt) : Nested (Stmt.codeAllThen env ss) := by
  match ss with
  | [] => exact nested_nil
  | s :: ss => exact (Stmt.nested env s).comp (Stmt.nestedAll env ss)

/-- Every further branch divides the conditional that is open. -/
theorem ElseIf.dividesAll (env : Constants) (es : List ElseIf) {i : Instr} {f : List Instr → List Instr}
    {middles : List Instr} (h : Inside i f middles) (hi : i.op.role = .opens .conditional) :
    ∃ added, added.map (·.op) = List.replicate es.length .elseIf ∧
      Inside i (fun rest => f (ElseIf.codeAllThen env es rest)) (middles ++ added) := by
  match es with
  | [] =>
    refine ⟨[], rfl, ?_⟩
    rw [List.append_nil]
    exact h
  | ⟨cond, body, line⟩ :: others =>
    have hbranch := ((h.nested cond.nested).divides (j := ⟨.elseIf, line⟩) hi rfl).nested (Stmt.nestedAll env body)
    obtain ⟨added, hadded, hothers⟩ := ElseIf.dividesAll env others hbranch hi
    refine ⟨⟨.elseIf, line⟩ :: added, by simp [hadded, List.replicate_succ], ?_⟩
    rw [List.append_cons]
    exact hothers

theorem Block.nested (env : Constants) (b : Block) : Nested (b.codeThen env) := by
  match b with
  | ⟨decls, some s, line⟩ => exact (Decl.nestedAll env decls).comp (Stmt.nested _ s)
  | ⟨decls, none, line⟩ => exact Decl.nestedAll env decls

end

theorem Block.nestedAll (env : Constants) (bs : List Block) : Nested (Block.codeAllThen env bs) := by
  induction bs generalizing env with
  | nil => exact nested_nil
  | cons b bs ih => exact (Block.nested env b).comp (ih _)

theorem WellFormedCode.of {part : List Instr → List Instr} (hp : Phrased (part [])) (hn : Nested part) :
    WellFormedCode (part []) := by
  obtain ⟨cs, hcs, hreads⟩ := hn .initial
  exact ⟨hp, hp.height, cs, constructs_eq (hreads []), hcs⟩

/-- The code of any program is well formed, its expressions are in one piece each, and so is the code of any
statement. -/
theorem Program.code_wellFormed (p : Program) :
    WellFormedCode p.code ∧ (∀ e ∈ p.exprs, IsExpression e.code ∧ e.code <:+: p.code) ∧
      ∀ env (s : Stmt), WellFormedCode (s.code env) := by
  refine ⟨?_, fun e he => ⟨e.isExpression, Program.infix_code he⟩, fun env s => ?_⟩
  · exact .of p.layout.phrased (Block.nestedAll [] p.blocks)
  · have h : Layout False [] .initial _ _ (s.codeThen env []) := Stmt.layout s False.elim .nil
    exact .of h.phrased (Stmt.nested env s)

end PLZero
