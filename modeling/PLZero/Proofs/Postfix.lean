import PLZero.Instr.Folded
import PLZero.Proofs.CodeScopes

/-! Expressions in code. The code of an expression is in postfix order: on a stack of words it leaves the value of
the expression, with the same applications of operators on the way. -/

namespace PLZero

variable {e : Expr}

def Op.isOperand : Op → Bool
  | .load _ | .push _ | .oper _ => true
  | _ => false

/-- An operator, with the words that it is applied to. -/
structure Application where
  op : BinOp
  left : Int32
  right : Int32
  deriving DecidableEq

namespace Postfix

section

variable (env : String → Int32)

/-- The stack behind an instruction, its top first. There is none if a divisor is zero, and none behind an
instruction that belongs to no expression. -/
def step (stack : List Int32) (i : Instr) : Option (List Int32) :=
  match i.op, stack with
  | .push value, _ => some (value :: stack)
  | .load name, _ => some (env name :: stack)
  | .oper op, right :: left :: stack => (op.apply left right).map (· :: stack)
  | _, _ => none

def run (stack : List Int32) (code : List Instr) : Option (List Int32) := code.foldlM (step env) stack

/-- The value that code leaves on the empty stack, if that is all it leaves. -/
def value? (code : List Instr) : Option Int32 :=
  match run env [] code with
  | some [v] => some v
  | _ => none

def applied? (stack : List Int32) (i : Instr) : Option Application :=
  match i.op, stack with
  | .oper op, right :: left :: _ => some ⟨op, left, right⟩
  | _, _ => none

/-- The applications of operators, in order, up to one that has no result. -/
def applications : List Int32 → List Instr → List Application
  | _, [] => []
  | stack, i :: rest => (applied? stack i).toList ++ (step env stack i).elim [] (applications · rest)

end

end Postfix

namespace Expr

section

variable (env : String → Int32)

def value? : Expr → Option Int32
  | .binary op left right _ => do op.apply (← left.value?) (← right.value?)
  | .literal value _ => some value
  | .ident name _ => some (env name)

def applications : Expr → List Application
  | .binary op left right _ =>
    left.applications ++ (left.value? env).elim [] fun l =>
      right.applications ++ (right.value? env).elim [] fun r => [⟨op, l, r⟩]
  | .literal .. | .ident .. => []

end

def named (id : String → String) : Expr → Folded
  | .binary op left right _ => .binary op (left.named id) (right.named id)
  | .literal value _ => .const value
  | .ident name _ => .name (id name)

def names : Expr → List String
  | .binary _ left right _ => left.names ++ right.names
  | .literal .. => []
  | .ident name _ => [name]

variable {env : String → Int32}

/-- Behind the code of an expression its value is on the stack. -/
theorem run_codeThen (e : Expr) (stack : List Int32) (rest : List Instr) :
    Postfix.run env stack (e.codeThen rest) = (e.value? env).bind fun v => Postfix.run env (v :: stack) rest := by
  induction e generalizing stack rest with
  | literal value line | ident name line => rfl
  | binary op left right line ihl ihr =>
    have hoper (l r : Int32) : Postfix.run env (r :: l :: stack) (⟨.oper op, line⟩ :: rest) =
        (op.apply l r).bind fun v => Postfix.run env (v :: stack) rest := by
      simp only [Postfix.run, List.foldlM_cons, Postfix.step]
      cases op.apply l r <;> rfl
    rw [codeThen, ihl, value?]
    cases left.value? env with
    | none => rfl
    | some l =>
      rw [Option.bind_some, ihr]
      cases right.value? env with
      | none => rfl
      | some r => exact hoper l r

theorem applications_codeThen (e : Expr) (stack : List Int32) (rest : List Instr) :
    Postfix.applications env stack (e.codeThen rest) =
      e.applications env ++ (e.value? env).elim [] fun v => Postfix.applications env (v :: stack) rest := by
  induction e generalizing stack rest with
  | literal value line | ident name line => rfl
  | binary op left right line ihl ihr =>
    have hoper (l r : Int32) : Postfix.applications env (r :: l :: stack) (⟨.oper op, line⟩ :: rest) =
        [⟨op, l, r⟩] ++ (op.apply l r).elim [] fun v => Postfix.applications env (v :: stack) rest := by
      simp only [Postfix.applications, Postfix.applied?, Postfix.step]
      cases op.apply l r <;> rfl
    rw [codeThen, ihl, value?, applications]
    cases left.value? env with
    | none => simp
    | some l =>
      simp only [Option.elim_some, ihr]
      cases right.value? env with
      | none => simp
      | some r => simp [hoper]

theorem postfix_value? (e : Expr) : Postfix.value? env e.code = e.value? env := by
  unfold Postfix.value? code
  rw [run_codeThen]
  cases e.value? env <;> rfl

theorem postfix_applications (e : Expr) : Postfix.applications env [] e.code = e.applications env := by
  unfold code
  rw [applications_codeThen]
  cases e.value? env <;> simp [Postfix.applications]

end Expr

/-- In code that can be read, the names in an expression are in sight, and they and their scopes are words. -/
theorem Fine.expr {s : Scopes} {declared : List Site} {level : Op.Level} {rest : List Instr}
    (h : Fine s level (e.codeThen rest)) (hs : Records s declared) :
    (∀ name ∈ e.names, IsWord name ∧ ∃ scope, s.resolve name = some scope ∧ ∀ n ∈ scope, IsWord n) ∧
      ∃ level', Fine s level' rest := by
  induction e generalizing level rest with
  | literal value line =>
    obtain ⟨-, level', -, h⟩ := h
    exact ⟨by simp [Expr.names], level', h⟩
  | ident name line =>
    obtain ⟨scope, hmeaning, hscope⟩ := h.meaning hs rfl
    obtain ⟨-, level', -, h⟩ := h
    obtain ⟨-, hmem, -⟩ := scopeOf_eq_some.mp hscope
    refine ⟨?_, level', h⟩
    intro n hn
    obtain rfl := List.mem_singleton.mp hn
    exact ⟨hs.words _ hmem, scope, hmeaning, hs.scope_words hmem⟩
  | binary op left right line ihl ihr =>
    obtain ⟨hl, level1, h⟩ := ihl h
    obtain ⟨hr, level2, h⟩ := ihr h
    obtain ⟨-, level', -, h⟩ := h
    refine ⟨?_, level', h⟩
    intro n hn
    rcases List.mem_append.mp hn with hn | hn
    · exact hl n hn
    · exact hr n hn

end PLZero
