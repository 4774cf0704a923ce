import PLZero.Proofs.ModuleRun
import PLZero.Proofs.ModuleValid
import PLZero.Proofs.Postfix
import PLZero.Proofs.Resolution

/-! The arithmetic of stack modules. The text of an expression in a module, read back and evaluated by the
rules of its instructions, has the value that the postfix code of the expression has, except where the
code divides the least word by minus one: there the module traps. -/

namespace PLZero

/-- A list that can be read back is all that its text holds. -/
theorem Sexp.ofText?_list {items : List Sexp} (h : CleanAll items) :
    ofText? (text (.list items)) = some (.list items) := by
  apply ofText?_of_scan
  have hcs : (text (.list items)).toList = '(' :: ((textAll items).toList ++ [')']) := by simp [text]
  rw [hcs, scan_opening, lexes_textAll items h ')' [] rfl]
  rfl

/-- The division whose quotient is no word. -/
def Application.overflow : Application := ⟨.div, Int32.minValue, -1⟩

namespace StackModule

open Sexp

theorem elim_operate (op : BinOp) (l r : Int32) : (operate op l r).elim Ending.trap .value =
    if Application.overflow = ⟨op, l, r⟩ then .trap else (op.apply l r).elim .trap .value := by
  have hover : Application.overflow = ⟨op, l, r⟩ ↔ op = .div ∧ l = Int32.minValue ∧ r = -1 := by
    simp [Application.overflow, eq_comm]
  rw [operate_eq, if_congr hover rfl rfl]
  split <;> rfl

/-- The value of an expression in a module, and where it traps. -/
theorem eval_named {env : Env} {value : String → Int32} {id : String → String} (e : Expr)
    (h : ∀ name ∈ e.names, env.globals ("$" ++ id name) = value name) :
    (exprSexp (e.named id)).eval env =
      if Application.overflow ∈ e.applications value then .trap
      else (e.value? value).elim .trap .value := by
  induction e with
  | literal v line =>
    rw [Expr.named, exprSexp, eval_const]
    rfl
  | ident name line => exact congrArg Ending.value (h name (List.mem_singleton_self name))
  | binary op left right line ihl ihr =>
    rw [Expr.named, exprSexp, eval_binary, ihl fun n hn => h n (List.mem_append_left _ hn),
      ihr fun n hn => h n (List.mem_append_right _ hn), Expr.applications, Expr.value?]
    by_cases hl : Application.overflow ∈ left.applications value
    · simp [hl, Ending.andThen]
    · cases left.value? value with
      | none => simp [hl, Ending.andThen]
      | some l =>
        by_cases hr : Application.overflow ∈ right.applications value
        · simp [hl, hr, Ending.andThen]
        · cases right.value? value with
          | none => simp [hl, hr, Ending.andThen]
          | some r => simp [hl, hr, Ending.andThen, elim_operate]

end StackModule

/-- The text of the binding that a name means, for a name in sight. -/
def Scopes.idOf (s : Scopes) (name : String) : String := qualify ((s.resolve name).getD []) name

/-- What names stand for in these scopes, given the values of the globals. -/
def Scopes.valueIn (s : Scopes) (globals : String → Int32) (name : String) : Int32 := globals ("$" ++ s.idOf name)

theorem Expr.over_named {P : String → Prop} {id : String → String} {e : Expr} (h : ∀ name ∈ e.names, P (id name)) :
    (e.named id).Over P := by
  induction e with
  | literal value line => trivial
  | ident name line => exact h name (List.mem_singleton_self name)
  | binary op left right line ihl ihr =>
    exact ⟨ihl fun n hn => h n (List.mem_append_left _ hn), ihr fun n hn => h n (List.mem_append_right _ hn)⟩

namespace StackModule

theorem ofText?_exprText {f : Folded} (h : f.Over IsName) : Sexp.ofText? (exprText f) = some (exprSexp f) := by
  have hclean := clean_exprSexp (fun _ hn => hn) h
  rw [exprText_eq]
  cases f with
  | const v | name n | binary op left right => exact Sexp.ofText?_list hclean

/-- Reading the code of an expression leaves its text on the writer's stack. -/
theorem Writer.reads_code {w : Writer} {e : Expr} (rest : List Instr)
    (h : ∀ name ∈ e.names, ∃ scope, w.scopes.resolve name = some scope) :
    (e.codeThen rest).foldlM Writer.instr w =
      rest.foldlM Writer.instr (w.push (exprText (e.named w.scopes.idOf))) := by
  induction e generalizing w rest with
  | literal value line => rfl
  | ident name line =>
    obtain ⟨scope, hscope⟩ := h name (List.mem_singleton_self name)
    rw [Expr.codeThen, List.foldlM_cons]
    simp only [Writer.instr, Scopes.binding, hscope, Expr.named, Scopes.idOf, Option.getD_some]
    rfl
  | binary op left right line ihl ihr =>
    have hl : ∀ name ∈ left.names, _ := fun n hn => h n (List.mem_append_left _ hn)
    have hr : ∀ name ∈ right.names, _ := fun n hn => h n (List.mem_append_right _ hn)
    rw [Expr.codeThen, ihl _ hl, ihr _ (by rwa [scopes_push]), scopes_push, List.foldlM_cons]
    simp only [Writer.instr, pop_push, bind, Except.bind]
    rfl

end StackModule

namespace Program

open StackModule

/-- Every expression of an accepted program stands in its code. Wherever the code of an expression stands,
the writer makes a text of it that, read back and evaluated in the module, has the value of the code for
any values of the variables; it traps if the code divides by zero, and if it divides the least word by
minus one. -/
theorem module_evaluates_code {source : String} {p : Program} {t : Table}
    (hp : Program.ofSource source = .ok p) (ht : p.analyze = .ok t) :
    (∀ e ∈ p.exprs, e.code <:+: p.code) ∧
      ∀ (before : List Instr) (e : Expr) after, p.code = before ++ e.code ++ after → ∃ w text x,
        before.foldlM Writer.instr .initial = .ok w ∧
        e.code.foldlM Writer.instr w = .ok (w.push text) ∧ Sexp.ofText? text = some x ∧
        ∀ env : Sexp.Env, x.eval env =
          if Application.overflow ∈ Postfix.applications (w.scopes.valueIn env.globals) [] e.code
          then .trap
          else (Postfix.value? (w.scopes.valueIn env.globals) e.code).elim .trap .value := by
  have hscoped := Program.scoped_of_source hp ht
  obtain ⟨M, w, hw, -⟩ := p.emits hscoped
  obtain ⟨J, hJ, -⟩ := p.lowers hscoped
  have hfine := p.fine hscoped
  refine ⟨fun e => Program.infix_code, ?_⟩
  intro before e after hcode
  rw [List.append_assoc] at hcode
  rw [hcode] at hw hJ hfine
  obtain ⟨w, hw, hscopes⟩ := (ReadersAt.of_accepted hJ hw).stackModule
  obtain ⟨hrec, level, hrest⟩ := hfine.split .initial
  rw [← hscopes] at hrec hrest
  rw [← Expr.codeThen_eq_append] at hrest
  have hnames := (hrest.expr hrec).1
  have hread : e.code.foldlM Writer.instr w = .ok (w.push (exprText (e.named w.scopes.idOf))) :=
    Writer.reads_code [] fun n hn => (hnames n hn).2.imp fun _ h => h.1
  have hover : (e.named w.scopes.idOf).Over IsName := by
    apply Expr.over_named
    intro name hn
    obtain ⟨hword, scope, hscope, hwords⟩ := hnames name hn
    apply IsDotted.isName
    rw [Scopes.idOf, hscope]
    exact isDotted_dotted
      (List.forall_mem_append.mpr ⟨hwords, List.forall_mem_singleton.mpr hword⟩)
  refine ⟨w, _, _, hw, hread, ofText?_exprText hover, ?_⟩
  intro env
  rw [e.postfix_applications, e.postfix_value?]
  exact eval_named e fun name _ => rfl

/-- The quotient of two variables in a procedure, one of them its own. -/
theorem module_evaluates_code_nested : ∃ p t before e after w text x,
    Program.ofSource "var x; procedure p; var y; write 1 + x / y; call p;" = .ok p ∧
      p.analyze = .ok t ∧ e ∈ p.exprs ∧ p.code = before ++ e.code ++ after ∧
      before.foldlM Writer.instr .initial = .ok w ∧
      e.code.foldlM Writer.instr w = .ok (w.push text) ∧ Sexp.ofText? text = some x ∧
      x.eval ⟨fun id => if id = "$p.y" then -2 else 7, fun _ => 0, fun _ => .invalid⟩ =
        .value (-2) := by
  obtain ⟨p, t, hp, ht, he, hcode⟩ : ∃ p t,
      Program.ofSource "var x; procedure p; var y; write 1 + x / y; call p;" = .ok p ∧
        p.analyze = .ok t ∧
        .binary .add (.literal 1 1) (.binary .div (.ident "x" 1) (.ident "y" 1) 1) 1 ∈ p.exprs ∧
        p.code = [⟨.declare "x", 1⟩, ⟨.procedureStart "p", 1⟩, ⟨.declare "y", 1⟩] ++
          Expr.code (.binary .add (.literal 1 1)
            (.binary .div (.ident "x" 1) (.ident "y" 1) 1) 1) ++
            [⟨.write, 1⟩, ⟨.procedureEnd "p", 1⟩, ⟨.call "p", 1⟩] :=
    ⟨_, _, rfl, rfl, List.mem_singleton_self _, rfl⟩
  obtain ⟨w, text, x, hw, htext, hx, heval⟩ := (module_evaluates_code hp ht).2 _ _ _ hcode
  refine ⟨p, t, _, _, _, w, text, x, hp, ht, he, hcode, hw, htext, hx, ?_⟩
  rw [heval]
  obtain rfl := Except.ok.inj hw
  decide +kernel

/-- The postfix code has a value and the module traps. -/
theorem module_traps_on_least_quotient : ∃ p t e,
    Program.ofSource "var m; write m / (0 - 1);" = .ok p ∧ p.analyze = .ok t ∧ e ∈ p.exprs ∧
      ∃ w text x, [⟨.declare "m", 1⟩].foldlM Writer.instr .initial = .ok w ∧
        p.code = ⟨.declare "m", 1⟩ :: e.code ++ [⟨.write, 1⟩] ∧
        e.code.foldlM Writer.instr w = .ok (w.push text) ∧ Sexp.ofText? text = some x ∧
        Postfix.value? (w.scopes.valueIn fun _ => Int32.minValue) e.code = some Int32.minValue ∧
        x.eval ⟨fun _ => Int32.minValue, fun _ => 0, fun _ => .invalid⟩ = .trap := by
  have hname : IsName "m" :=
    List.all_eq_true.mp (show "m".toList.all Sexp.isWordChar = true by decide)
  have htext := ofText?_exprText
    (f := .binary .div (.name "m") (.binary .sub (.const 0) (.const 1))) ⟨hname, trivial, trivial⟩
  exact ⟨_, _, .binary .div (.ident "m" 1) (.binary .sub (.literal 0 1) (.literal 1 1) 1) 1, rfl, rfl,
    List.mem_singleton_self _, _, _, _, rfl, rfl, rfl, htext, by decide +kernel, by decide +kernel⟩

end Program

end PLZero
