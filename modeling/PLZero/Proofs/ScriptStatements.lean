import PLZero.Proofs.ScriptValues

/-! Expressions in the statements of scripts. The line that takes an expression, read back, holds it as a number where
it is stored, written or the bound of a loop, and as a condition where it guards a block. -/

namespace PLZero

namespace Js

theorem before?_append (last ts : List Token) : before? last (ts ++ last) = some ts := by
  unfold before?
  rw [if_pos (by simp), List.length_append, Nat.add_sub_cancel, List.take_left']
  rfl

theorem Lexes.condition {text : String} {ts : List Token} (h : Lexes text ts) :
    scan .nothing (text.toList ++ [')', ' ', '\x7b']) = ts ++ [.symbol ")", .symbol "\x7b"] := by
  rw [h _ (.cons (by decide) _)]
  rfl

section

variable {text name : String} {x y : Term}

theorem Expression.block {opening : String} {f : Term → Head} (h : Expression text y) (head : List Token)
    (hscan : ∀ cs, scan .nothing (opening.toList ++ cs) = head ++ scan .nothing cs)
    (hhead : ∀ ts, Head.ofTokens? (head ++ ts) = (condition? ts).map f) :
    Head.ofText? (opening ++ text ++ ") \x7b") = some (f y) := by
  obtain ⟨ts, hlex, hread⟩ := h
  have hcs : (opening ++ text ++ ") \x7b").toList = opening.toList ++ (text.toList ++ [')', ' ', '\x7b']) := by simp
  have hcondition : condition? (ts ++ [.symbol ")", .symbol "\x7b"]) = some y := by
    unfold condition?
    rw [before?_append]
    exact hread
  unfold Head.ofText? tokens
  rw [hcs, hscan, hlex.condition, hhead, hcondition]
  rfl

theorem Expression.ifOpen (h : Expression text y) : Head.ofText? ("if (" ++ text ++ ") \x7b") = some (.ifOpen y) :=
  h.block [.word "if", .symbol "("] (fun cs => congrArg ([Token.word "if"] ++ ·) (scan_opening cs)) fun _ => rfl

theorem Expression.whileOpen (h : Expression text y) :
    Head.ofText? ("while (" ++ text ++ ") \x7b") = some (.whileOpen y) :=
  h.block [.word "while", .symbol "("] (fun cs => congrArg ([Token.word "while"] ++ ·) (scan_opening cs)) fun _ => rfl

theorem Expression.elseIf (h : Expression text y) :
    Head.ofText? ("\x7d else if (" ++ text ++ ") \x7b") = some (.elseIf y) :=
  h.block [.symbol "\x7d", .word "else", .word "if", .symbol "("]
    (fun cs => congrArg ([Token.symbol "\x7d", .word "else", .word "if"] ++ ·) (scan_opening cs)) fun _ => rfl

theorem Expression.write (h : Expression text x) :
    Head.ofText? (Hook.write.name ++ "(" ++ text ++ ");") = some (.call Hook.write.name x) := by
  obtain ⟨ts, hlex, hread⟩ := h
  have hcs : (Hook.write.name ++ "(" ++ text ++ ");").toList =
      Hook.write.name.toList ++ '(' :: (text.toList ++ [')', ';']) := by simp
  have hword (cs : List Char) : scan .nothing (Hook.write.name.toList ++ '(' :: cs) =
      .word Hook.write.name :: scan .nothing ('(' :: cs) := rfl
  have hend : scan .nothing (text.toList ++ [')', ';']) = ts ++ [.symbol ")", .symbol ";"] := by
    rw [hlex _ (.cons (by decide) _)]
    rfl
  have hcall : Head.ofTokens? (.word Hook.write.name :: .symbol "(" :: (ts ++ [.symbol ")", .symbol ";"])) = (do
      return .call Hook.write.name (← Term.ofTokens? (← before? [.symbol ")", .symbol ";"] (ts ++
        [.symbol ")", .symbol ";"])))) := rfl
  unfold Head.ofText? tokens
  rw [hcs, hword, scan_opening, hend, hcall, before?_append, Option.bind_eq_bind, Option.bind_some, hread]
  rfl

theorem scan_assign (hname : IsWord name) (cs : List Char) :
    scan .nothing ((Script.nameOf name).toList ++ ' ' :: '=' :: ' ' :: cs) =
      .word (Script.nameOf name) :: .symbol "=" :: scan .nothing cs := by
  rw [(isToken_nameOf hname).scan (by simp; decide)]
  rfl

theorem assignment?_eq {ts : List Token} (hname : IsWord name) (h : Term.ofTokens? ts = some x) :
    assignment? (.word (Script.nameOf name) :: .symbol "=" :: ts) = some (Script.nameOf name, x) := by
  simp only [assignment?, isName_nameOf hname, h]
  rfl

theorem Expression.assign (h : Expression text x) (hname : IsWord name) :
    Head.ofText? (Script.nameOf name ++ " = " ++ text ++ ";") = some (.assign (Script.nameOf name) x) := by
  obtain ⟨ts, hlex, hread⟩ := h
  have hcs : (Script.nameOf name ++ " = " ++ text ++ ";").toList =
      (Script.nameOf name).toList ++ ' ' :: '=' :: ' ' :: (text.toList ++ [';']) := by simp
  have hend : scan .nothing (text.toList ++ [';']) = ts ++ [.symbol ";"] := by
    rw [hlex _ (.cons (by decide) _)]
    rfl
  have hassign : Head.ofTokens? (.word (Script.nameOf name) :: .symbol "=" :: ts ++ [.symbol ";"]) =
      (before? [.symbol ";"] (.word (Script.nameOf name) :: .symbol "=" :: ts ++ [.symbol ";"])).bind fun ts =>
        (assignment? ts).bind fun a => some (.assign a.1 a.2) := rfl
  unfold Head.ofText? tokens
  rw [hcs, scan_assign hname, hend, ← List.cons_append, ← List.cons_append, hassign, before?_append,
    Option.bind_some, assignment?_eq hname hread]
  rfl

end

/-! The header of a loop. -/

theorem step_semicolon (r : Reading) : r.step (.symbol ";") = none := by
  have hsymbol : Operator.ofSymbol? ";" = none := rfl
  obtain ⟨pending, operand⟩ := r
  cases operand with
  | none => rfl
  | some x =>
    unfold Reading.step behind
    simp only [hsymbol]
    rw [if_neg (by decide)]
    split <;> rfl

theorem semicolon_notMem {ts : List Token} {x : Term} (h : Term.ofTokens? ts = some x) : .symbol ";" ∉ ts := by
  intro hmem
  obtain ⟨before, after, rfl⟩ := List.append_of_mem hmem
  obtain ⟨r, hr, -⟩ := Option.bind_eq_some_iff.mp h
  rw [List.foldlM_append] at hr
  obtain ⟨r', -, hr'⟩ := Option.bind_eq_some_iff.mp hr
  rw [List.foldlM_cons, step_semicolon] at hr'
  cases hr'

theorem splitOn_semicolon {init test update : List Token} (hinit : .symbol ";" ∉ init) (htest : .symbol ";" ∉ test)
    (hupdate : .symbol ";" ∉ update) :
    (init ++ .symbol ";" :: (test ++ .symbol ";" :: update)).splitOn (.symbol ";") = [init, test, update] := by
  have hother {ts : List Token} (h : .symbol ";" ∉ ts) : ∀ t ∈ ts, (t == .symbol ";") = false :=
    fun t ht => beq_eq_false_iff_ne.mpr fun heq => h (heq ▸ ht)
  unfold List.splitOn
  rw [List.splitOnP_append_cons_of_forall_mem (hother hinit) _ (beq_self_eq_true _),
    List.splitOnP_append_cons_of_forall_mem (hother htest) _ (beq_self_eq_true _),
    List.splitOnP_eq_singleton (hother hupdate)]

section

variable {start test update name : String} {x y z : Term}

theorem Expression.loop (hname : IsWord name) (hstart : Expression start x) (htest : Expression test y)
    (hupdate : Expression update z) :
    Head.ofText? ("for (" ++ Script.nameOf name ++ " = " ++ start ++ "; " ++ test ++ "; " ++ Script.nameOf name ++
      " = " ++ update ++ ") \x7b") = some (.forOpen (Script.nameOf name, x) y (Script.nameOf name, z)) := by
  obtain ⟨ss, hlexS, hreadS⟩ := hstart
  obtain ⟨ts, hlexT, hreadT⟩ := htest
  obtain ⟨us, hlexU, hreadU⟩ := hupdate
  have hcs : ("for (" ++ Script.nameOf name ++ " = " ++ start ++ "; " ++ test ++ "; " ++ Script.nameOf name ++ " = " ++
      update ++ ") \x7b").toList = "for ".toList ++ '(' :: ((Script.nameOf name).toList ++ ' ' :: '=' :: ' ' ::
        (start.toList ++ ';' :: ' ' :: (test.toList ++ ';' :: ' ' :: ((Script.nameOf name).toList ++ ' ' :: '=' ::
          ' ' :: (update.toList ++ [')', ' ', '\x7b']))))) := by simp
  have hword (cs : List Char) : scan .nothing ("for ".toList ++ '(' :: cs) =
      .word "for" :: scan .nothing ('(' :: cs) := rfl
  have hsemicolon (cs : List Char) : scan .nothing (';' :: ' ' :: cs) = .symbol ";" :: scan .nothing cs := rfl
  have hsplit : ((.word (Script.nameOf name) :: .symbol "=" :: ss) ++ .symbol ";" :: (ts ++ .symbol ";" ::
      (.word (Script.nameOf name) :: .symbol "=" :: us))).splitOn (.symbol ";") =
        [.word (Script.nameOf name) :: .symbol "=" :: ss, ts, .word (Script.nameOf name) :: .symbol "=" :: us] :=
    splitOn_semicolon (by simp [semicolon_notMem hreadS]) (semicolon_notMem hreadT)
      (by simp [semicolon_notMem hreadU])
  have hloop : loop? (((.word (Script.nameOf name) :: .symbol "=" :: ss) ++ .symbol ";" :: (ts ++ .symbol ";" ::
      (.word (Script.nameOf name) :: .symbol "=" :: us))) ++ [.symbol ")", .symbol "\x7b"]) =
        some (.forOpen (Script.nameOf name, x) y (Script.nameOf name, z)) := by
    unfold loop?
    rw [before?_append, Option.bind_eq_bind, Option.bind_some, hsplit]
    simp only [assignment?_eq hname hreadS, assignment?_eq hname hreadU, hreadT]
    rfl
  unfold Head.ofText? tokens
  rw [hcs, hword, scan_opening, scan_assign hname, hlexS _ (.cons (by decide) _), hsemicolon,
    hlexT _ (.cons (by decide) _), hsemicolon, scan_assign hname, hlexU.condition, ← hloop]
  simp [Head.ofTokens?]

end

/-- A counter, one higher. -/
def Term.successor (counter : String) : Term := .binary .or (.binary .add (.name counter) (.number 1)) (.number 0)

theorem expression_successor {name : String} (h : IsWord name) :
    Expression ("(" ++ Script.nameOf name ++ " + 1) | 0") (.successor (Script.nameOf name)) := by
  have hadd : Operator.ofSymbol? "+" = some .add := rfl
  have hor : Operator.ofSymbol? "|" = some .or := rfl
  refine ⟨[.symbol "(", .word (Script.nameOf name), .symbol "+", .word (Text.ofNat 1), .symbol ")", .symbol "|",
    .word (Text.ofNat 0)], ?_, ?_⟩
  · intro rest hrest
    have hcs : ("(" ++ Script.nameOf name ++ " + 1) | 0").toList ++ rest = '(' :: ((Script.nameOf name).toList ++
        ' ' :: '+' :: ' ' :: '1' :: ')' :: ' ' :: '|' :: ' ' :: ((Text.ofNat 0).toList ++ rest)) := by simp; rfl
    have hmiddle (cs : List Char) : scan .nothing (' ' :: '+' :: ' ' :: '1' :: ')' :: ' ' :: '|' :: ' ' :: cs) =
        .symbol "+" :: .word "1" :: .symbol ")" :: .symbol "|" :: scan .nothing cs := rfl
    rw [hcs, scan_opening, (isToken_nameOf h).lexes _ (.cons (by decide) _), hmiddle, (isToken_ofNat 0).lexes _ hrest]
    rfl
  · apply Reads.ofTokens?_binary
    exact .cons (step_opening (by simp)) (.cons (step_name h _) (.cons (step_operator hadd rfl)
      (.cons (step_number 1 _) (.cons (step_closing_binary ..) (.cons (step_operator hor rfl)
        (.cons (step_number 0 _) .nil))))))

/-- The header of a loop that counts up to a bound. -/
theorem Operand.openFor {name : String} {start bound : Folded} {x y : Term} (hname : IsWord name)
    (hstart : Operand (Script.intText start) x) (hbound : Operand (Script.intText bound) y) :
    Head.ofText? (Script.Statement.openFor (Script.nameOf name) start bound).text =
      some (.forOpen (Script.nameOf name, x) (.binary .lt (.name (Script.nameOf name)) y)
        (Script.nameOf name, .successor (Script.nameOf name))) := by
  have htest : Expression (Script.nameOf name ++ " " ++ symbolOf .lt ++ " " ++ Script.intText bound)
      (.binary .lt (.name (Script.nameOf name)) y) :=
    .comparison (scan_symbolOf .lt) (ofSymbol?_symbolOf .lt) (.name hname) hbound
  have htext : (Script.Statement.openFor (Script.nameOf name) start bound).text =
      "for (" ++ Script.nameOf name ++ " = " ++ Script.intText start ++ "; " ++ (Script.nameOf name ++ " " ++
        symbolOf .lt ++ " " ++ Script.intText bound) ++ "; " ++ Script.nameOf name ++ " = " ++
          ("(" ++ Script.nameOf name ++ " + 1) | 0") ++ ") \x7b" := by
    have hsymbol (s : String) : " < " ++ s = " " ++ (symbolOf .lt ++ (" " ++ s)) := by
      simp only [← String.append_assoc]
      rfl
    have hassign (s : String) : " = (" ++ s = " = " ++ ("(" ++ s) := by
      simp only [← String.append_assoc]
      rfl
    have hend : " + 1) | 0) \x7b" = " + 1) | 0" ++ ") \x7b" := rfl
    unfold Script.Statement.text
    simp only [String.append_assoc, hsymbol, hassign, hend]
  rw [htext]
  exact Expression.loop hname hstart.expression htest (expression_successor hname)

end Js

namespace Script

/-- Any values of the names of an expression are values of their names in the script. -/
theorem exists_values {names : List String} (h : ∀ name ∈ names, IsWord name) (env : String → Int32) :
    ∃ js : String → Int32, ∀ name ∈ names, js (nameOf name) = env name := by
  refine ⟨fun id => (names.find? (nameOf · = id)).elim 0 env, ?_⟩
  intro name hname
  obtain ⟨name', hfind⟩ : ∃ name', names.find? (nameOf · = nameOf name) = some name' :=
    Option.isSome_iff_exists.mp (List.find?_isSome.mpr ⟨name, hname, decide_eq_true rfl⟩)
  have hsame : nameOf name' = nameOf name := by simpa using List.find?_some hfind
  simp only [hfind, Option.elim_some]
  rw [nameOf_inj (h name' (List.mem_of_find?_eq_some hfind)) (h name hname) hsame]

namespace Emitter

theorem pop_push (m : Emitter) (f : Folded) (i : Instr) : (m.push f).pop i = .ok (f, m) := rfl

/-- Behind the code of an expression it is on the stack, with the names of the script. -/
theorem foldlM_codeThen {m : Emitter} {e : Expr} (h : ∀ name ∈ e.names, ∃ scope, m.scopes.resolve name = some scope)
    (rest : List Instr) :
    (e.codeThen rest).foldlM Emitter.instr m = rest.foldlM Emitter.instr (m.push (e.named nameOf)) := by
  induction e generalizing m rest with
  | literal value line => rfl
  | ident name line =>
    obtain ⟨scope, hscope⟩ := h name (List.mem_singleton_self name)
    have hinstr : m.instr ⟨.load name, line⟩ = .ok (m.push (.name (nameOf name))) := by
      simp only [Emitter.instr, binding, Scopes.binding, hscope]
      rfl
    rw [Expr.codeThen, List.foldlM_cons, hinstr]
    rfl
  | binary op left right line ihl ihr =>
    have hl : ∀ name ∈ left.names, _ := fun n hn => h n (List.mem_append_left _ hn)
    have hr : ∀ name ∈ right.names, _ := fun n hn => h n (List.mem_append_right _ hn)
    rw [Expr.codeThen, ihl hl, ihr (m := m.push _) hr]
    rfl

/-- A line is added to the function that is being made, and reads as this. -/
def Prints (m m' : Emitter) (head : Js.Head) : Prop :=
  ∃ line : Line, m'.current.body = m.current.body.push line ∧ Js.Head.ofText? line.statement.text = some head

/-- What an instruction makes of the expression `f` that it takes, with `x` read for it as a number and `y` as a
condition. The start of a loop waits for the bound, and then both are in the header. -/
def Takes (m m' : Emitter) (f : Folded) (x y : Js.Term) : Op → Prop
  | .store name => IsWord name → m.Prints m' (.assign (nameOf name) x)
  | .write => m.Prints m' (.call Hook.write.name x)
  | .ifMark => m.Prints m' (.ifOpen y)
  | .elseIf => m.Prints m' (.elseIf y)
  | .doMark => m.Prints m' (.whileOpen y)
  | .forInit name => m'.markers.head?.map (·.frame) = some (.forLoop (nameOf name) f)
  | .forTo _ => ∀ (counter : String) (start : Expr) (z : Js.Term),
    IsWord counter → (∀ name ∈ start.names, IsWord name) →
    m.markers.head?.map (·.frame) = some (.forLoop (nameOf counter) (start.named nameOf)) →
    Js.Term.ofText? (intText (start.named nameOf)) = some z →
    m.Prints m' (.forOpen (nameOf counter, z) (.binary .lt (.name (nameOf counter)) x)
      (nameOf counter, .successor (nameOf counter)))
  | _ => True

theorem takes {m m' : Emitter} {f : Folded} {x y : Js.Term} {i : Instr} (hx : Js.Operand (intText f) x)
    (hy : Js.Expression (conditionText f) y) (h : (m.push f).instr i = .ok m') : m.Takes m' f x y i.op := by
  obtain ⟨op, line⟩ := i
  cases op with
  | store name =>
    obtain ⟨target, htarget, h⟩ := ok_of_bind h
    obtain rfl := of_binding htarget
    obtain rfl := Except.ok.inj h
    exact fun hname => ⟨_, rfl, hx.expression.assign hname⟩
  | write =>
    obtain rfl := Except.ok.inj h
    exact ⟨_, rfl, hx.expression.write⟩
  | ifMark =>
    obtain rfl := Except.ok.inj h
    exact ⟨_, rfl, hy.ifOpen⟩
  | elseIf =>
    obtain ⟨_, -, h⟩ := ok_of_bind h
    obtain rfl := Except.ok.inj h
    exact ⟨_, rfl, hy.elseIf⟩
  | doMark =>
    obtain ⟨_, -, h⟩ := ok_of_bind h
    obtain rfl := Except.ok.inj h
    exact ⟨_, rfl, hy.whileOpen⟩
  | forInit name =>
    obtain ⟨counter, hcounter, h⟩ := ok_of_bind h
    obtain rfl := of_binding hcounter
    obtain rfl := Except.ok.inj h
    rfl
  | forTo bound =>
    intro counter start z hcounter hwords hmarker hz
    obtain ⟨_, hpop, h⟩ := ok_of_bind h
    obtain rfl := Except.ok.inj ((pop_push m f _).symm.trans hpop)
    obtain ⟨_, htop, h⟩ := ok_of_bind h
    obtain ⟨o, rest, hmarkers, hframe⟩ := Markers.of_top htop
    have hloop : o.frame = .forLoop (nameOf counter) (start.named nameOf) := by
      rw [hmarkers] at hmarker
      exact Option.some.inj hmarker
    rw [hloop] at hframe
    obtain rfl := Option.some.inj hframe
    obtain rfl := Except.ok.inj h
    obtain ⟨z', hz', -⟩ := Js.reads_int hwords
    obtain rfl := Option.some.inj (hz'.expression.ofText?.symm.trans hz)
    exact ⟨_, rfl, Js.Operand.openFor hcounter hz' hx⟩
  | _ => trivial

/-- The code of an expression becomes one expression of the script. Its text as a number, read back, has the value of
the code for any values of the names, and its text as a condition counts as true if that value is not zero; the
statement that takes the expression holds it in one of these two ways. -/
theorem script_evaluates_code {m : Emitter} {e : Expr}
    (h : ∀ name ∈ e.names, IsWord name ∧ ∃ scope, m.scopes.resolve name = some scope) :
    ∃ x y, e.code.foldlM Emitter.instr m = .ok (m.push (e.named nameOf)) ∧
      Js.Term.ofText? (intText (e.named nameOf)) = some x ∧
      Js.Term.ofText? (conditionText (e.named nameOf)) = some y ∧
      (∀ env : String → Int32, ∃ js : String → Int32, ∀ name ∈ e.names, js (nameOf name) = env name) ∧
      (∀ env js : String → Int32, (∀ name ∈ e.names, js (nameOf name) = env name) →
        ∀ v, Postfix.value? env e.code = some v →
          x.eval js = some (.ofWord v) ∧ ∃ w, y.eval js = some w ∧ (w.isTrue = true ↔ v ≠ 0)) ∧
      ∀ i m', (m.push (e.named nameOf)).instr i = .ok m' → m.Takes m' (e.named nameOf) x y i.op := by
  have hwords : ∀ name ∈ e.names, IsWord name := fun name hname => (h name hname).1
  obtain ⟨x, hx, hvalue⟩ := Js.reads_int hwords
  obtain ⟨y, hy, htruth⟩ := Js.reads_condition hwords
  refine ⟨x, y, foldlM_codeThen (fun name hname => (h name hname).2) [], hx.expression.ofText?, hy.ofText?,
    exists_values hwords, ?_, fun i m' => takes hx hy⟩
  intro env js hjs v hv
  rw [e.postfix_value?] at hv
  exact ⟨hvalue env js hjs v hv, htruth env js hjs v hv⟩

/-- A comparison of a comparison with a difference, over a name that scripts reserve. -/
theorem script_evaluates_code_comparison : ∃ (m : Emitter) (x y : Js.Term) (e : Expr),
    [⟨.declare "let", 1⟩, ⟨.declare "x", 1⟩].foldlM Emitter.instr .initial = .ok m ∧
      e.code.foldlM Emitter.instr m = .ok (m.push (e.named nameOf)) ∧
      intText (e.named nameOf) = "((let_ < (-2) ? 1 : 0) === ((((x / 2) | 0) - 3) | 0) ? 1 : 0)" ∧
      Js.Term.ofText? (intText (e.named nameOf)) = some x ∧
      Js.Term.ofText? (conditionText (e.named nameOf)) = some y ∧
      Postfix.value? (fun name => if name = "let" then -7 else 9) e.code = some 1 ∧
      x.eval (fun id => if id = "let_" then -7 else 9) = some (.ofWord 1) ∧
      (∃ w, y.eval (fun id => if id = "let_" then -7 else 9) = some w ∧ w.isTrue = true) ∧
      ∃ m', (m.push (e.named nameOf)).instr ⟨.write, 1⟩ = .ok m' ∧ m.Prints m' (.call "write" x) := by
  have hlet : IsWord "let" := ⟨'l', ['e', 't'], rfl, rfl, rfl⟩
  have hx : IsWord "x" := ⟨'x', [], rfl, rfl, rfl⟩
  obtain ⟨m, hm, hresolve⟩ : ∃ m, [⟨.declare "let", 1⟩, ⟨.declare "x", 1⟩].foldlM Emitter.instr .initial = .ok m ∧
    ∀ name ∈ ["let", "x"], m.scopes.resolve name = some [] := ⟨_, rfl, by decide⟩
  obtain ⟨x, y, hcode, hint, hcondition, -, hvalue, htakes⟩ := script_evaluates_code (m := m)
    (e := .binary .eq (.binary .lt (.ident "let" 1) (.literal (-2) 1) 1)
      (.binary .sub (.binary .div (.ident "x" 1) (.literal 2 1) 1) (.literal 3 1) 1) 1) (by
        intro name hname
        simp only [Expr.names, List.append_nil, List.singleton_append] at hname
        refine ⟨?_, [], hresolve name hname⟩
        simp only [List.mem_cons, List.not_mem_nil, or_false] at hname
        rcases hname with rfl | rfl
        · exact hlet
        · exact hx)
  obtain ⟨hnumber, w, hw, htrue⟩ := hvalue (fun name => if name = "let" then -7 else 9)
    (fun id => if id = "let_" then -7 else 9) (by decide) 1 (by decide)
  exact ⟨m, x, y, _, hm, hcode, by decide, hint, hcondition, by decide, hnumber,
    ⟨w, hw, htrue.mpr (by decide)⟩, _, rfl, htakes ⟨.write, 1⟩ _ rfl⟩

end Emitter

end Script

end PLZero
