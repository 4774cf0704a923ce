import PLZero.Proofs.ProgramShape

/-! The names of a program that was read from source text are identifiers of the text: letters and digits. -/

namespace PLZero

variable {P : String → Prop}

def Expr.Names (P : String → Prop) : Expr → Prop
  | .binary _ left right _ => left.Names P ∧ right.Names P
  | .literal .. => True
  | .ident name _ => P name

def Initial.Names (P : String → Prop) : Initial → Prop
  | .number _ => True
  | .constant name => P name

def Decl.Names (P : String → Prop) : Decl → Prop
  | .var name init _ | .const name init _ => P name ∧ ∀ i ∈ init, i.Names P

mutual

def Stmt.Names (P : String → Prop) : Stmt → Prop
  | .assign name value _ => P name ∧ value.Names P
  | .ifElse cond body elseIfs otherwise _ =>
    cond.Names P ∧ Stmt.NamesAll P body ∧ ElseIf.NamesAll P elseIfs ∧
      match otherwise with
      | some other => Stmt.NamesAll P other
      | none => True
  | .whileDo cond body _ => cond.Names P ∧ Stmt.NamesAll P body
  | .forTo counter start bound body _ =>
    P counter ∧ start.Names P ∧ bound.Names P ∧ Stmt.NamesAll P body
  | .read names _ => ∀ name ∈ names, P name
  | .write values _ => ∀ e ∈ values, e.Names P
  | .call name _ => P name
  | .group body _ => Stmt.NamesAll P body
  | .procedure name body _ => P name ∧ body.Names P

def Stmt.NamesAll (P : String → Prop) : List Stmt → Prop
  | [] => True
  | s :: ss => s.Names P ∧ Stmt.NamesAll P ss

def ElseIf.NamesAll (P : String → Prop) : List ElseIf → Prop
  | [] => True
  | ⟨cond, body, _⟩ :: others => cond.Names P ∧ Stmt.NamesAll P body ∧ ElseIf.NamesAll P others

def Block.Names (P : String → Prop) : Block → Prop
  | ⟨decls, stmt, _⟩ => (∀ d ∈ decls, d.Names P) ∧
    match stmt with
    | some s => s.Names P
    | none => True

end

theorem Expr.names_iff (e : Expr) : e.Names P ↔ ∀ n, .name n ∈ e.leaves → P n := by
  induction e with
  | binary op left right line ihl ihr => simp [Names, leaves, ihl, ihr, or_imp, forall_and]
  | literal value line | ident name line => simp [Names, leaves]

theorem Initial.names_iff (i : Initial) : i.Names P ↔ ∀ n, .name n = i.leaf → P n := by
  cases i <;> simp [Names, leaf]

theorem Decl.names_iff (d : Decl) : d.Names P ↔ ∀ n, .name n ∈ d.leaves → P n := by
  cases d with
  | var name init line | const name init line =>
    cases init <;> simp [Names, leaves, Decl.name, Decl.init, Initial.names_iff, or_imp, forall_and]

mutual

theorem Stmt.names_iff (s : Stmt) : s.Names P ↔ ∀ n, .name n ∈ s.leaves → P n := by
  match s with
  | .assign name value line => simp [Stmt.Names, Stmt.leaves, Expr.names_iff, or_imp, forall_and]
  | .ifElse cond body elseIfs none line =>
    simp [Stmt.Names, Stmt.leaves, Expr.names_iff, Stmt.namesAll_iff body, ElseIf.namesAll_iff elseIfs, or_imp,
      forall_and]
  | .ifElse cond body elseIfs (some other) line =>
    simp [Stmt.Names, Stmt.leaves, Expr.names_iff, Stmt.namesAll_iff body, ElseIf.namesAll_iff elseIfs,
      Stmt.namesAll_iff other, or_imp, forall_and]
  | .whileDo cond body line =>
    simp [Stmt.Names, Stmt.leaves, Expr.names_iff, Stmt.namesAll_iff body, or_imp, forall_and]
  | .forTo counter start bound body line =>
    simp [Stmt.Names, Stmt.leaves, Expr.names_iff, Stmt.namesAll_iff body, or_imp, forall_and]
  | .read names line => simp [Stmt.Names, Stmt.leaves]
  | .write values line =>
    simp only [Stmt.Names, Stmt.leaves, Expr.names_iff, List.mem_flatMap]
    exact ⟨fun h n ⟨e, he, hn⟩ => h e he n hn, fun h e he n hn => h n ⟨e, he, hn⟩⟩
  | .call name line => simp [Stmt.Names, Stmt.leaves]
  | .group body line => exact Stmt.namesAll_iff body
  | .procedure name body line => simp [Stmt.Names, Stmt.leaves, Block.names_iff body, or_imp, forall_and]

theorem Stmt.namesAll_iff (ss : List Stmt) : Stmt.NamesAll P ss ↔ ∀ n, .name n ∈ Stmt.leavesAll ss → P n := by
  match ss with
  | [] => simp [Stmt.NamesAll, Stmt.leavesAll]
  | s :: ss =>
    simp [Stmt.NamesAll, Stmt.leavesAll, Stmt.names_iff s, Stmt.namesAll_iff ss, or_imp, forall_and]

theorem ElseIf.namesAll_iff (es : List ElseIf) :
    ElseIf.NamesAll P es ↔ ∀ n, .name n ∈ ElseIf.leavesAll es → P n := by
  match es with
  | [] => simp [ElseIf.NamesAll, ElseIf.leavesAll]
  | ⟨cond, body, line⟩ :: others =>
    simp [ElseIf.NamesAll, ElseIf.leavesAll, Expr.names_iff, Stmt.namesAll_iff body, ElseIf.namesAll_iff others,
      or_imp, forall_and]

theorem Block.names_iff (b : Block) : b.Names P ↔ ∀ n, .name n ∈ b.leaves → P n := by
  have hdecls (decls : List Decl) :
      (∀ d ∈ decls, d.Names P) ↔ ∀ n, .name n ∈ decls.flatMap Decl.leaves → P n := by
    simp only [Decl.names_iff, List.mem_flatMap]
    exact ⟨fun h n ⟨d, hd, hn⟩ => h d hd n hn, fun h d hd n hn => h n ⟨d, hd, hn⟩⟩
  match b with
  | ⟨decls, none, line⟩ => rw [Block.Names, hdecls]; simp [Block.leaves]
  | ⟨decls, some s, line⟩ => rw [Block.Names, hdecls]; simp [Block.leaves, Stmt.names_iff s, or_imp, forall_and]

end

/-- What holds of all words holds of all names of a program read from source text. -/
theorem Program.ofSource_names {source : String} {p : Program} (hP : ∀ name, IsWord name → P name)
    (h : Program.ofSource source = .ok p) : ∀ b ∈ p.blocks, b.Names P := by
  intro b hb
  refine b.names_iff.mpr fun n hn => hP n ?_
  obtain ⟨ts, last, hts, -, -, hd⟩ := Program.ofTokens_ok h
  have hleaves := hd.carries.1.leaves
  have hleaf : .name n ∈ p.leaves := List.mem_flatMap.mpr ⟨b, hb, hn⟩
  obtain ⟨i, hi, hleaf⟩ := List.getElem_of_mem hleaf
  have hlt := hleaves.length_eq ▸ hi
  have hread := hleaves.get hlt hi
  rw [List.get_eq_getElem, List.get_eq_getElem, hleaf] at hread
  obtain ⟨hkind, rfl⟩ := hread
  have hmem := (List.mem_filter.mp (List.getElem_mem hlt)).1
  exact Scan.ofSource_identifier (hts ▸ List.mem_append_left _ hmem) hkind

end PLZero
