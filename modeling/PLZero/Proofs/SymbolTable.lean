import PLZero.Proofs.Agreement
import PLZero.Proofs.Declared
import PLZero.Symbol.Binding

/-! The table of an analysed program. It holds all declarations of the program, each under the path of its scope,
and shows its variables and constants in the order in which they are declared. -/

namespace PLZero

namespace Declared

/-- The table holds a declaration. -/
def In (t : Table) (d : Declared) : Prop := ∃ s, t.entry? d.1 d.2.name = some s ∧ s.kind = d.2.kind

/-- How a declaration is shown, where `value` gives the values of variables. -/
def binding? (value : List String → String → Option Int32) (d : Declared) : Option Binding :=
  match d.2 with
  | .var n => some ⟨n, value d.1 n, .variable, d.1⟩
  | .const n v => some ⟨n, some v, .constant, d.1⟩
  | .procedure .. => none

/-- A table holds one declaration under a name. -/
theorem In.kind_eq {t : Table} {path : List String} {e e' : ScopeEntry} (h : In t (path, e)) (h' : In t (path, e'))
    (hname : e.name = e'.name) : e.kind = e'.kind := by
  obtain ⟨s, hs, hk⟩ := h
  obtain ⟨s', hs', hk'⟩ := h'
  simp only [hname] at hs
  obtain rfl := Option.some.inj (hs.symm.trans hs')
  exact hk.symm.trans hk'

end Declared

namespace Symbol

theorem bindingsAll_append (value : List String → String → Option Int32 → Option Int32) (path : List String)
    (t t' : Table) : bindingsAll value path (t ++ t') = bindingsAll value path t ++ bindingsAll value path t' := by
  induction t with
  | nil => rfl
  | cons s t ih => rw [List.cons_append, bindingsAll, bindingsAll, ih, List.append_assoc]

end Symbol

/-- From `table` to `table'` the scope with this path got the declarations `ds`, and what they declare inside. -/
structure Table.Grows (t : Table) (value : List String → String → Option Int32) (path : List String)
    (table table' : Table) (ds : List Declared) : Prop where
  isPrefix : table <+: table'
  bindings : Symbol.bindingsAll (fun p n _ => value p n) path table' =
    Symbol.bindingsAll (fun p n _ => value p n) path table ++ ds.filterMap (Declared.binding? value)
  entries : OpenScope.Final t ⟨path, table'⟩ → ∀ d ∈ ds, d.In t

open Table (Lists Grows)

namespace Table.Grows

variable {t table table' table'' : Table} {value : List String → String → Option Int32} {path : List String}
  {ds ds' : List Declared}

theorem nil : Grows t value path table table [] :=
  ⟨List.prefix_rfl, by simp, fun _ _ h => by cases h⟩

theorem trans (h : Grows t value path table table' ds) (h' : Grows t value path table' table'' ds') :
    Grows t value path table table'' (ds ++ ds') where
  isPrefix := h.isPrefix.trans h'.isPrefix
  bindings := by rw [h'.bindings, h.bindings, List.filterMap_append, List.append_assoc]
  entries hf d hd := by
    rcases List.mem_append.mp hd with hd | hd
    · exact h.entries (hf.before h'.isPrefix) d hd
    · exact h'.entries hf d hd

theorem entry {x : Symbol} {e : ScopeEntry} (hn : table.find? x.name = none) (hname : x.name = e.name)
    (hkind : x.kind = e.kind)
    (hb : x.bindings (fun p n _ => value p n) path = (Declared.binding? value (path, e)).toList) :
    Grows t value path table (table ++ [x]) [(path, e)] where
  isPrefix := List.prefix_append _ _
  bindings := by
    rw [Symbol.bindingsAll_append, Symbol.bindingsAll, Symbol.bindingsAll, List.append_nil, hb]
    cases hd : Declared.binding? value (path, e) <;> simp [hd]
  entries hf d hd := by
    obtain rfl := List.mem_singleton.mp hd
    refine ⟨x, ?_, hkind⟩
    simp only [← hname]
    exact hf _ _ (Table.find?_concat_self hn)

theorem procedure {name : String} {locals : Table} {line : Nat} {body : Block} (hn : table.find? name = none)
    (h : Grows t value (path ++ [name]) [] locals ds) :
    Grows t value path table (table ++ [.procedure name locals line]) ((path, .procedure name body) :: ds) where
  isPrefix := List.prefix_append _ _
  bindings := by
    rw [Symbol.bindingsAll_append, Symbol.bindingsAll, Symbol.bindingsAll, List.append_nil, Symbol.bindings,
      h.bindings]
    rfl
  entries hf d hd := by
    rcases List.mem_cons.mp hd with rfl | hd
    · exact ⟨_, hf name _ (Table.find?_concat_self hn), rfl⟩
    · exact h.entries (hf.inside hn) d hd

end Table.Grows

section

variable {t table table' : Table} {value : List String → String → Option Int32} {scopes : List Table}
  {outer : List Layer} {l : Layer}

theorem Decl.grows {d : Decl} {x : Symbol} (hs : List.Forall₂ Lists scopes outer) (hl : table.Lists l)
    (hx : d.symbol (table :: scopes) = .ok x) (hn : table.find? x.name = none) :
    Grows t value l.path table (table ++ [x]) [(l.path, d.entry (l :: outer))] := by
  obtain ⟨-, hname, hkind⟩ := Decl.scoped_of_symbol (.cons hl hs) hx
  refine .entry hn (hname.trans (d.entry_name _).symm) hkind ?_
  cases d with
  | var name init line =>
    cases init with
    | none => cases hx; rfl
    | some i =>
      obtain ⟨v, -, hx⟩ := ok_of_bind hx
      cases hx
      rfl
  | const name init line =>
    cases init with
    | none => cases hx; rfl
    | some i =>
      obtain ⟨v, hv, hx⟩ := ok_of_bind hx
      cases hx
      rw [Decl.entry, Option.elim, (Initial.scoped_of_value (.cons hl hs) hv).2]
      rfl

theorem Decl.growsAll {ds : List Decl} (hs : List.Forall₂ Lists scopes outer) (hl : table.Lists l)
    (h : Decl.analyzeAll scopes ds table = .ok table') {path : List String} (hpath : l.path = path) :
    Grows t value path table table' (Decl.declaredAll outer l ds) := by
  induction ds generalizing table l with
  | nil =>
    cases h
    exact .nil
  | cons d ds ih =>
    obtain ⟨x, hx, h⟩ := ok_of_bind h
    obtain ⟨table1, hdecl, h⟩ := ok_of_bind h
    obtain ⟨hn, rfl⟩ := Table.declare_ok hdecl
    obtain ⟨-, hname, hkind⟩ := Decl.scoped_of_symbol (.cons hl hs) hx
    have hl1 := hl.add hn (hname.trans (d.entry_name _).symm) hkind
    subst hpath
    exact (Decl.grows hs hl hx hn).trans (ih hl1 h rfl)

end

variable {value : List String → String → Option Int32}

mutual

theorem Stmt.grows {t table table' : Table} {scopes : List Table}
    {outer : List Layer} {l : Layer} {path : List String} (hs : List.Forall₂ Lists scopes outer)
    (hl : table.Lists l) (s : Stmt) (h : s.analyze scopes table = .ok table')
    (hn : s.Names IsWord) (hpath : l.path = path) : Grows t value path table table' (s.declared outer l) := by
  match s with
  | .assign name e line =>
    obtain ⟨_, -, h⟩ := ok_of_bind h
    obtain ⟨_, -, h⟩ := ok_of_bind h
    cases h
    exact .nil
  | .ifElse cond body elseIfs (some other) line =>
    obtain ⟨_, -, h⟩ := ok_of_bind h
    obtain ⟨t1, hb, h⟩ := ok_of_bind h
    obtain ⟨t2, he, h⟩ := ok_of_bind h
    obtain ⟨-, hnb, hne, hno⟩ := hn
    have hl1 := (Stmt.scoped_of_analyzeAll hs hl body hb hnb).2
    have hl2 := (ElseIf.scoped_of_analyzeAll hs hl1 elseIfs he hne).2
    exact ((Stmt.growsAll hs hl body hb hnb hpath).trans
      (ElseIf.growsAll hs hl1 elseIfs he hne (by simpa using hpath))).trans
      (Stmt.growsAll hs hl2 other h hno (by simpa using hpath))
  | .ifElse cond body elseIfs none line =>
    obtain ⟨_, -, h⟩ := ok_of_bind h
    obtain ⟨t1, hb, h⟩ := ok_of_bind h
    obtain ⟨t2, he, h⟩ := ok_of_bind h
    cases h
    obtain ⟨-, hnb, hne, -⟩ := hn
    have hl1 := (Stmt.scoped_of_analyzeAll hs hl body hb hnb).2
    exact ((Stmt.growsAll hs hl body hb hnb hpath).trans
      (ElseIf.growsAll hs hl1 elseIfs he hne (by simpa using hpath))).trans .nil
  | .whileDo cond body line =>
    obtain ⟨_, -, h⟩ := ok_of_bind h
    exact Stmt.growsAll hs hl body h hn.2 hpath
  | .forTo counter start bound body line =>
    obtain ⟨_, -, h⟩ := ok_of_bind h
    obtain ⟨_, -, h⟩ := ok_of_bind h
    obtain ⟨_, -, h⟩ := ok_of_bind h
    exact Stmt.growsAll hs hl body h hn.2.2.2 hpath
  | .read names line | .write values line | .call name line =>
    obtain ⟨_, -, h⟩ := ok_of_bind h
    cases h
    exact .nil
  | .group body line => exact Stmt.growsAll hs hl body h hn hpath
  | .procedure name body line =>
    obtain ⟨inside, hdecl, h⟩ := ok_of_bind h
    obtain ⟨locals, hb, h⟩ := ok_of_bind h
    cases h
    obtain ⟨hnone, rfl⟩ := Table.declare_ok hdecl
    have hinside : Table.Lists _ (l.add (.procedure name body)) := hl.add hnone rfl rfl
    subst hpath
    exact .procedure hnone (Block.grows (.cons hinside hs) (Table.Lists.inside l name) body hb hn.2 rfl)

theorem Stmt.growsAll {t table table' : Table} {scopes : List Table}
    {outer : List Layer} {l : Layer} {path : List String} (hs : List.Forall₂ Lists scopes outer)
    (hl : table.Lists l) (ss : List Stmt) (h : Stmt.analyzeAll scopes table ss = .ok table')
    (hn : Stmt.NamesAll IsWord ss) (hpath : l.path = path) :
    Grows t value path table table' (Stmt.declaredAll outer l ss) := by
  match ss with
  | [] =>
    cases h
    exact .nil
  | s :: ss =>
    obtain ⟨t1, h1, h⟩ := ok_of_bind h
    have hl1 := (Stmt.scoped_of_analyze hs hl s h1 hn.1).2
    exact (Stmt.grows hs hl s h1 hn.1 hpath).trans (Stmt.growsAll hs hl1 ss h hn.2 (by simpa using hpath))

theorem ElseIf.growsAll {t table table' : Table} {scopes : List Table}
    {outer : List Layer} {l : Layer} {path : List String} (hs : List.Forall₂ Lists scopes outer)
    (hl : table.Lists l) (es : List ElseIf) (h : ElseIf.analyzeAll scopes table es = .ok table')
    (hn : ElseIf.NamesAll IsWord es) (hpath : l.path = path) :
    Grows t value path table table' (ElseIf.declaredAll outer l es) := by
  match es with
  | [] =>
    cases h
    exact .nil
  | ⟨cond, body, line⟩ :: others =>
    obtain ⟨_, -, h⟩ := ok_of_bind h
    obtain ⟨t1, hb, h⟩ := ok_of_bind h
    obtain ⟨-, hnb, hno⟩ := hn
    have hl1 := (Stmt.scoped_of_analyzeAll hs hl body hb hnb).2
    exact (Stmt.growsAll hs hl body hb hnb hpath).trans
      (ElseIf.growsAll hs hl1 others h hno (by simpa using hpath))

theorem Block.grows {t table table' : Table} {scopes : List Table}
    {outer : List Layer} {l : Layer} {path : List String} (hs : List.Forall₂ Lists scopes outer)
    (hl : table.Lists l) (b : Block) (h : b.analyze scopes table = .ok table')
    (hn : b.Names IsWord) (hpath : l.path = path) : Grows t value path table table' (b.declared outer l) := by
  match b with
  | ⟨decls, some s, line⟩ =>
    obtain ⟨t1, hd, h⟩ := ok_of_bind h
    have hl1 := (Decl.scoped_of_analyzeAll hs hl hd hn.1).2
    exact (Decl.growsAll hs hl hd hpath).trans (Stmt.grows hs hl1 s h hn.2 (by simpa using hpath))
  | ⟨decls, none, line⟩ =>
    obtain ⟨t1, hd, h⟩ := ok_of_bind h
    cases h
    exact (Decl.growsAll hs hl hd hpath).trans .nil

end

theorem Block.growsAll {t table table' : Table} {value : List String → String → Option Int32} {scopes : List Table}
    {outer : List Layer} {l : Layer} {path : List String} (hs : List.Forall₂ Lists scopes outer)
    (hl : table.Lists l) {bs : List Block} (h : Block.analyzeAll scopes table bs = .ok table')
    (hn : ∀ b ∈ bs, b.Names IsWord) (hpath : l.path = path) :
    Grows t value path table table' (Block.declaredAll outer l bs) := by
  induction bs generalizing table l with
  | nil =>
    cases h
    exact .nil
  | cons b bs ih =>
    obtain ⟨t1, hb, h⟩ := ok_of_bind h
    obtain ⟨hnb, hnbs⟩ := List.forall_mem_cons.mp hn
    have hl1 := (Block.scoped_of_analyze hs hl b hb hnb).2
    exact (Block.grows hs hl b hb hnb hpath).trans (ih hl1 h hnbs ((Block.after_path outer l b).trans hpath))

namespace Program

variable {source : String} {p : Program} {t : Table}

theorem table_grows (value : List String → String → Option Int32) (hp : Program.ofSource source = .ok p)
    (ht : p.analyze = .ok t) : Grows t value [] [] t p.declared :=
  Block.growsAll .nil Table.Lists.initial ht (Program.ofSource_names (fun _ h => h) hp) rfl

/-- The table holds every declaration of the program. -/
theorem declared_in_table (hp : Program.ofSource source = .ok p) (ht : p.analyze = .ok t) :
    ∀ d ∈ p.declared, d.In t := by
  apply (table_grows (fun _ _ => none) hp ht).entries
  intro name x hx
  exact hx

/-- The table shows the variables and constants of the program. -/
theorem bindings_eq (value : List String → String → Option Int32) (hp : Program.ofSource source = .ok p)
    (ht : p.analyze = .ok t) :
    t.bindings (fun path name _ => value path name) = p.declared.filterMap (Declared.binding? value) :=
  (table_grows value hp ht).bindings

end Program

end PLZero
