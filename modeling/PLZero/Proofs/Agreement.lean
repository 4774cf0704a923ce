import Mathlib.Data.List.Forall2
import PLZero.Proofs.Mentions

/-! The analysis and the code generator side by side. At a use of a name the scopes of the code resolve it to the
scope of the very symbol that the analysis finds there, and at a declaration the value in the code is the one that
the symbol has in the table. -/

namespace PLZero

open Mention (use)

/-- A scope of code and one of the analysis declare the same names. -/
structure Scope.Mirrors (s : Scope) (o : OpenScope) : Prop where
  path : s.path = o.path
  bindings : ∀ name, name ∈ s.bindings ↔ ∃ k, o.table.kind? name = some k ∧ k ≠ .procedure
  procedures : ∀ name, name ∈ s.procedures ↔ o.table.kind? name = some .procedure

namespace Scope.Mirrors

variable {s : Scope} {o : OpenScope} {x : Symbol}

theorem initial (path : List String) : Mirrors ⟨path, [], []⟩ ⟨path, []⟩ :=
  ⟨rfl, by simp [Table.kind?, Table.find?], by simp [Table.kind?, Table.find?]⟩

theorem declare (h : s.Mirrors o) (hn : o.table.find? x.name = none) (hk : x.kind ≠ .procedure) :
    Mirrors { s with bindings := s.bindings.insert x.name } ⟨o.path, o.table ++ [x]⟩ where
  path := h.path
  bindings name := by
    rw [List.mem_insert_iff, h.bindings, Table.kind?_concat hn]
    by_cases hx : x.name = name
    · simp [hx, hk]
    · simp [hx, Ne.symm hx]
  procedures name := by
    rw [h.procedures, Table.kind?_concat hn]
    by_cases hx : x.name = name
    · subst hx
      simp [Table.kind?, hn, hk]
    · simp [hx]

theorem procedure (h : s.Mirrors o) (hn : o.table.find? x.name = none) (hk : x.kind = .procedure) :
    Mirrors { s with procedures := s.procedures.insert x.name } ⟨o.path, o.table ++ [x]⟩ where
  path := h.path
  bindings name := by
    rw [h.bindings, Table.kind?_concat hn]
    by_cases hx : x.name = name
    · subst hx
      simp [Table.kind?, hn, hk]
    · simp [hx]
  procedures name := by
    rw [List.mem_insert_iff, h.procedures, Table.kind?_concat hn]
    by_cases hx : x.name = name
    · simp [hx, hk]
    · simp [hx, Ne.symm hx]

theorem body {path : List String} {table : Table} {name : String} {b b' : Table} {line : Nat}
    (h : s.Mirrors ⟨path, table ++ [.procedure name b line]⟩) (hn : table.find? name = none) :
    s.Mirrors ⟨path, table ++ [.procedure name b' line]⟩ := by
  have hsame (n : String) : Table.kind? (table ++ [.procedure name b line]) n =
      Table.kind? (table ++ [.procedure name b' line]) n := by
    rw [Table.kind?_concat (s := .procedure name b line) hn, Table.kind?_concat (s := .procedure name b' line) hn]
    rfl
  refine ⟨h.path, ?_, ?_⟩
  · intro n
    rw [h.bindings, hsame]
  · intro n
    rw [h.procedures, hsame]

end Scope.Mirrors

/-- What the analysis finds, it finds in a scope of code that lists the name as what it was declared, and in none
further inside. -/
theorem find_of_lookup {stack : List Scope} {scopes : List OpenScope} {name : String} {x : Symbol}
    (h : List.Forall₂ Scope.Mirrors stack scopes) (hx : Table.lookup (OpenScope.tables scopes) name = some x) :
    ∃ o ∈ scopes, o.table.find? name = some x ∧ OpenScope.home? scopes name = some o.path ∧
      (x.kind ≠ .procedure → (stack.find? (name ∈ ·.bindings)).map (·.path) = some o.path) ∧
      (x.kind = .procedure → (stack.find? (name ∈ ·.procedures)).map (·.path) = some o.path) := by
  induction h with
  | nil => cases hx
  | @cons s o stack scopes hs hrest ih =>
    have hlook : ((o.table.find? name).or (Table.lookup (OpenScope.tables scopes) name)) = some x :=
      (Table.lookup_cons ..).symm.trans hx
    cases hfind : o.table.find? name with
    | some y =>
      rw [hfind, Option.some_or, Option.some_inj] at hlook
      subst hlook
      refine ⟨o, List.mem_cons_self, hfind, ?_, ?_, ?_⟩
      · simp [OpenScope.home?, hfind]
      · intro hk
        have hmem : name ∈ s.bindings := (hs.bindings name).mpr ⟨y.kind, by rw [Table.kind?, hfind]; rfl, hk⟩
        simp [hmem, hs.path]
      · intro hk
        have hmem : name ∈ s.procedures := (hs.procedures name).mpr (by rw [Table.kind?, hfind, ← hk]; rfl)
        simp [hmem, hs.path]
    | none =>
      rw [hfind, Option.none_or] at hlook
      obtain ⟨o', ho', hx', hhome, hb, hp⟩ := ih hlook
      have hnb : name ∉ s.bindings := by simp [hs.bindings, Table.kind?, hfind]
      have hnp : name ∉ s.procedures := by simp [hs.procedures, Table.kind?, hfind]
      refine ⟨o', List.mem_cons_of_mem _ ho', hx', ?_, ?_, ?_⟩
      · simpa [OpenScope.home?, hfind] using hhome
      · intro hk
        simpa [hnb] using hb hk
      · intro hk
        simpa [hnp] using hp hk

/-- The code generator knows the constants that the analysis finds. -/
def Constants.Knows (env : Constants) (scopes : List Table) : Prop :=
  ∀ name n v line, Table.lookup scopes name = some (.const n v line) → env.lookup name = some v

namespace Constants.Knows

variable {env : Constants} {outer : List Table} {table : Table}

theorem value {init : Initial} {line : Nat} {v : Int32} (h : env.Knows outer)
    (hv : init.value outer line = .ok v) : env.value init = v := by
  cases init with
  | number w =>
    cases hv
    rfl
  | constant name =>
    simp only [Initial.value, Table.constantValue] at hv
    split at hv
    · next hs =>
      cases hv
      simp [Constants.value, h _ _ _ _ hs]
    · cases hv
    · cases hv

theorem constant {init : Option Initial} {line : Nat} {v : Int32} (h : env.Knows outer)
    (hv : init.elim (.ok 0) (·.value outer line) = .ok v) : init.elim 0 env.value = v := by
  cases init with
  | none =>
    cases hv
    rfl
  | some i => exact h.value hv

theorem bind {d : Decl} {x : Symbol} (h : env.Knows (table :: outer)) (hx : d.symbol (table :: outer) = .ok x)
    (hn : table.find? x.name = none) : (d.bind env).Knows ((table ++ [x]) :: outer) := by
  intro name n v line hl
  rw [Table.lookup_cons, Table.find?_concat] at hl
  have hold (hne : x.name ≠ name) : env.lookup name = some v := by
    rw [if_neg hne, Option.or_none] at hl
    exact h name n v line ((Table.lookup_cons ..).trans hl)
  cases d with
  | var name' init line' =>
    have hvar : x.kind = .var := by
      cases init with
      | none => cases hx; rfl
      | some i =>
        obtain ⟨w, -, hx⟩ := ok_of_bind hx
        cases hx
        rfl
    apply hold
    rintro rfl
    rw [hn, if_pos rfl, Option.none_or, Option.some_or, Option.some_inj] at hl
    rw [hl] at hvar
    cases hvar
  | const name' init line' =>
    obtain ⟨w, hw, rfl⟩ := Decl.symbol_const hx
    simp only [Decl.bind, h.constant hw]
    by_cases hne : name' = name
    · subst hne
      rw [show Symbol.name (.const name' w line') = name' from rfl] at hn
      simp only [hn, Symbol.name, if_pos, Option.none_or] at hl
      cases hl
      simp
    · have hlook := hold hne
      rwa [List.lookup_cons, beq_false_of_ne (Ne.symm hne)]

theorem grown {table' : Table} (h : env.Knows (table :: outer)) (he : table.Extends table') :
    env.Knows (table' :: outer) := by
  intro name n v line hl
  apply h name n v line
  rw [Table.lookup_cons] at hl ⊢
  rcases Option.or_eq_some_iff.mp hl with hl | ⟨hnone, hl⟩
  · rw [he.find?_of_kind hl (by simp [Symbol.kind]), Option.some_or]
  · have hold : table.find? name = none := by
      rw [Option.eq_none_iff_forall_ne_some]
      intro s hs
      exact Option.some_ne_none s ((he.find? hs).symm.trans hnone)
    rw [hold, Option.none_or, hl]

end Constants.Knows

namespace OpenScope

/-- The names of an open scope are those of the finished table, apart from what procedures still get. -/
def Settled (t : Table) (o : OpenScope) : Prop :=
  ∀ name x, o.table.find? name = some x → (t.entry? o.path name).map Symbol.bare = some x.bare

def Final (t : Table) (o : OpenScope) : Prop :=
  ∀ name x, o.table.find? name = some x → t.entry? o.path name = some x

variable {t table table' : Table} {path : List String} {o : OpenScope}

theorem Final.settled (h : o.Final t) : o.Settled t := by
  intro name x hx
  rw [h name x hx, Option.map_some]

theorem Final.before (h : Final t ⟨path, table'⟩) (he : table <+: table') : Final t ⟨path, table⟩ := by
  intro name x hx
  obtain ⟨added, rfl⟩ := he
  exact h name x (Table.find?_append_of_some hx added)

theorem Final.inside {name : String} {body : Table} {line : Nat}
    (h : Final t ⟨path, table ++ [.procedure name body line]⟩) (hn : table.find? name = none) :
    Final t ⟨path ++ [name], body⟩ := by
  have hentry : t.entry? path name = some (.procedure name body line) := by
    apply h name
    exact Table.find?_concat_self hn
  intro n x hx
  unfold Table.entry?
  rw [Table.within?_concat t path name hentry, Option.bind_some]
  exact hx

theorem Final.entered {name : String} {body : Table} {line : Nat}
    (h : Final t ⟨path, table ++ [.procedure name body line]⟩) (hn : table.find? name = none) :
    Settled t ⟨path, table ++ [.procedure name [] line]⟩ := by
  intro n x hx
  rcases (Table.find?_concat_eq_some hn).mp hx with hx | ⟨rfl, rfl⟩
  · exact (h.before (List.prefix_append _ _)).settled n x hx
  · have hentry := h name _ (Table.find?_concat_self hn)
    simp only [Symbol.name, hentry, Option.map_some, Symbol.bare]

end OpenScope

/-- The analysis and the code generator at one place: code from here on is read from the scopes `s`. -/
structure Aligned (t : Table) (env : Constants) (outer : List OpenScope) (o : OpenScope) (s : Scopes) : Prop where
  mirrors : List.Forall₂ Scope.Mirrors s.stack (o :: outer)
  knows : env.Knows (o.table :: OpenScope.tables outer)
  settled : ∀ c ∈ outer, c.Settled t
  final : o.Final t

namespace Aligned

variable {t : Table} {env : Constants} {outer : List OpenScope} {o : OpenScope} {s : Scopes} {name : String}
  {x : Symbol}

theorem path (h : Aligned t env outer o s) : s.path = o.path := by
  have hm := h.mirrors
  unfold Scopes.stack at hm
  rw [List.forall₂_cons] at hm
  exact hm.1.path

/-- What a name in code resolves to is what the analysis finds. -/
theorem found (h : Aligned t env outer o s) (hx : Table.lookup (o.table :: OpenScope.tables outer) name = some x)
    (i : Instr) : ∃ path, Reference.Means t ⟨i, o :: outer⟩ name path x ∧
      (x.kind ≠ .procedure → t.entry? path name = some x ∧ s.resolve name = some path) ∧
      (x.kind = .procedure → s.resolveProcedure name = some (path ++ [name])) := by
  obtain ⟨c, hc, hfind, hhome, hb, hp⟩ := find_of_lookup h.mirrors hx
  have hsettled : c.Settled t := by
    rcases List.mem_cons.mp hc with rfl | hc
    · exact h.final.settled
    · exact h.settled c hc
  refine ⟨c.path, ⟨hx, hhome, hsettled name x hfind⟩, ?_, ?_⟩
  · intro hk
    obtain ⟨y, hy, hbare⟩ := Option.map_eq_some_iff.mp (hsettled name x hfind)
    rw [Symbol.eq_of_bare_eq hbare hk] at hy
    exact ⟨hy, hb hk⟩
  · intro hk
    unfold Scopes.resolveProcedure
    obtain ⟨scope, hscope, heq⟩ := Option.map_eq_some_iff.mp (hp hk)
    rw [hscope, Option.map_some, heq]

theorem load {line : Nat} (h : Aligned t env outer o s) {u : Unit} {rest : List Instr}
    (hr : Table.readable (o.table :: OpenScope.tables outer) name line = .ok u) :
    Reference.Resolved t ⟨⟨.load name, line⟩, o :: outer⟩ ⟨s, ⟨.load name, line⟩, rest⟩ := by
  have hfound : ∃ x, Table.lookup (o.table :: OpenScope.tables outer) name = some x ∧ x.kind ≠ .procedure := by
    unfold Table.readable at hr
    split at hr
    · next hx => exact ⟨_, hx, by simp [Symbol.kind]⟩
    · next hx => exact ⟨_, hx, by simp [Symbol.kind]⟩
    · cases hr
    · cases hr
  obtain ⟨x, hx, hk⟩ := hfound
  obtain ⟨path, hmeans, hb, -⟩ := h.found hx ⟨.load name, line⟩
  exact ⟨rfl, path, x, hmeans, hk, hb hk⟩

theorem assign {op : Op} {line : Nat} (h : Aligned t env outer o s) {u : Unit} {rest : List Instr}
    (hop : op = .store name ∨ op = .read name ∨ op = .forInit name)
    (hr : Table.assignable (o.table :: OpenScope.tables outer) name line = .ok u) :
    Reference.Resolved t ⟨⟨op, line⟩, o :: outer⟩ ⟨s, ⟨op, line⟩, rest⟩ := by
  have hfound : ∃ x, Table.lookup (o.table :: OpenScope.tables outer) name = some x ∧ x.kind = .var := by
    unfold Table.assignable at hr
    split at hr
    · next hx => exact ⟨_, hx, rfl⟩
    all_goals cases hr
  obtain ⟨x, hx, hk⟩ := hfound
  obtain ⟨path, hmeans, hb, -⟩ := h.found hx ⟨op, line⟩
  have hvar : x.kind ≠ .procedure := by simp [hk]
  refine ⟨rfl, ?_⟩
  rcases hop with rfl | rfl | rfl
  · exact ⟨path, x, hmeans, hk, hb hvar⟩
  · exact ⟨path, x, hmeans, hk, hb hvar⟩
  · exact ⟨path, x, hmeans, hk, hb hvar⟩

theorem call {line : Nat} (h : Aligned t env outer o s) {u : Unit} {rest : List Instr}
    (hr : Table.callable (o.table :: OpenScope.tables outer) name line = .ok u) :
    Reference.Resolved t ⟨⟨.call name, line⟩, o :: outer⟩ ⟨s, ⟨.call name, line⟩, rest⟩ := by
  have hfound : ∃ x, Table.lookup (o.table :: OpenScope.tables outer) name = some x ∧ x.kind = .procedure := by
    unfold Table.callable at hr
    split at hr
    · next hx => exact ⟨_, hx, rfl⟩
    · cases hr
  obtain ⟨x, hx, hk⟩ := hfound
  obtain ⟨path, hmeans, -, hp⟩ := h.found hx ⟨.call name, line⟩
  exact ⟨rfl, path, x, hmeans, hk, hp hk⟩

theorem declare {d : Decl} (h : Aligned t env outer o s) (hx : d.symbol (o.table :: OpenScope.tables outer) = .ok x)
    (hn : o.table.find? x.name = none) (hk : x.kind ≠ .procedure)
    (hf : OpenScope.Final t ⟨o.path, o.table ++ [x]⟩) :
    Aligned t (d.bind env) outer ⟨o.path, o.table ++ [x]⟩ (s.declare x.name) := by
  have hm := h.mirrors
  unfold Scopes.stack at hm
  rw [List.forall₂_cons] at hm
  exact ⟨.cons (hm.1.declare hn hk) hm.2, h.knows.bind hx hn, h.settled, hf⟩

theorem enter {body : Table} {line : Nat} (h : Aligned t env outer o s) (hn : o.table.find? name = none)
    (hf : OpenScope.Final t ⟨o.path, o.table ++ [.procedure name body line]⟩) :
    Aligned t env (⟨o.path, o.table ++ [.procedure name [] line]⟩ :: outer) ⟨o.path ++ [name], []⟩
      (s.enter name) := by
  have hm := h.mirrors
  unfold Scopes.stack at hm
  rw [List.forall₂_cons] at hm
  have hinner : Scope.Mirrors ⟨s.path ++ [name], [], []⟩ ⟨o.path ++ [name], []⟩ := h.path ▸ .initial _
  refine ⟨.cons hinner (.cons (hm.1.procedure (x := .procedure name [] line) hn rfl) hm.2), ?_, ?_, ?_⟩
  · exact h.knows.grown ⟨[.procedure name [] line], rfl, by simp [Symbol.kind]⟩
  · intro c hc
    rcases List.mem_cons.mp hc with rfl | hc
    · exact hf.entered hn
    · exact h.settled c hc
  · intro n x hx
    cases hx

theorem leave {body : Table} {line : Nat} {s' : Scopes} {c : OpenScope} {env' : Constants}
    (h : Aligned t env outer o s) (hn : o.table.find? name = none)
    (hf : OpenScope.Final t ⟨o.path, o.table ++ [.procedure name body line]⟩)
    (h' : Aligned t env' (⟨o.path, o.table ++ [.procedure name [] line]⟩ :: outer) c s') :
    Aligned t env outer ⟨o.path, o.table ++ [.procedure name body line]⟩ s'.leave := by
  have hm := h'.mirrors
  unfold Scopes.stack at hm
  rw [List.forall₂_cons, List.forall₂_cons_right_iff] at hm
  obtain ⟨-, s1, rest, hs1, hrest, hsplit⟩ := hm
  refine ⟨?_, ?_, h.settled, hf⟩
  · simp only [Scopes.leave, hsplit, Scopes.stack]
    exact .cons (hs1.body hn) hrest
  · exact h.knows.grown ⟨[.procedure name body line], rfl, by simp [Symbol.kind]⟩

end Aligned

/-- What is mentioned from a place on agrees one by one with the names in the code from there on. -/
def Agree (t : Table) (ms : List Mention) (s : Scopes) (code : List Instr) : Prop :=
  List.Forall₂ (Mention.Agrees t) ms ((placed s code).filter fun c => c.isUse || c.isBinding)

namespace Agree

variable {t : Table} {ms : List Mention} {s : Scopes} {rest : List Instr} {op : Op} {line : Nat}

theorem cons {m : Mention} {i : Instr} (hm : m.Agrees t ⟨s, i, rest⟩) (hi : i.op.uses.isSome || i.op.binds)
    (h : Agree t ms (s.after i.op) rest) : Agree t (m :: ms) s (i :: rest) := by
  unfold Agree
  rw [placed, List.filter_cons_of_pos (by simpa [Placed.isUse, Placed.isBinding] using hi)]
  exact .cons hm h

theorem skip {i : Instr} (hi : (i.op.uses.isSome || i.op.binds) = false) (h : Agree t ms (s.after i.op) rest) :
    Agree t ms s (i :: rest) := by
  unfold Agree
  rw [placed, List.filter_cons_of_neg (by simpa [Placed.isUse, Placed.isBinding] using hi)]
  exact h

end Agree

variable {t : Table} {env : Constants} {outer : List OpenScope} {o : OpenScope} {s : Scopes} {ms : List Mention}
  {rest : List Instr}

theorem Expr.agree {e : Expr} {u : Unit} (h : Aligned t env outer o s)
    (ha : e.analyze (o.table :: OpenScope.tables outer) = .ok u) (hrest : Agree t ms s rest) :
    Agree t (e.mentions (o :: outer) ++ ms) s (e.codeThen rest) := by
  induction e generalizing u ms rest with
  | literal value line => exact .skip rfl hrest
  | ident name line => exact .cons (h.load ha) rfl hrest
  | binary op left right line ihl ihr =>
    obtain ⟨_, hl, hr⟩ := ok_of_bind ha
    rw [Expr.mentions, List.append_assoc]
    exact ihl hl (ihr hr (.skip rfl hrest))

theorem Expr.agree_writeAll {es : List Expr} {u : Unit} {line : Nat} (h : Aligned t env outer o s)
    (ha : es.forM (·.analyze (o.table :: OpenScope.tables outer)) = .ok u) (hrest : Agree t ms s rest) :
    Agree t (es.flatMap (·.mentions (o :: outer)) ++ ms) s (Expr.writeAllThen line es rest) := by
  induction es with
  | nil => exact hrest
  | cons e es ih =>
    obtain ⟨_, he, hes⟩ := ok_of_bind ha
    rw [List.flatMap_cons, List.append_assoc]
    exact Expr.agree h he (.skip rfl (ih hes))

theorem agree_readAll {names : List String} {u : Unit} {line : Nat} (h : Aligned t env outer o s)
    (ha : names.forM (fun name => Table.assignable (o.table :: OpenScope.tables outer) name line) = .ok u)
    (hrest : Agree t ms s rest) :
    Agree t (names.map (fun name => use (.read name) line (o :: outer)) ++ ms) s
      (names.map (fun name => ⟨.read name, line⟩) ++ rest) := by
  induction names with
  | nil => exact hrest
  | cons name names ih =>
    obtain ⟨_, hname, hnames⟩ := ok_of_bind ha
    exact .cons (h.assign (.inr (.inl rfl)) hname) rfl (ih hnames)

theorem Decl.agree {d : Decl} {x : Symbol} (h : Aligned t env outer o s)
    (hx : d.symbol (o.table :: OpenScope.tables outer) = .ok x) (hn : o.table.find? x.name = none)
    (hf : OpenScope.Final t ⟨o.path, o.table ++ [x]⟩)
    (hrest : ∀ s', Aligned t (d.bind env) outer ⟨o.path, o.table ++ [x]⟩ s' → Agree t ms s' rest) :
    Agree t (d.mentions outer ⟨o.path, o.table ++ [x]⟩ ++ ms) s (d.codeThen env rest) := by
  have hentry : t.entry? o.path x.name = some x := hf _ _ (Table.find?_concat_self hn)
  cases d with
  | const name init line =>
    obtain ⟨v, hv, rfl⟩ := Decl.symbol_const hx
    refine .cons ⟨h.path, v, hentry, ?_⟩ rfl (hrest _ (h.declare hx hn (by simp [Symbol.kind]) hf))
    rw [h.knows.constant hv]
  | var name init line =>
    cases init with
    | none =>
      cases hx
      exact .cons ⟨h.path, hentry, rfl⟩ rfl (hrest _ (h.declare (d := .var name none line) rfl hn
        (by simp [Symbol.kind]) hf))
    | some i =>
      obtain ⟨v, hv, hs⟩ := ok_of_bind hx
      cases hs
      have h' := h.declare hx hn (by simp [Symbol.kind]) hf
      refine .cons ⟨h.path, v, hentry, rfl, ?_⟩ rfl (.skip rfl (.cons (h'.assign (u := ()) (.inl rfl) ?_) rfl
        (hrest _ h')))
      · rw [h.knows.value hv]
        exact ⟨rest, rfl⟩
      · have hself : Table.find? (o.table ++ [.var name (some v) line]) name = some (.var name (some v) line) :=
          Table.find?_concat_self hn
        simp only [Table.assignable, Table.lookup_cons, hself, Option.some_or]

theorem Decl.prefix_of_analyzeAll {scopes : List Table} {ds : List Decl} {table table' : Table}
    (h : Decl.analyzeAll scopes ds table = .ok table') : table <+: table' := by
  induction ds generalizing table with
  | nil =>
    cases h
    exact List.prefix_rfl
  | cons d ds ih =>
    obtain ⟨x, -, h⟩ := ok_of_bind h
    obtain ⟨table1, hdecl, h⟩ := ok_of_bind h
    obtain ⟨-, rfl⟩ := Table.declare_ok hdecl
    exact (List.prefix_append _ _).trans (ih h)

theorem Decl.agreeAll {ds : List Decl} {table' : Table} (h : Aligned t env outer o s)
    (ha : Decl.analyzeAll (OpenScope.tables outer) ds o.table = .ok table') (hf : OpenScope.Final t ⟨o.path, table'⟩)
    (hrest : ∀ s', Aligned t (Decl.bindAll env ds) outer ⟨o.path, table'⟩ s' → Agree t ms s' rest) :
    Agree t (Decl.mentionsAll outer o ds ++ ms) s (Decl.codeAllThen env ds rest) := by
  induction ds generalizing o s env with
  | nil =>
    cases ha
    exact hrest s h
  | cons d ds ih =>
    obtain ⟨x, hx, ha⟩ := ok_of_bind ha
    obtain ⟨table1, hdecl, ha⟩ := ok_of_bind ha
    have hone : Decl.analyzeAll (OpenScope.tables outer) [d] o.table = .ok table1 := by
      simp only [Decl.analyzeAll, hx, hdecl, Bind.bind, Except.bind]
    obtain ⟨hn, rfl⟩ := Table.declare_ok hdecl
    simp only [Decl.mentionsAll, hone, Mention.behind, List.append_assoc]
    refine Decl.agree h hx hn (hf.before (Decl.prefix_of_analyzeAll ha)) ?_
    intro s' h'
    exact ih h' ha hf hrest

theorem Table.Extends.isPrefix {table table' : Table} (h : table.Extends table') : table <+: table' := by
  obtain ⟨added, rfl, -⟩ := h
  exact List.prefix_append _ _

mutual

theorem Stmt.agree {t table' : Table} {env : Constants} {outer : List OpenScope} {o : OpenScope} {s : Scopes}
    {ms : List Mention} {rest : List Instr} (st : Stmt) (h : Aligned t env outer o s)
    (ha : st.analyze (OpenScope.tables outer) o.table = .ok table') (hf : OpenScope.Final t ⟨o.path, table'⟩)
    (hrest : ∀ s', Aligned t env outer ⟨o.path, table'⟩ s' → Agree t ms s' rest) :
    Agree t (st.mentions outer o ++ ms) s (st.codeThen env rest) := by
  match st with
  | .assign name value line =>
    obtain ⟨_, hname, ha⟩ := ok_of_bind ha
    obtain ⟨_, hvalue, ha⟩ := ok_of_bind ha
    cases ha
    simp only [Stmt.mentions, List.append_assoc]
    exact Expr.agree h hvalue (.cons (h.assign (.inl rfl) hname) rfl (hrest s h))
  | .ifElse cond body elseIfs (some other) line =>
    obtain ⟨_, hc, ha⟩ := ok_of_bind ha
    obtain ⟨t1, hb, ha⟩ := ok_of_bind ha
    obtain ⟨t2, he, ha⟩ := ok_of_bind ha
    have hf2 := hf.before (Stmt.extends_of_analyzeAll other ha).isPrefix
    have hf1 := hf2.before (ElseIf.extends_of_analyzeAll elseIfs he).isPrefix
    simp only [Stmt.mentions, hb, he, Mention.behind, List.append_assoc]
    refine Expr.agree h hc (.skip rfl (Stmt.agreeAll body h hb hf1 ?_))
    intro s1 h1
    refine ElseIf.agreeAll elseIfs h1 he hf2 ?_
    intro s2 h2
    refine .skip rfl (Stmt.agreeAll other h2 ha hf ?_)
    intro s3 h3
    exact .skip rfl (hrest s3 h3)
  | .ifElse cond body elseIfs none line =>
    obtain ⟨_, hc, ha⟩ := ok_of_bind ha
    obtain ⟨t1, hb, ha⟩ := ok_of_bind ha
    obtain ⟨t2, he, ha⟩ := ok_of_bind ha
    cases ha
    have hf1 := hf.before (ElseIf.extends_of_analyzeAll elseIfs he).isPrefix
    simp only [Stmt.mentions, hb, Mention.behind, List.append_nil, List.append_assoc]
    refine Expr.agree h hc (.skip rfl (Stmt.agreeAll body h hb hf1 ?_))
    intro s1 h1
    refine ElseIf.agreeAll elseIfs h1 he hf ?_
    intro s2 h2
    exact .skip rfl (hrest s2 h2)
  | .whileDo cond body line =>
    obtain ⟨_, hc, ha⟩ := ok_of_bind ha
    simp only [Stmt.mentions, List.append_assoc]
    refine .skip rfl (Expr.agree h hc (.skip rfl (Stmt.agreeAll body h ha hf ?_)))
    intro s1 h1
    exact .skip rfl (hrest s1 h1)
  | .forTo counter start bound body line =>
    obtain ⟨_, hcounter, ha⟩ := ok_of_bind ha
    obtain ⟨_, hstart, ha⟩ := ok_of_bind ha
    obtain ⟨_, hbound, ha⟩ := ok_of_bind ha
    simp only [Stmt.mentions, List.cons_append, List.append_assoc]
    refine Expr.agree h hstart (.cons (h.assign (.inr (.inr rfl)) hcounter) rfl (Expr.agree h hbound
      (.skip rfl (Stmt.agreeAll body h ha hf ?_))))
    intro s1 h1
    exact .skip rfl (hrest s1 h1)
  | .read names line =>
    obtain ⟨_, hnames, ha⟩ := ok_of_bind ha
    cases ha
    exact agree_readAll h hnames (hrest s h)
  | .write values line =>
    obtain ⟨_, hvalues, ha⟩ := ok_of_bind ha
    cases ha
    exact Expr.agree_writeAll h hvalues (hrest s h)
  | .call name line =>
    obtain ⟨_, hname, ha⟩ := ok_of_bind ha
    cases ha
    exact .cons (h.call hname) rfl (hrest s h)
  | .group body line => exact Stmt.agreeAll body h ha hf hrest
  | .procedure name body line =>
    obtain ⟨inside, hdecl, ha⟩ := ok_of_bind ha
    obtain ⟨locals, hb, ha⟩ := ok_of_bind ha
    cases ha
    obtain ⟨hn, -⟩ := Table.declare_ok hdecl
    simp only [Stmt.mentions, hdecl, Mention.behind]
    obtain ⟨-, rfl⟩ := Table.declare_ok hdecl
    refine .skip rfl (Block.agree body (h.enter hn hf) hb (hf.inside hn) ?_)
    intro s1 h1
    exact .skip rfl (hrest _ (h.leave hn hf h1))

theorem Stmt.agreeAll {t table' : Table} {env : Constants} {outer : List OpenScope} {o : OpenScope} {s : Scopes}
    {ms : List Mention} {rest : List Instr} (ss : List Stmt) (h : Aligned t env outer o s)
    (ha : Stmt.analyzeAll (OpenScope.tables outer) o.table ss = .ok table') (hf : OpenScope.Final t ⟨o.path, table'⟩)
    (hrest : ∀ s', Aligned t env outer ⟨o.path, table'⟩ s' → Agree t ms s' rest) :
    Agree t (Stmt.mentionsAll outer o ss ++ ms) s (Stmt.codeAllThen env ss rest) := by
  match ss with
  | [] =>
    cases ha
    exact hrest s h
  | st :: ss =>
    obtain ⟨t1, hst, ha⟩ := ok_of_bind ha
    simp only [Stmt.mentionsAll, hst, Mention.behind, List.append_assoc]
    refine Stmt.agree st h hst (hf.before (Stmt.extends_of_analyzeAll ss ha).isPrefix) ?_
    intro s1 h1
    exact Stmt.agreeAll ss h1 ha hf hrest

theorem ElseIf.agreeAll {t table' : Table} {env : Constants} {outer : List OpenScope} {o : OpenScope} {s : Scopes}
    {ms : List Mention} {rest : List Instr} (es : List ElseIf) (h : Aligned t env outer o s)
    (ha : ElseIf.analyzeAll (OpenScope.tables outer) o.table es = .ok table')
    (hf : OpenScope.Final t ⟨o.path, table'⟩)
    (hrest : ∀ s', Aligned t env outer ⟨o.path, table'⟩ s' → Agree t ms s' rest) :
    Agree t (ElseIf.mentionsAll outer o es ++ ms) s (ElseIf.codeAllThen env es rest) := by
  match es with
  | [] =>
    cases ha
    exact hrest s h
  | ⟨cond, body, line⟩ :: others =>
    obtain ⟨_, hc, ha⟩ := ok_of_bind ha
    obtain ⟨t1, hb, ha⟩ := ok_of_bind ha
    simp only [ElseIf.mentionsAll, hb, Mention.behind, List.append_assoc]
    refine Expr.agree h hc (.skip rfl (Stmt.agreeAll body h hb
      (hf.before (ElseIf.extends_of_analyzeAll others ha).isPrefix) ?_))
    intro s1 h1
    exact ElseIf.agreeAll others h1 ha hf hrest

theorem Block.agree {t table' : Table} {env : Constants} {outer : List OpenScope} {o : OpenScope} {s : Scopes}
    {ms : List Mention} {rest : List Instr} (b : Block) (h : Aligned t env outer o s)
    (ha : b.analyze (OpenScope.tables outer) o.table = .ok table') (hf : OpenScope.Final t ⟨o.path, table'⟩)
    (hrest : ∀ s', Aligned t (Decl.bindAll env b.decls) outer ⟨o.path, table'⟩ s' → Agree t ms s' rest) :
    Agree t (b.mentions outer o ++ ms) s (b.codeThen env rest) := by
  match b with
  | ⟨decls, some st, line⟩ =>
    obtain ⟨t1, hd, ha⟩ := ok_of_bind ha
    simp only [Block.mentions, hd, Mention.behind, List.append_assoc]
    refine Decl.agreeAll h hd (hf.before (Stmt.extends_of_analyze st ha).isPrefix) ?_
    intro s1 h1
    exact Stmt.agree st h1 ha hf hrest
  | ⟨decls, none, line⟩ =>
    obtain ⟨t1, hd, ha⟩ := ok_of_bind ha
    cases ha
    simp only [Block.mentions, List.append_nil]
    exact Decl.agreeAll h hd hf hrest

end

theorem Block.prefix_of_analyze {scopes : List Table} {b : Block} {table table' : Table}
    (h : b.analyze scopes table = .ok table') : table <+: table' := by
  match b with
  | ⟨decls, none, line⟩ =>
    obtain ⟨t1, hd, h⟩ := ok_of_bind h
    cases h
    exact Decl.prefix_of_analyzeAll hd
  | ⟨decls, some st, line⟩ =>
    obtain ⟨t1, hd, h⟩ := ok_of_bind h
    exact (Decl.prefix_of_analyzeAll hd).trans (Stmt.extends_of_analyze st h).isPrefix

theorem Block.prefix_of_analyzeAll {scopes : List Table} {bs : List Block} {table table' : Table}
    (h : Block.analyzeAll scopes table bs = .ok table') : table <+: table' := by
  induction bs generalizing table with
  | nil =>
    cases h
    exact List.prefix_rfl
  | cons b bs ih =>
    obtain ⟨t1, hb, h⟩ := ok_of_bind h
    exact (Block.prefix_of_analyze hb).trans (ih h)

theorem Block.agreeAll {bs : List Block} {table' : Table} (h : Aligned t env outer o s)
    (ha : Block.analyzeAll (OpenScope.tables outer) o.table bs = .ok table')
    (hf : OpenScope.Final t ⟨o.path, table'⟩) :
    Agree t (Block.mentionsAll outer o bs) s (Block.codeAllThen env bs []) := by
  induction bs generalizing o s env with
  | nil => exact .nil
  | cons b bs ih =>
    obtain ⟨t1, hb, ha⟩ := ok_of_bind ha
    simp only [Block.mentionsAll, hb, Mention.behind]
    refine Block.agree b h hb (hf.before (Block.prefix_of_analyzeAll ha)) ?_
    intro s1 h1
    exact ih h1 ha hf

/-- The names of an analysed program and those of its code agree one by one. -/
theorem Program.agree {p : Program} {t : Table} (h : p.analyze = .ok t) : Agree t p.mentions .initial p.code := by
  refine @Block.agreeAll t [] [] ⟨[], []⟩ .initial p.blocks t ⟨.cons (.initial []) .nil, ?_, by simp, ?_⟩ h ?_
  · intro name n v line hl
    cases hl
  · intro name x hx
    cases hx
  · intro name x hx
    exact hx

theorem Reference.Resolved.isUse {r : Reference} {c : Placed} (h : r.Resolved t c) :
    c.isUse = true ∧ c.isBinding = false := by
  obtain ⟨hi, hop⟩ := h
  unfold Placed.isUse Placed.isBinding
  rw [hi]
  cases hr : r.instr.op <;> simp [hr, Op.uses, Op.binds] at hop ⊢

theorem Declaration.Recorded.isBinding {d : Declaration} {c : Placed} (h : d.Recorded t c) :
    c.isUse = false ∧ c.isBinding = true := by
  obtain ⟨path, d⟩ := d
  obtain ⟨-, h⟩ := h
  unfold Placed.isUse Placed.isBinding
  cases d with
  | const name init line =>
    obtain ⟨v, -, hi⟩ := h
    rw [hi]
    exact ⟨rfl, rfl⟩
  | var name init line =>
    cases init with
    | none =>
      rw [h.2]
      exact ⟨rfl, rfl⟩
    | some _ =>
      obtain ⟨v, -, hi, -⟩ := h
      rw [hi]
      exact ⟨rfl, rfl⟩

namespace Agree

variable {code : List Instr}

theorem filter_named (p : Placed → Bool) (hp : ∀ c, p c = true → (c.isUse || c.isBinding) = true) :
    ((placed .initial code).filter fun c => c.isUse || c.isBinding).filter p = (placed .initial code).filter p := by
  rw [List.filter_filter]
  refine List.filter_congr fun c _ => ?_
  cases hc : p c with
  | false => rfl
  | true => simp [hp c hc]

theorem references (h : Agree t ms .initial code) :
    List.Forall₂ (Reference.Resolved t) (ms.filterMap Sum.getLeft?) (usesIn code) := by
  unfold usesIn
  rw [← filter_named _ (fun c hc => by simp [hc]), ← List.filterMap_eq_filter]
  refine List.rel_filterMap ?_ h
  intro m c hm
  unfold Option.guard
  cases m with
  | inl r =>
    rw [if_pos hm.isUse.1]
    exact .some hm
  | inr d =>
    rw [if_neg (by simp [hm.isBinding.1])]
    exact .none

theorem declarations (h : Agree t ms .initial code) :
    List.Forall₂ (Declaration.Recorded t) (ms.filterMap Sum.getRight?) (bindingsIn code) := by
  unfold bindingsIn
  rw [← filter_named _ (fun c hc => by simp [hc]), ← List.filterMap_eq_filter]
  refine List.rel_filterMap ?_ h
  intro m c hm
  unfold Option.guard
  cases m with
  | inl r =>
    rw [if_neg (by simp [hm.isUse.2])]
    exact .none
  | inr d =>
    rw [if_pos hm.isBinding.2]
    exact .some hm

end Agree

end PLZero
