import PLZero.Proofs.Layers
import PLZero.Proofs.Names
import PLZero.Instr.Generate
import PLZero.Symbol.Analysis
import Mathlib.Data.List.Forall2

/-! Well-scoped programs: every name is declared once in its scope, before it is used, and used as what it
was declared. A program read from source text that passes the analysis is well-scoped. -/

namespace PLZero

variable {t : Table}

theorem IsWord.isAlphanum {name : String} (h : IsWord name) {c : Char} (hc : c ∈ name.toList) :
    c.isAlphanum = true := by
  obtain ⟨d, ds, hname, hd, hds⟩ := h
  rw [hname] at hc
  rcases List.mem_cons.mp hc with rfl | hc
  · rw [Char.isAlphanum, hd, Bool.true_or]
  · exact List.all_eq_true.mp hds _ hc

/-- So words can be put together to paths and taken apart again. -/
theorem IsWord.dot_notMem {name : String} (h : IsWord name) : '.' ∉ name.toList := by
  intro hdot
  have := h.isAlphanum hdot
  revert this
  decide

/-- A variable or constant. -/
def Readable (layers : List Layer) (name : String) : Prop :=
  ∃ f, lookup layers name = some f ∧ f.entry.isProcedure = false

def Assignable (layers : List Layer) (name : String) : Prop :=
  ∃ f, lookup layers name = some f ∧ f.entry = .var name

def Callable (layers : List Layer) (name : String) : Prop :=
  ∃ f body, lookup layers name = some f ∧ f.entry = .procedure name body

def Initial.Scoped (layers : List Layer) : Initial → Prop
  | .number _ => True
  | .constant name => ∃ f v, lookup layers name = some f ∧ f.entry = .const name v

def Decl.ScopedAll (outer : List Layer) : Layer → List Decl → Prop
  | _, [] => True
  | l, d :: ds => IsWord d.name ∧ ¬ l.declares d.name ∧ (∀ i ∈ d.init, i.Scoped (l :: outer)) ∧
    ScopedAll outer (l.add (d.entry (l :: outer))) ds

def Expr.Scoped (layers : List Layer) : Expr → Prop
  | .binary _ left right _ => left.Scoped layers ∧ right.Scoped layers
  | .literal .. => True
  | .ident name _ => Readable layers name

mutual

def Stmt.Scoped (outer : List Layer) (l : Layer) : Stmt → Prop
  | .assign name value _ => Assignable (l :: outer) name ∧ value.Scoped (l :: outer)
  | .ifElse cond body elseIfs otherwise _ =>
    cond.Scoped (l :: outer) ∧ Stmt.ScopedAll outer l body ∧
      ElseIf.ScopedAll outer (Stmt.afterAll l body) elseIfs ∧
      match otherwise with
      | some other => Stmt.ScopedAll outer (ElseIf.afterAll (Stmt.afterAll l body) elseIfs) other
      | none => True
  | .whileDo cond body _ => cond.Scoped (l :: outer) ∧ Stmt.ScopedAll outer l body
  | .forTo counter start bound body _ =>
    Assignable (l :: outer) counter ∧ start.Scoped (l :: outer) ∧ bound.Scoped (l :: outer) ∧
      Stmt.ScopedAll outer l body
  | .read names _ => ∀ name ∈ names, Assignable (l :: outer) name
  | .write values _ => ∀ e ∈ values, e.Scoped (l :: outer)
  | .call name _ => Callable (l :: outer) name
  | .group body _ => Stmt.ScopedAll outer l body
  | .procedure name body _ =>
    IsWord name ∧ ¬ l.declares name ∧ body.Scoped (l.add (.procedure name body) :: outer) (l.inside name)

def Stmt.ScopedAll (outer : List Layer) (l : Layer) : List Stmt → Prop
  | [] => True
  | s :: ss => s.Scoped outer l ∧ Stmt.ScopedAll outer (s.after l) ss

def ElseIf.ScopedAll (outer : List Layer) (l : Layer) : List ElseIf → Prop
  | [] => True
  | ⟨cond, body, _⟩ :: others =>
    cond.Scoped (l :: outer) ∧ Stmt.ScopedAll outer l body ∧
      ElseIf.ScopedAll outer (Stmt.afterAll l body) others

def Block.Scoped (outer : List Layer) (l : Layer) : Block → Prop
  | ⟨decls, stmt, _⟩ => Decl.ScopedAll outer l decls ∧
    match stmt with
    | some s => s.Scoped outer (Decl.afterAll outer l decls)
    | none => True

end

def Block.ScopedAll (outer : List Layer) : Layer → List Block → Prop
  | _, [] => True
  | l, b :: bs => b.Scoped outer l ∧ ScopedAll outer (b.after outer l) bs

def Program.Scoped (p : Program) : Prop := Block.ScopedAll [] .initial p.blocks

theorem ok_of_bind {ε α β : Type} {x : Except ε α} {f : α → Except ε β} {b : β}
    (h : (x >>= f) = .ok b) : ∃ a, x = .ok a ∧ f a = .ok b := by
  cases x with
  | error e => cases h
  | ok a => exact ⟨a, rfl, h⟩

inductive Kind
  | var
  | const (value : Int32)
  | procedure
  deriving DecidableEq

def Symbol.kind : Symbol → Kind
  | .var .. => .var
  | .const _ v _ => .const v
  | .procedure .. => .procedure

def ScopeEntry.kind : ScopeEntry → Kind
  | .var _ => .var
  | .const _ v => .const v
  | .procedure .. => .procedure

/-- A table lists what a scope declares. -/
structure Table.Lists (t : Table) (l : Layer) : Prop where
  find : ∀ name, (t.find? name).map Symbol.kind = (Layer.latest l.entries name).map (·.1.kind)
  entry : ∀ s ∈ t, ∃ e ∈ l.entries, e.name = s.name ∧ e.kind = s.kind

namespace Table

variable {s : Symbol} {u : Unit}

theorem declare_ok {t' : Table} (h : t.declare s = .ok t') :
    t.find? s.name = none ∧ t' = t ++ [s] := by
  unfold declare at h
  split at h
  · cases h
  · next hn =>
    cases h
    exact ⟨hn, rfl⟩

theorem Lists.not_declares {l : Layer} {name : String} (h : t.Lists l)
    (hn : t.find? name = none) : ¬ l.declares name := by
  have := h.find name
  rw [hn, Option.map_none, eq_comm, Option.map_eq_none_iff] at this
  exact Layer.latest_eq_none.mp this

theorem Lists.add {l : Layer} {e : ScopeEntry} (h : t.Lists l)
    (hn : t.find? s.name = none) (hname : s.name = e.name) (hkind : s.kind = e.kind) :
    Table.Lists (t ++ [s]) (l.add e) where
  find name := by
    have hfind : Table.find? (t ++ [s]) name = (t.find? name).or (if s.name = name then some s else none) := by
      simp only [find?, List.find?_append, List.find?_singleton, beq_iff_eq]
    rw [hfind]
    by_cases he : e.name = name
    · subst he
      rw [hname] at hn
      simp [hn, Layer.latest, hname, hkind]
    · simp [Layer.latest, he, hname, h.find name]
  entry s' hs' := by
    rcases List.mem_append.mp hs' with hs' | hs'
    · obtain ⟨e', he', heq⟩ := h.entry s' hs'
      exact ⟨e', List.mem_cons_of_mem _ he', heq⟩
    · obtain rfl := List.mem_singleton.mp hs'
      exact ⟨e, List.mem_cons_self, hname.symm, hkind.symm⟩

theorem Lists.initial : Table.Lists [] Layer.initial := ⟨fun _ => rfl, by simp⟩

theorem Lists.inside (l : Layer) (name : String) : Table.Lists [] (l.inside name) := ⟨fun _ => rfl, by simp⟩

theorem lookup_kind {scopes : List Table} {layers : List Layer} (h : List.Forall₂ Lists scopes layers)
    (name : String) :
    (lookup scopes name).map Symbol.kind = (PLZero.lookup layers name).map (·.entry.kind) := by
  induction h with
  | nil => rfl
  | @cons t l scopes layers hl _ ih =>
    have := hl.find name
    simp only [lookup, List.findSome?_cons, PLZero.lookup] at this ⊢
    cases ht : t.find? name with
    | some s =>
      rw [ht] at this
      cases hf : Layer.latest l.entries name with
      | none => rw [hf] at this; cases this
      | some x => simpa [hf] using this
    | none =>
      rw [ht] at this
      cases hf : Layer.latest l.entries name with
      | some x => rw [hf] at this; cases this
      | none =>
        simp only [Option.map_map]
        exact ih

variable {scopes : List Table} {layers : List Layer} {name : String} {line : Nat}

/-- The symbol that the analysis finds and the declaration in sight are of one kind. -/
theorem lookup_some (h : List.Forall₂ Lists scopes layers) (hs : lookup scopes name = some s) :
    ∃ f, PLZero.lookup layers name = some f ∧ f.entry.kind = s.kind ∧ f.entry.name = name := by
  have hk := lookup_kind h name
  rw [hs] at hk
  cases hf : PLZero.lookup layers name with
  | none => rw [hf] at hk; cases hk
  | some f =>
    rw [hf] at hk
    exact ⟨f, rfl, (Option.some.inj hk).symm, (lookup_home hf).1⟩

theorem readable_ok (h : List.Forall₂ Lists scopes layers)
    (hr : readable scopes name line = .ok u) : Readable layers name := by
  unfold readable at hr
  split at hr
  · next hs =>
    obtain ⟨f, hf, hk, -⟩ := lookup_some h hs
    exact ⟨f, hf, by cases he : f.entry <;> simp_all [ScopeEntry.kind, Symbol.kind, ScopeEntry.isProcedure]⟩
  · next hs =>
    obtain ⟨f, hf, hk, -⟩ := lookup_some h hs
    exact ⟨f, hf, by cases he : f.entry <;> simp_all [ScopeEntry.kind, Symbol.kind, ScopeEntry.isProcedure]⟩
  · cases hr
  · cases hr

theorem assignable_ok (h : List.Forall₂ Lists scopes layers)
    (hr : assignable scopes name line = .ok u) : Assignable layers name := by
  unfold assignable at hr
  split at hr
  · next hs =>
    obtain ⟨f, hf, hk, hn⟩ := lookup_some h hs
    exact ⟨f, hf, by cases he : f.entry <;> simp_all [ScopeEntry.kind, Symbol.kind, ScopeEntry.name]⟩
  all_goals cases hr

theorem callable_ok (h : List.Forall₂ Lists scopes layers)
    (hr : callable scopes name line = .ok u) : Callable layers name := by
  unfold callable at hr
  split at hr
  · next hs =>
    obtain ⟨f, hf, hk, hn⟩ := lookup_some h hs
    cases he : f.entry with
    | procedure n body =>
      rw [he] at hn
      exact ⟨f, body, hf, by rw [he, ← hn]; rfl⟩
    | var n => rw [he] at hk; cases hk
    | const n v => rw [he] at hk; cases hk
  · cases hr

theorem constantValue_ok {v : Int32} (h : List.Forall₂ Lists scopes layers)
    (hr : constantValue scopes name line = .ok v) :
    ∃ f, PLZero.lookup layers name = some f ∧ f.entry = .const name v := by
  unfold constantValue at hr
  split at hr
  · next hs =>
    cases hr
    obtain ⟨f, hf, hk, hn⟩ := lookup_some h hs
    exact ⟨f, hf, by cases he : f.entry <;> simp_all [ScopeEntry.kind, Symbol.kind, ScopeEntry.name]⟩
  all_goals cases hr

end Table

open Table (Lists)

section

variable {scopes : List Table} {outer : List Layer} {t' : Table} {l : Layer} {layers : List Layer}

theorem Initial.scoped_of_value {i : Initial} {line : Nat} {v : Int32}
    (h : List.Forall₂ Lists scopes layers) (hv : i.value scopes line = .ok v) :
    i.Scoped layers ∧ i.valueIn layers = v := by
  cases i with
  | number w => cases hv; exact ⟨trivial, rfl⟩
  | constant name =>
    obtain ⟨f, hf, he⟩ := Table.constantValue_ok h hv
    refine ⟨⟨f, v, hf, he⟩, ?_⟩
    obtain ⟨depth, entry, home, outer⟩ := f
    simp only at he
    subst he
    simp only [Initial.valueIn, hf]

theorem Decl.symbol_const {name : String} {init : Option Initial} {line : Nat} {s : Symbol}
    (h : (Decl.const name init line).symbol scopes = .ok s) :
    ∃ v, init.elim (.ok 0) (·.value scopes line) = .ok v ∧ s = .const name v line := by
  cases init with
  | none =>
    cases h
    exact ⟨0, rfl, rfl⟩
  | some i =>
    obtain ⟨v, hv, h⟩ := ok_of_bind h
    cases h
    exact ⟨v, hv, rfl⟩

theorem Decl.scoped_of_symbol {d : Decl} {s : Symbol}
    (h : List.Forall₂ Lists scopes layers) (hs : d.symbol scopes = .ok s) :
    (∀ i ∈ d.init, i.Scoped layers) ∧ s.name = d.name ∧ s.kind = (d.entry layers).kind := by
  cases d with
  | var name init line | const name init line =>
    cases init with
    | none => cases hs; exact ⟨by simp [Decl.init], rfl, rfl⟩
    | some i =>
      obtain ⟨v, hv, hs⟩ := ok_of_bind hs
      cases hs
      obtain ⟨hi, rfl⟩ := Initial.scoped_of_value h hv
      exact ⟨by simpa [Decl.init] using hi, rfl, rfl⟩

theorem Decl.entry_name (layers : List Layer) (d : Decl) : (d.entry layers).name = d.name := by
  cases d <;> rfl

theorem Decl.scoped_of_analyzeAll {ds : List Decl} (hs : List.Forall₂ Lists scopes outer) (hl : t.Lists l)
    (h : Decl.analyzeAll scopes ds t = .ok t') (hn : ∀ d ∈ ds, d.Names IsWord) :
    Decl.ScopedAll outer l ds ∧ t'.Lists (Decl.afterAll outer l ds) := by
  induction ds generalizing t l with
  | nil => cases h; exact ⟨trivial, hl⟩
  | cons d ds ih =>
    obtain ⟨s, hsym, h⟩ := ok_of_bind h
    obtain ⟨t1, hdecl, h⟩ := ok_of_bind h
    obtain ⟨hnone, rfl⟩ := Table.declare_ok hdecl
    obtain ⟨hi, hname, hkind⟩ := Decl.scoped_of_symbol (.cons hl hs) hsym
    have hl1 := hl.add hnone (hname.trans (d.entry_name _).symm) hkind
    obtain ⟨hds, ht'⟩ := ih hl1 h fun e he => hn e (by simp [he])
    have hword : IsWord d.name := by
      have := hn d (by simp)
      cases d <;> exact this.1
    exact ⟨⟨hword, hname ▸ hl.not_declares hnone, hi, hds⟩, ht'⟩

theorem Expr.scoped_of_analyze {e : Expr} {u : Unit}
    (hs : List.Forall₂ Lists scopes layers) (h : e.analyze scopes = .ok u) : e.Scoped layers := by
  induction e generalizing u with
  | binary op left right line ihl ihr =>
    obtain ⟨_, hl, hr⟩ := ok_of_bind h
    exact ⟨ihl hl, ihr hr⟩
  | literal value line => trivial
  | ident name line => exact Table.readable_ok hs h

theorem scoped_of_forM {α : Type} {f : α → Except ScopeError Unit} {Q : α → Prop} {as : List α} {u : Unit}
    (hf : ∀ a v, f a = .ok v → Q a) (h : as.forM f = .ok u) : ∀ a ∈ as, Q a := by
  induction as with
  | nil => simp
  | cons a as ih =>
    obtain ⟨v, ha, h⟩ := ok_of_bind h
    intro b hb
    rcases List.mem_cons.mp hb with rfl | hb
    · exact hf b v ha
    · exact ih h b hb

end

mutual

/-- Analysis keeps the tables in step with the scopes. -/
theorem Stmt.scoped_of_analyze {scopes : List Table} {outer : List Layer} {t t' : Table} {l : Layer}
    (hs : List.Forall₂ Lists scopes outer) (hl : t.Lists l) (s : Stmt)
    (h : s.analyze scopes t = .ok t') (hn : s.Names IsWord) : s.Scoped outer l ∧ t'.Lists (s.after l) := by
  have hall : List.Forall₂ Lists (t :: scopes) (l :: outer) := .cons hl hs
  match s with
  | .assign name value line =>
    obtain ⟨_, ha, h⟩ := ok_of_bind h
    obtain ⟨_, hv, h⟩ := ok_of_bind h
    cases h
    exact ⟨⟨Table.assignable_ok hall ha, Expr.scoped_of_analyze hall hv⟩, hl⟩
  | .ifElse cond body elseIfs (some other) line =>
    obtain ⟨_, hc, h⟩ := ok_of_bind h
    obtain ⟨t1, hb, h⟩ := ok_of_bind h
    obtain ⟨t2, he, h⟩ := ok_of_bind h
    obtain ⟨-, hnb, hne, hno⟩ := hn
    obtain ⟨hbody, hl1⟩ := Stmt.scoped_of_analyzeAll hs hl body hb hnb
    obtain ⟨helse, hl2⟩ := ElseIf.scoped_of_analyzeAll hs hl1 elseIfs he hne
    obtain ⟨hother, hl3⟩ := Stmt.scoped_of_analyzeAll hs hl2 other h hno
    exact ⟨⟨Expr.scoped_of_analyze hall hc, hbody, helse, hother⟩, hl3⟩
  | .ifElse cond body elseIfs none line =>
    obtain ⟨_, hc, h⟩ := ok_of_bind h
    obtain ⟨t1, hb, h⟩ := ok_of_bind h
    obtain ⟨t2, he, h⟩ := ok_of_bind h
    cases h
    obtain ⟨-, hnb, hne, -⟩ := hn
    obtain ⟨hbody, hl1⟩ := Stmt.scoped_of_analyzeAll hs hl body hb hnb
    obtain ⟨helse, hl2⟩ := ElseIf.scoped_of_analyzeAll hs hl1 elseIfs he hne
    exact ⟨⟨Expr.scoped_of_analyze hall hc, hbody, helse, trivial⟩, hl2⟩
  | .whileDo cond body line =>
    obtain ⟨_, hc, h⟩ := ok_of_bind h
    obtain ⟨hbody, hl'⟩ := Stmt.scoped_of_analyzeAll hs hl body h hn.2
    exact ⟨⟨Expr.scoped_of_analyze hall hc, hbody⟩, hl'⟩
  | .forTo counter start bound body line =>
    obtain ⟨_, hc, h⟩ := ok_of_bind h
    obtain ⟨_, hf, h⟩ := ok_of_bind h
    obtain ⟨_, ht, h⟩ := ok_of_bind h
    obtain ⟨hbody, hl'⟩ := Stmt.scoped_of_analyzeAll hs hl body h hn.2.2.2
    exact ⟨⟨Table.assignable_ok hall hc, Expr.scoped_of_analyze hall hf, Expr.scoped_of_analyze hall ht,
      hbody⟩, hl'⟩
  | .read names line =>
    obtain ⟨_, ha, h⟩ := ok_of_bind h
    cases h
    exact ⟨scoped_of_forM (fun _ _ => Table.assignable_ok hall) ha, hl⟩
  | .write values line =>
    obtain ⟨_, hv, h⟩ := ok_of_bind h
    cases h
    exact ⟨scoped_of_forM (fun _ _ => Expr.scoped_of_analyze hall) hv, hl⟩
  | .call name line =>
    obtain ⟨_, hc, h⟩ := ok_of_bind h
    cases h
    exact ⟨Table.callable_ok hall hc, hl⟩
  | .group body line => exact Stmt.scoped_of_analyzeAll hs hl body h hn
  | .procedure name body line =>
    obtain ⟨t1, hdecl, h⟩ := ok_of_bind h
    obtain ⟨locals, hb, h⟩ := ok_of_bind h
    cases h
    obtain ⟨hnone, rfl⟩ := Table.declare_ok hdecl
    -- inside its own body the procedure is listed with an empty table
    have hinside : Table.Lists _ (l.add (.procedure name body)) := hl.add hnone rfl rfl
    obtain ⟨hbody, -⟩ := Block.scoped_of_analyze (.cons hinside hs) (Table.Lists.inside l name) body hb hn.2
    exact ⟨⟨hn.1, hl.not_declares hnone, hbody⟩, hl.add hnone rfl rfl⟩

theorem Stmt.scoped_of_analyzeAll {scopes : List Table} {outer : List Layer} {t t' : Table} {l : Layer}
    (hs : List.Forall₂ Lists scopes outer) (hl : t.Lists l) (ss : List Stmt)
    (h : Stmt.analyzeAll scopes t ss = .ok t') (hn : Stmt.NamesAll IsWord ss) :
    Stmt.ScopedAll outer l ss ∧ t'.Lists (Stmt.afterAll l ss) := by
  match ss with
  | [] =>
    cases h
    exact ⟨trivial, hl⟩
  | s :: ss =>
    obtain ⟨t1, h1, h⟩ := ok_of_bind h
    obtain ⟨hfirst, hl1⟩ := Stmt.scoped_of_analyze hs hl s h1 hn.1
    obtain ⟨hrest, hl'⟩ := Stmt.scoped_of_analyzeAll hs hl1 ss h hn.2
    exact ⟨⟨hfirst, hrest⟩, hl'⟩

theorem ElseIf.scoped_of_analyzeAll {scopes : List Table} {outer : List Layer} {t t' : Table} {l : Layer}
    (hs : List.Forall₂ Lists scopes outer) (hl : t.Lists l) (es : List ElseIf)
    (h : ElseIf.analyzeAll scopes t es = .ok t') (hn : ElseIf.NamesAll IsWord es) :
    ElseIf.ScopedAll outer l es ∧ t'.Lists (ElseIf.afterAll l es) := by
  match es with
  | [] =>
    cases h
    exact ⟨trivial, hl⟩
  | ⟨cond, body, line⟩ :: others =>
    obtain ⟨_, hc, h⟩ := ok_of_bind h
    obtain ⟨t1, hb, h⟩ := ok_of_bind h
    obtain ⟨-, hnb, hno⟩ := hn
    obtain ⟨hbody, hl1⟩ := Stmt.scoped_of_analyzeAll hs hl body hb hnb
    obtain ⟨hothers, hl'⟩ := ElseIf.scoped_of_analyzeAll hs hl1 others h hno
    exact ⟨⟨Expr.scoped_of_analyze (.cons hl hs) hc, hbody, hothers⟩, hl'⟩

theorem Block.scoped_of_analyze {scopes : List Table} {outer : List Layer} {t t' : Table} {l : Layer}
    (hs : List.Forall₂ Lists scopes outer) (hl : t.Lists l) (b : Block)
    (h : b.analyze scopes t = .ok t') (hn : b.Names IsWord) : b.Scoped outer l ∧ t'.Lists (b.after outer l) := by
  match b with
  | ⟨decls, some s, line⟩ =>
    obtain ⟨t1, hd, h⟩ := ok_of_bind h
    obtain ⟨hdecls, hl1⟩ := Decl.scoped_of_analyzeAll hs hl hd hn.1
    obtain ⟨hstmt, hl'⟩ := Stmt.scoped_of_analyze hs hl1 s h hn.2
    exact ⟨⟨hdecls, hstmt⟩, hl'⟩
  | ⟨decls, none, line⟩ =>
    obtain ⟨t1, hd, h⟩ := ok_of_bind h
    cases h
    obtain ⟨hdecls, hl1⟩ := Decl.scoped_of_analyzeAll hs hl hd hn.1
    exact ⟨⟨hdecls, trivial⟩, hl1⟩

end

theorem Block.scoped_of_analyzeAll {scopes : List Table} {outer : List Layer} {t' : Table} {l : Layer}
    {bs : List Block} (hs : List.Forall₂ Lists scopes outer) (hl : t.Lists l)
    (h : Block.analyzeAll scopes t bs = .ok t') (hn : ∀ b ∈ bs, b.Names IsWord) :
    Block.ScopedAll outer l bs ∧ t'.Lists (Block.afterAll outer l bs) := by
  induction bs generalizing t l with
  | nil =>
    cases h
    exact ⟨trivial, hl⟩
  | cons b bs ih =>
    obtain ⟨t1, hb, h⟩ := ok_of_bind h
    obtain ⟨hfirst, hl1⟩ := Block.scoped_of_analyze hs hl b hb (hn b (by simp))
    obtain ⟨hrest, hl'⟩ := ih hl1 h fun c hc => hn c (by simp [hc])
    exact ⟨⟨hfirst, hrest⟩, hl'⟩

/-- A program read from source text that passes the analysis is well-scoped. -/
theorem Program.scoped_of_source {source : String} {p : Program}
    (hp : Program.ofSource source = .ok p) (ht : p.analyze = .ok t) : p.Scoped :=
  (Block.scoped_of_analyzeAll .nil Table.Lists.initial ht (Program.ofSource_names (fun _ h => h) hp)).1

theorem Program.lists_of_source {source : String} {p : Program}
    (hp : Program.ofSource source = .ok p) (ht : p.analyze = .ok t) :
    t.Lists (Block.afterAll [] .initial p.blocks) :=
  (Block.scoped_of_analyzeAll .nil Table.Lists.initial ht (Program.ofSource_names (fun _ h => h) hp)).2

/-- Code that is generated with these constants takes each constant in sight for its value. -/
def Constants.Match (env : Constants) (layers : List Layer) : Prop :=
  ∀ name f v, lookup layers name = some f → f.entry = .const name v → env.lookup name = some v

namespace Constants.Match

variable {env : Constants} {outer : List Layer} {l : Layer}

theorem initial : Constants.Match [] [Layer.initial] := by
  intro name f v hf _
  simp [lookup, Layer.initial, Layer.latest] at hf

theorem value {layers : List Layer} {i : Initial} (h : env.Match layers) (hi : i.Scoped layers) :
    env.value i = i.valueIn layers := by
  cases i with
  | number v => rfl
  | constant name =>
    obtain ⟨⟨depth, entry, home, outer⟩, v, hf, rfl⟩ := hi
    simp only [Constants.value, Initial.valueIn, hf, h name _ v hf rfl, Option.getD_some]

theorem constant {layers : List Layer} (h : env.Match layers) (init : Option Initial)
    (hi : ∀ i ∈ init, i.Scoped layers) : init.elim 0 env.value = init.elim 0 (·.valueIn layers) := by
  cases init with
  | none => rfl
  | some i => exact h.value (hi i rfl)

theorem inside (h : env.Match (l :: outer)) (name : String) : env.Match (l.inside name :: l :: outer) := by
  intro n f v hf he
  rw [lookup_empty rfl] at hf
  obtain ⟨g, hg, rfl⟩ := Option.map_eq_some_iff.mp hf
  exact h n g v hg he

theorem add {e : ScopeEntry} (h : env.Match (l :: outer)) (he : ∀ v, e ≠ .const e.name v) :
    env.Match (l.add e :: outer) := by
  intro n f v hf hentry
  rw [lookup_add] at hf
  split at hf
  · next hn =>
    cases hf
    subst hn
    exact absurd hentry (he v)
  · exact h n f v hf hentry

theorem procedure (h : env.Match (l :: outer)) (name : String) (body : Block) :
    env.Match (l.add (.procedure name body) :: outer) :=
  h.add fun _ heq => by cases heq

theorem bind {d : Decl} (h : env.Match (l :: outer)) (hd : ∀ i ∈ d.init, i.Scoped (l :: outer)) :
    (d.bind env).Match (l.add (d.entry (l :: outer)) :: outer) := by
  cases d with
  | var name init line => exact h.add fun _ heq => by cases heq
  | const name init line =>
    intro n f v hf hentry
    rw [lookup_add] at hf
    simp only [Decl.bind, List.lookup_cons]
    split at hf
    · next hn =>
      cases hf
      cases hentry
      simpa using h.constant init hd
    · next hn =>
      simp only [Decl.entry, ScopeEntry.name] at hn
      rw [beq_eq_false_iff_ne.mpr (Ne.symm hn)]
      exact h n f v hf hentry

theorem after (h : env.Match (l :: outer)) (s : Stmt) : env.Match (s.after l :: outer) :=
  Stmt.after_induct (P := fun l => env.Match (l :: outer)) (fun _ name body h => h.procedure name body) h s

theorem afterAll (h : env.Match (l :: outer)) (ss : List Stmt) : env.Match (Stmt.afterAll l ss :: outer) :=
  Stmt.afterAll_induct (P := fun l => env.Match (l :: outer)) (fun _ name body h => h.procedure name body) h ss

theorem afterElseIfs (h : env.Match (l :: outer)) (es : List ElseIf) :
    env.Match (ElseIf.afterAll l es :: outer) :=
  ElseIf.afterAll_induct (P := fun l => env.Match (l :: outer)) (fun _ name body h => h.procedure name body) h es

theorem bindAll {ds : List Decl} (h : env.Match (l :: outer)) (hd : Decl.ScopedAll outer l ds) :
    (Decl.bindAll env ds).Match (Decl.afterAll outer l ds :: outer) := by
  induction ds generalizing l env with
  | nil => exact h
  | cons d ds ih => exact ih (h.bind hd.2.2.1) hd.2.2.2

theorem block {b : Block} (h : env.Match (l :: outer)) (hb : b.Scoped outer l) :
    (Decl.bindAll env b.decls).Match (b.after outer l :: outer) := by
  match b with
  | ⟨decls, some s, _⟩ => exact (h.bindAll hb.1).after s
  | ⟨decls, none, _⟩ => exact h.bindAll hb.1

end Constants.Match

end PLZero
