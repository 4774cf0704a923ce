import PLZero.Instr.Scopes
import PLZero.Program

/-! Declarations in sight. At every place of a program the scopes around it list what is declared up to
there; a name means the latest declaration in the innermost scope that has one. The scopes that are
rebuilt from intermediate code resolve a name to the same scope. -/

namespace PLZero

inductive ScopeEntry
  | var (name : String)
  | const (name : String) (value : Int32)
  | procedure (name : String) (body : Block)

namespace ScopeEntry

def name : ScopeEntry → String
  | var name => name
  | const name _ => name
  | procedure name _ => name

def isProcedure : ScopeEntry → Bool
  | procedure .. => true
  | _ => false

end ScopeEntry

/-- One scope: the procedures around it, outermost first, and what it declares, the latest first. -/
structure Layer where
  path : List String
  entries : List ScopeEntry

/-- What a name means: how many scopes out it is declared, the declaration, and the scopes as that
declaration left them. -/
structure Found where
  depth : Nat
  entry : ScopeEntry
  home : Layer
  outer : List Layer

def Found.deeper (f : Found) : Found := { f with depth := f.depth + 1 }

namespace Layer

def initial : Layer := ⟨[], []⟩

def add (l : Layer) (e : ScopeEntry) : Layer := { l with entries := e :: l.entries }

/-- The scope of a procedure declared in this one, before anything is declared in it. -/
def inside (l : Layer) (name : String) : Layer := ⟨l.path ++ [name], []⟩

/-- The latest declaration of a name, and those before it. -/
def latest : List ScopeEntry → String → Option (ScopeEntry × List ScopeEntry)
  | [], _ => none
  | e :: rest, name => if e.name = name then some (e, rest) else latest rest name

def declares (l : Layer) (name : String) : Prop := name ∈ l.entries.map ScopeEntry.name

end Layer

def lookup : List Layer → String → Option Found
  | [], _ => none
  | l :: outer, name =>
    match Layer.latest l.entries name with
    | some (e, rest) => some ⟨0, e, ⟨l.path, e :: rest⟩, outer⟩
    | none => (lookup outer name).map Found.deeper

def Initial.valueIn (layers : List Layer) : Initial → Int32
  | .number v => v
  | .constant name =>
    match lookup layers name with
    | some ⟨_, .const _ v, _, _⟩ => v
    | _ => 0

def Decl.entry (layers : List Layer) : Decl → ScopeEntry
  | .var name _ _ => .var name
  | .const name init _ => .const name (init.elim 0 (·.valueIn layers))

def Decl.afterAll (outer : List Layer) (l : Layer) : List Decl → Layer
  | [] => l
  | d :: ds => afterAll outer (l.add (d.entry (l :: outer))) ds

mutual

/-- The scope `l` behind a statement: the procedures that the statement declares are new, whether or
not it is executed. -/
def Stmt.after (l : Layer) : Stmt → Layer
  | .assign .. | .read .. | .write .. | .call .. => l
  | .ifElse _ body elseIfs otherwise _ =>
    match otherwise with
    | some other => Stmt.afterAll (ElseIf.afterAll (Stmt.afterAll l body) elseIfs) other
    | none => ElseIf.afterAll (Stmt.afterAll l body) elseIfs
  | .whileDo _ body _ => Stmt.afterAll l body
  | .forTo _ _ _ body _ => Stmt.afterAll l body
  | .group body _ => Stmt.afterAll l body
  | .procedure name body _ => l.add (.procedure name body)

def Stmt.afterAll (l : Layer) : List Stmt → Layer
  | [] => l
  | s :: ss => Stmt.afterAll (s.after l) ss

def ElseIf.afterAll (l : Layer) : List ElseIf → Layer
  | [] => l
  | ⟨_, body, _⟩ :: others => ElseIf.afterAll (Stmt.afterAll l body) others

end

def Block.after (outer : List Layer) (l : Layer) (b : Block) : Layer :=
  match b.stmt with
  | some s => s.after (Decl.afterAll outer l b.decls)
  | none => Decl.afterAll outer l b.decls

def Block.afterAll (outer : List Layer) : Layer → List Block → Layer
  | l, [] => l
  | l, b :: bs => afterAll outer (b.after outer l) bs

namespace Layer

variable {name : String}

@[simp] theorem add_path (l : Layer) (e : ScopeEntry) : (l.add e).path = l.path := rfl

@[simp] theorem add_entries (l : Layer) (e : ScopeEntry) : (l.add e).entries = e :: l.entries := rfl

@[simp] theorem inside_path (l : Layer) (name : String) : (l.inside name).path = l.path ++ [name] := rfl

@[simp] theorem inside_entries (l : Layer) (name : String) : (l.inside name).entries = [] := rfl

theorem declares_add {l : Layer} {e : ScopeEntry} :
    (l.add e).declares name ↔ name = e.name ∨ l.declares name := by
  simp [declares]

theorem latest_eq_none {es : List ScopeEntry} :
    latest es name = none ↔ name ∉ es.map ScopeEntry.name := by
  induction es with
  | nil => simp [latest]
  | cons e es ih =>
    by_cases h : e.name = name
    · simp [latest, h]
    · simp [latest, h, ih, Ne.symm h]

theorem latest_name {es rest : List ScopeEntry} {e : ScopeEntry}
    (h : latest es name = some (e, rest)) : e.name = name ∧ (e :: rest) <:+ es := by
  induction es with
  | nil => cases h
  | cons d es ih =>
    by_cases hd : d.name = name
    · simp only [latest, hd, if_true, Option.some.injEq, Prod.mk.injEq] at h
      obtain ⟨rfl, rfl⟩ := h
      exact ⟨hd, List.suffix_refl _⟩
    · simp only [latest, hd, if_false] at h
      exact ⟨(ih h).1, (ih h).2.trans (List.suffix_cons _ _)⟩

end Layer

theorem lookup_add (l : Layer) (e : ScopeEntry) (outer : List Layer) (name : String) :
    lookup (l.add e :: outer) name =
      if e.name = name then some ⟨0, e, l.add e, outer⟩ else lookup (l :: outer) name := by
  by_cases h : e.name = name
  · simp [lookup, Layer.latest, h, Layer.add]
  · simp [lookup, Layer.latest, h]

theorem lookup_empty {l : Layer} (h : l.entries = []) (outer : List Layer) (name : String) :
    lookup (l :: outer) name = (lookup outer name).map Found.deeper := by
  simp [lookup, h, Layer.latest]

/-- The scope of a declaration is the scope at its depth, with the later declarations left out. -/
theorem lookup_home {layers : List Layer} {name : String} {f : Found}
    (h : lookup layers name = some f) :
    f.entry.name = name ∧ ∃ l, layers.drop f.depth = l :: f.outer ∧ f.home.path = l.path ∧
      f.home.entries <:+ l.entries ∧ ∃ rest, f.home.entries = f.entry :: rest := by
  induction layers generalizing f with
  | nil => cases h
  | cons l outer ih =>
    simp only [lookup] at h
    split at h
    · next e rest he =>
      cases h
      obtain ⟨hn, hs⟩ := Layer.latest_name he
      exact ⟨hn, l, rfl, rfl, hs, rest, rfl⟩
    · obtain ⟨g, hg, rfl⟩ := Option.map_eq_some_iff.mp h
      exact ih hg

variable {P : Layer → Prop}

mutual

/-- What stays true when a procedure is declared is true behind a statement. -/
theorem Stmt.after_induct (hadd : ∀ l name body, P l → P (l.add (.procedure name body)))
    {l : Layer} (h : P l) (s : Stmt) : P (s.after l) := by
  match s with
  | .assign .. | .read .. | .write .. | .call .. => exact h
  | .procedure name body _ => exact hadd l name body h
  | .ifElse _ body elseIfs (some other) _ =>
    exact Stmt.afterAll_induct hadd (ElseIf.afterAll_induct hadd (Stmt.afterAll_induct hadd h body) elseIfs) other
  | .ifElse _ body elseIfs none _ =>
    exact ElseIf.afterAll_induct hadd (Stmt.afterAll_induct hadd h body) elseIfs
  | .whileDo _ body _ => exact Stmt.afterAll_induct hadd h body
  | .forTo _ _ _ body _ => exact Stmt.afterAll_induct hadd h body
  | .group body _ => exact Stmt.afterAll_induct hadd h body

theorem Stmt.afterAll_induct
    (hadd : ∀ l name body, P l → P (l.add (.procedure name body)))
    {l : Layer} (h : P l) (ss : List Stmt) : P (Stmt.afterAll l ss) := by
  match ss with
  | [] => exact h
  | s :: ss => exact Stmt.afterAll_induct hadd (Stmt.after_induct hadd h s) ss

theorem ElseIf.afterAll_induct
    (hadd : ∀ l name body, P l → P (l.add (.procedure name body)))
    {l : Layer} (h : P l) (es : List ElseIf) : P (ElseIf.afterAll l es) := by
  match es with
  | [] => exact h
  | ⟨_, body, _⟩ :: others =>
    exact ElseIf.afterAll_induct hadd (Stmt.afterAll_induct hadd h body) others

end

theorem Stmt.after_path (l : Layer) (s : Stmt) : (s.after l).path = l.path :=
  Stmt.after_induct (P := (·.path = l.path)) (fun _ _ _ h => h) rfl s

theorem Stmt.afterAll_path (l : Layer) (ss : List Stmt) : (Stmt.afterAll l ss).path = l.path :=
  Stmt.afterAll_induct (P := (·.path = l.path)) (fun _ _ _ h => h) rfl ss

theorem ElseIf.afterAll_path (l : Layer) (es : List ElseIf) : (ElseIf.afterAll l es).path = l.path :=
  ElseIf.afterAll_induct (P := (·.path = l.path)) (fun _ _ _ h => h) rfl es

theorem Stmt.mem_of_mem_after {l : Layer} {s : Stmt} {e : ScopeEntry} (h : e ∈ (s.after l).entries)
    (he : e.isProcedure = false) : e ∈ l.entries :=
  Stmt.after_induct (P := fun l' => e ∈ l'.entries → e ∈ l.entries)
    (fun l' name body ih hmem => (List.mem_cons.mp hmem).elim (fun heq => by rw [heq] at he; cases he) ih) id s h

theorem Decl.afterAll_path (outer : List Layer) (l : Layer) (ds : List Decl) :
    (Decl.afterAll outer l ds).path = l.path := by
  induction ds generalizing l with
  | nil => rfl
  | cons d ds ih => rw [Decl.afterAll, ih]; rfl

attribute [simp] Stmt.after_path Stmt.afterAll_path ElseIf.afterAll_path Decl.afterAll_path

/-- `P` holds of every procedure in sight, with the scopes that its declaration left. -/
def EachProcedure (P : Layer → List Layer → String → Block → Prop) : List Layer → Prop
  | [] => True
  | l :: outer =>
    (∀ rest name body, (.procedure name body :: rest) <:+ l.entries →
      P ⟨l.path, .procedure name body :: rest⟩ outer name body) ∧ EachProcedure P outer

namespace EachProcedure

variable {P : Layer → List Layer → String → Block → Prop} {l : Layer} {outer layers : List Layer}

theorem initial : EachProcedure P [Layer.initial] := by
  refine ⟨fun rest name body hs => ?_, trivial⟩
  simp [Layer.initial] at hs

theorem inside (h : EachProcedure P (l :: outer)) (name : String) :
    EachProcedure P (l.inside name :: l :: outer) := by
  refine ⟨fun rest name body hs => ?_, h⟩
  simp at hs

theorem add_procedure {name : String} {body : Block} (h : EachProcedure P (l :: outer))
    (hp : P (l.add (.procedure name body)) outer name body) :
    EachProcedure P (l.add (.procedure name body) :: outer) := by
  refine ⟨fun rest n b hs => ?_, h.2⟩
  rcases List.suffix_cons_iff.mp hs with heq | hs
  · cases heq
    exact hp
  · exact h.1 rest n b hs

theorem add_binding {e : ScopeEntry} (h : EachProcedure P (l :: outer)) (he : e.isProcedure = false) :
    EachProcedure P (l.add e :: outer) := by
  refine ⟨fun rest n b hs => ?_, h.2⟩
  rcases List.suffix_cons_iff.mp hs with heq | hs
  · cases heq
    cases he
  · exact h.1 rest n b hs

theorem suffix {es : List ScopeEntry} (h : EachProcedure P (l :: outer)) (hs : es <:+ l.entries) :
    EachProcedure P (⟨l.path, es⟩ :: outer) :=
  ⟨fun rest n b hr => h.1 rest n b (hr.trans hs), h.2⟩

theorem drop (h : EachProcedure P layers) (n : Nat) : EachProcedure P (layers.drop n) := by
  induction n generalizing layers with
  | zero => exact h
  | succ n ih =>
    cases layers with
    | nil => exact h
    | cons l outer => exact ih h.2

/-- What holds of every procedure in sight holds of the one that a name means, and of those that were
in sight at its declaration. -/
theorem lookup {name : String} {f : Found} {body : Block} (h : EachProcedure P layers)
    (hf : lookup layers name = some f) (he : f.entry = .procedure name body) :
    P f.home f.outer name body ∧ EachProcedure P (f.home :: f.outer) := by
  obtain ⟨-, l, hdrop, hpath, hs, rest, hrest⟩ := lookup_home hf
  have hl := hdrop ▸ h.drop f.depth
  have hhome : f.home = ⟨l.path, .procedure name body :: rest⟩ := by
    rw [← hpath, ← he, ← hrest]
  rw [hrest, he] at hs
  rw [hhome]
  exact ⟨hl.1 rest name body hs, hl.suffix hs⟩

end EachProcedure

namespace Layer

variable {name : String} {f : Found}

/-- The names of the procedures, or of all else, as the scopes of intermediate code collect them. -/
def names (procedure : Bool) : List ScopeEntry → List String
  | [] => []
  | e :: rest =>
    if e.isProcedure = procedure then (names procedure rest).insert e.name else names procedure rest

def scope (l : Layer) : Scope := ⟨l.path, names false l.entries, names true l.entries⟩

def scopes (l : Layer) (outer : List Layer) : Scopes := ⟨l.scope, outer.map scope⟩

theorem scopes_declare (l : Layer) (outer : List Layer) {e : ScopeEntry} (he : e.isProcedure = false) :
    (l.scopes outer).declare e.name = (l.add e).scopes outer := by
  cases e with
  | var name => rfl
  | const name value => rfl
  | procedure name body => cases he

theorem scopes_enter (l : Layer) (outer : List Layer) (name : String) (body : Block) :
    (l.scopes outer).enter name = (l.inside name).scopes (l.add (.procedure name body) :: outer) := rfl

theorem scopes_leave (l inner : Layer) (outer : List Layer) :
    (inner.scopes (l :: outer)).leave = l.scopes outer := rfl

theorem latest_of_mem_names {k : Bool} {es : List ScopeEntry} (h : name ∈ names k es) :
    latest es name ≠ none := by
  induction es with
  | nil => cases h
  | cons e es ih =>
    by_cases hn : e.name = name
    · simp [latest, hn]
    · simp only [latest, hn, if_false]
      apply ih
      by_cases hk : e.isProcedure = k
      · simpa [names, hk, Ne.symm hn] using h
      · simpa [names, hk] using h

theorem mem_names_of_latest {es rest : List ScopeEntry} {e : ScopeEntry}
    (h : latest es name = some (e, rest)) : name ∈ names e.isProcedure es := by
  obtain ⟨rfl, pre, rfl⟩ := latest_name h
  clear h
  induction pre with
  | nil => simp [names]
  | cons d pre ih =>
    simp only [List.cons_append, names]
    split
    · exact List.mem_insert_of_mem ih
    · exact ih

/-- The innermost scope with a property that holds where a name is declared as it is, and not where it is not
declared, is the one that declares it. -/
theorem find_scope {layers : List Layer} (listed : Scope → Bool)
    (hlisted : ∀ l e rest, latest l.entries name = some (e, rest) → e.isProcedure = f.entry.isProcedure →
      listed (scope l) = true)
    (hunlisted : ∀ l, latest l.entries name = none → listed (scope l) = false)
    (h : lookup layers name = some f) :
    ((layers.map scope).find? listed).map (·.path) = some f.home.path := by
  induction layers generalizing f with
  | nil => cases h
  | cons l outer ih =>
    simp only [lookup] at h
    split at h
    · next e rest he =>
      cases h
      rw [List.map_cons, List.find?_cons_of_pos (hlisted l e rest he rfl)]
      rfl
    · next he =>
      obtain ⟨g, hg, rfl⟩ := Option.map_eq_some_iff.mp h
      rw [List.map_cons, List.find?_cons_of_neg (by simp [hunlisted l he])]
      exact ih (f := g) hlisted hg

/-- Where the name is listed among those of its kind. -/
theorem find_scope_of_kind {layers : List Layer} (pick : Scope → List String)
    (hpick : ∀ l, pick (scope l) = names f.entry.isProcedure l.entries) (h : lookup layers name = some f) :
    ((layers.map scope).find? (name ∈ pick ·)).map (·.path) = some f.home.path := by
  refine find_scope _ (fun l e rest he hk => ?_) (fun l he => ?_) h
  · simpa [hpick, ← hk] using mem_names_of_latest he
  · simpa [hpick] using fun hm => latest_of_mem_names hm he

/-- Code resolves the name of a variable or constant to the scope that declares it. -/
theorem resolve_scopes {l : Layer} {outer : List Layer}
    (h : lookup (l :: outer) name = some f) (hb : f.entry.isProcedure = false) :
    (l.scopes outer).resolve name = some f.home.path :=
  find_scope_of_kind (·.bindings) (fun l => by rw [hb]; rfl) h

theorem resolveProcedure_scopes {l : Layer} {outer : List Layer}
    (h : lookup (l :: outer) name = some f) (hp : f.entry.isProcedure = true) :
    (l.scopes outer).resolveProcedure name = some (f.home.path ++ [name]) := by
  have := congrArg (Option.map (· ++ [name])) (find_scope_of_kind (·.procedures) (fun l => by rw [hp]; rfl) h)
  rwa [Option.map_map] at this

end Layer

end PLZero
