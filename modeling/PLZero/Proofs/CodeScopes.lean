import PLZero.Proofs.CodeLayout
import Mathlib.Data.List.Find

/-! Names in intermediate code. Where an instruction uses a name, the innermost scope that declares the name in
any way declares it as what it is used for; where one declares a name, its scope does not do so yet; and every
expression is used by an instruction behind it. -/

namespace PLZero

variable {declared : List Site}

namespace Op

def declares : Op → Option String
  | .declare name | .const name _ | .procedureStart name => some name
  | _ => none

/-- The name that an instruction uses; the other marks of a counting loop repeat the name of its `FOR_INIT`. -/
def uses : Op → Option String
  | .load name | .store name | .read name | .call name | .forInit name => some name
  | _ => none

def nameless : Op → Bool
  | .push _ | .oper _ | .write | .ifMark | .elseIf | .elseMark | .endIf | .whileMark | .doMark | .endWhile
  | .forTo _ | .endFor _ => true
  | _ => false

/-- How many expressions are not used yet, and whether a counting loop waits for its bound. -/
abbrev Level := Nat × Bool

/-- The level behind an instruction, if it can stand at this one. -/
def level : Op → Level → Option Level
  | .load _, (n, waits) | .push _, (n, waits) => some (n + 1, waits)
  | .oper _, (n + 2, waits) => some (n + 1, waits)
  | .store _, (1, false) | .write, (1, false) | .ifMark, (1, false) | .elseIf, (1, false)
  | .doMark, (1, false) | .forTo _, (1, true) => some (0, false)
  | .forInit _, (1, false) => some (0, true)
  | .declare _, (0, false) | .const _ _, (0, false) | .call _, (0, false) | .read _, (0, false)
  | .procedureStart _, (0, false) | .procedureEnd _, (0, false) | .elseMark, (0, false) | .endIf, (0, false)
  | .whileMark, (0, false) | .endWhile, (0, false) | .endFor _, (0, false) => some (0, false)
  | _, _ => none

end Op

/-- Whether a scope declares a name in any way. -/
def Scope.lists (s : Scope) (name : String) : Bool := name ∈ s.bindings || name ∈ s.procedures

namespace Scopes

def after (s : Scopes) : Op → Scopes
  | .declare name | .const name _ => s.declare name
  | .procedureStart name => s.enter name
  | .procedureEnd _ => s.leave
  | _ => s

def afterAll (s : Scopes) (code : List Instr) : Scopes := code.foldl (fun s i => s.after i.op) s

/-- The scope whose declaration is meant by the name that an instruction uses. -/
def meaning (s : Scopes) : Op → Option (List String)
  | .load name | .store name | .read name | .forInit name => s.resolve name
  | .call name => (s.resolveProcedure name).map List.dropLast
  | _ => none

/-- The innermost scope that declares a name in any way. -/
def innermost (s : Scopes) (name : String) : Option (List String) := (s.stack.find? (·.lists name)).map (·.path)

structure Accepts (s : Scopes) (op : Op) : Prop where
  declares : ∀ name, op.declares = some name → IsWord name ∧ s.inner.lists name = false
  uses : ∀ name, op.uses = some name → ∃ scope, s.meaning op = some scope ∧ s.innermost name = some scope

end Scopes

/-- Code that can be read from these scopes and this level on and uses up all expressions. -/
def Fine : Scopes → Op.Level → List Instr → Prop
  | _, level, [] => level = (0, false)
  | s, level, i :: rest => s.Accepts i.op ∧ ∃ level', i.op.level level = some level' ∧ Fine (s.after i.op) level' rest

variable {outer : List Layer} {l : Layer} {name : String} {op : Op} {level level' : Op.Level} {line : Nat}
  {env : Constants} {rest : List Instr}

namespace Layer

theorem lists_scope (h : latest l.entries name = none) : l.scope.lists name = false := by
  have hnot (k : Bool) : name ∉ names k l.entries := fun hm => latest_of_mem_names hm h
  simp [Scope.lists, scope, hnot]

theorem innermost_scopes {f : Found} (h : lookup (l :: outer) name = some f) :
    (l.scopes outer).innermost name = some f.home.path := by
  refine find_scope _ (fun l e rest he _ => ?_) (fun l => lists_scope) h
  have hmem := mem_names_of_latest he
  cases hk : e.isProcedure <;> simp [Scope.lists, scope, hk ▸ hmem]

end Layer

namespace Scopes.Accepts

theorem other {s : Scopes} (hd : op.declares = none) (hu : op.uses = none) : s.Accepts op :=
  ⟨fun name h => (by rw [hd] at h; cases h), fun name h => (by rw [hu] at h; cases h)⟩

theorem declaring (hd : op.declares = some name) (hu : op.uses = none) (hw : IsWord name)
    (h : ¬ l.declares name) : (l.scopes outer).Accepts op where
  declares n hn := by
    obtain rfl := Option.some.inj (hd.symm.trans hn)
    exact ⟨hw, Layer.lists_scope (Layer.latest_eq_none.mpr h)⟩
  uses n hn := by
    rw [hu] at hn
    cases hn

theorem use (hd : op.declares = none) (hu : op.uses = some name) {f : Found} (hf : lookup (l :: outer) name = some f)
    (hm : (l.scopes outer).meaning op = some f.home.path) : (l.scopes outer).Accepts op where
  declares n hn := by
    rw [hd] at hn
    cases hn
  uses n hn := by
    obtain rfl := Option.some.inj (hu.symm.trans hn)
    exact ⟨_, hm, Layer.innermost_scopes hf⟩

theorem load (h : Readable (l :: outer) name) : (l.scopes outer).Accepts (.load name) := by
  obtain ⟨f, hf, hb⟩ := h
  exact .use rfl rfl hf (Layer.resolve_scopes hf hb)

theorem assign (hop : op = .store name ∨ op = .read name ∨ op = .forInit name) (h : Assignable (l :: outer) name) :
    (l.scopes outer).Accepts op := by
  obtain ⟨f, hf, he⟩ := h
  have hm := Layer.resolve_scopes hf (by rw [he]; rfl)
  rcases hop with rfl | rfl | rfl <;> exact .use rfl rfl hf hm

theorem call (h : Callable (l :: outer) name) : (l.scopes outer).Accepts (.call name) := by
  obtain ⟨f, body, hf, he⟩ := h
  refine .use rfl rfl hf ?_
  simp [meaning, Layer.resolveProcedure_scopes hf (by rw [he]; rfl)]

end Scopes.Accepts

namespace Fine

variable {s : Scopes}

theorem cons (ha : s.Accepts op) (hl : op.level level = some level') (h : Fine (s.after op) level' rest) :
    Fine s level (⟨op, line⟩ :: rest) :=
  ⟨ha, level', hl, h⟩

theorem nameless (hop : op.nameless = true) (hl : op.level level = some level') (h : Fine s level' rest) :
    Fine s level (⟨op, line⟩ :: rest) := by
  have hs : s.after op = s := by cases op <;> first | rfl | cases hop
  refine .cons (.other ?_ ?_) hl (hs.symm ▸ h)
  · cases op <;> first | rfl | cases hop
  · cases op <;> first | rfl | cases hop

end Fine

theorem Decl.fine {d : Decl} (hw : IsWord d.name) (hn : ¬ l.declares d.name)
    (hrest : Fine ((l.add (d.entry (l :: outer))).scopes outer) (0, false) rest) :
    Fine (l.scopes outer) (0, false) (d.codeThen env rest) := by
  cases d with
  | const name init line => exact .cons (.declaring rfl rfl hw hn) rfl hrest
  | var name init line =>
    have ha : (l.scopes outer).Accepts (.declare name) := .declaring rfl rfl hw hn
    cases init with
    | none => exact .cons ha rfl hrest
    | some i =>
      have hassign : Assignable (l.add (.var name) :: outer) name :=
        ⟨_, (lookup_add l (.var name) outer name).trans (if_pos rfl), rfl⟩
      exact .cons ha rfl (.nameless rfl rfl (.cons (.assign (.inl rfl) hassign) rfl hrest))

theorem Expr.fine {n : Nat} {waits : Bool} {e : Expr} (h : e.Scoped (l :: outer))
    (hrest : Fine (l.scopes outer) (n + 1, waits) rest) : Fine (l.scopes outer) (n, waits) (e.codeThen rest) := by
  induction e generalizing n rest with
  | literal value line => exact .nameless rfl rfl hrest
  | ident name line => exact .cons (.load h) rfl hrest
  | binary op left right line ihl ihr => exact ihl h.1 (ihr h.2 (.nameless rfl rfl hrest))

/-- Laid out code whose names are all in sight can be read. -/
theorem Layout.fine {es : List Expr} {ds : List Declared} {code : List Instr} (h : Layout True outer l es ds code) :
    Fine (l.scopes outer) (0, false) code := by
  induction h with
  | nil => rfl
  | @alone _ _ _ _ op _ _ hop hu h ih =>
    cases op with
    | call name => exact .cons (.call (hu trivial)) rfl ih
    | read name => exact .cons (.assign (.inr (.inl rfl)) (hu trivial)) rfl ih
    | elseMark | endIf | endWhile | endFor => exact .nameless rfl rfl ih
    | _ => cases hop
  | @taking _ _ _ _ _ op _ _ hop hu he h ih =>
    refine Expr.fine (he trivial) ?_
    cases op with
    | store name => exact .cons (.assign (.inl rfl) (hu trivial)) rfl ih
    | write | ifMark | elseIf => exact .nameless rfl rfl ih
    | _ => cases hop
  | test he h ih => exact .nameless rfl rfl (Expr.fine (he trivial) (.nameless rfl rfl ih))
  | count hu hs hb h ih =>
    exact Expr.fine (hs trivial) (.cons (.assign (.inr (.inr rfl)) (hu trivial)) rfl
      (Expr.fine (hb trivial) (.nameless rfl rfl ih)))
  | declare hd h ih => exact Decl.fine (hd trivial).1 (hd trivial).2 ih
  | enter hd h ih => exact .cons (.declaring rfl rfl (hd trivial).1 (hd trivial).2) rfl ih
  | leave h ih => exact .cons (.other rfl rfl) rfl ih

theorem Program.fine {p : Program} (h : p.Scoped) : Fine .initial (0, false) p.code :=
  (Block.layoutAll (S := True) p.blocks fun _ => h).fine

/-- A name where it is declared or used: the path of the scope around it, and the name. -/
abbrev Site := List String × String

/-- The innermost scope around a place that declares a name, if every declaration is in sight in its whole scope. -/
def scopeOf (declared : List Site) (place : List String) (name : String) : Option (List String) :=
  place.inits.reverse.find? fun scope => (scope, name) ∈ declared

/-- The names that `pick` takes from code, each with the path of its scope. -/
def codeSites (pick : Op → Option String) : Scopes → List Instr → List Site
  | _, [] => []
  | s, i :: rest => (pick i.op).toList.map (s.path, ·) ++ codeSites pick (s.after i.op) rest

theorem inits_reverse_concat (path : List String) (name : String) :
    (path ++ [name]).inits.reverse = (path ++ [name]) :: path.inits.reverse := by
  simp [List.inits_append]

theorem inits_reverse_eq_cons (path : List String) : path.inits.reverse = path :: path.inits.reverse.tail := by
  rcases List.eq_nil_or_concat path with rfl | ⟨path, name, rfl⟩
  · rfl
  · rw [List.concat_eq_append, inits_reverse_concat, List.tail_cons]

theorem scopeOf_nil (declared : List Site) (name : String) :
    scopeOf declared [] name = if ([], name) ∈ declared then some [] else none := by
  simp [scopeOf, List.inits]

theorem scopeOf_concat (declared : List Site) (place : List String) (n name : String) :
    scopeOf declared (place ++ [n]) name =
      if (place ++ [n], name) ∈ declared then some (place ++ [n]) else scopeOf declared place name := by
  rw [scopeOf, inits_reverse_concat, List.find?_cons]
  split <;> simp_all [scopeOf]

theorem scopeOf_congr {declared' : List Site}
    (h : ∀ scope, (scope, name) ∈ declared ↔ (scope, name) ∈ declared') (place : List String) :
    scopeOf declared place name = scopeOf declared' place name := by
  simp only [scopeOf, h]

theorem scopeOf_eq_some {place scope : List String} :
    scopeOf declared place name = some scope ↔ scope <+: place ∧ (scope, name) ∈ declared ∧
      ∀ inner, inner <+: place → scope.length < inner.length → (inner, name) ∉ declared := by
  induction place using List.reverseRecOn with
  | nil =>
    rw [scopeOf_nil]
    constructor
    · intro h
      split at h
      · next hmem =>
        cases h
        exact ⟨List.prefix_rfl, hmem, fun inner hi hlt => absurd hi.length_le (by omega)⟩
      · cases h
    · rintro ⟨hscope, hmem, -⟩
      obtain rfl := List.prefix_nil.mp hscope
      exact if_pos hmem
  | append_singleton place n ih =>
    rw [scopeOf_concat]
    split
    · next hmem =>
      constructor
      · rintro ⟨⟩
        exact ⟨List.prefix_rfl, hmem, fun inner hi hlt => absurd hi.length_le (by omega)⟩
      · rintro ⟨hscope, -, hnone⟩
        rcases List.prefix_concat_iff.mp hscope with rfl | hscope
        · rfl
        · have hle := hscope.length_le
          exact absurd hmem (hnone _ List.prefix_rfl (by simp; omega))
    · next hmem =>
      rw [ih]
      constructor
      · rintro ⟨hscope, hdecl, hnone⟩
        refine ⟨hscope.trans (List.prefix_append _ _), hdecl, fun inner hi hlt => ?_⟩
        rcases List.prefix_concat_iff.mp hi with rfl | hi
        · exact hmem
        · exact hnone inner hi hlt
      · rintro ⟨hscope, hdecl, hnone⟩
        rcases List.prefix_concat_iff.mp hscope with rfl | hscope
        · exact absurd hdecl hmem
        · exact ⟨hscope, hdecl, fun inner hi => hnone inner (hi.trans (List.prefix_append _ _))⟩

/-- Later declarations change what a name means if one of them is further inside. -/
theorem scopeOf_append {later : List Site} {place scope : List String}
    (h : scopeOf declared place name = some scope) :
    scopeOf (declared ++ later) place name = some scope ↔
      ∀ inner, inner <+: place → scope.length < inner.length → (inner, name) ∉ later := by
  obtain ⟨hscope, hdecl, hnone⟩ := scopeOf_eq_some.mp h
  rw [scopeOf_eq_some]
  constructor
  · rintro ⟨-, -, hall⟩ inner hi hlt hmem
    exact hall inner hi hlt (List.mem_append_right _ hmem)
  · intro hlater
    refine ⟨hscope, List.mem_append_left _ hdecl, fun inner hi hlt hmem => ?_⟩
    rcases List.mem_append.mp hmem with hmem | hmem
    · exact hnone inner hi hlt hmem
    · exact hlater inner hi hlt hmem

theorem codeSites_append (pick : Op → Option String) (s : Scopes) (code code' : List Instr) :
    codeSites pick s (code ++ code') = codeSites pick s code ++ codeSites pick (s.afterAll code) code' := by
  induction code generalizing s with
  | nil => rfl
  | cons i code ih => rw [List.cons_append, codeSites, ih, codeSites, List.append_assoc]; rfl

/-- The scopes list what was declared in them, nothing was declared twice, and a scope that declares anything is
that of a declared procedure. -/
structure Records (s : Scopes) (declared : List Site) : Prop where
  paths : s.stack.map (·.path) = s.path.inits.reverse
  lists : ∀ c ∈ s.stack, ∀ name, c.lists name = true ↔ (c.path, name) ∈ declared
  around : ∀ c ∈ s.stack, ∀ scope name, c.path = scope ++ [name] → (scope, name) ∈ declared
  closed : ∀ scope name inner, (scope ++ [name], inner) ∈ declared → (scope, name) ∈ declared
  nodup : declared.Nodup
  words : ∀ d ∈ declared, IsWord d.2

namespace Records

variable {s : Scopes}

theorem initial : Records .initial [] :=
  ⟨rfl, by simp [Scopes.initial, Scopes.stack, Scope.lists], by simp [Scopes.initial, Scopes.stack], by simp,
    .nil, by simp⟩

/-- The scopes around the innermost one are those of the path without its last part. -/
theorem outer_paths (h : Records s declared) : s.outer.map (·.path) = s.path.inits.reverse.tail := by
  rw [← h.paths]
  rfl

theorem outer_shorter (h : Records s declared) {c : Scope} (hc : c ∈ s.outer) : c.path.length < s.path.length := by
  have hmem : c.path ∈ s.path.inits.reverse.tail := h.outer_paths ▸ List.mem_map_of_mem hc
  rcases List.eq_nil_or_concat s.path with hp | ⟨path, name, hp⟩
  · simp [hp] at hmem
  · rw [List.concat_eq_append] at hp
    rw [hp, inits_reverse_concat, List.tail_cons, List.mem_reverse, List.mem_inits] at hmem
    have := hmem.length_le
    simp only [hp, List.length_append, List.length_singleton]
    omega

theorem add {inner : Scope} (h : Records s declared) (hpath : inner.path = s.path)
    (hlists : ∀ n, inner.lists n = true ↔ n = name ∨ s.inner.lists n = true) (hw : IsWord name)
    (hnew : s.inner.lists name = false) : Records ⟨inner, s.outer⟩ (declared ++ [(s.path, name)]) where
  paths := by
    have := h.paths
    simp only [Scopes.stack, Scopes.path, List.map_cons] at this ⊢
    rw [hpath]
    exact this
  lists c hc n := by
    rcases List.mem_cons.mp hc with rfl | hc
    · have := h.lists s.inner List.mem_cons_self n
      simp only [hlists, hpath, List.mem_append, List.mem_singleton, Prod.mk.injEq, true_and]
      rw [this]
      exact or_comm
    · have hne : c.path ≠ s.path := fun heq => (h.outer_shorter hc).ne (congrArg List.length heq)
      simpa [hne] using h.lists c (List.mem_cons_of_mem _ hc) n
  around c hc scope n heq := by
    refine List.mem_append_left _ ?_
    rcases List.mem_cons.mp hc with rfl | hc
    · exact h.around s.inner List.mem_cons_self scope n (hpath.symm.trans heq)
    · exact h.around c (List.mem_cons_of_mem _ hc) scope n heq
  closed scope n x hx := by
    refine List.mem_append_left _ ?_
    rcases List.mem_append.mp hx with hx | hx
    · exact h.closed scope n x hx
    · obtain ⟨heq, -⟩ := Prod.mk.inj (List.mem_singleton.mp hx)
      exact h.around s.inner List.mem_cons_self scope n heq.symm
  nodup := by
    refine List.nodup_append.mpr ⟨h.nodup, List.nodup_singleton _, ?_⟩
    rintro d hd _ hd' rfl
    obtain rfl := List.mem_singleton.mp hd'
    rw [(h.lists s.inner List.mem_cons_self name).mpr hd] at hnew
    cases hnew
  words d hd := by
    rcases List.mem_append.mp hd with hd | hd
    · exact h.words d hd
    · rw [List.mem_singleton.mp hd]
      exact hw

theorem declare (h : Records s declared) (hw : IsWord name) (hnew : s.inner.lists name = false) :
    Records (s.declare name) (declared ++ [(s.path, name)]) :=
  h.add rfl (fun n => by simp [Scope.lists, or_assoc]) hw hnew

theorem push (h : Records s declared) (hmem : (s.path, name) ∈ declared)
    (hempty : ∀ n, (s.path ++ [name], n) ∉ declared) :
    Records ⟨⟨s.path ++ [name], [], []⟩, s.stack⟩ declared where
  paths := by
    have := h.paths
    simp only [Scopes.stack, Scopes.path, List.map_cons] at this ⊢
    rw [inits_reverse_concat, this]
  lists c hc n := by
    rcases List.mem_cons.mp hc with rfl | hc
    · simp [Scope.lists, hempty]
    · exact h.lists c hc n
  around c hc scope n heq := by
    rcases List.mem_cons.mp hc with rfl | hc
    · obtain ⟨rfl, hn⟩ := List.append_inj' heq rfl
      rwa [← List.singleton_inj.mp hn]
    · exact h.around c hc scope n heq
  closed := h.closed
  nodup := h.nodup
  words := h.words

theorem enter (h : Records s declared) (hw : IsWord name) (hnew : s.inner.lists name = false) :
    Records (s.enter name) (declared ++ [(s.path, name)]) := by
  have hadd : Records ⟨{ s.inner with procedures := s.inner.procedures.insert name }, s.outer⟩
      (declared ++ [(s.path, name)]) :=
    h.add rfl (fun n => by simp [Scope.lists, or_left_comm]) hw hnew
  refine hadd.push (by simp [Scopes.path]) fun n hn => ?_
  rcases List.mem_append.mp hn with hn | hn
  · have := (h.lists s.inner List.mem_cons_self name).mpr (h.closed _ _ _ hn)
    rw [hnew] at this
    cases this
  · simpa [Scopes.path] using congrArg (·.1.length) (List.mem_singleton.mp hn)

theorem outer_eq_cons {path : List String} (h : Records s declared) (hp : s.path = path ++ [name]) :
    ∃ c rest, s.outer = c :: rest ∧ c.path = path := by
  have hpaths := h.outer_paths
  rw [hp, inits_reverse_concat, List.tail_cons, inits_reverse_eq_cons] at hpaths
  obtain ⟨c, rest, houter, hc, -⟩ := List.map_eq_cons_iff.mp hpaths
  exact ⟨c, rest, houter, hc⟩

theorem leave_path {path : List String} (h : Records s declared) (hp : s.path = path ++ [name]) :
    s.leave.path = path := by
  obtain ⟨c, rest, houter, hc⟩ := h.outer_eq_cons hp
  simp only [Scopes.leave, houter]
  exact hc

theorem leave (h : Records s declared) : Records s.leave declared := by
  rcases List.eq_nil_or_concat s.path with hp | ⟨path, name, hp⟩
  · have houter : s.outer = [] := by simpa [hp, List.inits] using h.outer_paths
    simpa only [Scopes.leave, houter] using h
  · rw [List.concat_eq_append] at hp
    have hpaths := h.outer_paths
    obtain ⟨c, rest, houter, hc⟩ := h.outer_eq_cons hp
    have hstack : s.leave.stack = s.outer := by simp only [Scopes.leave, houter, Scopes.stack]
    refine ⟨?_, fun d hd => h.lists d (List.mem_cons_of_mem _ (hstack ▸ hd)),
      fun d hd => h.around d (List.mem_cons_of_mem _ (hstack ▸ hd)), h.closed, h.nodup, h.words⟩
    rw [hstack, h.leave_path hp, hpaths, hp, inits_reverse_concat, List.tail_cons]

theorem after (h : Records s declared) (ha : s.Accepts op) :
    Records (s.after op) (declared ++ op.declares.toList.map (s.path, ·)) := by
  cases op with
  | declare name | const name _ => exact h.declare (ha.declares name rfl).1 (ha.declares name rfl).2
  | procedureStart name => exact h.enter (ha.declares name rfl).1 (ha.declares name rfl).2
  | procedureEnd name => exact (List.append_nil declared).symm ▸ h.leave
  | _ => exact (List.append_nil declared).symm ▸ h

theorem scope_words (h : Records s declared) {scope : List String} (hd : (scope, name) ∈ declared) :
    ∀ n ∈ scope, IsWord n := by
  induction scope using List.reverseRecOn generalizing name with
  | nil => simp
  | append_singleton scope n ih =>
    have hmem := h.closed scope n name hd
    intro m hm
    rcases List.mem_append.mp hm with hm | hm
    · exact ih hmem m hm
    · rw [List.mem_singleton.mp hm]
      exact h.words _ hmem

theorem innermost (h : Records s declared) (name : String) : s.innermost name = scopeOf declared s.path name := by
  rw [scopeOf, ← h.paths, List.find?_map, Scopes.innermost]
  refine congrArg _ (List.find?_congr fun c hc => ?_)
  rw [Bool.eq_iff_iff, h.lists c hc]
  simp

end Records

/-- Inside code that can be read, the scopes list what was declared before, and the rest can be read. -/
theorem Fine.split {s : Scopes} {code : List Instr} (h : Fine s level (code ++ rest))
    (hs : Records s declared) :
    Records (s.afterAll code) (declared ++ codeSites Op.declares s code) ∧
      ∃ level', Fine (s.afterAll code) level' rest := by
  induction code generalizing s level declared with
  | nil => exact ⟨(List.append_nil declared).symm ▸ hs, level, h⟩
  | cons i code ih =>
    obtain ⟨ha, level', -, h⟩ := h
    obtain ⟨hrec, hrest⟩ := ih h (hs.after ha)
    rw [List.append_assoc] at hrec
    exact ⟨hrec, hrest⟩

theorem Fine.records {code : List Instr} (h : Fine .initial level code) :
    Records (Scopes.initial.afterAll code) (codeSites Op.declares .initial code) := by
  rw [← List.append_nil code] at h
  exact (h.split .initial).1

/-- A name is used for the declaration that is the innermost one so far. -/
theorem Fine.meaning {s : Scopes} {i : Instr} (h : Fine s level (i :: rest))
    (hs : Records s declared) (hu : i.op.uses = some name) :
    ∃ scope, s.meaning i.op = some scope ∧ scopeOf declared s.path name = some scope := by
  obtain ⟨scope, hm, hin⟩ := h.1.uses name hu
  exact ⟨scope, hm, hs.innermost name ▸ hin⟩

end PLZero
