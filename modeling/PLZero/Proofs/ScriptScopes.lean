import PLZero.Proofs.Accepted
import PLZero.Proofs.CodeScopes
import PLZero.Proofs.Constructs
import Mathlib.Algebra.Order.Group.Multiset

/-! What the names in a script refer to. A script declares and mentions the names that its code declares and uses,
in the functions of the procedures around them. But a declaration is in sight in the whole function that holds it:
a use of an outer name that stands before a nested declaration of the same name refers to the nested one. -/

namespace PLZero

def Folded.names : Folded → List String
  | .const _ => []
  | .name n => [n]
  | .binary _ left right => left.names ++ right.names

namespace Script

def Statement.declares : Statement → List String
  | .letVar name | .constant name _ => [name]
  | _ => []

/-- The names that a statement mentions, other than the host's functions; the counter of a loop is listed once. -/
def Statement.mentions : Statement → List String
  | .assign name value => name :: value.names
  | .call name | .read name => [name]
  | .write value | .openIf value | .elseIf value | .openWhile value => value.names
  | .openFor counter start bound => counter :: (start.names ++ bound.names)
  | .letVar _ | .constant _ _ | .openElse | .close => []

/-- What is looked for in a script: in the heads of its functions, and in its statements. -/
structure Query where
  ofFunction : String → List String
  ofStatement : Statement → List String

namespace Query

def declarations : Query := ⟨fun name => [name], Statement.declares⟩

def mentions : Query := ⟨fun _ => [], Statement.mentions⟩

/-- What is found in statements at a place, a path of functions. -/
def sites (q : Query) (place : List String) (statements : List Statement) : List Site :=
  (statements.flatMap q.ofStatement).map (place, ·)

theorem sites_append (q : Query) (place : List String) (ss ss' : List Statement) :
    q.sites place (ss ++ ss') = q.sites place ss ++ q.sites place ss' := by
  simp [sites]

end Query

mutual

def Function.sites (q : Query) (scope : List String) : Function → List Site
  | ⟨name, _, nested, body⟩ =>
    (q.ofFunction name).map (scope, ·) ++ q.sites (scope ++ [name]) (body.map (·.statement)) ++
      Function.sitesAll q (scope ++ [name]) nested

def Function.sitesAll (q : Query) (scope : List String) : List Function → List Site
  | [] => []
  | f :: fs => f.sites q scope ++ Function.sitesAll q scope fs

end

theorem Function.sitesAll_append (q : Query) (scope : List String) (fs fs' : List Function) :
    Function.sitesAll q scope (fs ++ fs') = Function.sitesAll q scope fs ++ Function.sitesAll q scope fs' := by
  induction fs with
  | nil => rfl
  | cons f fs ih => rw [List.cons_append, Function.sitesAll, ih, Function.sitesAll, List.append_assoc]

def sites (q : Query) (s : Script) : List Site :=
  q.sites [] (s.globals.map (·.statement)) ++ Function.sitesAll q [] (s.functions ++ [s.entry])

/-- The declarations of a script, each with the functions around it. -/
def declared (s : Script) : List Site := s.sites .declarations

/-- The names mentioned in a script, each with the functions around it. -/
def mentioned (s : Script) : List Site := s.sites .mentions

/-- Names that mean something else in a script. -/
def taken : List String := reserved ++ [Hook.read.name, Hook.write.name, entryName]

theorem nameOf_eq (name : String) : nameOf name = if name ∈ taken then name ++ "_" else name := by
  simp only [nameOf, taken, Bool.or_eq_true, decide_eq_true_eq, List.mem_append]

theorem underscore_notMem_taken : ∀ name ∈ taken, '_' ∉ name.toList := by decide +kernel

theorem underscore_notMem {name : String} (h : IsWord name) : '_' ∉ name.toList := by
  intro hmem
  have := h.isAlphanum hmem
  revert this
  decide

theorem nameOf_notMem_taken (name : String) : nameOf name ∉ taken := by
  rw [nameOf_eq]
  split
  · intro h
    exact underscore_notMem_taken _ h (by simp)
  · next h => exact h

theorem nameOf_ne_entryName (name : String) : nameOf name ≠ entryName := by
  intro heq
  exact nameOf_notMem_taken name (heq ▸ by decide +kernel)

theorem nameOf_inj {name name' : String} (h : IsWord name) (h' : IsWord name') (heq : nameOf name = nameOf name') :
    name = name' := by
  rw [nameOf_eq, nameOf_eq] at heq
  split at heq <;> split at heq
  · exact String.append_left_inj "_" |>.mp heq
  · exact absurd (heq ▸ by simp) (underscore_notMem h')
  · exact absurd (heq ▸ by simp) (underscore_notMem h)
  · exact heq

end Script

/-- The place in a script of the code of a scope: the statements of the program itself are in a function too. -/
def placeOf (path : List String) : List String := if path = [] then [Script.entryName] else path.map Script.nameOf

namespace Site

def scripted (d : Site) : Site := (d.1.map Script.nameOf, Script.nameOf d.2)

def placed (u : Site) : Site := (placeOf u.1, Script.nameOf u.2)

end Site

theorem map_nameOf_inj {path path' : List String} (h : ∀ n ∈ path, IsWord n) (h' : ∀ n ∈ path', IsWord n)
    (heq : path.map Script.nameOf = path'.map Script.nameOf) : path = path' := by
  induction path generalizing path' with
  | nil => exact (List.map_eq_nil_iff.mp heq.symm).symm
  | cons n path ih =>
    cases path' with
    | nil => cases heq
    | cons n' path' =>
      obtain ⟨hn, hpath⟩ := List.cons.inj heq
      rw [Script.nameOf_inj (h n (by simp)) (h' n' (by simp)) hn,
        ih (fun m hm => h m (by simp [hm])) (fun m hm => h' m (by simp [hm])) hpath]

theorem scopeOf_map_nameOf {declared : List Site} {path scope : List String} {name : String}
    (hp : ∀ n ∈ path, IsWord n) (hscope : scope <+: path) :
    (scopeOf declared path name).map (List.map Script.nameOf) = some (scope.map Script.nameOf) ↔
      scopeOf declared path name = some scope := by
  constructor
  · intro h
    obtain ⟨scope', h', heq⟩ := Option.map_eq_some_iff.mp h
    have hscope' := (scopeOf_eq_some.mp h').1
    rw [h', map_nameOf_inj (fun n hn => hp n (hscope'.mem hn)) (fun n hn => hp n (hscope.mem hn)) heq]
  · intro h
    rw [h, Option.map_some]

namespace Records

variable {s : Scopes} {declared : List Site} {name : String}

theorem path_words (h : Records s declared) : ∀ n ∈ s.path, IsWord n := by
  rcases List.eq_nil_or_concat s.path with hp | ⟨path, name, hp⟩
  · simp [hp]
  · rw [List.concat_eq_append] at hp
    have hmem := h.around s.inner List.mem_cons_self path name hp
    intro n hn
    rw [hp] at hn
    rcases List.mem_append.mp hn with hn | hn
    · exact h.scope_words hmem n hn
    · rw [List.mem_singleton.mp hn]
      exact h.words _ hmem

theorem outer_length (h : Records s declared) : s.outer.length = s.path.length := by
  simpa using congrArg List.length h.outer_paths

theorem inProcedure (h : Records s declared) : s.inProcedure = true ↔ s.path ≠ [] := by
  have hlength := h.outer_length
  rw [Scopes.inProcedure, Bool.not_eq_true', List.isEmpty_eq_false_iff, ← List.length_pos_iff, ← List.length_pos_iff,
    hlength]

/-- A declaration of a script is known from the declaration of the program. -/
theorem nodup_scripted (h : Records s declared) : (([], Script.entryName) :: declared.map Site.scripted).Nodup := by
  refine List.nodup_cons.mpr ⟨fun hmem => ?_, h.nodup.map_on fun d hd d' hd' heq => ?_⟩
  · obtain ⟨d, -, heq⟩ := List.mem_map.mp hmem
    exact Script.nameOf_ne_entryName d.2 (Prod.mk.inj heq).2
  · obtain ⟨hscope, hname⟩ := Prod.mk.inj heq
    exact Prod.ext (map_nameOf_inj (h.scope_words hd) (h.scope_words hd') hscope)
      (Script.nameOf_inj (h.words _ hd) (h.words _ hd') hname)

theorem mem_scripted (h : Records s declared) {scope : List String} (hs : ∀ n ∈ scope, IsWord n)
    (hn : IsWord name) : Site.scripted (scope, name) ∈ declared.map Site.scripted ↔ (scope, name) ∈ declared := by
  constructor
  · intro hmem
    obtain ⟨⟨scope', name'⟩, hd, heq⟩ := List.mem_map.mp hmem
    obtain ⟨hscope, hname⟩ := Prod.mk.inj heq
    rw [← map_nameOf_inj (h.scope_words hd) hs hscope, ← Script.nameOf_inj (h.words _ hd) hn hname]
    exact hd
  · exact List.mem_map_of_mem

/-- The entry function declares nothing. -/
theorem entry_notMem_scripted (declared : List Site) (name : String) :
    ([Script.entryName], name) ∉ declared.map Site.scripted := by
  intro hmem
  obtain ⟨⟨scope, _⟩, -, heq⟩ := List.mem_map.mp hmem
  obtain ⟨n, rfl, hn⟩ := List.map_eq_singleton_iff.mp (Prod.mk.inj heq).1
  exact Script.nameOf_ne_entryName n hn

theorem scopeOf_scripted (h : Records s declared) {path : List String}
    (hp : ∀ n ∈ path, IsWord n) (hn : IsWord name) :
    scopeOf (declared.map Site.scripted) (path.map Script.nameOf) (Script.nameOf name) =
      (scopeOf declared path name).map (List.map Script.nameOf) := by
  induction path using List.reverseRecOn with
  | nil =>
    have hmem := h.mem_scripted (List.forall_mem_nil _) hn
    simp only [Site.scripted, List.map_nil] at hmem
    rw [List.map_nil, scopeOf_nil, scopeOf_nil]
    by_cases hd : ([], name) ∈ declared
    · simp [hmem.mpr hd, hd]
    · simp [mt hmem.mp hd, hd]
  | append_singleton path n ih =>
    have hmem := h.mem_scripted hp hn
    simp only [Site.scripted, List.map_append, List.map_singleton] at hmem
    rw [List.map_append, List.map_singleton, scopeOf_concat, scopeOf_concat, ih fun m hm => hp m (by simp [hm])]
    by_cases hd : (path ++ [n], name) ∈ declared
    · simp [hmem.mpr hd, hd]
    · simp [mt hmem.mp hd, hd]

/-- What a name in a script refers to is the innermost declaration around it in the code. -/
theorem scopeOf_script (h : Records s declared) {script : List Site}
    (hscript : script.Perm (([], Script.entryName) :: declared.map Site.scripted)) {path : List String}
    (hp : ∀ n ∈ path, IsWord n) (hn : IsWord name) :
    scopeOf script (placeOf path) (Script.nameOf name) = (scopeOf declared path name).map (List.map Script.nameOf) := by
  have hmem (scope : List String) :
      (scope, Script.nameOf name) ∈ script ↔ (scope, Script.nameOf name) ∈ declared.map Site.scripted := by
    rw [hscript.mem_iff, List.mem_cons]
    simp [Script.nameOf_ne_entryName]
  rw [scopeOf_congr hmem, ← h.scopeOf_scripted hp hn, placeOf]
  split
  · next hnil =>
    rw [hnil, List.map_nil]
    exact (scopeOf_concat _ [] _ _).trans (if_neg (entry_notMem_scripted declared _))
  · rfl

end Records

namespace Script

/-- The names that a frame keeps for the bound of its loop. -/
def Frame.names : Frame → List String
  | .forLoop counter start => counter :: start.names
  | _ => []

namespace Emitter

/-- The functions around the one that is written, the innermost first. -/
def around (e : Emitter) : List Draft := e.markers.filterMap (·.frame.procedure?)

/-- The scope in which drafts declare, the innermost of them first: the last one is the entry function, which is
no scope of the source. -/
def scope (drafts : List Draft) : List String := (drafts.dropLast.map (·.name)).reverse

def openSites (q : Query) : List Draft → List Site
  | [] => []
  | d :: rest => d.function.sites q (scope rest) ++ openSites q rest

def sites (q : Query) (e : Emitter) : List Site :=
  q.sites [] (e.globals.toList.map (·.statement)) ++ Function.sitesAll q [] e.functions.toList ++
    openSites q (e.current :: e.around)

/-- The names that a counting loop keeps for its bound. -/
def waiting (e : Emitter) (waits : Bool) : List String :=
  if waits then (e.markers.head?.map (·.frame.names)).getD [] else []

/-- The names in expressions that no statement has used yet. -/
def pending (e : Emitter) (waits : Bool) : List String :=
  e.waiting waits ++ e.current.stack.flatMap Folded.names

/-- What the emitter has written declares and mentions what the code so far declares and uses. -/
structure Reads (e : Emitter) (s : Scopes) (level : Op.Level) (declared used : List Site) : Prop where
  scopes : e.scopes = s
  names : (e.current :: e.around).map (·.name) = (s.path.map nameOf).reverse ++ [entryName]
  idle : ∀ d ∈ e.around, d.stack = []
  stack : e.current.stack.length = level.1
  declared : (e.sites .declarations : Multiset Site) = ↑(([], entryName) :: declared.map Site.scripted)
  mentioned : (e.sites .mentions : Multiset Site) + ((e.pending level.2).map (placeOf s.path, ·) : List Site) =
    ↑(used.map Site.placed)

variable {e e' e'' : Emitter} {s : Scopes} {level level' : Op.Level} {declared used : List Site} {op : Op}
  {i : Instr} {name : String}

theorem scope_of_names {drafts : List Draft} {path : List String}
    (h : drafts.map (·.name) = (path.map nameOf).reverse ++ [entryName]) : scope drafts = path.map nameOf := by
  rw [scope, List.map_dropLast, h, List.dropLast_concat, List.reverse_reverse]

theorem place_of_names {d : Draft} {rest : List Draft} {path : List String}
    (h : (d :: rest).map (·.name) = (path.map nameOf).reverse ++ [entryName]) :
    scope rest ++ [d.name] = placeOf path := by
  rw [scope, List.map_dropLast, placeOf]
  rcases List.eq_nil_or_concat path with rfl | ⟨path, name, rfl⟩
  · simp_all
  · simp_all

/-- Only the current function has changed: it got more statements. -/
structure Continues (e e' : Emitter) (added : List Statement) : Prop where
  scopes : e'.scopes = e.scopes
  globals : e'.globals = e.globals
  functions : e'.functions = e.functions
  around : e'.around = e.around
  name : e'.current.name = e.current.name
  nested : e'.current.nested = e.current.nested
  body : e'.current.body.toList.map (·.statement) = e.current.body.toList.map (·.statement) ++ added

namespace Continues

variable {added added' : List Statement}

theorem trans (h : e.Continues e' added) (h' : e'.Continues e'' added') : e.Continues e'' (added ++ added') :=
  ⟨h'.scopes.trans h.scopes, h'.globals.trans h.globals, h'.functions.trans h.functions,
    h'.around.trans h.around, h'.name.trans h.name, h'.nested.trans h.nested,
    by rw [h'.body, h.body, List.append_assoc]⟩

theorem stack (e : Emitter) (stack : List Folded) : e.Continues { e with current := { e.current with stack } } [] :=
  ⟨rfl, rfl, rfl, rfl, rfl, rfl, by simp⟩

theorem markers (e : Emitter) {markers : Markers Frame}
    (h : markers.filterMap (·.frame.procedure?) = e.around) : e.Continues { e with markers } [] :=
  ⟨rfl, rfl, rfl, h, rfl, rfl, by simp⟩

theorem add (e : Emitter) (st : Statement) (line : Nat) : e.Continues (e.add st line) [st] :=
  ⟨rfl, rfl, rfl, rfl, rfl, rfl, by simp [Emitter.add, Draft.add]⟩

theorem addOpen (e : Emitter) (st : Statement) (line : Nat) : e.Continues (e.addOpen st line) [st] :=
  ⟨rfl, rfl, rfl, rfl, rfl, rfl, by simp [Emitter.addOpen, Draft.add, Draft.deeper]⟩

theorem close (e : Emitter) : e.Continues e.close [.close] :=
  ⟨rfl, rfl, rfl, rfl, rfl, rfl, by simp [Emitter.close, Draft.close, Draft.add, Draft.shallower]⟩

theorem sites (h : e.Continues e' added) (q : Query) :
    (e'.sites q : Multiset Site) = ↑(e.sites q) + ↑(q.sites (scope e.around ++ [e.current.name]) added) := by
  simp only [Emitter.sites, openSites, h.globals, h.functions, h.around, Draft.function, Function.sites, h.name,
    h.nested, h.body, Query.sites_append, ← Multiset.coe_add]
  ac_rfl

end Continues

theorem of_pop {r : Folded × Emitter} (h : e.pop i = .ok r) :
    ∃ stack, e.current.stack = r.1 :: stack ∧ r.2 = { e with current := { e.current with stack } } := by
  unfold pop at h
  split at h
  · next value stack hs =>
    cases h
    exact ⟨stack, hs, rfl⟩
  · cases h

theorem of_binding {id : String} (h : e.binding name i = .ok id) : id = nameOf name := by
  obtain ⟨_, -, h⟩ := ok_of_bind h
  exact (Except.ok.inj h).symm

theorem around_of_pop {β : Type} {select : Frame → Option β} {r : β × Markers Frame}
    (hr : e.markers.pop i select = .ok r) (hselect : ∀ f b, select f = some b → f.procedure? = none) :
    r.2.filterMap (·.frame.procedure?) = e.around := by
  obtain ⟨o, hm, ho⟩ := Markers.of_pop hr
  simp [around, hm, hselect _ _ ho]

theorem around_replace {b hasElse : Bool} (htop : e.markers.top i Frame.branch? = .ok b) :
    (e.markers.replace (.branch hasElse)).filterMap (·.frame.procedure?) = e.around := by
  obtain ⟨o, rest, hm, ho⟩ := Markers.of_top htop
  cases hf : o.frame <;> simp_all [Frame.branch?, Markers.replace, around, Frame.procedure?]

namespace Reads

/-- An instruction that neither declares a name nor changes the scopes. -/
theorem continued {added : List Statement} (h : e.Reads s level declared used) (hc : e.Continues e' added)
    (hop : op.declares = none) (hafter : s.after op = s) (hadded : added.flatMap Statement.declares = [])
    (hstack : e'.current.stack.length = level'.1)
    (hnames : (added.flatMap Statement.mentions ++ e'.pending level'.2).Perm
      (e.pending level.2 ++ op.uses.toList.map nameOf)) :
    e'.Reads (s.after op) level' (declared ++ op.declares.toList.map (s.path, ·))
      (used ++ op.uses.toList.map (s.path, ·)) where
  scopes := by rw [hc.scopes, h.scopes, hafter]
  names := by rw [List.map_cons, hc.name, hc.around, hafter, ← List.map_cons, h.names]
  idle := hc.around ▸ h.idle
  stack := hstack
  declared := by
    rw [hc.sites, h.declared, hop]
    simp [Query.sites, Query.declarations, hadded]
  mentioned := by
    have hmap := Multiset.coe_eq_coe.mpr (hnames.map (placeOf s.path, ·))
    have hadd : Query.mentions.sites (placeOf s.path) added =
      (added.flatMap Statement.mentions).map (placeOf s.path, ·) := rfl
    have hplaced : (op.uses.toList.map (s.path, ·)).map Site.placed =
        (op.uses.toList.map nameOf).map (placeOf s.path, ·) := by
      simp [Function.comp_def, Site.placed]
    simp only [List.map_append, ← Multiset.coe_add] at hmap
    rw [hafter, hc.sites, place_of_names h.names, hadd, add_assoc, hmap, ← add_assoc, h.mentioned, List.map_append,
      hplaced, Multiset.coe_add]

theorem stacked {stack : List Folded} (h : e.Reads s level declared used) (hop : op.declares = none)
    (hafter : s.after op = s) (hlevel : level' = (stack.length, level.2))
    (hnames : (stack.flatMap Folded.names).Perm
      (e.current.stack.flatMap Folded.names ++ op.uses.toList.map nameOf)) :
    Reads { e with current := { e.current with stack } } (s.after op) level'
      (declared ++ op.declares.toList.map (s.path, ·)) (used ++ op.uses.toList.map (s.path, ·)) := by
  subst hlevel
  refine h.continued (.stack e stack) hop hafter rfl rfl ?_
  rw [pending, pending, List.append_assoc]
  exact hnames.append_left _

theorem used_up {waits : Bool} {r : Folded × Emitter} (st : Statement) (h : e.Reads s (1, waits) declared used)
    (hr : e.pop i = .ok r) (hc : r.2.Continues e' [st]) (hstack : e'.current.stack = r.2.current.stack)
    (hop : op.declares = none) (hafter : s.after op = s) (hst : st.declares = [])
    (hnames : st.mentions.Perm (e.waiting waits ++ r.1.names ++ op.uses.toList.map nameOf)) :
    e'.Reads (s.after op) (0, false) (declared ++ op.declares.toList.map (s.path, ·))
      (used ++ op.uses.toList.map (s.path, ·)) := by
  obtain ⟨stack, hpop, heq⟩ := of_pop hr
  obtain rfl : stack = [] := by simpa [hpop] using h.stack
  have hpopped : e.Continues r.2 [] := heq ▸ .stack e []
  have hempty : e'.current.stack = [] := by rw [hstack, heq]
  exact h.continued (hpopped.trans hc) hop hafter (by simp [hst]) (by simp [hempty])
    (by simpa [pending, hpop, hempty, waiting] using hnames)

theorem stated (st : Statement) (h : e.Reads s (0, false) declared used) (hc : e.Continues e' [st])
    (hstack : e'.current.stack = e.current.stack) (hop : op.declares = none) (hafter : s.after op = s)
    (hst : st.declares = []) (hnames : st.mentions = op.uses.toList.map nameOf) :
    e'.Reads (s.after op) (0, false) (declared ++ op.declares.toList.map (s.path, ·))
      (used ++ op.uses.toList.map (s.path, ·)) := by
  have hempty := List.length_eq_zero_iff.mp h.stack
  exact h.continued hc hop hafter (by simp [hst]) (by simp [hstack, hempty])
    (by simp [pending, waiting, hstack, hempty, hnames])

theorem closed {β : Type} {select : Frame → Option β} {r : β × Markers Frame} (h : e.Reads s (0, false) declared used)
    (hr : e.markers.pop i select = .ok r) (hselect : ∀ f b, select f = some b → f.procedure? = none)
    (hop : op.declares = none) (hafter : s.after op = s) (huses : op.uses = none) :
    Reads { e.close with markers := r.2 } (s.after op) (0, false) (declared ++ op.declares.toList.map (s.path, ·))
      (used ++ op.uses.toList.map (s.path, ·)) := by
  have haround : r.2.filterMap (·.frame.procedure?) = e.close.around := around_of_pop hr hselect
  exact h.stated .close ((Continues.close e).trans (.markers _ haround)) rfl hop hafter rfl
    (by simp [huses, Statement.mentions])

theorem settled (h : e.Reads s (0, false) declared used) :
    e.current.stack = [] ∧ (e.sites .mentions : Multiset Site) = ↑(used.map Site.placed) := by
  have hempty := List.length_eq_zero_iff.mp h.stack
  have hmentioned := h.mentioned
  simp only [pending, waiting, hempty, Bool.false_eq_true, if_false, List.flatMap_nil, List.append_nil, List.map_nil,
    Multiset.coe_nil, add_zero] at hmentioned
  exact ⟨hempty, hmentioned⟩

theorem of_settled (hscopes : e.scopes = s)
    (hnames : (e.current :: e.around).map (·.name) = (s.path.map nameOf).reverse ++ [entryName])
    (hidle : ∀ d ∈ e.around, d.stack = []) (hempty : e.current.stack = [])
    (hdeclared : (e.sites .declarations : Multiset Site) = ↑(([], entryName) :: declared.map Site.scripted))
    (hmentioned : (e.sites .mentions : Multiset Site) = ↑(used.map Site.placed)) :
    e.Reads s (0, false) declared used :=
  ⟨hscopes, hnames, hidle, by rw [hempty]; rfl, hdeclared, by simp [pending, waiting, hempty, hmentioned]⟩

theorem declare {st : Statement} (h : e.Reads s (0, false) declared used) (hs : Records s declared)
    (hst : st.declares = [nameOf name]) (hm : st.mentions = []) :
    (e.declare name st i).Reads (s.declare name) (0, false) (declared ++ [(s.path, name)]) used := by
  obtain ⟨hempty, hmentioned⟩ := h.settled
  have hsites (q : Query) : ((e.declare name st i).sites q : Multiset Site) =
      ↑(e.sites q) + ↑(q.sites (s.path.map nameOf) [st]) := by
    simp only [Emitter.declare, h.scopes]
    split
    · next hin =>
      have hplace : s.path.map nameOf = placeOf s.path := (if_neg (hs.inProcedure.mp hin)).symm
      rw [hplace, ← place_of_names h.names]
      exact (Continues.add ..).sites q
    · next hin =>
      have hnil : s.path = [] := by_contra fun hne => hin (hs.inProcedure.mpr hne)
      simp only [Emitter.sites, hnil, Array.toList_push, List.map_append, Query.sites_append, ← Multiset.coe_add,
        List.map_nil, List.map_singleton]
      ac_rfl
  have hsame : (e.declare name st i).scopes = e.scopes.declare name ∧
      (e.declare name st i).current.name = e.current.name ∧ (e.declare name st i).around = e.around ∧
      (e.declare name st i).current.stack = e.current.stack := by
    simp only [Emitter.declare]
    split <;> exact ⟨rfl, rfl, rfl, rfl⟩
  obtain ⟨hscopes, hname, haround, hstack⟩ := hsame
  refine of_settled (by rw [hscopes, h.scopes]) ?_ (haround ▸ h.idle) (hstack.trans hempty) ?_ ?_
  · rw [List.map_cons, hname, haround, ← List.map_cons]
    exact h.names
  · rw [hsites, h.declared, Multiset.coe_add]
    simp [Query.sites, Query.declarations, hst, Site.scripted]
  · rw [hsites, hmentioned]
    simp [Query.sites, Query.mentions, hm]

theorem startProcedure (h : e.Reads s (0, false) declared used) :
    (e.startProcedure name i).Reads (s.enter name) (0, false) (declared ++ [(s.path, name)]) used := by
  obtain ⟨hempty, hmentioned⟩ := h.settled
  have haround : (e.startProcedure name i).around = e.current :: e.around := rfl
  have hsites (q : Query) : ((e.startProcedure name i).sites q : Multiset Site) =
      ↑(e.sites q) + ↑((q.ofFunction (nameOf name)).map (s.path.map nameOf, ·)) := by
    rw [← scope_of_names h.names]
    simp only [Emitter.sites, haround, openSites]
    simp only [Emitter.startProcedure, Draft.start, Draft.function, Function.sites, Function.sitesAll, Query.sites,
      List.map_nil, List.flatMap_nil, List.append_nil, ← Multiset.coe_add]
    ac_rfl
  refine of_settled (congrArg (Scopes.enter · name) h.scopes) ?_ ?_ rfl ?_ ?_
  · rw [List.map_cons, haround, h.names]
    simp [Emitter.startProcedure, Draft.start, Scopes.enter, Scopes.path]
  · intro d hd
    rcases List.mem_cons.mp hd with rfl | hd
    · exact hempty
    · exact h.idle d hd
  · rw [hsites, h.declared, Multiset.coe_add]
    simp [Query.declarations, Site.scripted]
  · rw [hsites, hmentioned]
    simp [Query.mentions]

theorem endProcedure (h : e.Reads s (0, false) declared used) (hs : Records s declared)
    (he : e.endProcedure i = .ok e') : e'.Reads s.leave (0, false) declared used := by
  obtain ⟨hempty, hmentioned⟩ := h.settled
  obtain ⟨⟨outer, markers⟩, hr, he⟩ := ok_of_bind he
  obtain ⟨o, hm, ho⟩ := Markers.of_pop hr
  have haround : e.around = outer :: markers.filterMap (·.frame.procedure?) := by
    simp only at hm ho
    simp [around, hm, ho]
  generalize hrest : markers.filterMap (·.frame.procedure?) = rest at haround
  obtain ⟨path, n, hpath⟩ : ∃ path n, s.path = path ++ [n] := by
    rcases List.eq_nil_or_concat s.path with hp | ⟨path, n, hp⟩
    · have := congrArg List.length h.names
      simp [hp, haround] at this
    · exact ⟨path, n, by simpa using hp⟩
  have hnames : (outer :: rest).map (·.name) = (path.map nameOf).reverse ++ [entryName] := by
    have := congrArg List.tail h.names
    simpa [hpath, haround] using this
  have hidle : outer.stack = [] ∧ ∀ d ∈ rest, d.stack = [] := by
    simpa [haround] using h.idle
  have hinside := hs.leave.inProcedure
  rw [hs.leave_path hpath] at hinside
  -- the finished function goes where the names of the scope around it are declared
  have hmoved : e'.scopes = s.leave ∧ e'.current.name = outer.name ∧ e'.around = rest ∧
      e'.current.stack = outer.stack ∧ ∀ q, (e'.sites q : Multiset Site) = ↑(e.sites q) := by
    simp only [h.scopes] at he
    split at he
    · next hin =>
      cases he
      refine ⟨rfl, rfl, hrest, rfl, fun q => ?_⟩
      have hscope : scope (outer :: rest) = scope rest ++ [outer.name] := by
        rw [scope_of_names hnames, place_of_names hnames, placeOf, if_neg (hinside.mp hin)]
      simp only [Emitter.sites, haround, openSites, hscope]
      simp only [around, hrest, Draft.function, Function.sites, Array.toList_push, Function.sitesAll_append,
        Function.sitesAll, List.append_nil, ← Multiset.coe_add]
      ac_rfl
    · next hin =>
      cases he
      refine ⟨rfl, rfl, hrest, rfl, fun q => ?_⟩
      have hscope : scope (outer :: rest) = [] := by
        rw [scope_of_names hnames, by_contra fun hne => hin (hinside.mpr hne), List.map_nil]
      simp only [Emitter.sites, haround, openSites, hscope]
      simp only [around, hrest, Array.toList_push, Function.sitesAll_append, Function.sitesAll, List.append_nil,
        ← Multiset.coe_add]
      ac_rfl
  obtain ⟨hscopes, hname, haround', hstack, hsites⟩ := hmoved
  refine of_settled hscopes ?_ (haround' ▸ hidle.2) (hstack.trans hidle.1) (by rw [hsites, h.declared])
    (by rw [hsites, hmentioned])
  rw [List.map_cons, hname, haround', ← List.map_cons, hnames, hs.leave_path hpath]

theorem instr (h : e.Reads s level declared used) (hs : Records s declared)
    (he : e.instr i = .ok e') (hl : i.op.level level = some level') :
    e'.Reads (s.after i.op) level' (declared ++ i.op.declares.toList.map (s.path, ·))
      (used ++ i.op.uses.toList.map (s.path, ·)) := by
  obtain ⟨op, line⟩ := i
  cases op with
  | load name =>
    obtain ⟨id, hid, he⟩ := ok_of_bind he
    cases he
    cases of_binding hid
    cases hl
    exact h.stacked rfl rfl (by simp [h.stack]) List.perm_append_comm
  | push value =>
    cases he
    cases hl
    exact h.stacked rfl rfl (by simp [h.stack]) (by simp [Op.uses, Folded.names])
  | oper op =>
    obtain ⟨⟨right, e1⟩, h1, he⟩ := ok_of_bind he
    obtain ⟨⟨left, e2⟩, h2, he⟩ := ok_of_bind he
    cases he
    obtain ⟨_, hst, rfl⟩ := of_pop h1
    obtain ⟨stack, hst', rfl⟩ := of_pop h2
    simp only at hst'
    subst hst'
    have hlength := h.stack
    obtain ⟨_ | _ | n, waits⟩ := level <;> cases hl
    refine h.stacked rfl rfl (by simp_all) ?_
    simp only [hst, Op.uses, List.flatMap_cons, Folded.names, Option.toList_none, List.map_nil, List.append_nil]
    rw [← List.append_assoc right.names]
    exact List.perm_append_comm.append_right _
  | store name =>
    obtain ⟨id, hid, he⟩ := ok_of_bind he
    obtain ⟨r, hr, he⟩ := ok_of_bind he
    cases he
    cases of_binding hid
    obtain ⟨_ | _ | n, _ | _⟩ := level <;> cases hl
    exact h.used_up _ hr (.add ..) rfl rfl rfl rfl (List.perm_append_singleton _ _).symm
  | write =>
    obtain ⟨r, hr, he⟩ := ok_of_bind he
    cases he
    obtain ⟨_ | _ | n, _ | _⟩ := level <;> cases hl
    exact h.used_up _ hr (.add ..) rfl rfl rfl rfl (by simp [waiting, Op.uses, Statement.mentions])
  | ifMark =>
    obtain ⟨r, hr, he⟩ := ok_of_bind he
    cases he
    obtain ⟨_ | _ | n, _ | _⟩ := level <;> cases hl
    exact h.used_up (.openIf r.1) hr ((Continues.addOpen ..).trans (.markers _ rfl)) rfl rfl rfl rfl
      (by simp [waiting, Op.uses, Statement.mentions])
  | elseIf =>
    obtain ⟨_, -, he⟩ := ok_of_bind he
    obtain ⟨r, hr, he⟩ := ok_of_bind he
    cases he
    obtain ⟨_ | _ | n, _ | _⟩ := level <;> cases hl
    exact h.used_up (.elseIf r.1) hr ⟨rfl, rfl, rfl, rfl, rfl, rfl,
      by simp [Emitter.addOpen, Draft.add, Draft.shallower, Draft.deeper]⟩ rfl rfl rfl rfl
      (by simp [waiting, Op.uses, Statement.mentions])
  | doMark =>
    obtain ⟨_, -, he⟩ := ok_of_bind he
    obtain ⟨r, hr, he⟩ := ok_of_bind he
    cases he
    obtain ⟨_ | _ | n, _ | _⟩ := level <;> cases hl
    exact h.used_up (.openWhile r.1) hr (.addOpen ..) rfl rfl rfl rfl
      (by simp [waiting, Op.uses, Statement.mentions])
  | forTo name =>
    obtain ⟨r, hr, he⟩ := ok_of_bind he
    obtain ⟨⟨counter, start⟩, htop, he⟩ := ok_of_bind he
    cases he
    obtain ⟨_ | _ | n, _ | _⟩ := level <;> cases hl
    refine h.used_up (.openFor counter start r.1) hr (.addOpen ..) rfl rfl rfl rfl ?_
    obtain ⟨_, -, heq⟩ := of_pop hr
    obtain ⟨o, rest, hm, ho⟩ := Markers.of_top htop
    rw [heq] at hm
    have hframe : o.frame = .forLoop counter start := by
      cases hf : o.frame <;> simp_all [Frame.for?]
    simp only at hm
    simp [waiting, hm, hframe, Frame.names, Op.uses, Statement.mentions]
  | forInit name =>
    obtain ⟨id, hid, he⟩ := ok_of_bind he
    obtain ⟨r, hr, he⟩ := ok_of_bind he
    cases he
    cases of_binding hid
    obtain ⟨stack, hst, heq⟩ := of_pop hr
    have hlength := h.stack
    obtain ⟨_ | _ | n, _ | _⟩ := level <;> cases hl
    obtain rfl : stack = [] := by simpa [hst] using hlength
    refine h.continued ((heq ▸ Continues.stack e []).trans (.markers _ rfl)) rfl rfl rfl (by simp [heq]) ?_
    simpa [pending, waiting, heq, hst, Op.uses, Markers.push, Frame.names] using (List.perm_append_singleton _ _).symm
  | call name =>
    obtain ⟨_, -, he⟩ := ok_of_bind he
    cases he
    obtain ⟨_ | _ | n, _ | _⟩ := level <;> cases hl
    exact h.stated _ (.add ..) rfl rfl rfl rfl rfl
  | read name =>
    obtain ⟨id, hid, he⟩ := ok_of_bind he
    cases he
    cases of_binding hid
    obtain ⟨_ | _ | n, _ | _⟩ := level <;> cases hl
    exact h.stated _ (.add ..) rfl rfl rfl rfl rfl
  | elseMark =>
    obtain ⟨_, hcheck, he⟩ := ok_of_bind he
    obtain ⟨_, htop, -⟩ := ok_of_bind hcheck
    cases he
    obtain ⟨_ | _ | n, _ | _⟩ := level <;> cases hl
    exact h.stated .openElse
      ⟨rfl, rfl, rfl, around_replace htop, rfl, rfl, by simp [Draft.add, Draft.shallower, Draft.deeper]⟩ rfl rfl rfl rfl rfl
  | endIf =>
    obtain ⟨r, hr, he⟩ := ok_of_bind he
    cases he
    obtain ⟨_ | _ | n, _ | _⟩ := level <;> cases hl
    exact h.closed hr (fun f b hb => by cases f <;> first | rfl | cases hb) rfl rfl rfl
  | endWhile =>
    obtain ⟨r, hr, he⟩ := ok_of_bind he
    cases he
    obtain ⟨_ | _ | n, _ | _⟩ := level <;> cases hl
    exact h.closed hr (fun f b hb => by cases f <;> first | rfl | cases hb) rfl rfl rfl
  | endFor name =>
    obtain ⟨r, hr, he⟩ := ok_of_bind he
    cases he
    obtain ⟨_ | _ | n, _ | _⟩ := level <;> cases hl
    exact h.closed hr (fun f b hb => by cases f <;> first | rfl | cases hb) rfl rfl rfl
  | whileMark =>
    cases he
    obtain ⟨_ | _ | n, _ | _⟩ := level <;> cases hl
    exact h.continued (.markers _ rfl) rfl rfl rfl h.stack (by simp [pending, waiting, Emitter.startWhile, Op.uses])
  | declare name | const name _ =>
    cases he
    obtain ⟨_ | _ | n, _ | _⟩ := level <;> cases hl
    exact (List.append_nil used).symm ▸ h.declare hs rfl rfl
  | procedureStart name =>
    cases he
    obtain ⟨_ | _ | n, _ | _⟩ := level <;> cases hl
    exact (List.append_nil used).symm ▸ h.startProcedure
  | procedureEnd name =>
    obtain ⟨_ | _ | n, _ | _⟩ := level <;> cases hl
    exact (List.append_nil used).symm ▸ (List.append_nil declared).symm ▸ h.endProcedure hs he

/-- What the emitter writes for code that can be read. -/
theorem run {code : List Instr} (h : e.Reads s level declared used) (hs : Records s declared)
    (hfine : Fine s level code) (he : code.foldlM Emitter.instr e = .ok e') :
    e'.Reads (s.afterAll code) (0, false) (declared ++ codeSites Op.declares s code)
      (used ++ codeSites Op.uses s code) := by
  induction code generalizing e s level declared used with
  | nil =>
    cases he
    obtain rfl : level = (0, false) := hfine
    simpa [codeSites, Scopes.afterAll] using h
  | cons i code ih =>
    obtain ⟨e1, h1, he⟩ := ok_of_bind he
    obtain ⟨ha, level1, hl, hfine⟩ := hfine
    have := ih (h.instr hs h1 hl) (hs.after ha) hfine he
    rwa [List.append_assoc, List.append_assoc] at this

end Reads

theorem reads_initial : Reads .initial .initial (0, false) [] [] :=
  .of_settled rfl rfl (by simp [around, Emitter.initial]) rfl rfl rfl

end Emitter

/-- A script declares what its code declares, and the entry function, and mentions what its code uses. -/
theorem sites_of_code {code : List Instr} {script : Script} (hfine : Fine .initial (0, false) code)
    (h : ofCode code = .ok script) :
    script.declared.Perm (([], entryName) :: (codeSites Op.declares .initial code).map Site.scripted) ∧
      script.mentioned.Perm ((codeSites Op.uses .initial code).map Site.placed) := by
  obtain ⟨e, he, h⟩ := ok_of_bind h
  obtain ⟨_, hfinish, h⟩ := ok_of_bind h
  cases h
  have hread := Emitter.reads_initial.run Records.initial hfine he
  have hclosed := Markers.of_finish hfinish
  have hsites (q : Query) : sites q ⟨e.globals.toList, e.functions.toList, e.current.function⟩ = e.sites q := by
    simp [sites, Emitter.sites, Emitter.around, hclosed, Emitter.openSites, Emitter.scope, Function.sitesAll_append,
      Function.sitesAll]
  refine ⟨Multiset.coe_eq_coe.mp ?_, Multiset.coe_eq_coe.mp ?_⟩
  · rw [declared, hsites, hread.declared]
    rfl
  · rw [mentioned, hsites, hread.settled.2]
    rfl

end Script

/-- What the names in a script have to do with those in the code it was made of. The script declares each name of the
code once, in the function of the same procedure and under a name that hides nothing of the host, and mentions each
name in the function of the procedure that uses it. There a name refers to the declaration that it means in the code
if and only if no procedure around the use and inside the scope of that declaration declares the name later on. -/
structure Script.Mirrors (script : Script) (code : List Instr) : Prop where
  nodup : script.declared.Nodup
  declared : script.declared.Perm (([], entryName) :: (codeSites Op.declares .initial code).map Site.scripted)
  mentioned : script.mentioned.Perm ((codeSites Op.uses .initial code).map Site.placed)
  host : ∀ d ∈ script.declared, d.2 ∉ reserved ∧ ∀ hook ∈ Hook.all, d.2 ≠ hook.name
  refers : ∀ before i rest name, code = before ++ i :: rest → i.op.uses = some name →
    ∃ scope, (Scopes.initial.afterAll before).meaning i.op = some scope ∧
      (scope, name) ∈ codeSites Op.declares .initial before ∧
      (scopeOf script.declared (placeOf (Scopes.initial.afterAll before).path) (nameOf name) =
          some (scope.map nameOf) ↔
        ∀ inner, inner <+: (Scopes.initial.afterAll before).path → scope.length < inner.length →
          (inner, name) ∉ codeSites Op.declares (Scopes.initial.afterAll before) (i :: rest))

namespace Program

/-- The script of an accepted program declares and mentions what its code does, scope by scope. -/
theorem script_mirrors_code {source : String} {p : Program} {t : Table} (hp : Program.ofSource source = .ok p)
    (ht : p.analyze = .ok t) : ∃ script, Script.ofCode p.code = .ok script ∧ script.Mirrors p.code := by
  have hscoped := Program.scoped_of_source hp ht
  have hfine := p.fine hscoped
  obtain ⟨script, hscript⟩ := p.scripts hscoped
  obtain ⟨hdeclared, hmentioned⟩ := Script.sites_of_code hfine hscript
  have hall := hfine.records
  refine ⟨script, hscript, hdeclared.nodup_iff.mpr hall.nodup_scripted, hdeclared, hmentioned, ?_, ?_⟩
  · intro d hd
    rcases List.mem_cons.mp (hdeclared.mem_iff.mp hd) with rfl | hd
    · decide +kernel
    · obtain ⟨d, -, rfl⟩ := List.mem_map.mp hd
      have htaken := Script.nameOf_notMem_taken d.2
      simp only [Script.taken, List.mem_append, List.mem_cons, not_or] at htaken
      exact ⟨htaken.1, by simpa [Hook.all, Site.scripted] using ⟨htaken.2.1, htaken.2.2.1⟩⟩
  · intro before i rest name hcode huses
    rw [hcode] at hfine
    obtain ⟨hrec, level, hrest⟩ := hfine.split .initial
    rw [List.nil_append] at hrec
    obtain ⟨scope, hmeaning, hscope⟩ := hrest.meaning hrec huses
    obtain ⟨hpath, hmem, -⟩ := scopeOf_eq_some.mp hscope
    refine ⟨scope, hmeaning, hmem, ?_⟩
    rw [hall.scopeOf_script hdeclared hrec.path_words (hrec.words _ hmem), ← scopeOf_append hscope, ← codeSites_append,
      ← hcode]
    exact scopeOf_map_nameOf hrec.path_words hpath

/-- An inner procedure that uses names of three scopes, one of them the name of the entry function. -/
theorem script_mirrors_code_nested : ∃ p t,
    Program.ofSource "var main; procedure p; var y; procedure q; var z; begin z := main; y := z; call p; end;" = .ok p ∧
      p.analyze = .ok t ∧ ∃ script, Script.ofCode p.code = .ok script ∧ script.Mirrors p.code := by
  obtain ⟨p, t, hp, ht⟩ : ∃ p t,
      Program.ofSource "var main; procedure p; var y; procedure q; var z; begin z := main; y := z; call p; end;" =
        .ok p ∧ p.analyze = .ok t := ⟨_, _, rfl, rfl⟩
  exact ⟨p, t, hp, ht, script_mirrors_code hp ht⟩

/-- A procedure assigns to the outer `x` before it declares a procedure `x` of its own: in the script the assignment
refers to the inner one. -/
theorem script_reference_captured : ∃ p t script before rest,
    Program.ofSource "var x; procedure p; begin x := 1; procedure x; write 2; end; call p; write x;" = .ok p ∧
      p.analyze = .ok t ∧ Script.ofCode p.code = .ok script ∧ p.code = before ++ ⟨.store "x", 1⟩ :: rest ∧
      (Scopes.initial.afterAll before).meaning (.store "x") = some [] ∧
      scopeOf script.declared (placeOf (Scopes.initial.afterAll before).path) (Script.nameOf "x") = some ["p"] :=
  ⟨_, _, _, [⟨.declare "x", 1⟩, ⟨.procedureStart "p", 1⟩, ⟨.push 1, 1⟩], _, rfl, rfl, rfl, rfl,
    by decide +kernel, by decide +kernel⟩

end Program

end PLZero
