import PLZero.Proofs.ConstantValues
import PLZero.Proofs.SessionProgress
import PLZero.Proofs.StaticLinks

/-! The bindings that a replay shows. They are the variables and constants of the program as it is written, at every
depth, each once and told apart by name and scope; every stop of every run and session shows the same ones. A variable
of a procedure has the value that it has in the latest activation of that procedure, and none while there is no such
activation, whatever other procedures call their variables. -/

namespace PLZero

/-- A declaration where it is written: the procedures around it, its name, and what it is shown as. A procedure is not
shown. -/
structure WrittenDecl where
  path : List String
  name : String
  kind : Option BindingKind
  deriving DecidableEq

def Decl.written (path : List String) : Decl → WrittenDecl
  | .var name _ _ => ⟨path, name, some .variable⟩
  | .const name _ _ => ⟨path, name, some .constant⟩

mutual

/-- The declarations in a statement that stands in the procedure with this path. -/
def Stmt.written (path : List String) : Stmt → List WrittenDecl
  | .assign .. | .read .. | .write .. | .call .. => []
  | .ifElse _ body elseIfs otherwise _ =>
    Stmt.writtenAll path body ++ ElseIf.writtenAll path elseIfs ++
      match otherwise with
      | some other => Stmt.writtenAll path other
      | none => []
  | .whileDo _ body _ => Stmt.writtenAll path body
  | .forTo _ _ _ body _ => Stmt.writtenAll path body
  | .group body _ => Stmt.writtenAll path body
  | .procedure name body _ => ⟨path, name, none⟩ :: body.written (path ++ [name])

def Stmt.writtenAll (path : List String) : List Stmt → List WrittenDecl
  | [] => []
  | s :: ss => s.written path ++ Stmt.writtenAll path ss

def ElseIf.writtenAll (path : List String) : List ElseIf → List WrittenDecl
  | [] => []
  | ⟨_, body, _⟩ :: others => Stmt.writtenAll path body ++ ElseIf.writtenAll path others

def Block.written (path : List String) : Block → List WrittenDecl
  | ⟨decls, stmt, _⟩ =>
    decls.map (Decl.written path) ++
      match stmt with
      | some s => s.written path
      | none => []

end

namespace Program

def written (p : Program) : List WrittenDecl := p.blocks.flatMap (Block.written [])

/-- The variables and constants of a program: name, kind, and the procedures around the declaration. -/
def data (p : Program) : List (String × BindingKind × List String) :=
  p.written.filterMap fun d => d.kind.map fun kind => (d.name, kind, d.path)

/-- The paths of the procedures of a program. A procedure has its place in this list as its number. -/
def procedures (p : Program) : List (List String) :=
  p.written.filterMap fun d => if d.kind = none then some (d.path ++ [d.name]) else none

end Program

/-- A declaration without what it means. -/
def Declared.written (d : Declared) : WrittenDecl :=
  ⟨d.1, d.2.name, match d.2 with
    | .var _ => some .variable
    | .const .. => some .constant
    | .procedure .. => none⟩

theorem Decl.map_written (outer : List Layer) (l : Layer) (ds : List Decl) :
    (Decl.declaredAll outer l ds).map Declared.written = ds.map (Decl.written l.path) := by
  induction ds generalizing l with
  | nil => rfl
  | cons d ds ih =>
    rw [Decl.declaredAll, List.map_cons, List.map_cons, ih]
    cases d <;> rfl

mutual

theorem Stmt.map_written (outer : List Layer) (l : Layer) (s : Stmt) :
    (s.declared outer l).map Declared.written = s.written l.path := by
  match s with
  | .assign .. | .read .. | .write .. | .call .. => rfl
  | .ifElse _ body elseIfs (some other) _ =>
    rw [Stmt.declared, Stmt.written, List.map_append, List.map_append, Stmt.map_writtenAll outer l body,
      ElseIf.map_writtenAll, Stmt.map_writtenAll _ _ other, ElseIf.afterAll_path, Stmt.afterAll_path]
  | .ifElse _ body elseIfs none _ =>
    rw [Stmt.declared, Stmt.written, List.map_append, List.map_append, Stmt.map_writtenAll outer l body,
      ElseIf.map_writtenAll, Stmt.afterAll_path]
    rfl
  | .whileDo _ body _ => exact Stmt.map_writtenAll outer l body
  | .forTo _ _ _ body _ => exact Stmt.map_writtenAll outer l body
  | .group body _ => exact Stmt.map_writtenAll outer l body
  | .procedure name body _ =>
    rw [Stmt.declared, Stmt.written, List.map_cons, Block.map_written]
    rfl

theorem Stmt.map_writtenAll (outer : List Layer) (l : Layer) (ss : List Stmt) :
    (Stmt.declaredAll outer l ss).map Declared.written = Stmt.writtenAll l.path ss := by
  match ss with
  | [] => rfl
  | s :: ss =>
    rw [Stmt.declaredAll, Stmt.writtenAll, List.map_append, Stmt.map_written outer l s, Stmt.map_writtenAll _ _ ss,
      Stmt.after_path]

theorem ElseIf.map_writtenAll (outer : List Layer) (l : Layer) (es : List ElseIf) :
    (ElseIf.declaredAll outer l es).map Declared.written = ElseIf.writtenAll l.path es := by
  match es with
  | [] => rfl
  | ⟨_, body, _⟩ :: others =>
    rw [ElseIf.declaredAll, ElseIf.writtenAll, List.map_append, Stmt.map_writtenAll outer l body,
      ElseIf.map_writtenAll _ _ others, Stmt.afterAll_path]

theorem Block.map_written (outer : List Layer) (l : Layer) (b : Block) :
    (b.declared outer l).map Declared.written = b.written l.path := by
  match b with
  | ⟨decls, some s, _⟩ =>
    rw [Block.declared, Block.written, List.map_append, Decl.map_written, Stmt.map_written _ _ s,
      Decl.afterAll_path]
  | ⟨decls, none, _⟩ =>
    rw [Block.declared, Block.written, List.map_append, Decl.map_written]
    rfl

end

theorem Block.map_writtenAll (outer : List Layer) (l : Layer) (bs : List Block) :
    (Block.declaredAll outer l bs).map Declared.written = bs.flatMap (Block.written l.path) := by
  induction bs generalizing l with
  | nil => rfl
  | cons b bs ih =>
    rw [Block.declaredAll, List.map_append, List.flatMap_cons, Block.map_written, ih, Block.after_path]

/-- What is shown of a binding besides its value. -/
def Binding.header (b : Binding) : String × BindingKind × List String := (b.name, b.kind, b.path)

mutual

/-- The values of variables do not change what is listed. -/
theorem Symbol.map_header (value value' : List String → String → Option Int32 → Option Int32) (path : List String)
    (s : Symbol) : (s.bindings value path).map Binding.header = (s.bindings value' path).map Binding.header := by
  match s with
  | .var .. | .const .. => rfl
  | .procedure name body _ => exact Symbol.map_headerAll value value' (path ++ [name]) body

theorem Symbol.map_headerAll (value value' : List String → String → Option Int32 → Option Int32) (path : List String)
    (ss : List Symbol) :
    (Symbol.bindingsAll value path ss).map Binding.header = (Symbol.bindingsAll value' path ss).map Binding.header := by
  match ss with
  | [] => rfl
  | s :: rest =>
    rw [Symbol.bindingsAll, Symbol.bindingsAll, List.map_append, List.map_append, Symbol.map_header value value' path s,
      Symbol.map_headerAll value value' path rest]

end

theorem Declared.of_binding? {value : List String → String → Option Int32} {d : Declared} {b : Binding}
    (h : d.binding? value = some b) : d.2.isProcedure = false ∧ b.path = d.1 ∧ b.name = d.2.name ∧
      (b.kind = .variable → d.2 = .var b.name ∧ b.value = value b.path b.name) := by
  obtain ⟨path, e⟩ := d
  cases e with
  | var n =>
    cases h
    exact ⟨rfl, rfl, rfl, fun _ => ⟨rfl, rfl⟩⟩
  | const n v =>
    cases h
    exact ⟨rfl, rfl, rfl, nofun⟩
  | procedure n body => cases h

def scopeText (path : List String) : String := if path.isEmpty then "global" else "procedure:" ++ dotted path

theorem scopeText_inj {path path' : List String} (hp : ∀ name ∈ path, IsWord name) (hp' : ∀ name ∈ path', IsWord name)
    (h : scopeText path = scopeText path') : path = path' := by
  have hglobal (text : String) : "global" ≠ "procedure:" ++ text := by
    intro heq
    have hlist := congrArg String.toList heq
    rw [String.toList_append] at hlist
    simp at hlist
  unfold scopeText at h
  split_ifs at h with hnil hnil' hnil'
  · rw [List.isEmpty_iff.mp hnil, List.isEmpty_iff.mp hnil']
  · exact absurd h (hglobal _)
  · exact absurd h.symm (hglobal _)
  · have htext : dotted path = dotted path' := by simpa using h
    exact dotted_inj (by simpa using hnil) (by simpa using hnil') hp hp' htext

namespace Program

variable {source : String} {p : Program} {t : Table}

theorem map_written (p : Program) : p.declared.map Declared.written = p.written :=
  Block.map_writtenAll [] .initial p.blocks

theorem procedures_eq (p : Program) : p.procedures = procedurePaths p.declared := by
  rw [procedures, ← map_written, procedurePaths, List.filterMap_map, ← List.filterMap_eq_map, List.filterMap_filter]
  congr 1
  funext d
  obtain ⟨path, e⟩ := d
  cases e <;> rfl

theorem data_eq (p : Program) (value : List String → String → Option Int32) :
    p.data = (p.declared.filterMap (Declared.binding? value)).map Binding.header := by
  rw [data, ← map_written, List.filterMap_map, List.map_filterMap]
  congr 1
  funext d
  obtain ⟨path, e⟩ := d
  cases e <;> rfl

theorem nodup_data (h : p.Scoped) : (p.data.map fun x => (x.1, scopeText x.2.2)).Nodup := by
  rw [p.data_eq fun _ _ => none, List.map_map, List.Nodup, List.pairwise_map, List.pairwise_filterMap]
  refine (List.pairwise_map.mp (p.declared_nodup h)).imp_of_mem ?_
  intro d d' hd hd' hne b hb b' hb' heq
  obtain ⟨-, hpath, hname, -⟩ := Declared.of_binding? hb
  obtain ⟨-, hpath', hname', -⟩ := Declared.of_binding? hb'
  have hwords {d : Declared} (hd : d ∈ p.declared) : ∀ name ∈ d.1, IsWord name :=
    fun name hmem => p.declared_words h d hd name (List.mem_append_left _ hmem)
  have hsame : b.path = b'.path :=
    scopeText_inj (hpath ▸ hwords hd) (hpath' ▸ hwords hd') (congrArg Prod.snd heq)
  have hnames : b.name = b'.name := congrArg Prod.fst heq
  refine hne ?_
  rw [Declared.full, Declared.full, ← hpath, ← hpath', hsame, ← hname, ← hname', hnames]

theorem not_mem_procedures (h : p.Scoped) {x : String × BindingKind × List String} (hx : x ∈ p.data) :
    x.2.2 ++ [x.1] ∉ p.procedures := by
  rw [p.data_eq fun _ _ => none] at hx
  obtain ⟨b, hb, rfl⟩ := List.mem_map.mp hx
  obtain ⟨d, hd, hbinding⟩ := List.mem_filterMap.mp hb
  obtain ⟨hproc, hpath, hname, -⟩ := Declared.of_binding? hbinding
  rw [procedures_eq, procedurePaths]
  intro hmem
  obtain ⟨d', hd', hfull⟩ := List.mem_map.mp hmem
  obtain ⟨hd', hproc'⟩ := List.mem_filter.mp hd'
  have hsame : d'.full = d.full := by
    rw [hfull, Declared.full, ← hpath, ← hname]
    rfl
  rw [List.inj_on_of_nodup_map (p.declared_nodup h) hd' hd hsame, hproc] at hproc'
  cases hproc'

/-- A table shows the variables and constants of the program, whatever their values are. -/
theorem map_header_bindings (hp : Program.ofSource source = .ok p) (ht : p.analyze = .ok t)
    (value : List String → String → Option Int32 → Option Int32) :
    (t.bindings value).map Binding.header = p.data := by
  rw [p.data_eq fun _ _ => none, ← bindings_eq _ hp ht]
  exact Symbol.map_headerAll _ _ [] t

end Program

namespace Replay

theorem Calls.bind_latest? (calls : Calls) (n : Nat) :
    (calls.latest? n).bind (calls[·]?) = calls.toList.reverse.find? (·.procedure = n) := by
  have hbelow (k : Nat) (hk : k ≤ calls.size) :
      (calls.latestBelow n k).bind (calls[·]?) = (calls.toList.take k).reverse.find? (·.procedure = n) := by
    induction k with
    | zero => rfl
    | succ k ih =>
      have hlt : k < calls.toList.length := hk
      rw [List.take_succ_eq_append_getElem hlt, List.reverse_append, List.reverse_singleton, List.singleton_append,
        List.find?_cons, Calls.latestBelow, Array.getElem?_eq_getElem hk, ← ih (Nat.le_of_succ_le hk)]
      by_cases hproc : calls[k].procedure = n <;> simp [hproc]
  rw [Calls.latest?, hbelow _ le_rfl, ← Array.length_toList, List.take_length]

theorem Stacked.lt_of_mem {J : JumpCode} {ps : List (List String)} {acts : List (Nat × Nat)} {links : Links}
    {path : List String} (h : Stacked J ps acts links path) {a : Nat × Nat} (ha : a ∈ acts) : a.1 < ps.length := by
  induction h with
  | outside => cases ha
  | call _ _ _ hmem ih =>
    rcases List.mem_cons.mp ha with rfl | ha
    · exact List.idxOf_lt_length_of_mem hmem
    · exact ih ha

/-- A session shows the state that it has come to. -/
def Session.IsCurrent (s : Session) : Prop := ∃ line, s.current = s.program.snapshot s.machine line

theorem Session.IsCurrent.command {s : Session} (h : s.IsCurrent) (c : Command) :
    (s.command c).session.IsCurrent ∧
      ∀ event, (s.command c).result = .ok event → event.snapshot = (s.command c).session.current := by
  rcases s.command_cases c with
    ⟨-, hreply⟩ | ⟨-, ⟨m, e, line, -, -, -, -, hreply⟩ | ⟨m, -, hreply⟩ | ⟨err, hreply⟩⟩
  · rw [hreply]
    exact ⟨h, fun event hevent => Except.ok.inj hevent ▸ rfl⟩
  · rw [hreply]
    exact ⟨⟨_, rfl⟩, fun event hevent => Except.ok.inj hevent ▸ rfl⟩
  · rw [hreply]
    exact ⟨⟨_, rfl⟩, fun event hevent => Except.ok.inj hevent ▸ rfl⟩
  · rw [hreply]
    exact ⟨h, nofun⟩

/-- Every reply comes with a session that shows the state it has come to, and answers with what that session shows. -/
theorem Session.of_mem_replies {s : Session} {commands : List Command} {r : Reply} (hsound : s.Sound)
    (h : s.IsCurrent) (hr : r ∈ s.replies commands) :
    r.session.program = s.program ∧ Reachable s.program.code s.config.readValue r.session.machine ∧
      r.session.IsCurrent ∧ ∀ event, r.result = .ok event → event.snapshot = r.session.current := by
  induction commands generalizing s with
  | nil => cases hr
  | cons c commands ih =>
    obtain ⟨hprogram, -, hconfig⟩ := command_program s c
    rcases List.mem_cons.mp hr with rfl | hr
    · exact ⟨hprogram, hprogram ▸ hconfig ▸ (hsound.command c).reachable, h.command c⟩
    · rw [← hprogram, ← hconfig]
      exact ih (hsound.command c) (h.command c).1 hr

end Replay

namespace Program

open Replay

variable {source : String} {p : Program} {t : Table} {J : JumpCode}

/-- The value of a variable in the latest activation of the procedure that declares it. -/
def latestValue (p : Program) (m : Machine) (path : List String) (name : String) : Option Int32 :=
  if path = [] then m.globals.value name
  else (m.calls.toList.reverse.find? fun a => p.procedures[a.procedure]? = some path).bind (·.locals.value name)

theorem variable_eq (h : p.Scoped) (hnames : J.procedures.toList.map (·.name) = p.procedures.map dotted) (m : Machine)
    {path : List String} (hpath : path = [] ∨ path ∈ p.procedures) (name : String) :
    m.variable J path name = p.latestValue m path name := by
  have hdistinct : Distinct p.procedures := p.procedures_eq ▸ p.procedurePaths_distinct h
  rcases hpath with rfl | hmem
  · rfl
  · have hne : path ≠ [] := hdistinct.nonempty path hmem
    have hnumber (a : Replay.Activation) :
        p.procedures[a.procedure]? = some path ↔ a.procedure = p.procedures.idxOf path := by
      constructor
      · intro hget
        obtain ⟨hlt, rfl⟩ := List.getElem?_eq_some_iff.mp hget
        exact (hdistinct.nodup.idxOf_getElem _ hlt).symm
      · intro heq
        rw [heq]
        exact List.getElem?_idxOf hmem
    rw [latestValue, if_neg hne, Machine.variable, if_neg (by simpa using hne),
      JumpCode.number?_eq hnames hdistinct hmem]
    simp only [hnumber]
    rw [← Calls.bind_latest?]
    change (m.place? _).bind (fun place => (m.store place).value name) = _
    rw [Machine.place?, Option.bind_map, Option.bind_assoc]
    refine congrArg _ (funext fun k => ?_)
    cases hk : m.calls[k]? with
    | none => simp [Machine.store, hk, Store.value]
    | some a => simp [Machine.store, hk]

/-- A stop shows a state of the replay: all variables and constants of the program, and of every variable the value in
the latest activation of the procedure that declares it. -/
structure Displays (p : Program) (m : Machine) (shown : Snapshot) : Prop where
  headers : shown.bindings.map Binding.header = p.data
  values : ∀ b ∈ shown.bindings, b.kind = .variable → b.value = p.latestValue m b.path b.name

theorem displays_snapshot (hp : Program.ofSource source = .ok p) (ht : p.analyze = .ok t)
    (hnames : J.procedures.toList.map (·.name) = p.procedures.map dotted) (m : Machine) (line : Option Nat) :
    p.Displays m (Prepared.snapshot ⟨J, t⟩ m line) := by
  refine ⟨map_header_bindings hp ht _, fun b hb hkind => ?_⟩
  have hbindings : (Prepared.snapshot ⟨J, t⟩ m line).bindings =
      p.declared.filterMap (Declared.binding? (m.variable J)) := bindings_eq _ hp ht
  rw [hbindings] at hb
  obtain ⟨d, hd, hbinding⟩ := List.mem_filterMap.mp hb
  obtain ⟨-, hpath, -, hvariable⟩ := Declared.of_binding? hbinding
  obtain ⟨hvar, hvalue⟩ := hvariable hkind
  rw [hvalue]
  refine variable_eq (Program.scoped_of_source hp ht) hnames m ?_ b.name
  -- a variable stands outside procedures, or in one that is declared
  have hmem : (b.path, .var b.name) ∈ p.declared := by
    rw [hpath, ← hvar]
    exact hd
  refine (Block.ownedAll p.blocks hmem).imp_right fun howned => ?_
  obtain ⟨outside, name, body, heq, hproc, -⟩ := howned
  rw [procedures_eq, heq]
  exact List.mem_map.mpr ⟨(outside, .procedure name body), List.mem_filter.mpr ⟨hproc, rfl⟩, rfl⟩

/-- Only procedures of the program are active. -/
theorem lt_of_active (h : p.Scoped) (hat : Block.AtAll J (procedurePaths p.declared) [] .initial p.blocks 0 J.code.size)
    {readValue : Int32} {m : Machine} (hm : Reachable J readValue m) :
    ∀ a ∈ m.calls.toList, a.procedure < p.procedures.length := by
  obtain ⟨links, hlinks⟩ := hm.linked (procedurePaths p.declared)
  obtain ⟨path, hstacked, -⟩ := hlinks.stacked (p.resumes h hat)
  intro a ha
  have hmem : (a.procedure, a.returnTo) ∈ m.shape.reverse := List.mem_reverse.mpr (List.mem_map_of_mem ha)
  rw [procedures_eq]
  exact hstacked.lt_of_mem hmem

/-- The bindings of a program are its variables and constants, told apart by name and scope, and every stop of a run or
of a session shows them, a variable with its value in the latest activation of the procedure that declares it. -/
theorem bindings_displayed (hp : Program.ofSource source = .ok p) (ht : p.analyze = .ok t) :
    t.declared.map Binding.header = p.data ∧ (t.declared.map fun b => (b.name, b.scope)).Nodup ∧
      (∀ b ∈ t.declared, b.path ++ [b.name] ∉ p.procedures) ∧
      ∃ J, JumpCode.ofCode p.code = .ok J ∧ J.procedures.toList.map (·.name) = p.procedures.map dotted ∧
        p.procedures.Nodup ∧
        (∀ readValue m, Reachable J readValue m → (∀ a ∈ m.calls.toList, a.procedure < p.procedures.length) ∧
          ∀ line, p.Displays m (Prepared.snapshot ⟨J, t⟩ m line)) ∧
        (∀ line config shown, runTo source line config = .ok shown → ∃ stop m,
          Machine.run J config (Machine.reaches line) = .ok (stop, m) ∧ Reachable J config.readValue m ∧
            p.Displays m shown) ∧
        ∀ requested config, ∃ s, Session.start source requested config = .ok s ∧ p.Displays s.machine s.current ∧
          ∀ commands, ∀ r ∈ s.replies commands, Reachable J config.readValue r.session.machine ∧
            p.Displays r.session.machine r.session.current ∧
            ∀ event, r.result = .ok event → event.snapshot = r.session.current := by
  have hscoped := Program.scoped_of_source hp ht
  have hheaders : t.declared.map Binding.header = p.data := map_header_bindings hp ht _
  obtain ⟨J, hJ, hat, hnames⟩ := p.lowers_numbered hscoped
  rw [← procedures_eq] at hnames
  have hprepared := Prepared.ofSource_eq hp ht hJ
  have hdisplays := displays_snapshot hp ht hnames
  refine ⟨hheaders, ?_, fun b hb => ?_, J, hJ, hnames, ?_, fun readValue m hm => ?_, fun line config shown hrun => ?_,
    fun requested config => ?_⟩
  · have hnodup := nodup_data hscoped
    rw [← hheaders, List.map_map] at hnodup
    exact hnodup
  · exact not_mem_procedures hscoped (hheaders ▸ List.mem_map_of_mem hb)
  · exact p.procedures_eq ▸ (p.procedurePaths_distinct hscoped).nodup
  · exact ⟨lt_of_active hscoped hat hm, hdisplays m⟩
  · obtain ⟨stop, m, hstop, rfl⟩ := run_of_runTo_eq_ok hprepared hrun
    exact ⟨stop, m, hstop, (Reachable.initial.runFor_ok hstop).1, hdisplays _ _⟩
  · obtain ⟨s, hs, hprogram, -, hconfig, hstands⟩ := start_stands hprepared requested config
    have hinitial : s.IsCurrent := ⟨none, by rw [hstands.2.2.2, hstands.2.2.1]⟩
    have hshown {s' : Session} (hprogram : s'.program = ⟨J, t⟩) (h : s'.IsCurrent) :
        p.Displays s'.machine s'.current := by
      obtain ⟨line, hline⟩ := h
      rw [hline, hprogram]
      exact hdisplays _ line
    refine ⟨s, hs, hshown hprogram hinitial, fun commands r hr => ?_⟩
    obtain ⟨hprogram', hreachable, hcurrent', hevent⟩ :=
      Session.of_mem_replies (.of_stands hstands) hinitial hr
    rw [hprogram, hconfig] at hreachable
    exact ⟨hreachable, hshown (hprogram'.trans hprogram) hcurrent', hevent⟩

/-- Two procedures with a variable of the same name, one called by the other. -/
theorem bindings_displayed_nested : ∃ p t s,
    Program.ofSource "procedure f; var x = 1; begin procedure g; var x = 2;\nread x;\ng; end; f;" = .ok p ∧
      p.analyze = .ok t ∧
      p.data = [("x", .variable, ["f"]), ("x", .variable, ["f", "g"])] ∧ p.procedures = [["f"], ["f", "g"]] ∧
      Session.start "procedure f; var x = 1; begin procedure g; var x = 2;\nread x;\ng; end; f;" [2] ⟨1, 100⟩ = .ok s ∧
      (s.command .continue).session.current =
        ⟨[⟨"x", some 1, .variable, ["f"]⟩, ⟨"x", some 2, .variable, ["f", "g"]⟩], some 2, []⟩ ∧
      p.latestValue (s.command .continue).session.machine ["f"] "x" = some 1 ∧
      p.latestValue (s.command .continue).session.machine ["f", "g"] "x" = some 2 := by
  obtain ⟨p, t, s, hp, ht, hdata, hprocedures, hs, hshown⟩ : ∃ p t s,
      Program.ofSource "procedure f; var x = 1; begin procedure g; var x = 2;\nread x;\ng; end; f;" = .ok p ∧
        p.analyze = .ok t ∧
        p.data = [("x", .variable, ["f"]), ("x", .variable, ["f", "g"])] ∧ p.procedures = [["f"], ["f", "g"]] ∧
        Session.start "procedure f; var x = 1; begin procedure g; var x = 2;\nread x;\ng; end; f;" [2] ⟨1, 100⟩ = .ok s ∧
        (s.command .continue).session.current =
          ⟨[⟨"x", some 1, .variable, ["f"]⟩, ⟨"x", some 2, .variable, ["f", "g"]⟩], some 2, []⟩ :=
    ⟨_, _, _, rfl, rfl, rfl, rfl, rfl, by decide +kernel⟩
  obtain ⟨-, -, -, J, -, -, -, -, -, hsessions⟩ := bindings_displayed hp ht
  obtain ⟨s', hs', -, hreplies⟩ := hsessions [2] ⟨1, 100⟩
  obtain rfl := Except.ok.inj (hs.symm.trans hs')
  obtain ⟨-, hdisplays, -⟩ := hreplies [.continue] _ (List.mem_singleton_self _)
  rw [hshown] at hdisplays
  refine ⟨p, t, s, hp, ht, hdata, hprocedures, hs, hshown, ?_, ?_⟩
  · exact (hdisplays.values ⟨"x", some 1, .variable, ["f"]⟩ (by simp) rfl).symm
  · exact (hdisplays.values ⟨"x", some 2, .variable, ["f", "g"]⟩ (by simp) rfl).symm

end Program

end PLZero
