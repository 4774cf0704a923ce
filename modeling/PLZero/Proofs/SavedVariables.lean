import PLZero.Proofs.Activations
import PLZero.Proofs.ModuleMeaning
import PLZero.Proofs.ModuleValid

/-! Variables in a running stack module. All activations of a procedure share its globals, which the
instructions around its body save, clear and put back. So while bodies run, globals hold the variables
of the most recent activations. -/

namespace PLZero

namespace StackModule

inductive Event
  /-- An instruction of a body is about to run in this state. -/
  | reach (instruction : Sexp) (s : State)
  | assign (global : String) (v : Int32)
  | enter (function : String)
  | leave

/-- What happens behind instructions that ended so, if what follows them runs. -/
def Outcome.events (o : Outcome) (k : State → List Event) : List Event :=
  match o with
  | .next s => k s
  | _ => []

def eventsWith (v : Sexp.Ending) (k : Int32 → List Event) : List Event :=
  match v with
  | .value v => k v
  | _ => []

/-- What happens in a loop, given how its body ends and what happens in it. -/
def eventsAround (label : String) (body : State → Outcome) (events : State → List Event) :
    Nat → State → List Event
  | 0, _ => []
  | n + 1, s =>
    events s ++
      match body s with
      | .branch l s => if l = label then eventsAround label body events n s else []
      | _ => []

section

variable (c : Calls) (turns : Nat) (callEvents : String → State → List Event)

mutual

def eventsIn : Sexp → State → List Event
  | .list [.word "global.set", .word id, x], s =>
    eventsWith (x.eval (s.env c.value)) fun v => [.assign id v]
  | .list [.word "call", .word id], s => callEvents id s
  | .list [.word "if", x, .list (.word "then" :: body)], s =>
    eventsWith (x.eval (s.env c.value)) fun v => if v ≠ 0 then eventsInAll body s else []
  | .list [.word "if", x, .list (.word "then" :: body), .list (.word "else" :: other)], s =>
    eventsWith (x.eval (s.env c.value)) fun v =>
      if v ≠ 0 then eventsInAll body s else eventsInAll other s
  | .list (.word "block" :: .word _ :: body), s => eventsInAll body s
  | .list (.word "loop" :: .word label :: body), s =>
    eventsAround label (execAll c turns body) (fun s => eventsInAll body s) turns s
  | _, _ => []

def eventsInAll : List Sexp → State → List Event
  | [], _ => []
  | x :: rest, s =>
    .reach x s :: eventsIn x s ++ (exec c turns x s).events fun s => eventsInAll rest s

end

end

section

variable {ρ : Type} (callees : List (String × Callee)) (meter : Meter ρ) (readValue : Int32)

/-- What happens in the calls that code with a rest `r` of the budget can make, given what a function
does and what happens in it. It is left when all of it has run. -/
def callEvents (r : ρ) (function : ρ → List String → List Sexp → State → Outcome)
    (inside : ρ → List String → List Sexp → State → List Event) (id : String) (s : State) :
    List Event :=
  match callees.lookup id with
  | some (.function locals body) =>
    (meter.enter id r).elim [] fun r =>
      .enter id :: inside r locals body s ++ (function r locals body s).events fun _ => [.leave]
  | _ => []

/-- What happens between the two instructions for each local that a function starts with, and the one
for each that it ends with. -/
def bodyEvents (turns : Nat) :
    (depth : Nat) → ρ → List String → List Sexp → State → List Event
  | 0, _, _, _, _ => []
  | depth + 1, r, locals, body, s =>
    let function := callFunction callees meter readValue turns depth
    let c := calls callees meter readValue r function
    let inner := (body.drop (2 * locals.length)).take (body.length - 3 * locals.length)
    (execAll c turns (body.take (2 * locals.length)) (s.enter locals)).events
      (eventsInAll c turns (callEvents callees meter r function (bodyEvents turns depth)) inner)

end

/-- What happens in a run of the fields of a module. -/
def events {ρ : Type} (fields : List Field) (meter : Meter ρ) (readValue : Int32)
    (turns depth : Nat) : List Event :=
  (fields.findSome? entry?).elim [] fun e =>
    (meter.enter e.1 meter.start).elim [] fun r =>
      bodyEvents (fields.filterMap callee?) meter readValue turns (depth + 1) r e.2.1 e.2.2
        (initialState fields)

end StackModule

open StackModule Activation

/-- The declaration that a module has under this identifier. -/
def declaration? (D : List Declared) (id : String) : Option Declared :=
  D.find? ("$" ++ dotted ·.full == id)

namespace History

def step (D : List Declared) (h : History) : Event → History
  | .reach .. => h
  | .assign global v =>
    match declaration? D global with
    | some (path, .var name) => h.assign path name v
    | _ => h
  | .enter function =>
    match declaration? D function with
    | some (path, .procedure name _) => h.enter (path ++ [name])
    | _ => h
  | .leave => h.leave

def after (D : List Declared) (h : History) (es : List Event) : History := es.foldl (step D) h

theorem after_append {D : List Declared} {h : History} {es es' : List Event} :
    h.after D (es ++ es') = (h.after D es).after D es' := List.foldl_append

end History

namespace StackModule

/-- Where the instructions end, the locals are these. -/
def Outcome.Keeps (locals : Std.ExtTreeMap String Int32) : Outcome → Prop
  | .next s | .branch _ s => s.locals = locals
  | .trap | .invalid | .exhausted => True

/-- Calls leave the locals of their caller alone. -/
def Calls.KeepLocals (c : Calls) : Prop := ∀ id args s, (c.run id args s).Keeps s.locals

namespace Outcome.Keeps

variable {locals : Std.ExtTreeMap String Int32} {o : Outcome}

theorem withValue {v : Sexp.Ending} {k : Int32 → Outcome} (h : ∀ v, (k v).Keeps locals) :
    (StackModule.withValue v k).Keeps locals := by
  cases v with
  | value v => exact h v
  | trap | invalid => trivial

theorem andThen {k : State → Outcome} (h : o.Keeps locals)
    (hk : ∀ s, s.locals = locals → (k s).Keeps locals) : (o.andThen k).Keeps locals := by
  cases o with
  | next s => exact hk s h
  | branch | trap | invalid | exhausted => exact h

theorem leaving (h : o.Keeps locals) (label : String) : (o.leaving label).Keeps locals := by
  cases o with
  | branch l s =>
    by_cases hl : l = label
    · rw [Outcome.leaving, if_pos hl]
      exact h
    · rw [Outcome.leaving, if_neg hl]
      exact h
  | next | trap | invalid | exhausted => exact h

theorem around {label : String} {body : State → Outcome} {s : State}
    (h : ∀ s, s.locals = locals → (body s).Keeps locals) (n : Nat) (hs : s.locals = locals) :
    (goAround label body n s).Keeps locals := by
  induction n generalizing s with
  | zero => trivial
  | succ n ih =>
    have hbody := h s hs
    rw [goAround]
    cases ho : body s with
    | branch l s' =>
      rw [ho] at hbody
      by_cases hl : l = label
      · simp only [if_pos hl]
        exact ih hbody
      · simp only [if_neg hl]
        exact hbody
    | next s' =>
      rw [ho] at hbody
      exact hbody
    | trap | invalid | exhausted => trivial

end Outcome.Keeps

mutual

/-- Only the instructions around the body of a function set locals. -/
theorem Code.keepsLocals {c : Calls} {turns : Nat} (hc : c.KeepLocals) (code : Code) (s : State) :
    (code.exec c turns s).Keeps s.locals := by
  match code with
  | .set .. | .read _ =>
    refine .withValue fun v => ?_
    exact rfl
  | .increment global =>
    rw [Code.exec_increment]
    exact rfl
  | .write _ => exact .withValue fun v => hc _ [v] s
  | .call function => exact hc _ [] s
  | .ifElse cond body none =>
    refine .withValue fun v => ?_
    split
    · exact Code.keepsLocalsAll hc body rfl
    · exact rfl
  | .ifElse cond body (some other) =>
    refine .withValue fun v => ?_
    split
    · exact Code.keepsLocalsAll hc body rfl
    · exact Code.keepsLocalsAll hc other rfl
  | .block label body => exact (Code.keepsLocalsAll hc body rfl).leaving _
  | .loop label body => exact .around (fun s hs => Code.keepsLocalsAll hc body hs) turns rfl
  | .branch _ => exact rfl
  | .branchIfZero .. | .branchUnlessBelow .. =>
    refine .withValue fun v => ?_
    split <;> rfl

theorem Code.keepsLocalsAll {c : Calls} {turns : Nat} {s : State}
    {locals : Std.ExtTreeMap String Int32} (hc : c.KeepLocals) (codes : List Code)
    (hs : s.locals = locals) : (Code.execAll c turns codes s).Keeps locals := by
  match codes with
  | [] => exact hs
  | code :: rest =>
    rw [Code.execAll_cons]
    exact (hs ▸ Code.keepsLocals hc code s).andThen fun s' hs' => Code.keepsLocalsAll hc rest hs'

end

theorem calls_keepLocals {ρ : Type} {callees : List (String × Callee)} {meter : Meter ρ}
    {readValue : Int32} {turns depth : Nat} {r : ρ} :
    (calls callees meter readValue r (callFunction callees meter readValue turns depth)).KeepLocals := by
  intro id args s
  simp only [calls]
  split
  · cases meter.enter id r with
    | none => trivial
    | some r => exact rfl
  · next locals body _ =>
    cases meter.enter id r with
    | none => trivial
    | some r =>
      cases depth with
      | zero => trivial
      | succ depth =>
        rw [Option.elim_some, callFunction]
        cases execAll _ turns body (s.enter locals) with
        | next s' => exact rfl
        | branch | trap | invalid | exhausted => trivial
  · trivial

/-- Globals hold the values of variables in the most recent activations. -/
def Shows (D : List Declared) (h : History) (s : State) : Prop :=
  ∀ path name, (path, .var name) ∈ D → s.get (qualify path name) = h.value path name

/-- They do so wherever an instruction is about to run. -/
def ShowsAll (D : List Declared) : History → List Event → Prop
  | _, [] => True
  | h, e :: rest => (∀ x s, e = .reach x s → Shows D h s) ∧ ShowsAll D (h.step D e) rest

/-- They do so at the end of instructions that can branch to these labels. -/
def ShowsAfter (D : List Declared) (labels : List String) (h h' : History) : Outcome → Prop
  | .next s => h.Evolves h' ∧ Shows D h' s
  | .branch l s => l ∈ labels ∧ h.Evolves h' ∧ Shows D h' s
  | .trap | .invalid | .exhausted => True

/-- Instructions in which these events happen and that end so keep to what the history says. -/
structure Follows (D : List Declared) (labels : List String) (h : History) (es : List Event)
    (o : Outcome) : Prop where
  during : ShowsAll D h es
  after : ShowsAfter D labels h (h.after D es) o

section

variable {D : List Declared} {labels : List String} {h h' : History} {es es' : List Event}
  {o : Outcome} {s : State}

theorem showsAll_append (hes : ShowsAll D h es) (hes' : ShowsAll D (h.after D es) es') :
    ShowsAll D h (es ++ es') := by
  induction es generalizing h with
  | nil => exact hes'
  | cons e es ih => exact ⟨hes.1, ih hes.2 hes'⟩

theorem ShowsAll.reach {before rest : List Event} {x : Sexp}
    (hes : ShowsAll D h (before ++ .reach x s :: rest)) : Shows D (h.after D before) s := by
  induction before generalizing h with
  | nil => exact hes.1 x s rfl
  | cons e before ih => exact ih hes.2

theorem ShowsAfter.trans {h'' : History} (he : h.Evolves h')
    (ho : ShowsAfter D labels h' h'' o) : ShowsAfter D labels h h'' o := by
  cases o with
  | next s => exact ⟨he.trans ho.1, ho.2⟩
  | branch l s => exact ⟨ho.1, he.trans ho.2.1, ho.2.2⟩
  | trap | invalid | exhausted => trivial

namespace Follows

variable {label : String}

theorem next (hs : Shows D h s) : Follows D labels h [] (.next s) := ⟨trivial, .refl h, hs⟩

theorem trap : Follows D labels h [] .trap := ⟨trivial, trivial⟩

theorem branch (hlabel : label ∈ labels) (hs : Shows D h s) :
    Follows D labels h [] (.branch label s) := ⟨trivial, hlabel, .refl h, hs⟩

theorem mono {labels' : List String} (hf : Follows D labels h es o) (hlabels : labels ⊆ labels') :
    Follows D labels' h es o := by
  refine ⟨hf.during, ?_⟩
  have hafter := hf.after
  cases o with
  | next s => exact hafter
  | branch l s => exact ⟨hlabels hafter.1, hafter.2⟩
  | trap | invalid | exhausted => trivial

theorem withValue {k : Int32 → List Event} {k' : Int32 → Outcome} (v : Sexp.Ending)
    (hk : ∀ v, Follows D labels h (k v) (k' v)) :
    Follows D labels h (eventsWith v k) (StackModule.withValue v k') := by
  cases v with
  | value v => exact hk v
  | trap | invalid => exact ⟨trivial, trivial⟩

theorem withValue_nil {k : Int32 → Outcome} (v : Sexp.Ending)
    (hk : ∀ v, Follows D labels h [] (k v)) :
    Follows D labels h [] (StackModule.withValue v k) := by
  cases v with
  | value v => exact hk v
  | trap | invalid => exact ⟨trivial, trivial⟩

theorem andThen {k : State → List Event} {k' : State → Outcome} (hf : Follows D labels h es o)
    (hk : ∀ s h', h.Evolves h' → Shows D h' s → Follows D labels h' (k s) (k' s)) :
    Follows D labels h (es ++ o.events k) (o.andThen k') := by
  obtain ⟨hduring, hafter⟩ := hf
  cases o with
  | next s =>
    have hnext := hk s _ hafter.1 hafter.2
    refine ⟨showsAll_append hduring hnext.during, ?_⟩
    rw [History.after_append]
    exact hnext.after.trans hafter.1
  | branch l s =>
    simp only [Outcome.events, List.append_nil]
    exact ⟨hduring, hafter⟩
  | trap | invalid | exhausted =>
    simp only [Outcome.events, List.append_nil]
    exact ⟨hduring, trivial⟩

theorem leaving (hf : Follows D (label :: labels) h es o) :
    Follows D labels h es (o.leaving label) := by
  obtain ⟨hduring, hafter⟩ := hf
  cases o with
  | next s => exact ⟨hduring, hafter⟩
  | branch l s =>
    by_cases heq : l = label
    · rw [Outcome.leaving, if_pos heq]
      exact ⟨hduring, hafter.2⟩
    · rw [Outcome.leaving, if_neg heq]
      exact ⟨hduring, (List.mem_cons.mp hafter.1).resolve_left heq, hafter.2⟩
  | trap | invalid | exhausted => exact ⟨hduring, trivial⟩

theorem returning (hf : Follows D [] h es o) : Follows D [] h es (o.returning s) := by
  obtain ⟨hduring, hafter⟩ := hf
  cases o with
  | next s' => exact ⟨hduring, hafter⟩
  | branch | trap | invalid | exhausted => exact ⟨hduring, trivial⟩

theorem around {path : List String} {body : State → Outcome}
    {events : State → List Event}
    (hbody : ∀ h s, h.RunsIn path → Shows D h s →
      Follows D (label :: labels) h (events s) (body s))
    (n : Nat) (hr : h.RunsIn path) (hs : Shows D h s) :
    Follows D labels h (eventsAround label body events n s) (goAround label body n s) := by
  induction n generalizing h s with
  | zero => exact ⟨trivial, trivial⟩
  | succ n ih =>
    obtain ⟨hduring, hafter⟩ := hbody h s hr hs
    simp only [eventsAround, goAround]
    cases ho : body s with
    | next s' =>
      rw [ho] at hafter
      rw [List.append_nil]
      exact ⟨hduring, hafter⟩
    | branch l s' =>
      rw [ho] at hafter
      obtain ⟨hl, he, hs'⟩ := hafter
      by_cases heq : l = label
      · simp only [if_pos heq]
        have hnext := ih (he.runsIn hr) hs'
        refine ⟨showsAll_append hduring hnext.during, ?_⟩
        rw [History.after_append]
        exact hnext.after.trans he
      · simp only [if_neg heq, List.append_nil]
        exact ⟨hduring, (List.mem_cons.mp hl).resolve_left heq, he, hs'⟩
    | trap | invalid | exhausted =>
      rw [List.append_nil]
      exact ⟨hduring, trivial⟩

end Follows

end

/-- What the code of a procedure may set and call: what is declared in it and around it. -/
def scopeAccess (D : List Declared) (path : List String) : Access where
  get _ := True
  set id := ∃ home name, (home, .var name) ∈ D ∧ home <+: path ∧ id = qualify home name
  call id := ∃ home name body, (home, .procedure name body) ∈ D ∧ home <+: path ∧
    id = qualify home name

theorem scopeAccess_allows (D : List Declared) : Allows (scopeAccess D) D := by
  refine ⟨fun d hd => ?_, fun {path home e} name h => ?_⟩
  · obtain ⟨home, e⟩ := d
    cases e with
    | var name => exact ⟨trivial, home, name, hd, List.prefix_rfl, rfl⟩
    | const name v => trivial
    | procedure name body => exact ⟨home, name, body, hd, List.prefix_rfl, rfl⟩
  · have hlonger {q : List String} (hq : q <+: path) : q <+: path ++ [name] :=
      hq.trans (List.prefix_append _ _)
    cases e with
    | var n =>
      obtain ⟨-, q, n', hmem, hq, hid⟩ := h
      exact ⟨trivial, q, n', hmem, hlonger hq, hid⟩
    | const n v => trivial
    | procedure n body =>
      obtain ⟨q, n', body', hmem, hq, hid⟩ := h
      exact ⟨q, n', body', hmem, hlonger hq, hid⟩

theorem declaration?_eq {D : List Declared} {d : Declared} (hD : Catalogue D) (hd : d ∈ D) :
    declaration? D ("$" ++ dotted d.full) = some d := by
  cases hf : declaration? D ("$" ++ dotted d.full) with
  | none => exact absurd (List.find?_eq_none.mp hf d hd) (by simp)
  | some d' =>
    have hid : "$" ++ dotted d'.full = "$" ++ dotted d.full := by simpa using List.find?_some hf
    rw [hD.distinct _ (List.mem_of_find?_eq_some hf) _ hd ((String.append_right_inj "$").mp hid)]

section

variable {D : List Declared} {labels path home : List String} {h h' : History}
  {name : String} {s : State}

theorem Shows.assign (hD : Catalogue D) (hr : h.RunsIn path) (hs : Shows D h s)
    (hmem : (home, .var name) ∈ D) (hhome : home <+: path) (v : Int32) :
    Shows D (h.assign home name v) (s.set (qualify home name) v) := by
  intro q n hn
  rw [State.get_set, hr.value_assign hhome]
  by_cases heq : q = home ∧ n = name
  · rw [if_pos heq, if_pos (by rw [heq.1, heq.2])]
  · have hid : qualify home name ≠ qualify q n := by
      intro hid
      cases hD.distinct _ hmem _ hn hid
      exact heq ⟨rfl, rfl⟩
    rw [if_neg heq, if_neg hid]
    exact hs q n hn

theorem Follows.assign {global : String} (hD : Catalogue D) (hr : h.RunsIn path)
    (hs : Shows D h s) (hset : (scopeAccess D path).set global) (v : Int32) :
    Follows D labels h [.assign ("$" ++ global) v] (.next (s.set global v)) := by
  obtain ⟨home, name, hmem, hhome, rfl⟩ := hset
  have hstep : h.after D [.assign ("$" ++ qualify home name) v] = h.assign home name v := by
    have hfind : declaration? D ("$" ++ qualify home name) = some (home, .var name) :=
      declaration?_eq hD hmem
    simp only [History.after, List.foldl_cons, List.foldl_nil, History.step, hfind]
  refine ⟨⟨nofun, trivial⟩, ?_⟩
  rw [hstep]
  exact ⟨.assign hr hhome, hs.assign hD hr hmem hhome v⟩

/-- What calls may do in a state that shows the history. -/
structure CallsFollow (D : List Declared) (c : Calls)
    (callEvents : String → State → List Event) : Prop where
  write : ∀ v s, c.run Hook.write.id [v] s = .trap ∨ c.run Hook.write.id [v] s = .next (s.write v)
  procedure : ∀ {path h s id}, (scopeAccess D path).call id → h.RunsIn path → Shows D h s →
    Follows D [] h (callEvents ("$" ++ id) s) (c.run ("$" ++ id) [] s)

variable {c : Calls} {turns : Nat} {callEvents : String → State → List Event}

theorem follows_set {global : String} (x : Sexp) (hD : Catalogue D) (hr : h.RunsIn path)
    (hs : Shows D h s) (hset : (scopeAccess D path).set global) :
    Follows D labels h (eventsIn c turns callEvents (StackModule.set global x) s)
      (exec c turns (StackModule.set global x) s) :=
  .withValue _ fun v => .assign hD hr hs hset v

theorem follows_branchIf {label : String} (x : Sexp) (hlabel : label ∈ labels) (hs : Shows D h s) :
    Follows D labels h
      (eventsIn c turns callEvents (.list [.word "br_if", .word label, x]) s)
      (exec c turns (.list [.word "br_if", .word label, x]) s) := by
  refine .withValue_nil (x.eval (s.env c.value)) fun v => ?_
  by_cases hv : v ≠ 0
  · simp only [if_pos hv]
    exact .branch hlabel hs
  · simp only [if_neg hv]
    exact .next hs

end

mutual

theorem Code.follows {D : List Declared} {c : Calls} {turns : Nat}
    {callEvents : String → State → List Event} {path : List String} {labels : List Label}
    {h : History} {s : State} (hD : Catalogue D) (hc : CallsFollow D c callEvents) (code : Code)
    (hv : code.Valid (scopeAccess D path) labels) (hr : h.RunsIn path) (hs : Shows D h s) :
    Follows D (labels.map Label.text) h (eventsIn c turns callEvents code.sexp s)
      (code.exec c turns s) := by
  match code with
  | .set global value => exact follows_set _ hD hr hs hv.1
  | .read global => exact follows_set _ hD hr hs hv
  | .write value =>
    refine .withValue_nil ((exprSexp value).eval (s.env c.value)) fun v => ?_
    rcases hc.write v s with hrun | hrun
    · rw [hrun]
      exact .trap
    · rw [hrun]
      exact .next (s := s.write v) hs
  | .call function => exact (hc.procedure hv hr hs).mono (List.nil_subset _)
  | .ifElse cond body (some other) =>
    refine .withValue _ fun v => ?_
    by_cases hz : v ≠ 0
    · simp only [if_pos hz]
      exact Code.followsAll hD hc body hv.2.1 hr hs
    · simp only [if_neg hz]
      exact Code.followsAll hD hc other hv.2.2 hr hs
  | .ifElse cond body none =>
    refine .withValue _ fun v => ?_
    by_cases hz : v ≠ 0
    · simp only [if_pos hz]
      exact Code.followsAll hD hc body hv.2.1 hr hs
    · simp only [if_neg hz]
      exact .next hs
  | .block label body => exact .leaving (Code.followsAll hD hc body hv hr hs)
  | .loop label body =>
    exact .around (fun h s hr hs => Code.followsAll hD hc body hv hr hs) turns hr hs
  | .branch label => exact .branch (List.mem_map_of_mem hv) hs
  | .branchIfZero label value => exact follows_branchIf _ (List.mem_map_of_mem hv.1) hs
  | .branchUnlessBelow label global bound =>
    exact follows_branchIf _ (List.mem_map_of_mem hv.1) hs
  | .increment global => exact follows_set _ hD hr hs hv.2

theorem Code.followsAll {D : List Declared} {c : Calls} {turns : Nat}
    {callEvents : String → State → List Event} {path : List String} {labels : List Label}
    {h : History} {s : State} (hD : Catalogue D) (hc : CallsFollow D c callEvents)
    (codes : List Code) (hv : Code.ValidAll (scopeAccess D path) labels codes)
    (hr : h.RunsIn path) (hs : Shows D h s) :
    Follows D (labels.map Label.text) h (eventsInAll c turns callEvents (Code.sexpAll codes) s)
      (Code.execAll c turns codes s) := by
  match codes with
  | [] => exact .next hs
  | code :: rest =>
    have hrest : Follows D (labels.map Label.text) h
        (eventsIn c turns callEvents code.sexp s ++ (code.exec c turns s).events
          (eventsInAll c turns callEvents (Code.sexpAll rest)))
        ((code.exec c turns s).andThen (Code.execAll c turns rest)) :=
      (Code.follows hD hc code hv.1 hr hs).andThen fun s' h' he hs' =>
        Code.followsAll hD hc rest hv.2 (he.runsIn hr) hs'
    rw [Code.execAll_cons, Code.sexpAll, eventsInAll]
    refine ⟨⟨fun x s' heq => ?_, hrest.during⟩, hrest.after⟩
    cases heq
    exact hs

end

section

variable {D : List Declared} {d : Declared} {f : Function}

/-- A function saves the globals of all variables of its procedure. -/
theorem Function.Implements.mem_saved {A : List String → Access} (h : f.Implements A D d)
    (hD : Catalogue D) (hd : d ∈ D) (hproc : d.2.isProcedure = true) (id : String) :
    id ∈ f.saved ↔ ∃ n, (d.full, .var n) ∈ D ∧ id = qualify d.full n := by
  refine ⟨h.own id, ?_⟩
  rintro ⟨n, hn, rfl⟩
  obtain ⟨home, e⟩ := d
  cases e with
  | procedure name body =>
    rw [h.saved]
    exact hD.mem_savedAll hd hn
  | var | const => cases hproc

variable {path saved : List String} {h h' : History} {s s' : State}
  (hsaved : ∀ id, id ∈ saved ↔ ∃ n, (path, .var n) ∈ D ∧ id = qualify path n)

include hsaved

/-- The body of a function starts with its variables cleared. -/
theorem Shows.enter (hD : Catalogue D) (hs : Shows D h s) :
    Shows D (h.enter path) (cleared saved s) := by
  intro q n hn
  rw [cleared_get, History.value_enter]
  by_cases heq : q = path
  · rw [if_pos heq, if_pos ((hsaved _).mpr ⟨n, heq ▸ hn, heq ▸ rfl⟩)]
  · rw [if_neg heq, if_neg (not_mem_saved (k := ⟨q, []⟩) hsaved hD hn heq)]
    exact hs q n hn

/-- Behind it they are put back, from the locals, which the body has left alone. -/
theorem Shows.leave (hD : Catalogue D) (hs : Shows D h s) (he : (h.enter path).Evolves h')
    (hs' : Shows D h' s') (hlocals : s'.locals = (cleared saved s).locals) :
    Shows D h'.leave (restored saved s s') := by
  intro q n hn
  rw [restored_get hlocals, he.value_leave]
  by_cases heq : q = path
  · rw [if_pos heq, if_pos ((hsaved _).mpr ⟨n, heq ▸ hn, heq ▸ rfl⟩)]
    exact hs q n hn
  · rw [if_neg heq, if_neg (not_mem_saved (k := ⟨q, []⟩) hsaved hD hn heq)]
    exact hs' q n hn

/-- A call of a function whose body follows the history. -/
theorem Follows.call {id : String} {es : List Event} {o : Outcome} (hD : Catalogue D)
    (hs : Shows D h s) (hstep : h.step D (.enter id) = h.enter path)
    (hlocals : o.Keeps (cleared saved s).locals) (hbody : Follows D [] (h.enter path) es o) :
    Follows D [] h
      (.enter id :: es ++ ((o.andThen fun s' => .next (restoredFrom 0 saved s')).returning s).events
        fun _ => [.leave])
      ((o.andThen fun s' => .next (restoredFrom 0 saved s')).returning s) := by
  have hafter (es' : List Event) :
      h.after D (.enter id :: es ++ es') = ((h.enter path).after D es).after D es' := by
    rw [List.cons_append, History.after, List.foldl_cons, hstep]
    exact List.foldl_append
  have hends := hbody.after
  refine ⟨⟨nofun, ?_⟩, ?_⟩
  · rw [hstep]
    refine showsAll_append hbody.during ?_
    cases o with
    | next s' => exact ⟨nofun, trivial⟩
    | branch | trap | invalid | exhausted => trivial
  · cases o with
    | next s' =>
      obtain ⟨he, hs'⟩ := hends
      simp only [Outcome.andThen, Outcome.returning, Outcome.events, hafter]
      exact ⟨he.leave, hs.leave hsaved hD he hs' hlocals⟩
    | branch | trap | invalid | exhausted => trivial

end

theorem length_saving (slots : List (String × Nat)) : (saving slots).length = 2 * slots.length := by
  induction slots with
  | nil => rfl
  | cons g slots ih =>
    have hcons : (saving (g :: slots)).length = 2 + (saving slots).length := by
      simp only [saving, List.flatMap_cons, List.length_append]
      rfl
    rw [hcons, ih, List.length_cons]
    omega

section

variable {ρ : Type} {callees : List (String × Callee)} {meter : Meter ρ} {readValue : Int32}
  {turns depth : Nat} {r : ρ}

/-- The instructions around the body of a function are those that save and those that restore. -/
theorem bodyEvents_succ (saved : List String) (body : List Code) (s : State) :
    bodyEvents callees meter readValue turns (depth + 1) r (slots saved)
        (saving saved.zipIdx ++ Code.sexpAll body ++ restoring saved.zipIdx) s =
      eventsInAll (calls callees meter readValue r
          (callFunction callees meter readValue turns depth)) turns
        (callEvents callees meter r (callFunction callees meter readValue turns depth)
          (bodyEvents callees meter readValue turns depth))
        (Code.sexpAll body) (cleared saved s) := by
  have hslots : 2 * (slots saved).length = (saving saved.zipIdx).length := by
    rw [length_saving, slots, List.length_map]
  have hlength : (saving saved.zipIdx ++ Code.sexpAll body ++ restoring saved.zipIdx).length -
      3 * (slots saved).length = (Code.sexpAll body).length := by
    have hrestoring : (restoring saved.zipIdx).length = (slots saved).length := by
      simp [restoring, slots]
    rw [List.length_append, List.length_append, ← hslots, hrestoring]
    omega
  rw [bodyEvents, hlength, hslots, List.append_assoc, List.take_left, List.drop_left,
    List.take_left, execAll_saving]
  rfl

/-- The entry function has no globals to save. -/
theorem bodyEvents_entry (body : List Sexp) (s : State) :
    bodyEvents callees meter readValue turns (depth + 1) r [] body s =
      eventsInAll (calls callees meter readValue r
          (callFunction callees meter readValue turns depth)) turns
        (callEvents callees meter r (callFunction callees meter readValue turns depth)
          (bodyEvents callees meter readValue turns depth))
        body (s.enter []) := by
  simp [bodyEvents, execAll, Outcome.events]

variable {D : List Declared} {F : List Function}
  {function : ρ → List String → List Sexp → State → Outcome}
  {inside : ρ → List String → List Sexp → State → List Event}

/-- What the functions of procedures do, entered in a state that shows the history. -/
def FunctionsFollow (D : List Declared) (F : List Function)
    (function : ρ → List String → List Sexp → State → Outcome)
    (inside : ρ → List String → List Sexp → State → List Event) : Prop :=
  ∀ f ∈ F, ∀ r home name body path h s, (home, .procedure name body) ∈ D →
    f.Implements (scopeAccess D) D (home, .procedure name body) → home <+: path →
    h.RunsIn path → Shows D h s →
    let all := saving f.saved.zipIdx ++ Code.sexpAll f.body ++ restoring f.saved.zipIdx
    Follows D [] h
      (.enter ("$" ++ f.id) :: inside r (slots f.saved) all s ++
        (function r (slots f.saved) all s).events fun _ => [.leave])
      (function r (slots f.saved) all s)

variable (hD : Catalogue D) (hprovides : Provides callees F)

include hprovides

theorem FunctionsFollow.calls (h : FunctionsFollow D F function inside)
    (hdefines : Defines (scopeAccess D) D F D) (r : ρ) :
    CallsFollow D (StackModule.calls callees meter readValue r function)
      (callEvents callees meter r function inside) := by
  refine ⟨fun v s => ?_, ?_⟩
  · rw [hprovides.run_write]
    cases meter.enter Hook.write.id r with
    | none => exact .inl rfl
    | some r => exact .inr rfl
  · rintro path k s id ⟨home, name, body, hmem, hhome, rfl⟩ hr hs
    obtain ⟨f, hf, himpl⟩ := hdefines _ hmem rfl
    have hid : qualify home name = f.id := himpl.id.symm
    rw [hid, hprovides.run_function hf, callEvents, hprovides.function f hf, Function.callee]
    cases meter.enter ("$" ++ f.id) r with
    | none => exact .trap
    | some r => exact h f hf r home name body path k s hmem himpl hhome hr hs

include hD

theorem functionsFollow (hdefines : Defines (scopeAccess D) D F D) (depth : Nat) :
    FunctionsFollow D F (callFunction callees meter readValue turns depth)
      (bodyEvents callees meter readValue turns depth) := by
  induction depth with
  | zero =>
    intro f _ r home name body path h s _ _ _ _ _
    exact ⟨⟨nofun, trivial⟩, trivial⟩
  | succ depth ih =>
    intro f _ r home name body path h s hmem himpl hhome hr hs
    have hsaved := himpl.mem_saved hD hmem rfl
    have hstep : h.step D (.enter ("$" ++ f.id)) = h.enter (home ++ [name]) := by
      simp only [History.step, himpl.id, declaration?_eq hD hmem]
    simp only [callFunction_succ, bodyEvents_succ]
    exact .call hsaved hD hs hstep (Code.keepsLocalsAll calls_keepLocals f.body rfl)
      (Code.followsAll hD (ih.calls hprovides hdefines r) f.body himpl.body (hr.enter hhome)
        (hs.enter hsaved hD))

/-- A call leaves the variables of its procedure as they were. -/
theorem get_of_call {home : List String} {name x : String} {body : Block} {s s' : State}
    (hdefines : Defines (scopeAccess D) D F D) (hmem : (home, .procedure name body) ∈ D)
    (hx : (home ++ [name], .var x) ∈ D)
    (h : (calls callees meter readValue r (callFunction callees meter readValue turns depth)).run
      ("$" ++ qualify home name) [] s = .next s') :
    s'.get (qualify (home ++ [name]) x) = s.get (qualify (home ++ [name]) x) := by
  obtain ⟨f, hf, himpl⟩ := hdefines _ hmem rfl
  have hsaved := himpl.mem_saved hD hmem rfl
  have hid : qualify home name = f.id := himpl.id.symm
  rw [hid, hprovides.run_function hf] at h
  cases hr : meter.enter ("$" ++ f.id) r with
  | none =>
    rw [hr] at h
    cases h
  | some r =>
    rw [hr, Option.elim_some] at h
    cases depth with
    | zero => cases h
    | succ depth =>
      rw [callFunction_succ] at h
      have hlocals : (Code.execAll (calls callees meter readValue r
          (callFunction callees meter readValue turns depth)) turns f.body
          (cleared f.saved s)).Keeps (cleared f.saved s).locals :=
        Code.keepsLocalsAll calls_keepLocals f.body rfl
      generalize Code.execAll _ turns f.body (cleared f.saved s) = o at h hlocals
      cases o with
      | next s2 =>
        cases h
        exact (restored_get hlocals _).trans (if_pos ((hsaved _).mpr ⟨x, hx, rfl⟩))
      | branch | trap | invalid | exhausted => cases h

end

end StackModule

namespace Program

section

variable {p : Program} {M : StackModule} (h : p.Scoped)
  (hentry : Block.EmittedAll M.functions [] .initial p.blocks M.entry)

include h hentry

/-- Every part of the module sets and calls only what is declared around it. -/
theorem code_keeps_scopes : Code.ValidAll (scopeAccess p.declared []) [] M.entry ∧
    Defines (scopeAccess p.declared) p.declared M.functions p.declared :=
  Block.validAll (scopeAccess_allows p.declared) p.blocks hentry h
    (by simp [Access.Sees, Layer.initial]) (List.Subset.refl _)

/-- A whole run follows its history. -/
theorem follows (hglobals : M.globals = p.declared.filterMap Declared.global?)
    (hwell : M.WellFormed) {ρ : Type} (meter : Meter ρ) (readValue : Int32) (turns depth : Nat) :
    Follows p.declared [] .initial (events M.fields meter readValue turns depth)
      (run M.fields meter readValue turns depth) := by
  have hD := p.catalogue h
  have hstart : Shows p.declared .initial ((initialState M.fields).enter []) := fun path x hx =>
    (initialState_get h hglobals hx rfl).trans (History.value_initial path x).symm
  obtain ⟨hvalid, hdefines⟩ := code_keeps_scopes h hentry
  rw [run_fields, events, findSome?_entry, Option.elim_some]
  cases meter.enter ("$" ++ entryId) meter.start with
  | none => exact .trap
  | some r =>
    simp only [Option.elim_some, bodyEvents_entry]
    exact .returning (Code.followsAll hD
      ((functionsFollow hD hwell.provides hdefines depth).calls hwell.provides hdefines r)
      M.entry hvalid History.runsIn_initial hstart)

end

/-- In the text of the stack module of a program read from source text, run within any limits: wherever
an instruction of a body is about to run and behind the run, the global of a variable holds its value in
the most recent activation of the procedure that declares it, and zero while there is none. A call leaves
the variables of its procedure as they were, and behind the run all variables of procedures are zero. -/
theorem globals_show_activations {source : String} {p : Program} {t : Table}
    (hp : Program.ofSource source = .ok p) (ht : p.analyze = .ok t) :
    ∃ text fields, Target.stackModule.render p.code = .ok (text, []) ∧
      Field.allOfText? text = some fields ∧
      ∀ (ρ : Type) (meter : Meter ρ) readValue turns depth,
        (∀ before x s rest, events fields meter readValue turns depth =
            before ++ .reach x s :: rest → ∀ path v, (path, .var v) ∈ p.declared →
          s.globals.getD ("$" ++ qualify path v) 0 =
            (History.initial.after p.declared before).value path v) ∧
        (∀ home name body v, (home, .procedure name body) ∈ p.declared →
          (home ++ [name], .var v) ∈ p.declared → ∀ r s s',
            (StackModule.calls (fields.filterMap callee?) meter readValue r (callFunction
              (fields.filterMap callee?) meter readValue turns depth)).run
                ("$" ++ qualify home name) [] s = .next s' →
            s'.globals.getD ("$" ++ qualify (home ++ [name]) v) 0 =
              s.globals.getD ("$" ++ qualify (home ++ [name]) v) 0) ∧
        ∀ s, run fields meter readValue turns depth = .next s →
          ∀ path v, (path, .var v) ∈ p.declared →
            s.globals.getD ("$" ++ qualify path v) 0 = (History.initial.after p.declared
              (events fields meter readValue turns depth)).value path v ∧
            (path ≠ [] → s.globals.getD ("$" ++ qualify path v) 0 = 0) := by
  have h := Program.scoped_of_source hp ht
  obtain ⟨M, hM, hwell, hglobals, -, hentry⟩ := p.emits_wellFormed h
  refine ⟨M.text, M.fields, hM, hwell.allOfText?_text,
    fun ρ meter readValue turns depth => ?_⟩
  have hfollows := Program.follows h hentry hglobals hwell meter readValue turns depth
  refine ⟨fun before x s rest hes path v hv => ?_, fun home name body v hmem hv r s s' hcall => ?_,
    fun s hs path v hv => ?_⟩
  · have hduring := hfollows.during
    rw [hes] at hduring
    exact hduring.reach path v hv
  · exact get_of_call (p.catalogue h) hwell.provides (Program.code_keeps_scopes h hentry).2 hmem hv
      hcall
  · have hafter := hfollows.after
    rw [hs] at hafter
    obtain ⟨he, hshows⟩ := hafter
    refine ⟨hshows path v hv, fun hpath => (hshows path v hv).trans (History.value_none ?_)⟩
    rw [he.active]
    exact latest_of_ne hpath.symm

set_option maxRecDepth 1000 in
/-- A procedure calls itself with its variable set through a procedure inside it, and writes the
variable when that call is left. -/
theorem globals_show_activations_again : ∃ source p t text fields s,
    source =
        "var n;procedure p;var x;begin procedure q;x:=n+5;q;if n<1 then n:=1;p;write x;endif;end;p;" ∧
      Program.ofSource source = .ok p ∧ p.analyze = .ok t ∧
      Target.stackModule.render p.code = .ok (text, []) ∧ Field.allOfText? text = some fields ∧
      run fields .unlimited 0 9 9 = .next s ∧ s.output = #[5] ∧ s.globals.getD "$p.x" 0 = 0 := by
  obtain ⟨source, p, t, hsource, hp, ht, hexec, hvar⟩ : ∃ source p t,
      source =
          "var n;procedure p;var x;begin procedure q;x:=n+5;q;if n<1 then n:=1;p;write x;endif;end;p;" ∧
        Program.ofSource source = .ok p ∧ p.analyze = .ok t ∧
        (p.exec operate 0 9).bind (fun σ => .done σ.output) = .done #[5] ∧
        p.declared[2]? = some (["p"], .var "x") :=
    ⟨_, _, _, rfl, rfl, rfl, by decide +kernel, rfl⟩
  have h := Program.scoped_of_source hp ht
  obtain ⟨M, hM, hwell, hglobals, -, hentry⟩ := p.emits_wellFormed h
  obtain ⟨text, fields, htext, hfields, hshows⟩ := globals_show_activations hp ht
  obtain rfl : M.text = text := congrArg Prod.fst (Except.ok.inj (hM.symm.trans htext))
  obtain rfl : M.fields = fields := Option.some.inj (hwell.allOfText?_text.symm.trans hfields)
  have hmirrors := Program.mirrors h hglobals hwell.provides hentry 0 9
  cases hres : p.exec operate 0 9 with
  | fault | exhausted =>
    rw [hres] at hexec
    cases hexec
  | done σ =>
    rw [hres] at hexec hmirrors
    obtain ⟨s, hs, hout, -⟩ := hmirrors
    have hzero := ((hshows Unit .unlimited 0 9 9).2.2 s hs ["p"] "x" (List.mem_of_getElem? hvar)).2
    exact ⟨source, p, t, M.text, M.fields, s, hsource, hp, ht, hM, hfields, hs,
      hout.trans (Meaning.Result.done.inj hexec), hzero (by decide)⟩

end Program

end PLZero
