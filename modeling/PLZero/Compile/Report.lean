import PLZero.Compile.Build
import PLZero.Compile.Stage
import PLZero.Program.Json

/-! Compilation stage by stage. A report has the outcome of every stage that was asked for; a stage
whose prerequisites failed names the stage that failed first. -/

namespace PLZero

inductive StageError
  | parse (e : ParseError)
  | scope (e : ScopeError)
  | code (e : CodeError)
  /-- The stage did not run because of an earlier one. -/
  | blocked (stage : Stage)
  deriving DecidableEq, Repr

def StageError.message : StageError → String
  | .parse e => e.message
  | .scope e => e.message
  | .code e => e.message
  | .blocked stage => s!"not run because the {stage.name} stage failed"

abbrev Outcome (α : Type) := Except StageError α

structure TargetText where
  target : Target
  text : String
  deriving DecidableEq, Repr

def TargetText.json (t : TargetText) : Json :=
  .obj [("kind", .str t.target.name), ("text", .str t.text)]

namespace Outcome

def json (output : α → Json) : Outcome α → Json
  | .ok a => .obj [("status", .str "ok"), ("output", output a)]
  | .error e => .obj [("status", .str "failed"), ("diagnostic", .str e.message)]

def diagnostic? : Outcome α → Option String
  | .ok _ => none
  | .error e => some e.message

end Outcome

structure Report where
  lexical : Option (Outcome Scan)
  syntactic : Option (Outcome Program)
  semantic : Option (Outcome Table)
  intermediate : Option (Outcome (List Instr))
  target : Option (Outcome TargetText)

namespace Report

def diagnostics (r : Report) : List (Stage × String) :=
  [(.lexical, r.lexical.bind Outcome.diagnostic?), (.syntactic, r.syntactic.bind Outcome.diagnostic?),
   (.semantic, r.semantic.bind Outcome.diagnostic?),
   (.intermediate, r.intermediate.bind Outcome.diagnostic?),
   (Stage.target, r.target.bind Outcome.diagnostic?)].filterMap fun (stage, d) => d.map (stage, ·)

def succeeded (r : Report) : Bool := r.diagnostics.isEmpty

def json (r : Report) : Json :=
  .obj ([(Stage.lexical, r.lexical.map (Outcome.json Scan.json)),
    (.syntactic, r.syntactic.map (Outcome.json Program.json)),
    (.semantic, r.semantic.map (Outcome.json Table.json)),
    (.intermediate, r.intermediate.map (Outcome.json fun code => .arr (code.map Instr.json))),
    (.target, r.target.map (Outcome.json TargetText.json))].filterMap
      fun (stage, j) => j.map (stage.name, ·))

end Report

structure Progress where
  needed : StageSet
  succeeded : StageSet
  firstFailure : Option Stage
  trace : List String

namespace Progress

/-- The stage that keeps another one from running. -/
def blocker (p : Progress) (stage : Stage) : Option Stage :=
  (stage.prerequisites.find? (!p.succeeded.contains ·)).map p.firstFailure.getD

def record (p : Progress) (stage : Stage) (result : Traced (Outcome α)) : Progress :=
  match result.value with
  | .ok _ =>
    { p with
      succeeded := p.succeeded.insert stage
      trace := p.trace ++ result.trace ++ [s!"compile: {stage.name} stage ok"] }
  | .error e =>
    { p with
      firstFailure := p.firstFailure.or (some stage)
      trace := p.trace ++ result.trace ++ [s!"compile: {stage.name} stage failed: {e.message}"] }

/-- Runs a stage, if it is needed and nothing keeps it from running. -/
def run (p : Progress) (stage : Stage) (body : Unit → Traced (Outcome α)) :
    Option (Outcome α) × Progress :=
  if p.needed.contains stage then
    let result := match p.blocker stage with
      | some b => ⟨.error (.blocked b), []⟩
      | none => body ()
    (some result.value, p.record stage result)
  else (none, p)

end Progress

namespace Report

def given (stage : Stage) (earlier : Option (Outcome α)) (f : α → Traced (Outcome β)) :
    Traced (Outcome β) :=
  match earlier with
  | some (.ok a) => f a
  | _ => ⟨.error (.blocked stage), []⟩

def compile (source : String) (stages : StageSet) (target : Target) : Traced Report :=
  let (scan, p) := (⟨stages.closure, .empty, none, []⟩ : Progress).run .lexical fun () =>
    let scan := Scan.ofSource source
    ⟨.ok scan, scan.trace⟩
  let (program, p) := p.run .syntactic fun () =>
    given .lexical scan fun scan => ⟨(Program.ofTokens scan.tokens).mapError .parse, []⟩
  let (symbols, p) := p.run .semantic fun () =>
    given .syntactic program fun program => ⟨program.analyze.mapError .scope, []⟩
  let (code, p) := p.run .intermediate fun () =>
    given .syntactic program fun program =>
      given .semantic symbols fun _ => ⟨.ok program.code, []⟩
  let (text, p) := p.run .target fun () =>
    given .intermediate code fun code =>
      let lowered := target.lower code
      ⟨(lowered.value.map (TargetText.mk target)).mapError .code, lowered.trace⟩
  { value := {
      lexical := scan.filter fun _ => stages.contains .lexical
      syntactic := program.filter fun _ => stages.contains .syntactic
      semantic := symbols.filter fun _ => stages.contains .semantic
      intermediate := code.filter fun _ => stages.contains .intermediate
      target := text.filter fun _ => stages.contains .target }
    trace := p.trace }

end Report

end PLZero
