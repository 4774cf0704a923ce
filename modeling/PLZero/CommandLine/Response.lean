import PLZero.CommandLine.Cells
import PLZero.CommandLine.Options
import PLZero.Compile.Report
import PLZero.Files.Sources
import PLZero.Replay.Session

/-! What the command line answers to its options and its input. -/

namespace PLZero.CommandLine

inductive Input
  | text (source : String)
  | sources (files : Except BuildError (List SourceFile))
  | unreadable (path : String)

structure Response where
  trace : List String
  /-- The text for the output file, or for standard output. -/
  output : Option String
  /-- What follows on standard output, once the output is written. -/
  printed : String
  notes : List String
  failure : Option String

namespace Response

def failed (message : String) (trace : List String) : Response := ⟨trace, none, "", [], some message⟩

end Response

/-- How often a loop may go around, which is more often than any run will take. -/
def turnLimit : Nat := 1 <<< 62

/-- How many calls may be open in the entry function. -/
def callLimit : Nat := 999

/-- The cells, one more than the open functions may take. -/
def cellLimit : Nat := 1000000

/-- The slots that one function may take to be run at all. -/
def widestFunction : Nat := 32768

def written (text : String) (readValue : Int32) : Except String (List Int32) :=
  match Field.allOfText? text with
  | none => .error "failed to compile stack module"
  | some fields =>
    let cells := functionCells fields
    if cells.any (widestFunction < ·.2.slots) then .error "failed to compile stack module"
    else match StackModule.run fields (meter cells cellLimit) readValue turnLimit callLimit with
      | .next s => .ok s.output.toList
      | _ => .error "failed to execute main"

def wordLines (values : List Int32) : String := String.join (values.map fun v => Text.ofWord v ++ "\n")

namespace Options

def moduleResponse (o : Options) (source : String) : Response :=
  let built := Target.stackModule.build source
  match built.value with
  | .error e => .failed e.message built.trace
  | .ok text =>
    let response : Response := ⟨built.trace, some text, "", [], none⟩
    if o.run then
      match written text o.readValue with
      | .ok values => { response with printed := wordLines values }
      | .error message => { response with failure := some message }
    else response

def scriptResponse (o : Options) (source : String) : Response :=
  let built := Target.script.build source
  match built.value with
  | .error e => .failed e.message built.trace
  | .ok text =>
    ⟨built.trace, some text, "", if o.run then ["--run is ignored for non-wat outputs"] else [], none⟩

def reportResponse (o : Options) (source : String) : Response :=
  let stages := match o.stages with
    | some list => StageSet.ofNames list
    | none => .ok .all
  match stages with
  | .error name => .failed (Stage.unknownMessage name) []
  | .ok stages =>
    let report := Report.compile source stages o.target
    ⟨report.trace, some report.value.json.pretty, "", [],
      if report.value.succeeded then none else some "one or more stages failed"⟩

/-- Repeats a command until the program has ended, at most `n` times: every event as a document. -/
def drive (c : Replay.Command) : Nat → Replay.Session → Traced (Except ReplayError (List String))
  | 0, _ => ⟨.ok [], []⟩
  | n + 1, s =>
    let reply := s.command c
    match reply.result with
    | .error e => ⟨.error e, reply.trace⟩
    | .ok event =>
      if event.isFinished then ⟨.ok [event.json.compact], reply.trace⟩
      else
        let more := drive c n reply.session
        ⟨more.value.map (event.json.compact :: ·), reply.trace ++ more.trace⟩

def eventsResponse (scanned : List String) (driven : Traced (Except ReplayError (List String))) : Response :=
  let trace := scanned ++ driven.trace
  match driven.value with
  | .error e => .failed e.message trace
  | .ok events => ⟨trace, some ("\n".intercalate events ++ "\n"), "", [], none⟩

/-- Every pause takes at least one step more than the one before, so the step limit bounds them. -/
def debugResponse (o : Options) (source : String) : Response :=
  let scanned := (Scan.ofSource source).trace
  let config : Replay.Config := ⟨o.readValue, Replay.Config.default.maxSteps⟩
  match Replay.Session.start source o.breakpoints config with
  | .error e => .failed e.message scanned
  | .ok session =>
    eventsResponse scanned (drive (if o.step then .stepOver else .continue) (config.maxSteps + 2) session)

def textResponse (o : Options) (source : String) : Response :=
  if o.debug then o.debugResponse source
  else match o.emit with
    | "wat" => o.moduleResponse source
    | "script" => o.scriptResponse source
    | "report" => o.reportResponse source
    | other => .failed s!"unsupported emit format: {other}" []

end Options

def verdict (path : String) (report : Report) : String :=
  if report.succeeded then s!"{path}: ok\n"
  else String.join (report.diagnostics.map fun (stage, d) => s!"{path}: {stage.name}: {d}\n")

def checkResponse (files : List SourceFile) : Response :=
  let reports := files.map fun f => (f.path, Report.compile f.contents .all .stackModule)
  let failures := reports.filter fun r => !r.2.value.succeeded
  { trace := reports.flatMap fun r => r.2.trace
    output := none
    printed := String.join (reports.map fun r => verdict r.1 r.2.value)
    notes := []
    failure :=
      if failures.isEmpty then none
      else some s!"{failures.length} of {files.length} files failed to compile" }

def Options.respond (o : Options) : Input → Response
  | .text source => o.textResponse source
  | .sources (.ok files) => checkResponse files
  | .sources (.error e) => .failed e.message []
  | .unreadable path => .failed s!"failed to read input file {path}" []

end PLZero.CommandLine
