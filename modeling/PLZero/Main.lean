import PLZero.CommandLine.World

/-! The program: reads its input, prints what the command line answers, writes the output file. -/

open PLZero
open PLZero.CommandLine

namespace PLZero.CommandLine

def UsageError.message : UsageError → String
  | .unknownArgument => "unexpected argument"
  | .missingValue => "an option needs a value"
  | .malformedValue => "the value of an option is malformed"
  | .repeated => "an option is given twice"
  | .unneededValue => "a switch takes no value"
  | .help => "PL/0 compiler and debugger"
  | .version => "0.1.0"

def helpText : String :=
  "PL/0 compiler and debugger\n\n"
    ++ "  -i, --input PATH       source file, or a directory whose .pl0 files are checked\n"
    ++ "  -o, --output PATH      output file\n"
    ++ "      --emit FORMAT      wat, script or report\n"
    ++ "      --stages LIST      stages of a report, separated by commas\n"
    ++ "      --target KIND      target of a report: wat or script\n"
    ++ "      --run              run the program if the output is wat\n"
    ++ "      --read-value VALUE what every read yields\n"
    ++ "      --debug            print the pauses of a debug session\n"
    ++ "      --break LINE       a breakpoint\n"
    ++ "      --step             pause at every line\n"
    ++ "  -v, --verbose          report the stages\n"

partial def readEntry (path : String) : IO Entry := do
  let here := (← IO.currentDir) / path
  if ← here.isDir then
    let names := (← here.readDir).map (·.fileName)
    return .dir (← names.toList.mapM fun name => do
      return (Text.bytes name, ← readEntry (path ++ "/" ++ name)))
  else return .file (← IO.FS.readBinFile here)

/-- A directory is checked as the source files under it. -/
def readInput (o : Options) : IO Input := do
  match o.input with
  | none => return .text (← (← IO.getStdin).readToEnd)
  | some path =>
    try
      match ← readEntry path with
      | .dir entries =>
        return .sources (SourceFile.inDirectory (.dir entries) path)
      | .file contents => match String.fromUTF8? contents with
        | some source => return .text source
        | none => return .unreadable path
    catch _ => return .unreadable path

def succeeds (action : IO Unit) : IO Bool := do
  try
    action
    return true
  catch _ => return false

def writeOutput (path text : String) : IO (Option String) := do
  let parent := Path.parent path
  if parent = "" || (← succeeds (IO.FS.createDirAll parent)) then
    return if ← succeeds (IO.FS.writeFile path text) then none else some (writeFailure path)
  else return some (createFailure path)

def perform (o : Options) : IO UInt32 := do
  let r := o.respond (← readInput o)
  if o.verbose then IO.eprint (World.lines r.trace)
  let failed ← match r.output, o.output with
    | some text, some path => writeOutput path text
    | some text, none => do
      IO.print text
      pure none
    | none, _ => pure none
  match failed with
  | some message =>
    IO.eprintln s!"Error: {message}"
    return 1
  | none =>
    IO.print r.printed
    IO.eprint (World.lines r.notes)
    match r.failure with
    | some message =>
      IO.eprintln s!"Error: {message}"
      return 1
    | none => return 0

end PLZero.CommandLine

def main (args : List String) : IO UInt32 := do
  match Options.ofArgs args with
  | .ok o => perform o
  | .error .help =>
    IO.print helpText
    return 0
  | .error .version =>
    IO.println (UsageError.message .version)
    return 0
  | .error e =>
    IO.eprintln s!"error: {e.message}"
    return 2
