import PLZero.CommandLine.Disk
import PLZero.CommandLine.Response
import PLZero.Text.Quoted

/-! The command line run on a directory tree and a standard input. -/

namespace PLZero.CommandLine

structure World where
  tree : Entry
  stdin : String

structure Ended where
  tree : Entry
  stdout : String
  stderr : String
  failure : Option String

def createFailure (path : String) : String :=
  "failed to create directory " ++ Text.quoted (Path.parent path)

def writeFailure (path : String) : String := s!"failed to write output file {path}"

namespace World

def input (w : World) (o : Options) : Input :=
  match o.input with
  | none => .text w.stdin
  | some path =>
    match Path.entry? w.tree path with
    | some (.dir _) => .sources (SourceFile.load w.tree path)
    | some (.file contents) => match String.fromUTF8? contents with
      | some source => .text source
      | none => .unreadable path
    | none => .unreadable path

/-- The tree with the output in its file, or what failed; the directory of the file is made if it is
missing, and is left there if the file cannot be written. -/
def save (tree : Entry) (path text : String) : Entry × Option String :=
  let parent := Path.parent path
  let (tree, made) := if parent = "" then (tree, true) else Path.createDirs tree parent
  if made then
    match Path.writeFile tree path text.toUTF8 with
    | some tree => (tree, none)
    | none => (tree, some (writeFailure path))
  else (tree, some (createFailure path))

def lines (ls : List String) : String := String.join (ls.map (· ++ "\n"))

def finish (w : World) (o : Options) (r : Response) : Ended :=
  let trace := if o.verbose then lines r.trace else ""
  let ended (tree : Entry) (shown : String) : Ended :=
    ⟨tree, shown ++ r.printed, trace ++ lines r.notes, r.failure⟩
  match r.output, o.output with
  | some text, some path =>
    match save w.tree path text with
    | (tree, none) => ended tree ""
    | (tree, some message) => ⟨tree, "", trace, some message⟩
  | some text, none => ended w.tree text
  | none, _ => ended w.tree ""

def run (w : World) (o : Options) : Ended := w.finish o (o.respond (w.input o))

end World

end PLZero.CommandLine
