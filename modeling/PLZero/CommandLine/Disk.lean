import PLZero.Compile.BuildError
import PLZero.Files.Sources
import PLZero.Text.Lines

/-! The disk that the command line is run on: a directory tree, with paths of at most 4095 bytes and
names of at most 255, which never fails to give what it holds. -/

namespace PLZero

namespace Entry

def setIn (name : FileName) (e : Entry) : List (FileName × Entry) → List (FileName × Entry)
  | [] => [(name, e)]
  | (n, old) :: rest => if n = name then (n, e) :: rest else (n, old) :: setIn name e rest

/-- The tree with another entry at a list of names; directories on the way must be there. -/
def put : List FileName → Entry → Entry → Option Entry
  | [], _, new => some new
  | _ :: _, file _, _ => none
  | [name], dir entries, new => some (dir (setIn name new entries))
  | name :: rest, dir entries, new => do
    let child ← entries.lookup name
    return dir (setIn name (← put rest child new) entries)

mutual

/-- All names in the tree: depth first, the entries of each directory by their names. -/
def walk : Entry → List (List FileName)
  | .file _ => [[]]
  | .dir entries =>
    [] :: ((walkEach entries).mergeSort fun a b => !(b.1 < a.1)).flatMap fun p => p.2.map (p.1 :: ·)

def walkEach : List (FileName × Entry) → List (FileName × List (List FileName))
  | [] => []
  | (name, e) :: rest => (name, walk e) :: walkEach rest

end

end Entry

namespace Path

def parts (path : String) : List String := (Text.splitAt '/' path.toList).map String.ofList

def byteLimit : Nat := 4095

def nameLimit : Nat := 255

def isUsable (path : String) : Bool :=
  path.utf8ByteSize ≤ byteLimit && !path.any (·.toNat == 0)

def isStay (part : String) : Bool := part == "" || part == "."

/-- Follows parts from the place `here` in a tree: each part needs a directory to go on from. -/
def follow (tree : Entry) : List FileName → List String → Option (List FileName)
  | here, [] => if (tree.get? here).isSome then some here else none
  | here, part :: rest =>
    match tree.get? here with
    | some (.dir _) =>
      if isStay part then follow tree here rest
      else if part = ".." then (if here = [] then none else follow tree here.dropLast rest)
      else follow tree (here ++ [Text.bytes part]) rest
    | _ => none

def resolve (tree : Entry) (path : String) : Option (List FileName) :=
  if path = "" || !isUsable path then none else follow tree [] (parts path)

def entry? (tree : Entry) (path : String) : Option Entry :=
  (resolve tree path).bind fun names => tree.get? names

/-- Parts without those at the end that stay in place; a leading one is kept. -/
def dropStays : List String → List String
  | [] => []
  | first :: rest => first :: (rest.reverse.dropWhile isStay).reverse

/-- The path without its last part; empty for a path of one part. -/
def parent (path : String) : String := "/".intercalate (dropStays (dropStays (parts path)).dropLast)

def makeDir? (tree : Entry) (here : List FileName) (name : FileName) : Option Entry :=
  if nameLimit < name.length then none else tree.put (here ++ [name]) .emptyDir

/-- Makes the directories on the way along parts, as far as they are missing. What was made before a
part that cannot be followed stays; the answer is whether all parts could. -/
def makeDirs : Entry → List FileName → List String → Entry × Bool
  | tree, _, [] => (tree, true)
  | tree, here, part :: rest =>
    if isStay part then makeDirs tree here rest
    else if part = ".." then
      if here = [] then (tree, false) else makeDirs tree here.dropLast rest
    else
      let there := here ++ [Text.bytes part]
      match tree.get? there with
      | some (.dir _) => makeDirs tree there rest
      | some (.file _) => (tree, false)
      | none => match makeDir? tree here (Text.bytes part) with
        | some tree => makeDirs tree there rest
        | none => (tree, false)

def createDirs (tree : Entry) (path : String) : Entry × Bool :=
  if isUsable path then makeDirs tree [] (parts path) else (tree, false)

/-- Writes a file into a directory that is there; a directory is not overwritten. -/
def writeFile (tree : Entry) (path : String) (contents : ByteArray) : Option Entry := do
  let ps := parts path
  let name ← ps.getLast?
  if !isUsable path || nameLimit < name.utf8ByteSize || isStay name || name == ".." then none
  else
    let there := (← follow tree [] ps.dropLast) ++ [Text.bytes name]
    match tree.get? there with
    | some (.dir _) => none
    | _ => tree.put there (.file contents)

def below (root : String) (names : List FileName) : String :=
  root ++ (if root.endsWith "/" then "" else "/") ++ "/".intercalate (names.map Text.lossy)

end Path

def Entry.access (e : Entry) (root : String) : FileAccess Empty where
  isDir := e.isDir
  walk := e.walk.map .ok
  isFile names := Path.isUsable (Path.below root names) && (e.get? names).any (!·.isDir)
  read names := match e.get? names with
    | some (.file contents) => .ok contents
    | _ => .ok .empty

def BuildError.ofLoad : LoadError Empty → BuildError
  | .missingRoot path => .missingRoot path
  | .unreadable (.failed reason) => reason.elim
  | .unreadable .notText => .notText

namespace SourceFile

def inDirectory (e : Entry) (root : String) : Except BuildError (List SourceFile) :=
  match below (e.access root) root with
  | .ok files => .ok files
  | .error e => .error (.ofLoad e)

def load (tree : Entry) (root : String) : Except BuildError (List SourceFile) :=
  match Path.entry? tree root with
  | some e => inDirectory e root
  | none => .error (.missingRoot root)

end SourceFile

end PLZero
