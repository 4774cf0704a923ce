import PLZero.Files
import PLZero.Text.Utf8

/-! The source files below a directory. What a file system answers is given: the walk along the
directory, and what stands at the names that it comes to. -/

namespace PLZero

/-- What can be asked about the files below a directory, where `ε` says why an answer fails. -/
structure FileAccess (ε : Type) where
  isDir : Bool
  /-- The names that a walk comes to, one after the other. -/
  walk : List (Except ε (List FileName))
  isFile : List FileName → Bool
  read : List FileName → Except ε ByteArray

inductive ReadError (ε : Type)
  | failed (reason : ε)
  | notText

inductive LoadError (ε : Type)
  | missingRoot (path : String)
  | unreadable (e : ReadError ε)

structure SourceFile where
  /-- From the directory that was searched. -/
  names : List FileName
  contents : String
  deriving DecidableEq, Repr

namespace SourceFile

variable {ε : Type}

def path (f : SourceFile) : String := "/".intercalate (f.names.map Text.lossy)

def sourceExtension : FileName := Text.bytes "pl0"

def dot : UInt8 := '.'.toUInt8

/-- What follows the last dot of a file name, if something stands before that dot. -/
def extension? (name : FileName) : Option FileName :=
  if (name.reverse.dropWhile (· != dot)).length ≤ 1 then none
  else some (name.reverse.takeWhile (· != dot)).reverse

def isSource (names : List FileName) : Bool :=
  names.getLast?.any fun name => extension? name == some sourceExtension

def readText (fs : FileAccess ε) (names : List FileName) : Except (ReadError ε) String :=
  match fs.read names with
  | .error reason => .error (.failed reason)
  | .ok data => match String.fromUTF8? data with
    | some text => .ok text
    | none => .error .notText

/-- The source files among names, up to the first that cannot be read. -/
def collect (fs : FileAccess ε) : List (List FileName) → Except (ReadError ε) (List SourceFile)
  | [] => .ok []
  | names :: rest =>
    if fs.isFile names && isSource names then
      match readText fs names with
      | .error e => .error e
      | .ok text => match collect fs rest with
        | .error e => .error e
        | .ok files => .ok (⟨names, text⟩ :: files)
    else collect fs rest

/-- The source files below the directory `root`. Where the walk fails it goes on. -/
def below (fs : FileAccess ε) (root : String) : Except (LoadError ε) (List SourceFile) :=
  if fs.isDir then
    match collect fs (fs.walk.filterMap Except.toOption) with
    | .ok files => .ok files
    | .error e => .error (.unreadable e)
  else .error (.missingRoot root)

end SourceFile

end PLZero
