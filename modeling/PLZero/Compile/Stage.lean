import PLZero.Text.Blank
import PLZero.Text.Lines

/-! The stages of a compilation and sets of them. -/

namespace PLZero

inductive Stage
  | lexical | syntactic | semantic | intermediate | target
  deriving DecidableEq, Repr

namespace Stage

def all : List Stage := [lexical, syntactic, semantic, intermediate, target]

def name : Stage → String
  | lexical => "lexical"
  | syntactic => "syntax"
  | semantic => "semantic"
  | intermediate => "intermediate"
  | target => "target"

def ofName? (s : String) : Option Stage := all.find? (·.name == s)

def unknownMessage (s : String) : String := s!"unknown stage: {s}"

/-- The stages whose results a stage works on. -/
def prerequisites : Stage → List Stage
  | lexical => []
  | syntactic => [lexical]
  | semantic => [syntactic]
  | intermediate => [syntactic, semantic]
  | target => [intermediate]

end Stage

structure StageSet where
  lexical : Bool
  syntactic : Bool
  semantic : Bool
  intermediate : Bool
  target : Bool
  deriving DecidableEq, Repr

namespace StageSet

def empty : StageSet := ⟨false, false, false, false, false⟩

def contains (s : StageSet) : Stage → Bool
  | .lexical => s.lexical
  | .syntactic => s.syntactic
  | .semantic => s.semantic
  | .intermediate => s.intermediate
  | .target => s.target

def insert (s : StageSet) : Stage → StageSet
  | .lexical => { s with lexical := true }
  | .syntactic => { s with syntactic := true }
  | .semantic => { s with semantic := true }
  | .intermediate => { s with intermediate := true }
  | .target => { s with target := true }

def insertAll (s : StageSet) (stages : List Stage) : StageSet := stages.foldl insert s

def ofList (stages : List Stage) : StageSet := empty.insertAll stages

def all : StageSet := ofList Stage.all

def toList (s : StageSet) : List Stage := Stage.all.filter s.contains

def isEmpty (s : StageSet) : Bool := s = empty

/-- The set with all that its stages depend on. A stage depends on earlier ones only, so one pass from
the last stage to the first is enough. -/
def closure (s : StageSet) : StageSet :=
  Stage.all.foldr (fun stage s => if s.contains stage then s.insertAll stage.prerequisites else s) s

/-- The stages named between commas, blanks around a name and empty places left out; or the first name
that is no stage. -/
def ofNames (list : String) : Except String StageSet := do
  let names := ((Text.splitAt ',' list.toList).map Text.trim).filter (!·.isEmpty)
  let stages ← names.mapM fun cs =>
    match Stage.ofName? (String.ofList cs) with
    | some stage => .ok stage
    | none => .error (String.ofList cs)
  return ofList stages

end StageSet

end PLZero
