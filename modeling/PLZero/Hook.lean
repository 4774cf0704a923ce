/-! Functions that the host of a compiled program supplies: one yields the next value read, one takes
a value written. -/

namespace PLZero

structure Hook where
  name : String
  source : String
  params : Nat
  results : Nat
  deriving DecidableEq, Repr

namespace Hook

def read : Hook := ⟨"read", "env", 0, 1⟩

def write : Hook := ⟨"write", "env", 1, 0⟩

def all : List Hook := [read, write]

/-- The identifier of the import. Source names hold no underscore. -/
def id (h : Hook) : String := "$__" ++ h.name

def importText (h : Hook) : String :=
  let signature := String.join (List.replicate h.params " (param i32)")
    ++ String.join (List.replicate h.results " (result i32)")
  "(import \"" ++ h.source ++ "\" \"" ++ h.name ++ "\" (func " ++ h.id ++ signature ++ "))"

end Hook

end PLZero
