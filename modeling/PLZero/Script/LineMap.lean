import PLZero.Text.Blank
import PLZero.Text.Decimal
import PLZero.Text.Lines

/-! Source lines and script lines, matched by the source lines noted behind script lines. -/

namespace PLZero

/-- A source line and the first script line, counted from one, that notes it. -/
structure LineMap.Entry where
  source : Nat
  script : Nat
  deriving DecidableEq, Repr

structure LineMap where
  entries : List LineMap.Entry
  deriving DecidableEq, Repr

namespace LineMap

/-- The source line noted behind the last `// ` of a line. -/
def noted (line : List Char) : Option Nat :=
  (Text.behindLast ['/', '/', ' '] line).bind fun note => Text.readCount (Text.trim note)

/-- The entries of lines the first of which has the number `n`, behind those found before, the latest of
them first. A note that an earlier line has too is left out. -/
def collect (found : List Entry) (n : Nat) : List (List Char) → List Entry
  | [] => found.reverse
  | line :: rest =>
    match noted line with
    | some source =>
      if found.any (·.source == source) then collect found (n + 1) rest
      else collect (⟨source, n⟩ :: found) (n + 1) rest
    | none => collect found (n + 1) rest

def ofScript (script : String) : LineMap := ⟨collect [] 1 (Text.lines script.toList)⟩

def last (key : Entry → Nat) (n : Nat) (entries : List Entry) : Option Entry :=
  entries.foldl
    (fun best e =>
      if key e ≤ n ∧ best.all (key · < key e) then some e else best)
    none

def scriptLine (m : LineMap) (source : Nat) : Option Nat :=
  (m.entries.find? (·.source == source)).map (·.script)

/-- The script line of the closest noted source line at or before this one. -/
def resolve (m : LineMap) (source : Nat) : Option Nat :=
  (last (·.source) source m.entries).map (·.script)

/-- The source line of the closest entry at or before this script line. -/
def sourceLine (m : LineMap) (script : Nat) : Option Nat :=
  (last (·.script) script m.entries).map (·.source)

end LineMap

end PLZero
