import PLZero.Hook
import PLZero.Instr.Folded
import PLZero.Text.Decimal
import PLZero.Text.Lines

/-! Scripts: programs as JavaScript text. A statement line ends in a comment with its source line.
Procedures are nested functions, so every call has locals of its own. -/

namespace PLZero.Script

def entryName : String := "main"

def reserved : List String :=
  ["await", "break", "case", "catch", "class", "const", "continue", "debugger", "default", "delete",
   "do", "else", "enum", "export", "extends", "false", "finally", "for", "function", "if", "import",
   "in", "instanceof", "let", "new", "null", "return", "static", "super", "switch", "this", "throw",
   "true", "try", "typeof", "var", "void", "while", "with", "yield", "arguments", "eval", "undefined",
   "NaN", "Infinity", "Math"]

/-- The script's name for a source name: one that means something else there gets an underscore. -/
def nameOf (name : String) : String :=
  if name ∈ reserved || name ∈ [Hook.read.name, Hook.write.name, entryName] then name ++ "_" else name

/-- The text of an operation on two integers; that of a comparison is a truth value. -/
def operation (op : BinOp) (left right : String) : String :=
  match op with
  | .add | .sub | .div => "((" ++ left ++ " " ++ op.symbol ++ " " ++ right ++ ") | 0)"
  | .mul => "Math.imul(" ++ left ++ ", " ++ right ++ ")"
  | .eq => left ++ " === " ++ right
  | .ne => left ++ " !== " ++ right
  | .lt | .le | .gt | .ge => left ++ " " ++ op.symbol ++ " " ++ right

/-- An expression as an integer: truth values become one and zero. -/
def intText : Folded → String
  | .const v => if v < 0 then "(" ++ Text.ofWord v ++ ")" else Text.ofWord v
  | .name name => name
  | .binary op left right =>
    let text := operation op (intText left) (intText right)
    if op.level = .relational then "(" ++ text ++ " ? 1 : 0)" else text

def conditionText : Folded → String
  | .binary op left right => operation op (intText left) (intText right)
  | e => intText e

inductive Statement
  | letVar (name : String)
  | constant (name : String) (value : Int32)
  | assign (name : String) (value : Folded)
  | call (name : String)
  | read (name : String)
  | write (value : Folded)
  | openIf (cond : Folded)
  | elseIf (cond : Folded)
  | openElse
  | openWhile (cond : Folded)
  | openFor (counter : String) (start bound : Folded)
  | close
  deriving DecidableEq, Repr

def Statement.text : Statement → String
  | .letVar name => "let " ++ name ++ " = 0;"
  | .constant name value => "const " ++ name ++ " = " ++ Text.ofWord value ++ ";"
  | .assign name value => name ++ " = " ++ intText value ++ ";"
  | .call name => name ++ "();"
  | .read name => name ++ " = " ++ Hook.read.name ++ "();"
  | .write value => Hook.write.name ++ "(" ++ intText value ++ ");"
  | .openIf cond => "if (" ++ conditionText cond ++ ") \x7b"
  | .elseIf cond => "\x7d else if (" ++ conditionText cond ++ ") \x7b"
  | .openElse => "\x7d else \x7b"
  | .openWhile cond => "while (" ++ conditionText cond ++ ") \x7b"
  | .openFor counter start bound =>
    "for (" ++ counter ++ " = " ++ intText start ++ "; " ++ counter ++ " < " ++ intText bound ++ "; "
      ++ counter ++ " = (" ++ counter ++ " + 1) | 0) \x7b"
  | .close => "\x7d"

def noteText (note : Option Nat) : String := note.elim "" fun line => " // " ++ Text.ofNat line

/-- A statement, how deep it is indented, and the source line noted behind it. -/
structure Line where
  indent : Nat
  statement : Statement
  note : Option Nat
  deriving DecidableEq, Repr

def Line.text (l : Line) : String :=
  "".pushn ' ' (2 * l.indent) ++ l.statement.text ++ noteText l.note

/-- A function; the functions nested in it stand before its body. -/
structure Function where
  name : String
  note : Option Nat
  nested : List Function
  body : List Line

/-- A line of a text two blanks deeper. A name may hold line ends; then every line of it is moved. -/
def deeper (line : String) : List String :=
  if line.any fun c => c = '\n' || c = '\r' then
    (Text.lines (line.toList ++ ['\n'])).map fun l => "  " ++ String.ofList l
  else ["  " ++ line]

mutual

def Function.lines : Function → List String
  | ⟨name, note, nested, body⟩ =>
    ("function " ++ name ++ "() \x7b" ++ noteText note) :: Function.nestedLines nested
      ++ body.map Line.text ++ ["\x7d"]

def Function.nestedLines : List Function → List String
  | [] => []
  | f :: rest => f.lines.flatMap deeper ++ Function.nestedLines rest

end

end Script

structure Script where
  globals : List Script.Line
  functions : List Script.Function
  entry : Script.Function

namespace Script

def header : String := "// PL/0 program. The host provides read() and write(value)."

def lines (s : Script) : List String :=
  [header] ++ s.globals.map Line.text ++ s.functions.flatMap Function.lines ++ s.entry.lines

def text (s : Script) : String := "\n".intercalate s.lines ++ "\n"

end Script

end PLZero
