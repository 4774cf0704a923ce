import PLZero.Operator
import PLZero.Text.Decimal
import PLZero.Text.Lines
import PLZero.Json

/-! Intermediate code: a flat list of instructions, each with its source line. Expressions are
postfix, and markers alone tell the control structure:

    <cond> IF … (<cond> ELSEIF …)* (ELSE …)? ENDIF
    WHILE <cond> DO … ENDWHILE
    <from> FOR_INIT i <to> FOR_TO i … ENDFOR i -/

namespace PLZero

inductive Op
  | declare (name : String)
  | const (name : String) (value : Int32)
  | load (name : String)
  | store (name : String)
  | push (value : Int32)
  | oper (op : BinOp)
  | call (name : String)
  | read (name : String)
  | write
  | procedureStart (name : String)
  | procedureEnd (name : String)
  | ifMark
  | elseIf
  | elseMark
  | endIf
  | whileMark
  | doMark
  | endWhile
  | forInit (name : String)
  | forTo (name : String)
  | endFor (name : String)
  deriving DecidableEq, Repr, Inhabited

namespace Op

def opcode : Op → String
  | declare _ => "DECLARE"
  | const _ _ => "CONST"
  | load _ => "LOAD"
  | store _ => "STORE"
  | push _ => "PUSH"
  | oper _ => "OPER"
  | call _ => "CALL"
  | read _ => "READ"
  | write => "WRITE"
  | procedureStart _ => "PROCEDURE_START"
  | procedureEnd _ => "PROCEDURE_END"
  | ifMark => "IF"
  | elseIf => "ELSEIF"
  | elseMark => "ELSE"
  | endIf => "ENDIF"
  | whileMark => "WHILE"
  | doMark => "DO"
  | endWhile => "ENDWHILE"
  | forInit _ => "FOR_INIT"
  | forTo _ => "FOR_TO"
  | endFor _ => "ENDFOR"

def operands : Op → List String
  | declare name | load name | store name | call name | read name | procedureStart name
  | procedureEnd name | forInit name | forTo name | endFor name => [name]
  | const name value => [name, Text.ofWord value]
  | push value => [Text.ofWord value]
  | oper op => [op.symbol]
  | write | ifMark | elseIf | elseMark | endIf | whileMark | doMark | endWhile => []

/-- The opcode and its operands, a blank before each operand. -/
def text (op : Op) : String := " ".intercalate (op.opcode :: op.operands)

def ofParts? : List String → Option Op
  | ["DECLARE", name] => some (declare name)
  | ["CONST", name, value] => (Text.readWord value.toList).map (const name)
  | ["LOAD", name] => some (load name)
  | ["STORE", name] => some (store name)
  | ["PUSH", value] => (Text.readWord value.toList).map push
  | ["OPER", symbol] => (BinOp.ofSymbol? symbol).map oper
  | ["CALL", name] => some (call name)
  | ["READ", name] => some (read name)
  | ["WRITE"] => some write
  | ["PROCEDURE_START", name] => some (procedureStart name)
  | ["PROCEDURE_END", name] => some (procedureEnd name)
  | ["IF"] => some ifMark
  | ["ELSEIF"] => some elseIf
  | ["ELSE"] => some elseMark
  | ["ENDIF"] => some endIf
  | ["WHILE"] => some whileMark
  | ["DO"] => some doMark
  | ["ENDWHILE"] => some endWhile
  | ["FOR_INIT", name] => some (forInit name)
  | ["FOR_TO", name] => some (forTo name)
  | ["ENDFOR", name] => some (endFor name)
  | _ => none

def ofText? (s : String) : Option Op := ofParts? ((Text.splitAt ' ' s.toList).map String.ofList)

end Op

structure Instr where
  op : Op
  line : Nat
  deriving DecidableEq, Repr, Inhabited

namespace Instr

/-- A line number, at least four characters wide. -/
def lineColumn (line : Nat) : String :=
  let digits := (Text.ofNat line).toList
  String.ofList (List.replicate (4 - digits.length) ' ' ++ digits)

def text (i : Instr) : String := lineColumn i.line ++ "  " ++ i.op.text

def listing (code : List Instr) : String := String.join (code.map fun i => i.text ++ "\n")

def json (i : Instr) : Json := .obj [("code", .str i.op.text), ("line", .nat i.line)]

end Instr

end PLZero
