import PLZero.Script.Emit
import PLZero.StackModule.Emit

/-! The two kinds of text that code is lowered to. -/

namespace PLZero

inductive Target
  | stackModule | script
  deriving DecidableEq, Repr

namespace Target

def name : Target → String
  | stackModule => "stackModule"
  | script => "script"

def ofName? : String → Option Target
  | "stackModule" | "stack-module" | "wat" => some stackModule
  | "script" | "js" => some script
  | _ => none

def unknownMessage (name : String) : String := s!"unknown target kind: {name}"

def render (code : List Instr) : Target → Except CodeError (String × List String)
  | stackModule => do
    let w ← StackModule.Writer.ofCode code
    return (w.text, w.trace)
  | script => do return ((← Script.ofCode code).text, [])

end Target

end PLZero
