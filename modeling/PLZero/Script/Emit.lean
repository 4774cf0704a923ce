import PLZero.Instr.Markers
import PLZero.Instr.Scopes
import PLZero.Script

/-! Scripts from intermediate code. -/

namespace PLZero.Script

/-- A function under construction: how deep its next line is indented, and the expressions not used
yet, the latest first. -/
structure Draft where
  name : String
  note : Option Nat
  nested : Array Function
  body : Array Line
  indent : Nat
  stack : List Folded

namespace Draft

def start (name : String) (note : Option Nat) : Draft := ⟨name, note, #[], #[], 1, []⟩

def add (d : Draft) (s : Statement) (note : Option Nat) : Draft :=
  { d with body := d.body.push ⟨d.indent, s, note⟩ }

def deeper (d : Draft) : Draft := { d with indent := d.indent + 1 }

def shallower (d : Draft) : Draft := { d with indent := d.indent - 1 }

def close (d : Draft) : Draft := d.shallower.add .close none

def function (d : Draft) : Function := ⟨d.name, d.note, d.nested.toList, d.body.toList⟩

end Draft

inductive Frame
  | procedure (outer : Draft)
  | branch (hasElse : Bool)
  | whileLoop (line : Nat)
  | forLoop (counter : String) (start : Folded)

namespace Frame

def procedure? : Frame → Option Draft
  | procedure outer => some outer
  | _ => none

def branch? : Frame → Option Bool
  | branch hasElse => some hasElse
  | _ => none

def while? : Frame → Option Nat
  | whileLoop line => some line
  | _ => none

def for? : Frame → Option (String × Folded)
  | forLoop counter start => some (counter, start)
  | _ => none

end Frame

structure Emitter where
  globals : Array Line
  functions : Array Function
  current : Draft
  markers : Markers Frame
  scopes : Scopes

namespace Emitter

def initial : Emitter := ⟨#[], #[], .start entryName none, [], .initial⟩

def push (e : Emitter) (value : Folded) : Emitter :=
  { e with current := { e.current with stack := value :: e.current.stack } }

def pop (e : Emitter) (i : Instr) : Except CodeError (Folded × Emitter) :=
  match e.current.stack with
  | value :: stack => .ok (value, { e with current := { e.current with stack } })
  | [] => .error (.underflowAt i)

def binding (e : Emitter) (name : String) (i : Instr) : Except CodeError String := do
  discard (e.scopes.binding name i)
  return nameOf name

def add (e : Emitter) (s : Statement) (line : Nat) : Emitter :=
  { e with current := e.current.add s (some line) }

def addOpen (e : Emitter) (s : Statement) (line : Nat) : Emitter :=
  { e with current := (e.current.add s (some line)).deeper }

def close (e : Emitter) : Emitter := { e with current := e.current.close }

/-- Declarations outside procedures stand in front of all functions. -/
def declare (e : Emitter) (name : String) (s : Statement) (i : Instr) : Emitter :=
  let e := { e with scopes := e.scopes.declare name }
  if e.scopes.inProcedure then e.add s i.line
  else { e with globals := e.globals.push ⟨0, s, some i.line⟩ }

def startProcedure (e : Emitter) (name : String) (i : Instr) : Emitter :=
  { e with
    scopes := e.scopes.enter name
    markers := e.markers.push (.procedure e.current) i
    current := .start (nameOf name) (some i.line) }

def endProcedure (e : Emitter) (i : Instr) : Except CodeError Emitter := do
  let (outer, markers) ← e.markers.pop i Frame.procedure?
  let scopes := e.scopes.leave
  let f := e.current.function
  if scopes.inProcedure then
    return { e with markers, scopes, current := { outer with nested := outer.nested.push f } }
  else return { e with markers, scopes, current := outer, functions := e.functions.push f }

def startIf (e : Emitter) (i : Instr) : Except CodeError Emitter := do
  let (cond, e) ← e.pop i
  return { e.addOpen (.openIf cond) i.line with markers := e.markers.push (.branch false) i }

/-- An `ELSEIF` or `ELSE` needs an open branch with a guard. -/
def checkBranch (e : Emitter) (i : Instr) : Except CodeError Unit := do
  if ← e.markers.top i Frame.branch? then .error (.misplacedAt i)

def elseIf (e : Emitter) (i : Instr) : Except CodeError Emitter := do
  e.checkBranch i
  let (cond, e) ← e.pop i
  return { e with current := e.current.shallower }.addOpen (.elseIf cond) i.line

def elseBranch (e : Emitter) (i : Instr) : Except CodeError Emitter := do
  e.checkBranch i
  return { e with
    current := (e.current.shallower.add .openElse none).deeper
    markers := e.markers.replace (.branch true) }

def endIf (e : Emitter) (i : Instr) : Except CodeError Emitter := do
  let (_, markers) ← e.markers.pop i Frame.branch?
  return { e.close with markers }

def startWhile (e : Emitter) (i : Instr) : Emitter :=
  { e with markers := e.markers.push (.whileLoop i.line) i }

def testWhile (e : Emitter) (i : Instr) : Except CodeError Emitter := do
  let line ← e.markers.top i Frame.while?
  let (cond, e) ← e.pop i
  return e.addOpen (.openWhile cond) line

def endWhile (e : Emitter) (i : Instr) : Except CodeError Emitter := do
  let (_, markers) ← e.markers.pop i Frame.while?
  return { e.close with markers }

def startFor (e : Emitter) (name : String) (i : Instr) : Except CodeError Emitter := do
  let counter ← e.binding name i
  let (start, e) ← e.pop i
  return { e with markers := e.markers.push (.forLoop counter start) i }

def testFor (e : Emitter) (i : Instr) : Except CodeError Emitter := do
  let (bound, e) ← e.pop i
  let (counter, start) ← e.markers.top i Frame.for?
  return e.addOpen (.openFor counter start bound) i.line

def endFor (e : Emitter) (i : Instr) : Except CodeError Emitter := do
  let (_, markers) ← e.markers.pop i Frame.for?
  return { e.close with markers }

def instr (e : Emitter) (i : Instr) : Except CodeError Emitter :=
  match i.op with
  | .declare name => .ok (e.declare name (.letVar (nameOf name)) i)
  | .const name value => .ok (e.declare name (.constant (nameOf name) value) i)
  | .load name => do return e.push (.name (← e.binding name i))
  | .push value => .ok (e.push (.const value))
  | .oper op => do
    let (right, e) ← e.pop i
    let (left, e) ← e.pop i
    return e.push (.binary op left right)
  | .store name => do
    let target ← e.binding name i
    let (value, e) ← e.pop i
    return e.add (.assign target value) i.line
  | .call name => do
    discard (e.scopes.procedure name i)
    return e.add (.call (nameOf name)) i.line
  | .read name => do return e.add (.read (← e.binding name i)) i.line
  | .write => do
    let (value, e) ← e.pop i
    return e.add (.write value) i.line
  | .procedureStart name => .ok (e.startProcedure name i)
  | .procedureEnd _ => e.endProcedure i
  | .ifMark => e.startIf i
  | .elseIf => e.elseIf i
  | .elseMark => e.elseBranch i
  | .endIf => e.endIf i
  | .whileMark => .ok (e.startWhile i)
  | .doMark => e.testWhile i
  | .endWhile => e.endWhile i
  | .forInit name => e.startFor name i
  | .forTo _ => e.testFor i
  | .endFor _ => e.endFor i

end Emitter

def ofCode (code : List Instr) : Except CodeError Script := do
  let e ← code.foldlM Emitter.instr .initial
  e.markers.finish
  return ⟨e.globals.toList, e.functions.toList, e.current.function⟩

end PLZero.Script
