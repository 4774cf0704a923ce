import PLZero.Instr.Markers
import PLZero.Instr.Scopes
import PLZero.StackModule

/-! Stack modules from intermediate code, line by line. Expressions are put together on a stack of texts,
so the guard of an `ELSEIF` is at hand when its marker comes. -/

namespace PLZero.StackModule

namespace Writer

structure Draft where
  id : String
  exported : Option String
  /-- The globals that hold its own variables. -/
  saved : Array String
  edits : Array Edit
  /-- The texts of the expressions not used yet, the latest first. -/
  stack : List String

namespace Draft

def initial (id : String) (exported : Option String) : Draft := ⟨id, exported, #[], #[], []⟩

def add (d : Draft) (edits : List Edit) : Draft := { d with edits := d.edits ++ edits }

def lines (d : Draft) : List Line :=
  functionLines d.id d.exported d.saved.toList d.edits.toList

end Draft

inductive Frame
  | procedure
  /-- An `IF` with so many guarded branches, and whether the branch without guard is reached. -/
  | branch (guards : Nat) (last : Bool)
  | whileLoop (number : Nat)
  | forLoop (number : Nat) (counter : String)

namespace Frame

def procedure? : Frame → Option Unit
  | procedure => some ()
  | _ => none

def branch? : Frame → Option (Nat × Bool)
  | branch guards last => some (guards, last)
  | _ => none

def while? : Frame → Option Nat
  | whileLoop number => some number
  | _ => none

def for? : Frame → Option (Nat × String)
  | forLoop number counter => some (number, counter)
  | _ => none

end Frame

end Writer

structure Writer where
  globals : Array Global
  functions : Array Writer.Draft
  entry : Writer.Draft
  procedures : List Writer.Draft
  markers : Markers Writer.Frame
  scopes : Scopes
  loops : Nat

namespace Writer

def initial : Writer := ⟨#[], #[], .initial entryId (some entryExport), [], [], .initial, 0⟩

/-- The function that lines go to. -/
def current (w : Writer) : Draft := w.procedures.headD w.entry

def withCurrent (w : Writer) (d : Draft) : Writer :=
  match w.procedures with
  | _ :: outer => { w with procedures := d :: outer }
  | [] => { w with entry := d }

section

variable (w : Writer) (d : Draft)

@[simp]
theorem globals_withCurrent : (w.withCurrent d).globals = w.globals := by
  unfold withCurrent
  split <;> rfl

@[simp]
theorem functions_withCurrent : (w.withCurrent d).functions = w.functions := by
  unfold withCurrent
  split <;> rfl

@[simp]
theorem markers_withCurrent : (w.withCurrent d).markers = w.markers := by
  unfold withCurrent
  split <;> rfl

@[simp]
theorem scopes_withCurrent : (w.withCurrent d).scopes = w.scopes := by
  unfold withCurrent
  split <;> rfl

@[simp]
theorem loops_withCurrent : (w.withCurrent d).loops = w.loops := by
  unfold withCurrent
  split <;> rfl

end

def push (w : Writer) (text : String) : Writer :=
  w.withCurrent { w.current with stack := text :: w.current.stack }

def pop (w : Writer) (i : Instr) : Except CodeError (String × Writer) :=
  match w.current.stack with
  | text :: stack => .ok (text, w.withCurrent { w.current with stack })
  | [] => .error (.underflowAt i)

def add (w : Writer) (edits : List Edit) : Writer := w.withCurrent (w.current.add edits)

def save (w : Writer) (id : String) : Writer :=
  w.withCurrent { w.current with saved := w.current.saved.push id }

def declare (w : Writer) (name : String) (constant : Option Int32) : Writer :=
  let scopes := w.scopes.declare name
  let id := qualify scopes.path name
  let exported := if scopes.inProcedure || name == entryExport then none else some name
  let w := if constant.isNone && scopes.inProcedure then w.save id else w
  { w with scopes, globals := w.globals.push ⟨id, exported, constant⟩ }

def startProcedure (w : Writer) (name : String) (i : Instr) : Writer :=
  let scopes := w.scopes.enter name
  { w with
    scopes
    procedures := .initial (dotted scopes.path) none :: w.procedures
    markers := w.markers.push .procedure i }

def endProcedure (w : Writer) (i : Instr) : Except CodeError Writer := do
  let (_, markers) ← w.markers.pop i Frame.procedure?
  return { w with
    markers
    functions := w.functions ++ w.procedures.take 1
    procedures := w.procedures.drop 1
    scopes := w.scopes.leave }

def openGuard (cond : String) : List Edit := [.opening ("(if " ++ cond), .opening "(then"]

def startIf (w : Writer) (i : Instr) : Except CodeError Writer := do
  let (cond, w) ← w.pop i
  return { w.add (openGuard cond) with markers := w.markers.push (.branch 1 false) i }

/-- An `ELSEIF` or `ELSE` belongs to an `IF` without `ELSE`. -/
def continueIf (w : Writer) (i : Instr) (isLast : Bool) : Except CodeError Writer := do
  let (guards, last) ← w.markers.top i Frame.branch?
  if last then .error (.misplacedAt i)
  else
    let frame := if isLast then .branch guards true else .branch (guards + 1) false
    return { w with markers := w.markers.replace frame }

def elseIf (w : Writer) (i : Instr) : Except CodeError Writer := do
  let w ← w.continueIf i false
  let (cond, w) ← w.pop i
  return w.add (.closing :: .opening "(else" :: openGuard cond)

def elseBranch (w : Writer) (i : Instr) : Except CodeError Writer := do
  return (← w.continueIf i true).add [.closing, .opening "(else"]

/-- Each guard has opened two levels, its conditional and the branch in it. -/
def endIf (w : Writer) (i : Instr) : Except CodeError Writer := do
  let ((guards, _), markers) ← w.markers.pop i Frame.branch?
  return { w.add (List.replicate (2 * guards) .closing) with markers }

def behindLabel (number : Nat) : String := "$brk" ++ Text.ofNat number

def againLabel (number : Nat) : String := "$loop" ++ Text.ofNat number

/-- Opens a loop inside the block that its exit branches out of. -/
def openLoop (number : Nat) : List Edit :=
  [.opening ("(block " ++ behindLabel number), .opening ("(loop " ++ againLabel number)]

def closeLoop (number : Nat) : List Edit :=
  [.line ("(br " ++ againLabel number ++ ")"), .closing, .closing]

def startLoop (w : Writer) (frame : Nat → Frame) (i : Instr) : Writer :=
  let number := w.loops + 1
  { w.add (openLoop number) with markers := w.markers.push (frame number) i, loops := number }

def branchIfText (label cond : String) : String := "(br_if " ++ label ++ " " ++ cond ++ ")"

def testWhile (w : Writer) (i : Instr) : Except CodeError Writer := do
  let number ← w.markers.top i Frame.while?
  let (cond, w) ← w.pop i
  return w.add [.line (branchIfText (behindLabel number) ("(i32.eqz " ++ cond ++ ")"))]

def endWhile (w : Writer) (i : Instr) : Except CodeError Writer := do
  let (number, markers) ← w.markers.pop i Frame.while?
  return { w.add (closeLoop number) with markers }

def startFor (w : Writer) (name : String) (i : Instr) : Except CodeError Writer := do
  let counter ← w.scopes.binding name i
  let (start, w) ← w.pop i
  return (w.add [.line (setText counter start)]).startLoop (.forLoop · counter) i

def testFor (w : Writer) (i : Instr) : Except CodeError Writer := do
  let (number, counter) ← w.markers.top i Frame.for?
  let (bound, w) ← w.pop i
  let past := operText .ge (getText counter) bound
  return w.add [.line (branchIfText (behindLabel number) past)]

def endFor (w : Writer) (i : Instr) : Except CodeError Writer := do
  let ((number, counter), markers) ← w.markers.pop i Frame.for?
  let next := setText counter (operText .add (getText counter) (constText 1))
  return { w.add (.line next :: closeLoop number) with markers }

def instr (w : Writer) (i : Instr) : Except CodeError Writer :=
  match i.op with
  | .declare name => .ok (w.declare name none)
  | .const name value => .ok (w.declare name (some value))
  | .load name => do return w.push (getText (← w.scopes.binding name i))
  | .push value => .ok (w.push (constText value))
  | .oper op => do
    let (right, w) ← w.pop i
    let (left, w) ← w.pop i
    return w.push (operText op left right)
  | .store name => do
    let global ← w.scopes.binding name i
    let (value, w) ← w.pop i
    return w.add [.line (setText global value)]
  | .call name => do return w.add [.line ("(call $" ++ (← w.scopes.procedure name i) ++ ")")]
  | .read name => do
    let global ← w.scopes.binding name i
    return w.add [.line (setText global ("(call " ++ Hook.read.id ++ ")"))]
  | .write => do
    let (value, w) ← w.pop i
    return w.add [.line ("(call " ++ Hook.write.id ++ " " ++ value ++ ")")]
  | .procedureStart name => .ok (w.startProcedure name i)
  | .procedureEnd _ => w.endProcedure i
  | .ifMark => w.startIf i
  | .elseIf => w.elseIf i
  | .elseMark => w.elseBranch i
  | .endIf => w.endIf i
  | .whileMark => .ok (w.startLoop .whileLoop i)
  | .doMark => w.testWhile i
  | .endWhile => w.endWhile i
  | .forInit name => w.startFor name i
  | .forTo _ => w.testFor i
  | .endFor _ => w.endFor i

def ofCode (code : List Instr) : Except CodeError Writer := do
  let w ← code.foldlM instr initial
  w.markers.finish
  return w

def lines (w : Writer) : List Line :=
  moduleLines w.globals.toList (w.functions.toList.map Draft.lines ++ [w.entry.lines])

def text (w : Writer) : String := String.join (w.lines.map Line.text)

/-- What a verbose run reports: expressions of the entry function that nothing used. -/
def trace (w : Writer) : List String :=
  let unused := w.entry.stack.length
  if unused = 0 then []
  else [s!"codegen: {unused} unused value(s) left on the expression stack"]

end Writer

end PLZero.StackModule
