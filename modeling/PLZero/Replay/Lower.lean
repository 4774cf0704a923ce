import PLZero.Instr.Markers
import PLZero.Instr.Scopes
import PLZero.Replay.JumpCode

/-! Jump code from intermediate code. A forward jump is emitted before its place is known and patched
when the marker that closes it is read. The guard of an `ELSEIF` comes before its marker, so it is
moved behind the jump that ends the branch before it. -/

namespace PLZero.Replay

inductive Frame
  | procedure (skip : Nat)
  /-- In a guarded branch: the jump past it, and the jumps that ended the branches before. -/
  | branch (pending : Nat) (exits : List Nat)
  | lastBranch (exits : List Nat)
  | whileLoop (head : Nat) (exit : Option Nat)
  | forLoop (head : Nat) (counter : VarRef) (exit : Option Nat)
  deriving DecidableEq, Repr

namespace Frame

def procedure? : Frame → Option Nat
  | procedure skip => some skip
  | _ => none

/-- The open branch of an `IF`: its pending jump, if it has a guard, and the earlier exits. -/
def branch? : Frame → Option (Option Nat × List Nat)
  | branch pending exits => some (some pending, exits)
  | lastBranch exits => some (none, exits)
  | _ => none

def while? : Frame → Option (Nat × Option Nat)
  | whileLoop head exit => some (head, exit)
  | _ => none

def for? : Frame → Option (Nat × VarRef × Option Nat)
  | forLoop head counter exit => some (head, counter, exit)
  | _ => none

end Frame

structure Lowering where
  code : Array Exec
  procedures : Array Procedure
  markers : Markers Frame
  scopes : Scopes
  /-- The number of each qualified name, the latest first. -/
  numbers : List (String × Nat)

namespace Lowering

def initial : Lowering := ⟨#[], #[], [], .initial, []⟩

def emit (l : Lowering) (step : Step) (line : Option Nat) : Lowering :=
  { l with code := l.code.push ⟨step, line⟩ }

def patch (l : Lowering) (position : Nat) : Lowering :=
  { l with code := l.code.modify position fun e => { e with step := e.step.withTarget l.code.size } }

def patchAll (l : Lowering) (positions : List Nat) : Lowering := positions.foldl patch l

@[simp] theorem size_emit (l : Lowering) (step : Step) (line : Option Nat) :
    (l.emit step line).code.size = l.code.size + 1 :=
  Array.size_push _

@[simp] theorem size_patch (l : Lowering) (position : Nat) : (l.patch position).code.size = l.code.size :=
  Array.size_modify

theorem patchAll_eq (l : Lowering) (positions : List Nat) :
    l.patchAll positions = { l with code := (l.patchAll positions).code } := by
  induction positions generalizing l with
  | nil => rfl
  | cons p positions ih => exact ih (l.patch p)

@[simp] theorem size_patchAll (l : Lowering) (positions : List Nat) :
    (l.patchAll positions).code.size = l.code.size := by
  induction positions generalizing l with
  | nil => rfl
  | cons p positions ih => exact (ih (l.patch p)).trans (size_patch l p)

def var (l : Lowering) (name : String) (i : Instr) : Except CodeError VarRef :=
  match l.scopes.resolve name with
  | some [] => .ok ⟨none, name⟩
  | some path => .ok ⟨l.numbers.lookup (dotted path), name⟩
  | none => .error (.unknownAt name i)

/-- Where the steps start that leave `need` values before the step at `position`. -/
def guardStart (code : Array Exec) : (need position : Nat) → Option Nat
  | 0, position => some position
  | _ + 1, 0 => none
  | need + 1, position + 1 =>
    match code[position]? with
    | some ⟨.push _, _⟩ | some ⟨.load _, _⟩ => guardStart code need position
    | some ⟨.oper _, _⟩ => guardStart code (need + 2) position
    | _ => none

def openBranch (l : Lowering) (i : Instr) : Except CodeError (Nat × List Nat) := do
  match ← l.markers.top i Frame.branch? with
  | (some pending, exits) => return (pending, exits)
  | (none, _) => .error (.misplacedAt i)

def declare (l : Lowering) (name : String) (i : Instr) (step : VarRef → Step) :
    Except CodeError Lowering := do
  let l := { l with scopes := l.scopes.declare name }
  return l.emit (step (← l.var name i)) i.line

def startProcedure (l : Lowering) (name : String) (i : Instr) : Lowering :=
  let skip := l.code.size
  let l := l.emit (.jump 0) none
  let scopes := l.scopes.enter name
  let qualified := dotted scopes.path
  { l with
    scopes
    numbers := (qualified, l.procedures.size) :: l.numbers
    procedures := l.procedures.push ⟨qualified, l.code.size⟩
    markers := l.markers.push (.procedure skip) i }

def endProcedure (l : Lowering) (i : Instr) : Except CodeError Lowering := do
  let (skip, markers) ← l.markers.pop i Frame.procedure?
  let l := (l.emit .leave none).patch skip
  return { l with markers, scopes := l.scopes.leave }

def startIf (l : Lowering) (i : Instr) : Lowering :=
  let pending := l.code.size
  let l := l.emit (.jumpIfFalse 0) i.line
  { l with markers := l.markers.push (.branch pending []) i }

def elseIf (l : Lowering) (i : Instr) : Except CodeError Lowering := do
  let some start := guardStart l.code 1 l.code.size | .error (.underflowAt i)
  let (pending, exits) ← l.openBranch i
  let guard := l.code.extract start
  let l := { l with code := l.code.shrink start }
  let l := (l.emit (.jump 0) none).patch pending
  let l := { l with code := l.code ++ guard }
  let next := l.code.size
  let l := l.emit (.jumpIfFalse 0) i.line
  return { l with markers := l.markers.replace (.branch next (start :: exits)) }

def elseBranch (l : Lowering) (i : Instr) : Except CodeError Lowering := do
  let (pending, exits) ← l.openBranch i
  let exit := l.code.size
  let l := (l.emit (.jump 0) none).patch pending
  return { l with markers := l.markers.replace (.lastBranch (exit :: exits)) }

def endIf (l : Lowering) (i : Instr) : Except CodeError Lowering := do
  let ((pending, exits), markers) ← l.markers.pop i Frame.branch?
  return { l.patchAll (pending.toList ++ exits) with markers }

def startWhile (l : Lowering) (i : Instr) : Lowering :=
  { l with markers := l.markers.push (.whileLoop l.code.size none) i }

def testWhile (l : Lowering) (i : Instr) : Except CodeError Lowering := do
  let (head, _) ← l.markers.top i Frame.while?
  let test := l.code.size
  let l := l.emit (.jumpIfFalse 0) i.line
  return { l with markers := l.markers.replace (.whileLoop head (some test)) }

def endWhile (l : Lowering) (i : Instr) : Except CodeError Lowering := do
  let ((head, exit), markers) ← l.markers.pop i Frame.while?
  return { (l.emit (.jump head) none).patchAll exit.toList with markers }

def startFor (l : Lowering) (name : String) (i : Instr) : Except CodeError Lowering := do
  let counter ← l.var name i
  let l := l.emit (.store counter) i.line
  return { l with markers := l.markers.push (.forLoop l.code.size counter none) i }

def testFor (l : Lowering) (i : Instr) : Except CodeError Lowering := do
  let (head, counter, _) ← l.markers.top i Frame.for?
  let test := l.code.size
  let l := l.emit (.forTest counter 0) i.line
  return { l with markers := l.markers.replace (.forLoop head counter (some test)) }

def endFor (l : Lowering) (i : Instr) : Except CodeError Lowering := do
  let ((head, counter, exit), markers) ← l.markers.pop i Frame.for?
  return { (l.emit (.forStep counter head) none).patchAll exit.toList with markers }

def call (l : Lowering) (name : String) (i : Instr) : Except CodeError Lowering := do
  match l.numbers.lookup (← l.scopes.procedure name i) with
  | some number => return l.emit (.call number) i.line
  | none => .error (.unknownAt name i)

def instr (l : Lowering) (i : Instr) : Except CodeError Lowering :=
  match i.op with
  | .declare name => l.declare name i .declare
  | .const name value => l.declare name i (.const · value)
  | .load name => do return l.emit (.load (← l.var name i)) i.line
  | .store name => do return l.emit (.store (← l.var name i)) i.line
  | .push value => .ok (l.emit (.push value) i.line)
  | .oper op => .ok (l.emit (.oper op) i.line)
  | .read name => do return l.emit (.read (← l.var name i)) i.line
  | .write => .ok (l.emit .write i.line)
  | .call name => l.call name i
  | .procedureStart name => .ok (l.startProcedure name i)
  | .procedureEnd _ => l.endProcedure i
  | .ifMark => .ok (l.startIf i)
  | .elseIf => l.elseIf i
  | .elseMark => l.elseBranch i
  | .endIf => l.endIf i
  | .whileMark => .ok (l.startWhile i)
  | .doMark => l.testWhile i
  | .endWhile => l.endWhile i
  | .forInit name => l.startFor name i
  | .forTo _ => l.testFor i
  | .endFor _ => l.endFor i

end Lowering

def JumpCode.ofCode (code : List Instr) : Except CodeError JumpCode := do
  let l ← code.foldlM Lowering.instr .initial
  l.markers.finish
  return ⟨l.code, l.procedures⟩

end PLZero.Replay
